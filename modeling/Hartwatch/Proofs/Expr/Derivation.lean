import Hartwatch.Proofs.Expr.Evaluation
import Hartwatch.Proofs.Outcome

/-! Derivations of tokens. Every rendering of a tree is cut into the tree's tokens, and tokens that
have a value spell a tree: each way through the evaluation is a production of the grammar. -/

namespace Hartwatch.Expr

variable {t u : Tree} {ts : List Token} {ctx : Context}

/-! ### From trees to texts -/

theorem Tree.wellFormed_of_mem_yield (ht : t.Grammatical) : ∀ l ∈ t.yield, l.WellFormed := by
  induction t with
  | decimal ds =>
    have hds : ∀ c ∈ ds, isDecimalDigit c := fun c hc => by
      rw [isDecimalDigit_eq]; exact ht.2 c hc
    simpa [Tree.yield] using .decimal ht.1 hds
  | hex x ds =>
    have hds : ∀ c ∈ ds, isHexDigit c := fun c hc => by rw [isHexDigit_eq]; exact ht.2.2 c hc
    simpa [Tree.yield] using .hex ht.1 ht.2.1 hds
  | register cs =>
    have hcs : ∀ c ∈ cs, isRegisterChar c := fun c hc => by
      rw [isRegisterChar_eq]; exact ht.2 c hc
    simpa [Tree.yield] using .register ht.1 hcs
  | parens t ih =>
    intro l hl
    have hl : (l = ⟨.leftParen, ['(']⟩ ∨ l ∈ t.yield) ∨ l = ⟨.rightParen, [')']⟩ := by
      simpa [Tree.yield, or_assoc] using hl
    rcases hl with (rfl | hl) | rfl
    · exact .sign rfl
    · exact ih ht l hl
    · exact .sign rfl
  | negate t ih | deref t ih =>
    intro l hl
    rcases List.mem_cons.mp hl with rfl | hl
    · exact .sign rfl
    · exact ih ht.2 l hl
  | binary o l r ihl ihr =>
    intro m hm
    rcases List.mem_append.mp hm with hm | hm
    · exact ihl ht.2.2.1 m hm
    · rcases List.mem_cons.mp hm with rfl | hm
      · cases o <;> exact .sign rfl
      · exact ihr ht.2.2.2 m hm

theorem Tree.alternates_yield_append (t : Tree) (ls : List Lexeme) :
    Alternates false (t.yield ++ ls) ↔ Alternates true ls := by
  induction t generalizing ls with
  | decimal | hex | register =>
    simp [Tree.yield, Alternates, Token.Kind.startsOperand, Token.Kind.endsOperand]
  | parens t ih =>
    simp [Tree.yield, Alternates, Token.Kind.startsOperand, Token.Kind.endsOperand, ih]
  | negate t ih | deref t ih =>
    simp [Tree.yield, Alternates, Token.Kind.startsOperand, Token.Kind.endsOperand, ih]
  | binary o l r ihl ihr =>
    cases o <;> simp [Tree.yield, Alternates, Token.Kind.startsOperand, Token.Kind.endsOperand,
      Operator.lexeme, ihl, ihr]

theorem Tree.Renders.derives {text : String} (h : t.Renders text) (ht : t.Grammatical) :
    t.Derives text := by
  have ha : Alternates false t.yield := by
    simpa [Alternates] using (t.alternates_yield_append []).mpr trivial
  exact ⟨ht, tokenize_of_spaced h (Tree.wellFormed_of_mem_yield ht) ha⟩

/-! ### From tokens to trees -/

theorem exists_leaf {x : Token} {v : Word} (hx : x.lexeme.WellFormed)
    (h : operand ctx x = .ok v) :
    ∃ t : Tree, t.Grammatical ∧ t.height = 1 ∧ t.yield = [x.lexeme] := by
  obtain ⟨k, text, position⟩ := x
  simp only [Token.lexeme] at hx ⊢
  generalize text.toList = cs at hx ⊢
  cases hx with
  | sign hk => cases k <;> simp [Token.Kind.isLeaf, operand] at hk h
  | @register cs hne hcs =>
    refine ⟨.register cs, ⟨hne, fun c hc => ?_⟩, rfl, rfl⟩
    rw [← isRegisterChar_eq]
    exact hcs c hc
  | @hex m ds hm hne hds =>
    refine ⟨.hex m ds, ⟨hm, hne, fun c hc => ?_⟩, rfl, rfl⟩
    rw [← isHexDigit_eq]
    exact hds c hc
  | decimal hne hds =>
    refine ⟨.decimal _, ⟨hne, fun c hc => ?_⟩, rfl, rfl⟩
    rw [← isDecimalDigit_eq]
    exact hds c hc

theorem lexeme_sign {x : Token} (hx : x.lexeme.WellFormed) (h : x.kind.isLeaf = false) :
    x.lexeme = ⟨x.kind, x.kind.sign⟩ := by
  obtain ⟨k, text, position⟩ := x
  simp only [Token.lexeme] at hx h ⊢
  generalize text.toList = cs at hx ⊢
  cases hx with
  | sign => rfl
  | register | hex | decimal => simp [Token.Kind.isLeaf] at h

theorem exists_operator {x : Token} {n : Nat} (hx : x.lexeme.WellFormed)
    (h : x.kind.precedence? = some n) : ∃ o : Operator, x.lexeme = o.lexeme ∧ o.level = n := by
  have hleaf : x.kind.isLeaf = false := by
    generalize x.kind = k at h
    cases k <;> simp [Token.Kind.precedence?, Token.Kind.isLeaf] at h ⊢
  have ho : ∃ o : Operator, ⟨x.kind, x.kind.sign⟩ = o.lexeme := by
    generalize x.kind = k at h
    cases k with
    | plus => exact ⟨.plus, rfl⟩
    | minus => exact ⟨.minus, rfl⟩
    | star => exact ⟨.star, rfl⟩
    | slash => exact ⟨.slash, rfl⟩
    | equal => exact ⟨.equal, rfl⟩
    | notEqual => exact ⟨.notEqual, rfl⟩
    | and => exact ⟨.and, rfl⟩
    | _ => simp [Token.Kind.precedence?] at h
  obtain ⟨o, ho⟩ := ho
  have hprec := o.precedence?_kind
  rw [← ho, h] at hprec
  exact ⟨o, (lexeme_sign hx hleaf).trans ho, (Option.some.inj hprec).symm⟩

theorem yields_parens {us : List Token} (hts : ∀ x ∈ ts, x.lexeme.WellFormed)
    (henc : enclosed? ts = some us) (h : Yields t us) : Yields (.parens t) ts := by
  obtain ⟨x, y, rfl, hx, hy⟩ := enclosed?_eq_some henc
  have hopen := lexeme_sign (hts x (by simp)) (by simp [hx, Token.Kind.isLeaf])
  have hclose := lexeme_sign (hts y (by simp)) (by simp [hy, Token.Kind.isLeaf])
  have hus : us.map Token.lexeme = t.yield := h
  rw [hx] at hopen
  rw [hy] at hclose
  simp [Yields, Tree.yield, hopen, hclose, hus, Token.Kind.sign]

theorem split?_eq_some {p : Split} (h : split? ts = .ok (some p)) :
    ∃ s, scanSplit ts = .ok s ∧ s.depth = 0 ∧ s.split? = some p := by
  cases hs : scanSplit ts with
  | error e => simp [split?, hs, bind, Except.bind] at h
  | ok s =>
    by_cases hd : s.depth = 0
    · refine ⟨s, rfl, hd, ?_⟩
      simpa [split?, hs, hd, bind, Except.bind, pure, Except.pure] using h
    · simp [split?, hs, hd, bind, Except.bind] at h

/-- What the scan cuts is a binary tree of the grammar: its left side has no looser root, or the
cut would be there, and its right side only tighter ones. -/
theorem exists_binary {p : Split} {l r : Tree} (hts : ∀ x ∈ ts, x.lexeme.WellFormed)
    (hp : split? ts = .ok (some p)) (hgl : l.Grammatical) (hl : Yields l p.left)
    (hgr : r.Grammatical) (hr : Yields r p.right) :
    ∃ o, (Tree.binary o l r).Grammatical ∧ Yields (.binary o l r) ts := by
  obtain ⟨s, hs, -, hcut⟩ := split?_eq_some hp
  obtain ⟨rfl, hprec, s', hs', hd', ha'⟩ := scanSplit_eq_ok hs hcut
  obtain ⟨o, ho, hlevel⟩ := exists_operator (hts p.operator (by simp)) hprec
  have hkind : p.operator.kind = o.lexeme.kind := congrArg Lexeme.kind ho
  rw [← hlevel] at hprec ha'
  have hright : o.level < r.level := by
    cases r with
    | binary o' l' r' =>
      obtain ⟨ls, x, rs, hrs, hls, hx, hrs'⟩ := hr.binary_inv
      have hroot := scanSplit_binary hgr hls hx hrs'
      rw [← hrs, hs'] at hroot
      obtain rfl := Except.ok.inj hroot
      exact ha' _ rfl
    | _ => cases o <;> simp [Operator.level, Tree.level]
  have hleft : o.level ≤ l.level := by
    by_contra hloose
    cases l with
    | binary o' l' r' =>
      obtain ⟨ls, x, rs, hls, hls', hx, hrs'⟩ := hl.binary_inv
      have hoffer := scanSplit_operator hs' hkind
      rw [if_pos hd', SplitScan.offer_of_above hprec ha'] at hoffer
      have hroot := scanSplit_root hgl hls' hx hrs' hoffer hd'
        (by simpa [SplitScan.Above, Tree.level] using hloose)
      rw [hls, List.append_assoc, List.cons_append, hroot] at hs
      obtain rfl := Except.ok.inj hs
      have hsame : ls = p.left := congrArg Split.left (Option.some.inj hcut)
      simpa [← hsame] using congrArg List.length hls
    | _ => exact hloose (by cases o <;> simp [Operator.level, Tree.level])
  refine ⟨o, ⟨hleft, hright, hgl, hgr⟩, ?_⟩
  have hl' : p.left.map Token.lexeme = l.yield := hl
  have hr' : p.right.map Token.lexeme = r.yield := hr
  simp [Yields, Tree.yield, ho, hl', hr']

/-- Behind a unary operator stands no binary tree, or the cut would be at its root. -/
theorem level_of_split?_none {x : Token} (hx : x.kind = .negate ∨ x.kind = .deref)
    (hp : split? (x :: ts) = .ok none) (ht : t.Grammatical) (h : Yields t ts) : t.level = 4 := by
  have hpass : x.kind.precedence? = none ∧ x.kind ≠ .leftParen ∧ x.kind ≠ .rightParen := by
    rcases hx with hx | hx <;> simp [hx, Token.Kind.precedence?]
  cases t with
  | binary o l r =>
    obtain ⟨ls, y, rs, rfl, hls, hy, hrs⟩ := h.binary_inv
    have hroot := scanSplit_binary ht hls hy hrs
    have hcons := scanSplit_cons_of_none hroot hpass.1 hpass.2.1 hpass.2.2
    simp [split?, hcons, bind, Except.bind, pure, Except.pure, SplitScan.prepend] at hp
  | _ => rfl

theorem exists_sign {x : Token} {n : Nat} {v : Word} (hx : x.lexeme.WellFormed) (hne : ts ≠ [])
    (henc : enclosed? (x :: ts) = none) (hp : split? (x :: ts) = .ok none)
    (h : evalTokens ctx (n + 1) (x :: ts) = .ok v)
    (ih : ∀ w, evalTokens ctx n ts = .ok w →
      ∃ t : Tree, t.Grammatical ∧ Yields t ts ∧ t.height ≤ n) :
    ∃ t : Tree, t.Grammatical ∧ Yields t (x :: ts) ∧ t.height ≤ n + 1 := by
  rw [evalTokens_sign hne henc hp] at h
  split at h
  · next hk =>
    obtain ⟨w, hw, -⟩ := bind_eq_ok h
    obtain ⟨t, ht, hy, hh⟩ := ih w hw
    have hsign := lexeme_sign hx (by rw [hk]; rfl)
    refine ⟨.negate t, ⟨level_of_split?_none (.inl hk) hp ht hy, ht⟩, ?_, Nat.succ_le_succ hh⟩
    rw [Yields, List.map_cons, hsign, hk, hy]
    rfl
  · next hk =>
    obtain ⟨w, hw, -⟩ := bind_eq_ok h
    obtain ⟨t, ht, hy, hh⟩ := ih w hw
    have hsign := lexeme_sign hx (by rw [hk]; rfl)
    refine ⟨.deref t, ⟨level_of_split?_none (.inr hk) hp ht hy, ht⟩, ?_, Nat.succ_le_succ hh⟩
    rw [Yields, List.map_cons, hsign, hk, hy]
    rfl
  · cases h

/-- Tokens that have a value spell a tree that nests no deeper than they may. -/
theorem exists_tree {n : Nat} {v : Word} (hts : ∀ x ∈ ts, x.lexeme.WellFormed)
    (h : evalTokens ctx n ts = .ok v) :
    ∃ t : Tree, t.Grammatical ∧ Yields t ts ∧ t.height ≤ n := by
  induction n generalizing ts v with
  | zero => cases h
  | succ n ih =>
    obtain _ | ⟨x, _ | ⟨y, ts⟩⟩ := ts
    · cases h
    · obtain ⟨t, ht, hh, hy⟩ := exists_leaf (hts x (by simp)) h
      exact ⟨t, ht, hy.symm, by omega⟩
    · have hlen : 2 ≤ (x :: y :: ts).length := by simp
      cases henc : enclosed? (x :: y :: ts) with
      | some us =>
        rw [evalTokens_enclosed henc] at h
        have hus : ∀ z ∈ us, z.lexeme.WellFormed := by
          obtain ⟨a, b, hab, -, -⟩ := enclosed?_eq_some henc
          exact fun z hz => hts z (by simp [hab, hz])
        obtain ⟨t, ht, hy, hh⟩ := ih hus h
        exact ⟨.parens t, ht, yields_parens hts henc hy, Nat.succ_le_succ hh⟩
      | none =>
        cases hp : split? (x :: y :: ts) with
        | error e => simp [evalTokens, henc, hp, bind, Except.bind] at h
        | ok p? =>
          cases p? with
          | none =>
            exact exists_sign (hts x (by simp)) (by simp) henc hp h fun w hw =>
              ih (fun z hz => hts z (by simp [hz])) hw
          | some p =>
            rw [evalTokens_split hlen henc hp] at h
            obtain ⟨a, ha, h⟩ := bind_eq_ok h
            obtain ⟨b, hb, -⟩ := bind_eq_ok h
            obtain ⟨s, hs, -, hcut⟩ := split?_eq_some hp
            have hparts := (scanSplit_eq_ok hs hcut).1
            obtain ⟨l, hgl, hl, hhl⟩ := ih (fun z hz => hts z (by simp [hparts, hz])) ha
            obtain ⟨r, hgr, hr, hhr⟩ := ih (fun z hz => hts z (by simp [hparts, hz])) hb
            obtain ⟨o, ho, hy⟩ := exists_binary hts hp hgl hl hgr hr
            exact ⟨.binary o l r, ho, hy, Nat.succ_le_succ (max_le hhl hhr)⟩

end Hartwatch.Expr
