import Hartwatch.Proofs.Expr.Grammar

/-! Where the tokens of a tree are cut. A parenthesized tree is taken out of its parentheses, a
binary one is cut at its root, and any other has no place to cut. Scans are followed with
arbitrary tokens behind the tree, so that a tree's parts can be read one after the other. -/

namespace Hartwatch.Expr

/-- A list of tokens spells a tree, wherever the tokens stand. -/
def Yields (t : Tree) (ts : List Token) : Prop :=
  ts.map Token.lexeme = t.yield

namespace Yields

variable {t l r : Tree} {o : Operator} {ts : List Token}

theorem leaf {m : Lexeme} (h : ts.map Token.lexeme = [m]) :
    ∃ x, ts = [x] ∧ x.kind = m.kind ∧ x.text = .ofList m.text := by
  obtain ⟨x, rest, rfl, rfl, hrest⟩ := List.map_eq_cons_iff.mp h
  obtain rfl := List.map_eq_nil_iff.mp hrest
  exact ⟨x, rfl, rfl, by simp [Token.lexeme]⟩

theorem parens_inv (h : Yields (.parens t) ts) :
    ∃ x us y, ts = x :: us ++ [y] ∧ x.kind = .leftParen ∧ Yields t us ∧ y.kind = .rightParen := by
  obtain ⟨front, back, rfl, hfront, hback⟩ := List.map_eq_append_iff.mp h
  obtain ⟨x, us, rfl, hx, hus⟩ := List.map_eq_cons_iff.mp hfront
  obtain ⟨y, rfl, hy, -⟩ := leaf hback
  exact ⟨x, us, y, rfl, congrArg Lexeme.kind hx, hus, hy⟩

theorem cons_inv {m : Lexeme} (h : ts.map Token.lexeme = m :: t.yield) :
    ∃ x us, ts = x :: us ∧ x.kind = m.kind ∧ Yields t us := by
  obtain ⟨x, us, rfl, hx, hus⟩ := List.map_eq_cons_iff.mp h
  exact ⟨x, us, rfl, congrArg Lexeme.kind hx, hus⟩

theorem binary_inv (h : Yields (.binary o l r) ts) :
    ∃ ls x rs, ts = ls ++ x :: rs ∧ Yields l ls ∧ x.kind = o.lexeme.kind ∧ Yields r rs := by
  obtain ⟨ls, back, rfl, hls, hback⟩ := List.map_eq_append_iff.mp h
  obtain ⟨x, rs, rfl, hx, hrs⟩ := List.map_eq_cons_iff.mp hback
  exact ⟨ls, x, rs, rfl, hls, congrArg Lexeme.kind hx, hrs⟩

theorem ne_nil (h : Yields t ts) : ts ≠ [] := by
  rintro rfl
  cases t <;> simp [Yields, Tree.yield] at h

end Yields

theorem Operator.precedence?_kind (o : Operator) : o.lexeme.kind.precedence? = some o.level := by
  cases o <;> rfl

/-- An operand's tokens in front of others leave the depth of parentheses as it is, so an outer
pair closes behind them. -/
theorem closing?_append {t : Tree} {ts : List Token} (h : Yields t ts) (depth : Nat)
    (rest : List Token) : closing? depth (ts ++ rest) = (closing? depth rest).map (ts ++ ·) := by
  induction t generalizing ts depth rest with
  | decimal | hex | register =>
    obtain ⟨x, rfl, hx, -⟩ := Yields.leaf h
    simp [closing?, hx]
  | parens t ih =>
    obtain ⟨x, us, y, rfl, hx, hus, hy⟩ := h.parens_inv
    simp [closing?, hx, hy, ih hus, Function.comp_def]
  | negate t ih | deref t ih =>
    obtain ⟨x, us, rfl, hx, hus⟩ := Yields.cons_inv h
    simp [closing?, hx, ih hus, Function.comp_def]
  | binary o l r ihl ihr =>
    obtain ⟨ls, x, rs, rfl, hls, hx, hrs⟩ := h.binary_inv
    have hmid : closing? depth (x :: (rs ++ rest)) =
        (closing? depth rest).map fun us => x :: (rs ++ us) := by
      cases o <;> simp [closing?, hx, Operator.lexeme, ihr hrs, Function.comp_def]
    simp [ihl hls, hmid, Function.comp_def]

theorem enclosed?_parens {t : Tree} {us : List Token} {x y : Token} (hx : x.kind = .leftParen)
    (h : Yields t us) (hy : y.kind = .rightParen) : enclosed? (x :: us ++ [y]) = some us := by
  simp [enclosed?, hx, closing?_append h, closing?, hy]

theorem enclosed?_append {t : Tree} {ts rest : List Token} (h : Yields t ts) (hrest : rest ≠ []) :
    enclosed? (ts ++ rest) = none := by
  induction t generalizing ts rest with
  | decimal | hex | register =>
    obtain ⟨x, rfl, hx, -⟩ := Yields.leaf h
    simp [enclosed?, hx]
  | parens t ih =>
    obtain ⟨x, us, y, rfl, hx, hus, hy⟩ := h.parens_inv
    simp [enclosed?, hx, closing?_append hus, closing?, hy, hrest]
  | negate t ih | deref t ih =>
    obtain ⟨x, us, rfl, hx, hus⟩ := Yields.cons_inv h
    simp [enclosed?, hx]
  | binary o l r ihl ihr =>
    obtain ⟨ls, x, rs, rfl, hls, -, -⟩ := h.binary_inv
    rw [List.append_assoc]
    exact ihl hls (by simp)

theorem closing?_eq_some {depth : Nat} {ts us : List Token} (h : closing? depth ts = some us) :
    ∃ y, ts = us ++ [y] ∧ y.kind = .rightParen := by
  induction ts generalizing depth us with
  | nil => simp [closing?] at h
  | cons t ts ih =>
    have hlater : ∀ d, (closing? d ts).map (t :: ·) = some us →
        ∃ y, t :: ts = us ++ [y] ∧ y.kind = .rightParen := by
      intro d hd
      obtain ⟨vs, hvs, rfl⟩ := Option.map_eq_some_iff.mp hd
      obtain ⟨y, rfl, hy⟩ := ih hvs
      exact ⟨y, rfl, hy⟩
    unfold closing? at h
    split at h
    · exact hlater _ h
    · next hk =>
      split at h
      · next he =>
        obtain rfl : [] = us := by simpa using h
        exact ⟨t, by simpa using he, hk⟩
      · simp at h
    · exact hlater _ h
    · exact hlater _ h

theorem enclosed?_eq_some {ts us : List Token} (h : enclosed? ts = some us) :
    ∃ x y, ts = x :: us ++ [y] ∧ x.kind = .leftParen ∧ y.kind = .rightParen := by
  cases ts with
  | nil => simp [enclosed?] at h
  | cons x ts =>
    rw [enclosed?] at h
    split at h
    · next hx =>
      obtain ⟨y, rfl, hy⟩ := closing?_eq_some h
      exact ⟨x, y, rfl, hx, hy⟩
    · simp at h

/-! ### The scan for the operator to apply last -/

/-- Puts tokens in front of what a scan has seen, without a new place to cut. -/
def SplitScan.prepend (ts : List Token) (s : SplitScan) : SplitScan :=
  { s with split? := s.split?.map fun p => { p with left := ts ++ p.left } }

namespace SplitScan

theorem prepend_prepend (xs ys : List Token) (s : SplitScan) :
    (s.prepend ys).prepend xs = s.prepend (xs ++ ys) := by
  obtain ⟨d, _ | p⟩ := s <;> simp [prepend]

theorem shift_eq_prepend (x : Token) (s : SplitScan) : s.shift x = s.prepend [x] :=
  rfl

/-- All places to cut that a scan knows are operators of a tighter line of the grammar. -/
def Above (level : Nat) (s : SplitScan) : Prop :=
  ∀ p ∈ s.split?, level < p.precedence

@[simp]
theorem above_prepend {level : Nat} {s : SplitScan} {ts : List Token} :
    (s.prepend ts).Above level ↔ s.Above level := by
  obtain ⟨d, _ | p⟩ := s <;> simp [Above, prepend]

theorem Above.anti {m n : Nat} {s : SplitScan} (h : s.Above n) (hmn : m ≤ n) : s.Above m :=
  fun p hp => hmn.trans_lt (h p hp)

@[simp]
theorem depth_prepend (ts : List Token) (s : SplitScan) : (s.prepend ts).depth = s.depth :=
  rfl

theorem offer_of_none {x : Token} (h : x.kind.precedence? = none) (rest : List Token)
    (s : SplitScan) : s.offer x rest = s.prepend [x] := by
  simp [offer, h, shift_eq_prepend]

theorem offer_of_above {x : Token} {level : Nat} {s : SplitScan}
    (h : x.kind.precedence? = some level) (hs : s.Above level) (rest : List Token) :
    s.offer x rest = ⟨s.depth, some ⟨[], x, level, rest⟩⟩ := by
  obtain ⟨d, _ | p⟩ := s
  · simp [offer, h]
  · have hp : level < p.precedence := hs p rfl
    simp [offer, h, hp]

theorem offer_of_not_above {x : Token} {level : Nat} {s : SplitScan}
    (h : x.kind.precedence? = some level) (hs : ¬ s.Above level) (rest : List Token) :
    s.offer x rest = s.prepend [x] := by
  obtain ⟨d, _ | p⟩ := s
  · simp [Above] at hs
  · have hp : ¬ level < p.precedence := by simpa [Above] using hs
    simp [offer, h, hp, shift_eq_prepend]

theorem Above.offer {x : Token} {m n : Nat} {s : SplitScan} (h : s.Above m)
    (hx : x.kind.precedence? = some n) (hmn : m < n) (rest : List Token) :
    (s.offer x rest).Above m := by
  by_cases hs : s.Above n
  · rw [offer_of_above hx hs]
    simpa [Above] using hmn
  · rw [offer_of_not_above hx hs]
    exact above_prepend.mpr h

theorem depth_offer (x : Token) (rest : List Token) (s : SplitScan) :
    (s.offer x rest).depth = s.depth := by
  unfold offer
  split
  · rfl
  · split <;> rfl
  · rfl

end SplitScan

theorem scanSplit_cons {ts : List Token} {s : SplitScan} (h : scanSplit ts = .ok s) (x : Token) :
    scanSplit (x :: ts) =
      match x.kind, s.depth with
      | .rightParen, d => .ok { s.shift x with depth := d + 1 }
      | .leftParen, 0 => .error .unmatchedParenthesis
      | .leftParen, d + 1 => .ok { s.shift x with depth := d }
      | _, 0 => .ok (s.offer x ts)
      | _, _ + 1 => .ok (s.shift x) := by
  rw [scanSplit, h]
  rfl

theorem scanSplit_cons_of_none {ts : List Token} {s : SplitScan} (h : scanSplit ts = .ok s)
    {x : Token} (hx : x.kind.precedence? = none) (hl : x.kind ≠ .leftParen)
    (hr : x.kind ≠ .rightParen) : scanSplit (x :: ts) = .ok (s.prepend [x]) := by
  rw [scanSplit_cons h]
  split
  · exact absurd ‹_› hr
  · exact absurd ‹_› hl
  · exact absurd ‹_› hl
  · rw [SplitScan.offer_of_none hx]
  · rfl

theorem scanSplit_operator {ts : List Token} {s : SplitScan} (h : scanSplit ts = .ok s) {x : Token}
    {o : Operator} (hx : x.kind = o.lexeme.kind) :
    scanSplit (x :: ts) = .ok (if s.depth = 0 then s.offer x ts else s.prepend [x]) := by
  have hne : x.kind ≠ .leftParen ∧ x.kind ≠ .rightParen := by
    rw [hx]
    cases o <;> simp [Operator.lexeme]
  rw [scanSplit_cons h]
  split
  · exact absurd ‹_› hne.2
  · exact absurd ‹_› hne.1
  · exact absurd ‹_› hne.1
  · next hd _ _ => rw [if_pos hd]
  · next hd _ _ => rw [if_neg (by omega)]; rfl

theorem scanSplit_parens {us rest : List Token} {x y : Token} {s : SplitScan}
    (hx : x.kind = .leftParen) (hy : y.kind = .rightParen) (hrest : scanSplit rest = .ok s)
    (hinner : ∀ s', scanSplit (y :: rest) = .ok s' → s'.depth ≠ 0 →
      scanSplit (us ++ y :: rest) = .ok (s'.prepend us)) :
    scanSplit (x :: us ++ [y] ++ rest) = .ok (s.prepend (x :: us ++ [y])) := by
  have hclose : scanSplit (y :: rest) = .ok { s.prepend [y] with depth := s.depth + 1 } := by
    simp [scanSplit_cons hrest, hy, SplitScan.shift_eq_prepend]
  have hopen := scanSplit_cons (hinner _ hclose (by simp)) x
  simp only [hx, SplitScan.depth_prepend] at hopen
  rw [List.append_assoc, List.cons_append, List.singleton_append, hopen]
  exact congrArg Except.ok ((SplitScan.prepend_prepend [x] _ _).trans
    (SplitScan.prepend_prepend (x :: us) [y] s))

/-- A tree's tokens are passed over if the scan is inside of parentheses, if the tree is no
binary one, or if an operator at least as loose as its root is already known. -/
theorem scanSplit_append {t : Tree} {ts rest : List Token} {s : SplitScan} (ht : t.Grammatical)
    (h : Yields t ts) (hrest : scanSplit rest = .ok s)
    (hs : s.depth = 0 → t.level < 4 → ¬ s.Above t.level) :
    scanSplit (ts ++ rest) = .ok (s.prepend ts) := by
  induction t generalizing ts rest s with
  | decimal | hex | register =>
    obtain ⟨x, rfl, hx, -⟩ := Yields.leaf h
    exact scanSplit_cons_of_none hrest (by rw [hx]; rfl) (by simp [hx]) (by simp [hx])
  | parens t ih =>
    obtain ⟨x, us, y, rfl, hx, hus, hy⟩ := h.parens_inv
    exact scanSplit_parens hx hy hrest fun s' hs' hd => ih ht hus hs' fun h0 => absurd h0 hd
  | negate t ih | deref t ih =>
    obtain ⟨x, us, rfl, hx, hus⟩ := Yields.cons_inv h
    have hinner := ih ht.2 hus hrest (by simp [ht.1])
    have := scanSplit_cons_of_none hinner (x := x) (by rw [hx]; rfl) (by simp [hx]) (by simp [hx])
    simpa [SplitScan.prepend_prepend] using this
  | binary o l r ihl ihr =>
    obtain ⟨ls, x, rs, rfl, hls, hx, hrs⟩ := h.binary_inv
    obtain ⟨hol, hor, hl, hr⟩ := ht
    have hroot : s.depth = 0 → ¬ s.Above o.level := fun hd =>
      hs hd (by simp only [Tree.level]; cases o <;> simp [Operator.level])
    have hright := ihr hr hrs hrest fun hd _ ha => hroot hd (ha.anti hor.le)
    have hmid : scanSplit (x :: (rs ++ rest)) = .ok (s.prepend (x :: rs)) := by
      rw [scanSplit_operator hright hx]
      split
      · next hd =>
        rw [SplitScan.offer_of_not_above (hx ▸ o.precedence?_kind) (by simpa using hroot hd)]
        exact congrArg _ (SplitScan.prepend_prepend [x] rs s)
      · exact congrArg _ (SplitScan.prepend_prepend [x] rs s)
    have hleft := ihl hl hls hmid fun hd _ ha =>
      hroot hd ((SplitScan.above_prepend.mp ha).anti hol)
    simpa [SplitScan.prepend_prepend] using hleft

theorem scanSplit_above {t : Tree} {ts rest : List Token} {s : SplitScan} {level : Nat}
    (ht : t.Grammatical) (h : Yields t ts) (hrest : scanSplit rest = .ok s) (hd : s.depth = 0)
    (hlevel : level < t.level) (hs : s.Above level) :
    ∃ s', scanSplit (ts ++ rest) = .ok s' ∧ s'.depth = 0 ∧ s'.Above level := by
  induction t generalizing ts rest s with
  | binary o l r ihl ihr =>
    obtain ⟨ls, x, rs, rfl, hls, hx, hrs⟩ := h.binary_inv
    obtain ⟨hol, hor, hl, hr⟩ := ht
    obtain ⟨s₁, h₁, hd₁, hs₁⟩ := ihr hr hrs hrest hd (hlevel.trans hor) hs
    have h₂ := scanSplit_operator h₁ hx
    rw [if_pos hd₁] at h₂
    rw [List.append_assoc, List.cons_append]
    exact ihl hl hls h₂ ((SplitScan.depth_offer _ _ _).trans hd₁) (hlevel.trans_le hol)
      (hs₁.offer (hx ▸ o.precedence?_kind) hlevel _)
  | _ =>
    exact ⟨_, scanSplit_append ht h hrest fun _ h4 => absurd h4 (by simp [Tree.level]), hd,
      SplitScan.above_prepend.mpr hs⟩

/-- A binary tree is cut at its root, if only tighter operators are known behind it. -/
theorem scanSplit_root {o : Operator} {l r : Tree} {ls rs rest : List Token} {x : Token}
    {s : SplitScan} (ht : (Tree.binary o l r).Grammatical) (hl : Yields l ls)
    (hx : x.kind = o.lexeme.kind) (hr : Yields r rs) (hrest : scanSplit rest = .ok s)
    (hd : s.depth = 0) (hs : s.Above o.level) :
    scanSplit (ls ++ x :: (rs ++ rest)) = .ok ⟨0, some ⟨ls, x, o.level, rs ++ rest⟩⟩ := by
  obtain ⟨hol, hor, hgl, hgr⟩ := ht
  obtain ⟨s₁, h₁, hd₁, hs₁⟩ := scanSplit_above hgr hr hrest hd hor hs
  have h₂ := scanSplit_operator h₁ hx
  rw [if_pos hd₁, SplitScan.offer_of_above (hx ▸ o.precedence?_kind) hs₁, hd₁] at h₂
  rw [scanSplit_append hgl hl h₂ fun _ _ ha => (ha _ rfl).not_ge hol]
  simp [SplitScan.prepend]

theorem scanSplit_nil : scanSplit [] = .ok ⟨0, none⟩ :=
  rfl

theorem scanSplit_binary {o : Operator} {l r : Tree} {ls rs : List Token} {x : Token}
    (ht : (Tree.binary o l r).Grammatical) (hl : Yields l ls) (hx : x.kind = o.lexeme.kind)
    (hr : Yields r rs) : scanSplit (ls ++ x :: rs) = .ok ⟨0, some ⟨ls, x, o.level, rs⟩⟩ := by
  have hroot := scanSplit_root ht hl hx hr scanSplit_nil rfl (by simp [SplitScan.Above])
  rwa [List.append_nil] at hroot

theorem split?_binary {o : Operator} {l r : Tree} {ls rs : List Token} {x : Token}
    (ht : (Tree.binary o l r).Grammatical) (hl : Yields l ls) (hx : x.kind = o.lexeme.kind)
    (hr : Yields r rs) : split? (ls ++ x :: rs) = .ok (some ⟨ls, x, o.level, rs⟩) := by
  rw [split?, scanSplit_binary ht hl hx hr]
  rfl

theorem split?_unary {t : Tree} {ts : List Token} (ht : t.Grammatical) (h : Yields t ts)
    (hlevel : t.level = 4) : split? ts = .ok none := by
  have hpass := scanSplit_append ht h scanSplit_nil fun _ h4 => absurd hlevel h4.ne
  rw [List.append_nil] at hpass
  rw [split?, hpass]
  rfl

/-- What a cut says about its place: the list falls apart there, the operator has the cut's
level, and behind it stand only tighter operators outside of parentheses. -/
theorem scanSplit_eq_ok {ts : List Token} {s : SplitScan} {p : Split} (h : scanSplit ts = .ok s)
    (hp : s.split? = some p) :
    ts = p.left ++ p.operator :: p.right ∧ p.operator.kind.precedence? = some p.precedence ∧
      ∃ s', scanSplit p.right = .ok s' ∧ s'.depth = 0 ∧ s'.Above p.precedence := by
  induction ts generalizing s p with
  | nil =>
    obtain rfl : ⟨0, none⟩ = s := by simpa [scanSplit] using h
    simp at hp
  | cons x ts ih =>
    cases hts : scanSplit ts with
    | error e => simp [scanSplit, hts, bind, Except.bind] at h
    | ok s₁ =>
      have hshift : (s₁.shift x).split? = some p →
          x :: ts = p.left ++ p.operator :: p.right ∧
            p.operator.kind.precedence? = some p.precedence ∧
            ∃ s', scanSplit p.right = .ok s' ∧ s'.depth = 0 ∧ s'.Above p.precedence := by
        intro hx
        obtain ⟨q, hq, rfl⟩ := Option.map_eq_some_iff.mp hx
        obtain ⟨hcut, hprec, hbehind⟩ := ih hts hq
        exact ⟨by rw [hcut]; rfl, hprec, hbehind⟩
      rw [scanSplit_cons hts] at h
      split at h
      · exact hshift (by rw [← hp, ← Except.ok.inj h])
      · simp at h
      · exact hshift (by rw [← hp, ← Except.ok.inj h])
      · next hd _ _ =>
        rw [← Except.ok.inj h] at hp
        cases hx : x.kind.precedence? with
        | none => exact hshift (by rw [← hp, SplitScan.offer_of_none hx]; rfl)
        | some n =>
          by_cases ha : s₁.Above n
          · obtain rfl : _ = p := by simpa [SplitScan.offer_of_above hx ha] using hp
            exact ⟨rfl, hx, s₁, hts, hd, ha⟩
          · exact hshift (by rw [← hp, SplitScan.offer_of_not_above hx ha]; rfl)
      · exact hshift (by rw [← hp, ← Except.ok.inj h])

end Hartwatch.Expr
