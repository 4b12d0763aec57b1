import Hartwatch.Proofs.Expr.Parentheses

/-! Where an error points that says a token was not expected. Tokens with no operator to cut at
start with an operand, a number, a register or a pair of parentheses, and the error points at the
token right behind it, which starts a second one. -/

namespace Hartwatch.Expr

variable {ts us : List Token} {x y z : Token}

/-! ### Lists that are cut out stand together -/

theorem Part.isInfix (h : Part ts us) : us <:+: ts := by
  cases h with
  | inner henc =>
    obtain ⟨x, y, rfl, -, -⟩ := enclosed?_eq_some henc
    exact ⟨[x], [y], rfl⟩
  | left _ _ hp =>
    obtain ⟨s, hs, -, hcut⟩ := split?_eq_some hp
    rw [(scanSplit_eq_ok hs hcut).1]
    exact (List.prefix_append _ _).isInfix
  | right _ _ hp =>
    obtain ⟨s, hs, -, hcut⟩ := split?_eq_some hp
    rw [(scanSplit_eq_ok hs hcut).1]
    exact ((List.suffix_cons _ _).trans (List.suffix_append _ _)).isInfix
  | operand => exact (List.suffix_cons _ _).isInfix

theorem Reaches.isInfix (h : Reaches ts us) : us <:+: ts := by
  induction h with
  | refl => exact List.infix_rfl
  | tail _ hpart ih => exact hpart.isInfix.trans ih

theorem unary_of_behind {text : String} (h : tokenize text = .ok ts) (hyz : [y, z] <:+: ts)
    (hy : y.kind.endsOperand) : z.kind ≠ .negate ∧ z.kind ≠ .deref := by
  obtain ⟨front, back, rfl⟩ := hyz
  have hlexes := tokenize_eq_ok_iff.mp h
  rw [show front ++ [y, z] ++ back = (front ++ [y]) ++ z :: back by simp] at hlexes
  obtain ⟨afterOperand, hafter, hfits⟩ := hlexes.fits
  have hends : EndsOperand (front ++ [y]) := by
    simpa [EndsOperand] using y.kind.endsOperand_iff.mp hy
  rw [hafter.mpr hends] at hfits
  constructor <;> intro hz <;> rw [hz] at hfits <;> cases hfits

/-! ### Tokens with nowhere to cut -/

/-- A scan that found nowhere to cut has found nowhere before, and passed no operator outside of
parentheses. -/
theorem scanSplit_uncut {s : SplitScan} (h : scanSplit (x :: ts) = .ok s) (hs : s.split? = none) :
    ∃ s', scanSplit ts = .ok s' ∧ s'.split? = none ∧
      (s'.depth = 0 → x.kind.precedence? = none) := by
  obtain ⟨s', hs', -⟩ := bind_eq_ok h
  refine ⟨s', hs', ?_⟩
  have hshift : (s'.shift x).split? = none → s'.split? = none := by simp [SplitScan.shift]
  rw [scanSplit_cons hs'] at h
  split at h
  · next hx =>
    obtain rfl := Except.ok.inj h
    exact ⟨hshift hs, fun _ => by rw [hx]; rfl⟩
  · cases h
  · next hx _ =>
    obtain rfl := Except.ok.inj h
    exact ⟨hshift hs, fun _ => by rw [hx]; rfl⟩
  · obtain rfl := Except.ok.inj h
    cases hx : x.kind.precedence? with
    | none =>
      rw [SplitScan.offer_of_none hx] at hs
      exact ⟨hshift hs, fun _ => rfl⟩
    | some n =>
      by_cases ha : s'.Above n
      · rw [SplitScan.offer_of_above hx ha] at hs
        cases hs
      · rw [SplitScan.offer_of_not_above hx ha] at hs
        exact absurd (fun p hp => by simp [hshift hs] at hp) ha
  · next d hd _ _ =>
    obtain rfl := Except.ok.inj h
    exact ⟨hshift hs, fun hd0 => by omega⟩

theorem precedence?_of_uncut {front back : List Token} {s : SplitScan}
    (h : scanSplit (front ++ z :: back) = .ok s) (hs : s.split? = none)
    (hback : closings back = openings back) : z.kind.precedence? = none := by
  induction front generalizing s with
  | nil =>
    obtain ⟨s', hs', -, hz⟩ := scanSplit_uncut h hs
    rcases scanSplit_cases back with ⟨s'', hs'', hdepth, -⟩ | ⟨herr, -⟩
    · obtain rfl := Except.ok.inj (hs'.symm.trans hs'')
      exact hz (by omega)
    · cases hs'.symm.trans herr
  | cons x front ih =>
    obtain ⟨s', hs', hnone, -⟩ := scanSplit_uncut h hs
    exact ih hs' hnone

theorem kind_of_uncut {front back : List Token} (h : split? (front ++ z :: back) = .ok none)
    (hfront : closings front = openings front) :
    z.kind ≠ .rightParen ∧ z.kind.precedence? = none := by
  have hall := balanced_of_split? h
  have hr : z.kind ≠ .rightParen := by
    intro hz
    have hle := hall.closings_le (front ++ [z]) ⟨back, by simp⟩
    rw [closings_append, openings_append] at hle
    have : openings [z] = 0 ∧ closings [z] = 1 := count_close hz []
    omega
  refine ⟨hr, ?_⟩
  by_cases hl : z.kind = .leftParen
  · rw [hl]
    rfl
  · have hback : closings back = openings back := by
      have heq := hall.closings_eq
      rw [closings_append, openings_append] at heq
      have := count_pass hl hr back
      omega
    obtain ⟨s, hs, hcut⟩ := bind_eq_ok h
    split at hcut
    · exact precedence?_of_uncut hs (Except.ok.inj hcut) hback
    · cases hcut

theorem Token.Kind.startsOperand_of_uncut {k : Token.Kind}
    (h : k ≠ .rightParen ∧ k.precedence? = none) (hunary : k ≠ .negate ∧ k ≠ .deref) :
    k ∈ [.decimal, .hex, .register, .leftParen] := by
  obtain ⟨hr, hp⟩ := h
  obtain ⟨hnegate, hderef⟩ := hunary
  cases k <;> first | decide | contradiction

/-! ### The second operand -/

theorem secondOperand?_open (hx : x.kind = .leftParen) (depth : Nat) (ts : List Token) :
    secondOperand? depth (x :: ts) = secondOperand? (depth + 1) ts := by
  simp [secondOperand?, hx]

theorem secondOperand?_close (hx : x.kind = .rightParen) (depth : Nat) (ts : List Token) :
    secondOperand? (depth + 2) (x :: ts) = secondOperand? (depth + 1) ts := by
  simp [secondOperand?, hx]

theorem secondOperand?_last (hx : x.kind = .rightParen) (ts : List Token) :
    secondOperand? 1 (x :: z :: ts) = some z := by
  simp [secondOperand?, hx]

theorem secondOperand?_pass (hl : x.kind ≠ .leftParen) (hr : x.kind ≠ .rightParen) (depth : Nat)
    (ts : List Token) : secondOperand? (depth + 1) (x :: ts) = secondOperand? (depth + 1) ts := by
  simp [secondOperand?]

theorem secondOperand?_leaf (hl : x.kind ≠ .leftParen) (hr : x.kind ≠ .rightParen)
    (ts : List Token) : secondOperand? 0 (x :: z :: ts) = some z := by
  simp [secondOperand?]

/-- Where the parenthesis that is open before some tokens is closed among them but not by the
last one, the second operand is right behind its partner. -/
theorem secondOperand?_parens {depth : Nat} (h : closing? depth ts = none)
    (hall : closings ts = openings ts + depth + 1) :
    ∃ front y z back, ts = front ++ y :: z :: back ∧ y.kind = .rightParen ∧
      closings (front ++ [y]) = openings (front ++ [y]) + depth + 1 ∧
      secondOperand? (depth + 1) ts = some z := by
  induction ts generalizing depth with
  | nil => cases hall
  | cons x ts ih =>
    have hlater : ∀ d, closing? d ts = none →
        secondOperand? (depth + 1) (x :: ts) = secondOperand? (d + 1) ts →
        (∀ vs, openings (x :: vs) + depth + closings vs = closings (x :: vs) + openings vs + d) →
        ∃ front y z back, x :: ts = front ++ y :: z :: back ∧ y.kind = .rightParen ∧
          closings (front ++ [y]) = openings (front ++ [y]) + depth + 1 ∧
          secondOperand? (depth + 1) (x :: ts) = some z := by
      intro d hd hsecond hfirst
      have hts := hfirst ts
      obtain ⟨front, y, z, back, rfl, hy, hfront, hz⟩ := ih hd (by omega)
      have := hfirst (front ++ [y])
      refine ⟨x :: front, y, z, back, rfl, hy, ?_, hsecond.trans hz⟩
      rw [List.cons_append]
      omega
    by_cases hl : x.kind = .leftParen
    · rw [closing?_open hl, Option.map_eq_none_iff] at h
      exact hlater _ h (secondOperand?_open hl _ _) fun vs => by have := count_open hl vs; omega
    · by_cases hr : x.kind = .rightParen
      · have hclose := count_close hr
        cases depth with
        | zero =>
          obtain _ | ⟨z, ts⟩ := ts
          · rw [closing?_last hr, if_pos rfl] at h
            cases h
          · have : openings [x] = 0 ∧ closings [x] = 1 := hclose []
            exact ⟨[], x, z, ts, rfl, hr, by rw [List.nil_append]; omega,
              secondOperand?_last hr ts⟩
        | succ depth =>
          rw [closing?_close hr, Option.map_eq_none_iff] at h
          exact hlater _ h (secondOperand?_close hr _ _) fun vs => by have := hclose vs; omega
      · rw [closing?_pass hl hr, Option.map_eq_none_iff] at h
        exact hlater _ h (secondOperand?_pass hl hr _ _) fun vs => by
          have := count_pass hl hr vs
          omega

theorem Juxtaposed.exists_secondOperand? (h : Juxtaposed ts) :
    ∃ front y z back, ts = front ++ y :: z :: back ∧ y.kind.endsOperand ∧
      closings (front ++ [y]) = openings (front ++ [y]) ∧ secondOperand? 0 ts = some z := by
  obtain _ | ⟨x, _ | ⟨z, ts⟩⟩ := ts
  · cases h.two_le
  · exact absurd h.two_le (by simp)
  · have hbal := balanced_of_split? h.split?
    have hx : x.kind ≠ .rightParen ∧ x.kind.precedence? = none :=
      @kind_of_uncut x [] (z :: ts) h.split? rfl
    by_cases hl : x.kind = .leftParen
    · have henc := h.enclosed?
      rw [Expr.enclosed?, if_pos hl] at henc
      have hopen := count_open hl
      obtain ⟨front, y, z', back, hts, hy, hfront, hz⟩ :=
        secondOperand?_parens henc (by have := hopen (z :: ts); have := hbal.closings_eq; omega)
      refine ⟨x :: front, y, z', back, by rw [hts]; rfl, by rw [hy]; rfl, ?_, ?_⟩
      · have := hopen (front ++ [y])
        rw [List.cons_append]
        omega
      · rwa [secondOperand?_open hl]
    · have hpass : openings [x] = 0 ∧ closings [x] = 0 := count_pass hl hx.1 []
      have hleaf : x.kind.endsOperand := by
        have := Token.Kind.startsOperand_of_uncut hx (h.unsigned x rfl)
        rw [Token.Kind.endsOperand_iff]
        simp only [List.mem_cons, hl, List.not_mem_nil, or_false] at this ⊢
        tauto
      refine ⟨[], x, z, ts, rfl, hleaf, ?_, secondOperand?_leaf hl hx.1 ts⟩
      rw [List.nil_append, hpass.1, hpass.2]

theorem Raises.juxtaposed_of_unexpected {ctx : Context} {position : Nat}
    (h : Raises ctx ts (.unexpected position)) :
    Juxtaposed ts ∧ ∀ z, secondOperand? 0 ts = some z → z.position = position := by
  cases h with
  | operand hx => rcases operand_eq_error hx with he | he | he <;> cases he
  | parenthesis _ _ hp => cases split?_eq_error hp
  | operator _ _ _ ha => rcases apply_eq_error ha with he | ⟨he, -⟩ <;> cases he
  | juxtaposed hjux => exact ⟨hjux, fun z hz => by rw [hz]; rfl⟩

theorem Juxtaposed.evalTokens (h : Juxtaposed ts) (hz : secondOperand? 0 ts = some z)
    (ctx : Context) (n : Nat) :
    evalTokens ctx (n + 1) ts = .error (.unexpected z.position) := by
  cases ts with
  | nil => cases h.two_le
  | cons x ts =>
    obtain ⟨hnegate, hderef⟩ := h.unsigned x rfl
    have hne : ts ≠ [] := by
      rintro rfl
      exact absurd h.two_le (by simp)
    rw [evalTokens_sign hne h.enclosed? h.split?, hz]
    split
    · contradiction
    · contradiction
    · rfl

/-- An error that points somewhere in tokens points at a second operand right behind a first one.
The evaluator always has one to point at, and the operators that it applies are binary ones. -/
theorem evaluate_unexpected_juxtaposed {text : String} (h : tokenize text = .ok ts) :
    (∀ ctx position, evaluate ctx text = .error (.unexpected position) →
      ∃ i y z, ts[i]? = some y ∧ ts[i + 1]? = some z ∧ z.position = position ∧
        y.kind ∈ [.decimal, .hex, .register, .rightParen] ∧
        z.kind ∈ [.decimal, .hex, .register, .leftParen]) ∧
    (∀ us, Juxtaposed us → ∃ z, secondOperand? 0 us = some z ∧
      ∀ ctx n, evalTokens ctx (n + 1) us = .error (.unexpected z.position)) ∧
    ∀ us p a b, split? us = .ok (some p) → apply p.operator.kind a b ≠ .error .missingOperand := by
  refine ⟨fun ctx position herr => ?_, fun us hjux => ?_, fun us p a b hp hmissing => ?_⟩
  · rw [evaluate_of_tokenize h] at herr
    split at herr
    · cases herr
    · rcases exists_raises herr with he | ⟨us, hreach, hraise⟩
      · cases he
      · obtain ⟨hjux, hposition⟩ := hraise.juxtaposed_of_unexpected
        obtain ⟨front, y, z, back, rfl, hy, hfront, hz⟩ := hjux.exists_secondOperand?
        have hsplit := hjux.split?
        rw [show front ++ y :: z :: back = (front ++ [y]) ++ z :: back by simp] at hsplit
        have hbeside : [y, z] <:+: ts :=
          List.IsInfix.trans ⟨front, back, by simp⟩ hreach.isInfix
        have hzkind := Token.Kind.startsOperand_of_uncut (kind_of_uncut hsplit hfront)
          (unary_of_behind h hbeside hy)
        obtain ⟨before, behind, rfl⟩ := hbeside
        exact ⟨before.length, y, z, by simp, by simp, hposition z hz,
          y.kind.endsOperand_iff.mp hy, hzkind⟩
  · obtain ⟨-, -, z, -, -, -, -, hz⟩ := hjux.exists_secondOperand?
    exact ⟨z, hz, hjux.evalTokens hz⟩
  · obtain ⟨s, hs, -, hcut⟩ := split?_eq_some hp
    have hprec := (scanSplit_eq_ok hs hcut).2.1
    rcases apply_eq_error hmissing with he | ⟨-, hnone⟩
    · cases he
    · cases hprec.symm.trans hnone

/-- Two levels down, behind a register and in front of a parenthesis. -/
theorem evaluate_unexpected_juxtaposed_nested :
    let ts : List Token := [⟨.decimal, "2", 0⟩, ⟨.star, "*", 1⟩, ⟨.leftParen, "(", 2⟩,
      ⟨.negate, "-", 3⟩, ⟨.leftParen, "(", 4⟩, ⟨.decimal, "1", 5⟩, ⟨.rightParen, ")", 6⟩,
      ⟨.plus, "+", 8⟩, ⟨.register, "$a0", 10⟩, ⟨.leftParen, "(", 13⟩, ⟨.decimal, "3", 14⟩,
      ⟨.rightParen, ")", 15⟩, ⟨.rightParen, ")", 16⟩]
    tokenize "2*(-(1) + $a0(3))" = .ok ts ∧ ∀ ctx,
      evaluate ctx "2*(-(1) + $a0(3))" = .error (.unexpected 13) ∧
        ∃ i y z, ts[i]? = some y ∧ ts[i + 1]? = some z ∧ z.position = 13 ∧
          y.kind ∈ [.decimal, .hex, .register, .rightParen] ∧
          z.kind ∈ [.decimal, .hex, .register, .leftParen] := by
  intro ts
  have hts : tokenize "2*(-(1) + $a0(3))" = .ok ts := by decide
  have herr (ctx : Context) : evaluate ctx "2*(-(1) + $a0(3))" = .error (.unexpected 13) :=
    (evaluate_of_tokenize hts).trans rfl
  exact ⟨hts, fun ctx => ⟨herr ctx, (evaluate_unexpected_juxtaposed hts).1 ctx 13 (herr ctx)⟩⟩

end Hartwatch.Expr
