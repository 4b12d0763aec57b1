import Hartwatch.Proofs.Expr.Failures
import Hartwatch.Proofs.Expr.Positions
import Mathlib.Data.List.Infix

/-! Which texts have an unmatched parenthesis. The scans from the left and from the right agree on
which lists of tokens are balanced, and each list that is cut out of a balanced one is balanced
again, so that the parentheses are settled before anything is evaluated. -/

namespace Hartwatch.Expr

variable {ctx : Context} {ts us : List Token} {x : Token}

/-! ### Balance -/

def openings (ts : List Token) : Nat :=
  ts.countP fun t => t.kind = .leftParen

def closings (ts : List Token) : Nat :=
  ts.countP fun t => t.kind = .rightParen

@[simp]
theorem openings_nil : openings [] = 0 :=
  rfl

@[simp]
theorem closings_nil : closings [] = 0 :=
  rfl

@[simp]
theorem openings_append (ts us : List Token) : openings (ts ++ us) = openings ts + openings us :=
  List.countP_append

@[simp]
theorem closings_append (ts us : List Token) : closings (ts ++ us) = closings ts + closings us :=
  List.countP_append

theorem count_open (hx : x.kind = .leftParen) (ts : List Token) :
    openings (x :: ts) = openings ts + 1 ∧ closings (x :: ts) = closings ts :=
  ⟨List.countP_cons_of_pos (by simpa using hx), List.countP_cons_of_neg (by simp [hx])⟩

theorem count_close (hx : x.kind = .rightParen) (ts : List Token) :
    openings (x :: ts) = openings ts ∧ closings (x :: ts) = closings ts + 1 :=
  ⟨List.countP_cons_of_neg (by simp [hx]), List.countP_cons_of_pos (by simpa using hx)⟩

theorem count_pass (hl : x.kind ≠ .leftParen) (hr : x.kind ≠ .rightParen) (ts : List Token) :
    openings (x :: ts) = openings ts ∧ closings (x :: ts) = closings ts :=
  ⟨List.countP_cons_of_neg (by simpa using hl), List.countP_cons_of_neg (by simpa using hr)⟩

/-- No prefix closes more parentheses than it opens, and in all as many are closed as opened. -/
structure Balanced (ts : List Token) : Prop where
  closings_le : ∀ us, us <+: ts → closings us ≤ openings us
  closings_eq : closings ts = openings ts

instance (ts : List Token) : Decidable (Balanced ts) :=
  decidable_of_iff
    ((∀ us ∈ ts.inits, closings us ≤ openings us) ∧ closings ts = openings ts)
    ⟨fun h => ⟨fun us hus => h.1 us ((List.mem_inits _ _).mpr hus), h.2⟩,
      fun h => ⟨fun us hus => h.closings_le us ((List.mem_inits _ _).mp hus), h.closings_eq⟩⟩

theorem balanced_iff_suffixes : Balanced ts ↔
    (∀ us, us <:+ ts → openings us ≤ closings us) ∧ closings ts = openings ts := by
  constructor
  · intro h
    refine ⟨?_, h.closings_eq⟩
    rintro us ⟨front, rfl⟩
    have hfront := h.closings_le front (List.prefix_append _ _)
    have hall := h.closings_eq
    rw [closings_append, openings_append] at hall
    omega
  · rintro ⟨hsuffix, hall⟩
    refine ⟨?_, hall⟩
    rintro us ⟨back, rfl⟩
    have hback := hsuffix back (List.suffix_append _ _)
    rw [closings_append, openings_append] at hall
    omega

/-- The scan from the right counts the parentheses that wait for their partner, and it fails at the
first one that has none. -/
theorem scanSplit_cases (ts : List Token) :
    (∃ s, scanSplit ts = .ok s ∧ s.depth + openings ts = closings ts ∧
        ∀ us, us <:+ ts → openings us ≤ closings us) ∨
      scanSplit ts = .error .unmatchedParenthesis ∧
        ∃ us, us <:+ ts ∧ closings us < openings us := by
  induction ts with
  | nil =>
    refine .inl ⟨_, rfl, rfl, fun us hus => ?_⟩
    rw [List.suffix_nil.mp hus]
    rfl
  | cons x ts ih =>
    rcases ih with ⟨s, hs, hdepth, hsuffix⟩ | ⟨herr, us, hus, hlt⟩
    · have hnext : ∀ s', scanSplit (x :: ts) = .ok s' →
          s'.depth + openings (x :: ts) = closings (x :: ts) →
          ∃ s', scanSplit (x :: ts) = .ok s' ∧
            s'.depth + openings (x :: ts) = closings (x :: ts) ∧
            ∀ us, us <:+ x :: ts → openings us ≤ closings us := by
        intro s' hs' hdepth'
        refine ⟨s', hs', hdepth', fun us hus => ?_⟩
        rcases List.suffix_cons_iff.mp hus with rfl | hus
        · omega
        · exact hsuffix us hus
      have hcons := scanSplit_cons hs x
      split at hcons
      · next hx =>
        obtain ⟨hopen, hclose⟩ := count_close hx ts
        exact .inl (hnext _ hcons (by simp only; omega))
      · next hx hd =>
        obtain ⟨hopen, hclose⟩ := count_open hx ts
        exact .inr ⟨hcons, x :: ts, List.suffix_rfl, by omega⟩
      · next d hx hd =>
        obtain ⟨hopen, hclose⟩ := count_open hx ts
        exact .inl (hnext _ hcons (by simp only; omega))
      · next hd hr hl =>
        obtain ⟨hopen, hclose⟩ := count_pass hl hr ts
        exact .inl (hnext _ hcons (by rw [SplitScan.depth_offer]; omega))
      · next d hd hr hl =>
        obtain ⟨hopen, hclose⟩ := count_pass hl hr ts
        exact .inl (hnext _ hcons (by simp only [SplitScan.shift]; omega))
    · refine .inr ⟨by rw [scanSplit, herr]; rfl, us, hus.trans (List.suffix_cons x ts), hlt⟩

theorem split?_eq_error_iff : split? ts = .error .unmatchedParenthesis ↔ ¬ Balanced ts := by
  rw [balanced_iff_suffixes]
  rcases scanSplit_cases ts with ⟨s, hs, hdepth, hsuffix⟩ | ⟨herr, us, hus, hlt⟩
  · by_cases hd : s.depth = 0
    · have hok : split? ts = .ok s.split? := by rw [split?, hs]; exact if_pos hd
      refine iff_of_false (fun herr => ?_) (not_not.mpr ⟨hsuffix, by omega⟩)
      cases hok.symm.trans herr
    · have herr : split? ts = .error .unmatchedParenthesis := by
        rw [split?, hs]
        exact if_neg hd
      exact iff_of_true herr fun h => hd (by have := h.2; omega)
  · have herr : split? ts = .error .unmatchedParenthesis := by rw [split?, herr]; rfl
    exact iff_of_true herr fun h => absurd (h.1 us hus) (by omega)

theorem balanced_of_split? {p? : Option Split} (h : split? ts = .ok p?) : Balanced ts := by
  by_contra hnot
  cases h.symm.trans (split?_eq_error_iff.mpr hnot)

/-! ### Lists that are cut out -/

theorem closing?_open (hx : x.kind = .leftParen) (depth : Nat) (ts : List Token) :
    closing? depth (x :: ts) = (closing? (depth + 1) ts).map (x :: ·) := by
  simp [closing?, hx]

theorem closing?_close (hx : x.kind = .rightParen) (depth : Nat) (ts : List Token) :
    closing? (depth + 1) (x :: ts) = (closing? depth ts).map (x :: ·) := by
  simp [closing?, hx]

theorem closing?_last (hx : x.kind = .rightParen) (ts : List Token) :
    closing? 0 (x :: ts) = if ts = [] then some [] else none := by
  simp [closing?, hx]

theorem closing?_pass (hl : x.kind ≠ .leftParen) (hr : x.kind ≠ .rightParen) (depth : Nat)
    (ts : List Token) : closing? depth (x :: ts) = (closing? depth ts).map (x :: ·) := by
  simp [closing?, hr]

/-- Where the parenthesis that is open before some tokens is closed behind them, they close what
they open and the parentheses opened since. -/
theorem closing?_balanced {depth : Nat} (h : closing? depth ts = some us) :
    closings us = openings us + depth ∧ ∀ vs, vs <+: us → closings vs ≤ openings vs + depth := by
  induction ts generalizing depth us with
  | nil => cases h
  | cons x ts ih =>
    have hlater : ∀ d, (closing? d ts).map (x :: ·) = some us →
        (∀ vs, openings (x :: vs) + depth + closings vs = closings (x :: vs) + openings vs + d) →
        closings us = openings us + depth ∧
          ∀ vs, vs <+: us → closings vs ≤ openings vs + depth := by
      intro d hd hfirst
      obtain ⟨ws, hws, rfl⟩ := Option.map_eq_some_iff.mp hd
      obtain ⟨hall, hle⟩ := ih hws
      have hws' := hfirst ws
      refine ⟨by omega, fun vs hvs => ?_⟩
      cases vs with
      | nil => simp
      | cons y vs =>
        obtain ⟨rfl, htail⟩ := List.cons_prefix_cons.mp hvs
        have hvs' := hfirst vs
        have := hle vs htail
        omega
    by_cases hl : x.kind = .leftParen
    · rw [closing?_open hl] at h
      exact hlater _ h fun vs => by have := count_open hl vs; omega
    · by_cases hr : x.kind = .rightParen
      · cases depth with
        | zero =>
          rw [closing?_last hr] at h
          split at h
          · obtain rfl := Option.some.inj h
            simp
          · cases h
        | succ depth =>
          rw [closing?_close hr] at h
          exact hlater _ h fun vs => by have := count_close hr vs; omega
      · rw [closing?_pass hl hr] at h
        exact hlater _ h fun vs => by have := count_pass hl hr vs; omega

theorem balanced_of_enclosed? (h : enclosed? ts = some us) : Balanced us := by
  cases ts with
  | nil => cases h
  | cons x ts =>
    rw [enclosed?] at h
    split at h
    · obtain ⟨hall, hle⟩ := closing?_balanced h
      exact ⟨hle, hall⟩
    · cases h

theorem Balanced.parens {y : Token} (hx : x.kind = .leftParen) (hy : y.kind = .rightParen)
    (h : Balanced us) : Balanced (x :: us ++ [y]) := by
  have hfirst := count_open hx
  have hlast : openings [y] = 0 ∧ closings [y] = 1 := count_close hy []
  have hall := h.closings_eq
  refine ⟨fun vs hvs => ?_, ?_⟩
  · cases vs with
    | nil => simp
    | cons z vs =>
      obtain ⟨rfl, htail⟩ := List.cons_prefix_cons.mp hvs
      have hvs' := hfirst vs
      rcases List.prefix_concat_iff.mp htail with rfl | hinner
      · rw [openings_append, closings_append] at hvs'
        omega
      · have := h.closings_le vs hinner
        omega
  · have hws := hfirst (us ++ [y])
    rw [openings_append, closings_append] at hws
    rw [List.cons_append]
    omega

theorem Balanced.left_of_append (h : Balanced (ts ++ us)) (hus : closings us = openings us) :
    Balanced ts := by
  have hall := h.closings_eq
  rw [closings_append, openings_append] at hall
  exact ⟨fun vs hvs => h.closings_le vs (hvs.trans (List.prefix_append _ _)), by omega⟩

theorem Token.Kind.not_paren_of_precedence? {k : Token.Kind} {n : Nat}
    (h : k.precedence? = some n) : k ≠ .leftParen ∧ k ≠ .rightParen := by
  constructor <;> rintro rfl <;> cases h

theorem balanced_of_cut {p : Split} (h : split? ts = .ok (some p)) :
    Balanced p.left ∧ Balanced p.right := by
  obtain ⟨s, hs, -, hcut⟩ := split?_eq_some h
  obtain ⟨hparts, hprec, s', hs', hd', -⟩ := scanSplit_eq_ok hs hcut
  have hall := balanced_of_split? h
  have hright : Balanced p.right := by
    refine @balanced_of_split? p.right s'.split? ?_
    rw [split?, hs']
    exact if_pos hd'
  refine ⟨?_, hright⟩
  obtain ⟨hl, hr⟩ := Token.Kind.not_paren_of_precedence? hprec
  rw [hparts] at hall
  refine hall.left_of_append ?_
  have hpass := count_pass hl hr p.right
  have := hright.closings_eq
  omega

theorem Balanced.tail (h : Balanced (x :: ts)) (hl : x.kind ≠ .leftParen)
    (hr : x.kind ≠ .rightParen) : Balanced ts := by
  have hpass := count_pass hl hr
  refine ⟨fun vs hvs => ?_, ?_⟩
  · have := h.closings_le (x :: vs) (List.cons_prefix_cons.mpr ⟨rfl, hvs⟩)
    have := hpass vs
    omega
  · have := h.closings_eq
    have := hpass ts
    omega

theorem Part.balanced (h : Part ts us) (hts : Balanced ts) : Balanced us := by
  cases h with
  | inner henc => exact balanced_of_enclosed? henc
  | left _ _ hp => exact (balanced_of_cut hp).1
  | right _ _ hp => exact (balanced_of_cut hp).2
  | operand _ _ _ hx =>
    rcases hx with hx | hx <;> exact hts.tail (by simp [hx]) (by simp [hx])

theorem Reaches.balanced (h : Reaches ts us) (hts : Balanced ts) : Balanced us := by
  induction h with
  | refl => exact hts
  | tail _ hpart ih => exact hpart.balanced ih

/-! ### Evaluation -/

theorem Raises.not_balanced (h : Raises ctx ts .unmatchedParenthesis) : ¬ Balanced ts := by
  cases h with
  | operand hx => rcases operand_eq_error hx with he | he | he <;> cases he
  | parenthesis _ _ hp => exact split?_eq_error_iff.mp hp
  | operator _ _ _ ha => rcases apply_eq_error ha with he | ⟨he, -⟩ <;> cases he

theorem Balanced.evalTokens_ne_unmatched (h : Balanced ts) (n : Nat) :
    evalTokens ctx n ts ≠ .error .unmatchedParenthesis := by
  intro herr
  rcases exists_raises herr with he | ⟨us, hreach, hraise⟩
  · cases he
  · exact hraise.not_balanced (hreach.balanced h)

theorem evalTokens_of_not_balanced {n : Nat} (hlen : 2 ≤ ts.length) (h : ¬ Balanced ts) :
    evalTokens ctx (n + 1) ts = .error .unmatchedParenthesis := by
  have henc : enclosed? ts = none := by
    cases henc : enclosed? ts with
    | none => rfl
    | some us =>
      obtain ⟨x, y, rfl, hx, hy⟩ := enclosed?_eq_some henc
      exact absurd ((balanced_of_enclosed? henc).parens hx hy) h
  exact evalTokens_unmatched hlen henc (split?_eq_error_iff.mpr h)

/-- A text has an unmatched parenthesis whatever its names and addresses mean, and before anything
else is wrong with it: its tokens alone decide. Nothing that is cut out of balanced tokens has. -/
theorem evaluate_unmatched_iff (text : String) :
    (∀ ctx, evaluate ctx text = .error .unmatchedParenthesis ↔
      ∃ ts, tokenize text = .ok ts ∧ 2 ≤ ts.length ∧ ¬ Balanced ts) ∧
    ∀ ts us, Balanced ts → Reaches ts us →
      Balanced us ∧ ∀ ctx n, evalTokens ctx n us ≠ .error .unmatchedParenthesis := by
  refine ⟨fun ctx => ⟨fun h => ?_, ?_⟩, fun ts us hts hreach => ?_⟩
  · rcases scanned_text text with ⟨ts, hts, -⟩ | ⟨_, _, _, _, _, _, _, herr⟩
    · rw [evaluate_of_tokenize hts] at h
      obtain _ | ⟨x, _ | ⟨y, ts⟩⟩ := ts
      · cases h
      · rcases operand_eq_error h with he | he | he <;> cases he
      · exact ⟨_, hts, by simp, fun hbal => hbal.evalTokens_ne_unmatched maxDepth h⟩
    · rw [evaluate, herr] at h
      cases h
  · rintro ⟨ts, hts, hlen, hnot⟩
    have hne : ts.isEmpty = false := by cases ts <;> simp at hlen ⊢
    rw [evaluate_of_tokenize hts, hne]
    exact evalTokens_of_not_balanced hlen hnot
  · have hus := hreach.balanced hts
    exact ⟨hus, fun ctx n => hus.evalTokens_ne_unmatched n⟩

/-- As many are closed as opened, but one too early, and the division by zero before it is not
heard of. In the balanced text it is, two levels down. -/
theorem evaluate_unmatched_iff_closed_early :
    (∀ ctx, evaluate ctx "1/0)+(2" = .error .unmatchedParenthesis) ∧
      let ts : List Token := [⟨.leftParen, "(", 0⟩, ⟨.decimal, "1", 1⟩, ⟨.slash, "/", 2⟩,
        ⟨.decimal, "0", 3⟩, ⟨.rightParen, ")", 4⟩, ⟨.plus, "+", 5⟩, ⟨.decimal, "2", 6⟩]
      let us : List Token := [⟨.decimal, "1", 1⟩, ⟨.slash, "/", 2⟩, ⟨.decimal, "0", 3⟩]
      Balanced ts ∧ Reaches ts us ∧ ∀ ctx,
        evaluate ctx "(1/0)+2" = .error .divisionByZero ∧
          evalTokens ctx maxDepth us = .error .divisionByZero ∧
          evalTokens ctx maxDepth us ≠ .error .unmatchedParenthesis := by
  refine ⟨fun ctx => ?_, ?_⟩
  · exact ((evaluate_unmatched_iff _).1 ctx).mpr ⟨_, rfl, by decide, by decide⟩
  · intro ts us
    have hts : Balanced ts := by decide
    have hreach : Reaches ts us :=
      .head (.left (by decide) (by decide) rfl) (.single (.inner rfl))
    have hus := ((evaluate_unmatched_iff "(1/0)+2").2 ts us hts hreach).2
    exact ⟨hts, hreach, fun ctx => ⟨rfl, rfl, hus ctx maxDepth⟩⟩

end Hartwatch.Expr
