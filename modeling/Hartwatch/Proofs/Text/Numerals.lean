import Hartwatch.Text.Numeral
import Mathlib.Data.List.Induction

/-! Decimal numbers as they are read. A number may have zeros in front of its digits, and where no
sign is needed, a plus sign in front of these. -/

namespace Hartwatch.Text

variable {cs : List Char} {c : Char} {d n m : Nat} {plus : Bool} {zeros : Nat}

theorem eq_digitChar (hc : 48 ≤ c.toNat ∧ c.toNat ≤ 57) :
    c.toNat - 48 < 10 ∧ c = (c.toNat - 48).digitChar := by
  have hlt : c.toNat - 48 < 10 := by omega
  refine ⟨hlt, Char.toNat_inj.mp ?_⟩
  rw [Nat.toNat_digitChar_of_lt_ten hlt]
  omega

theorem decimalDigit?_eq_some_iff : decimalDigit? c = some d ↔ d < 10 ∧ c = d.digitChar := by
  have hrange : '0' ≤ c ∧ c ≤ '9' ↔ 48 ≤ c.toNat ∧ c.toNat ≤ 57 := by
    rw [Char.le_def, Char.le_def, UInt32.le_iff_toNat_le, UInt32.le_iff_toNat_le]
    rfl
  constructor
  · intro h
    unfold decimalDigit? at h
    split at h
    · next hc =>
      obtain rfl : c.toNat - 48 = d := Option.some.inj h
      exact eq_digitChar (hrange.mp hc)
    · cases h
  · rintro ⟨hlt, rfl⟩
    have hval := Nat.toNat_digitChar_of_lt_ten hlt
    have hback : d.digitChar.toNat - '0'.toNat = d := by
      rw [hval]
      exact Nat.add_sub_cancel_left 48 d
    rw [decimalDigit?, if_pos (hrange.mpr (by omega)), hback]

theorem valueFrom?_decimal_iff :
    valueFrom? 10 decimalDigit? n cs = some m ↔
      (∀ c ∈ cs, ∃ d < 10, c = d.digitChar) ∧ Nat.ofDigitChars 10 cs n = m := by
  induction cs generalizing n with
  | nil => simp [valueFrom?]
  | cons c cs ih =>
    rw [List.forall_mem_cons]
    constructor
    · intro h
      obtain ⟨d, hdigit, hrest⟩ := Option.bind_eq_some_iff.mp h
      obtain ⟨hlt, rfl⟩ := decimalDigit?_eq_some_iff.mp hdigit
      obtain ⟨hall, hval⟩ := ih.mp hrest
      refine ⟨⟨⟨d, hlt, rfl⟩, hall⟩, ?_⟩
      rw [Nat.ofDigitChars_cons_digitChar_of_lt_ten hlt, hval]
    · rintro ⟨⟨⟨d, hlt, rfl⟩, hall⟩, hval⟩
      rw [Nat.ofDigitChars_cons_digitChar_of_lt_ten hlt] at hval
      have hdigit := decimalDigit?_eq_some_iff.mpr ⟨hlt, rfl⟩
      exact Option.bind_eq_some_iff.mpr ⟨d, hdigit, ih.mpr ⟨hall, hval⟩⟩

def padded (zeros n : Nat) : List Char :=
  List.replicate zeros '0' ++ Nat.toDigits 10 n

theorem padded_ne_nil : padded zeros n ≠ [] :=
  List.append_ne_nil_of_right_ne_nil _ Nat.toDigits_ne_nil

theorem ofDigitChars_padded : Nat.ofDigitChars 10 (padded zeros n) 0 = n := by
  rw [padded, Nat.ofDigitChars_append, Nat.ofDigitChars_replicate_zero, Nat.mul_zero,
    Nat.ofDigitChars_toDigits (by decide) (by decide)]

theorem isDigit_of_mem_padded (hc : c ∈ padded zeros n) : c.isDigit := by
  rcases List.mem_append.mp hc with hzero | hdigit
  · rw [List.eq_of_mem_replicate hzero]
    rfl
  · exact Nat.isDigit_of_mem_toDigits (by decide) (by decide) hdigit

theorem eq_padded (hne : cs ≠ []) (hall : ∀ c ∈ cs, ∃ d < 10, c = d.digitChar) :
    ∃ zeros, cs = padded zeros (Nat.ofDigitChars 10 cs 0) := by
  induction cs using List.reverseRecOn with
  | nil => exact absurd rfl hne
  | append_singleton cs c ih =>
    obtain ⟨d, hlt, rfl⟩ := hall c (by simp)
    have hlast : Nat.toDigits 10 d = [d.digitChar] := Nat.toDigits_of_lt_base hlt
    have hval : Nat.ofDigitChars 10 (cs ++ [d.digitChar]) 0 =
        10 * Nat.ofDigitChars 10 cs 0 + d := by
      rw [Nat.ofDigitChars_append, Nat.ofDigitChars_cons_digitChar_of_lt_ten hlt]
      rfl
    rw [hval]
    by_cases hcs : cs = []
    · subst hcs
      refine ⟨0, ?_⟩
      have hzero : 10 * Nat.ofDigitChars 10 [] 0 + d = d := Nat.zero_add d
      rw [hzero, padded, hlast]
      rfl
    · obtain ⟨zeros, heq⟩ := ih hcs fun c hc => hall c (List.mem_append_left _ hc)
      generalize Nat.ofDigitChars 10 cs 0 = n at heq
      rw [heq, padded, ← hlast]
      by_cases hn : n = 0
      · -- all the digits so far were zeros, and the last of them is no digit of the number now
        subst hn
        refine ⟨zeros + 1, ?_⟩
        rw [padded, Nat.toDigits_zero, Nat.mul_zero, Nat.zero_add, List.replicate_succ']
      · refine ⟨zeros, ?_⟩
        rw [padded, List.append_assoc,
          Nat.toDigits_append_toDigits (by decide) (Nat.pos_of_ne_zero hn) hlt]

theorem decimalValue?_eq_some_iff :
    decimalValue? cs = some n ↔ ∃ zeros, cs = padded zeros n := by
  have hread : cs ≠ [] → decimalValue? cs = valueFrom? 10 decimalDigit? 0 cs := by
    cases cs with
    | nil => exact fun hne => absurd rfl hne
    | cons c cs => exact fun _ => rfl
  constructor
  · intro h
    have hne : cs ≠ [] := by
      rintro rfl
      cases h
    rw [hread hne] at h
    obtain ⟨hall, hval⟩ := valueFrom?_decimal_iff.mp h
    obtain ⟨zeros, heq⟩ := eq_padded hne hall
    exact ⟨zeros, hval ▸ heq⟩
  · rintro ⟨zeros, rfl⟩
    rw [hread padded_ne_nil]
    refine valueFrom?_decimal_iff.mpr ⟨fun c hc => ?_, ofDigitChars_padded⟩
    have hrange := Char.isDigit_iff_toNat.mp (isDigit_of_mem_padded hc)
    exact ⟨_, eq_digitChar hrange⟩

theorem padded_inj {zeros' : Nat} (h : padded zeros n = padded zeros' m) :
    n = m ∧ zeros = zeros' := by
  have hval := congrArg (Nat.ofDigitChars 10 · 0) h
  simp only [ofDigitChars_padded] at hval
  subst hval
  have hlength := congrArg List.length h
  simp only [padded, List.length_append, List.length_replicate] at hlength
  exact ⟨rfl, by omega⟩

def spelling (plus : Bool) (zeros n : Nat) : List Char :=
  if plus then '+' :: padded zeros n else padded zeros n

theorem cons_plus_ne_padded : '+' :: cs ≠ padded zeros n := by
  intro h
  have hmem : '+' ∈ '+' :: cs := List.mem_cons_self
  rw [h] at hmem
  exact absurd (isDigit_of_mem_padded hmem) (by decide)

theorem spelling_inj {plus' : Bool} {zeros' : Nat}
    (h : spelling plus zeros n = spelling plus' zeros' m) :
    n = m ∧ plus = plus' ∧ zeros = zeros' := by
  cases plus with
  | true =>
    cases plus' with
    | true =>
      obtain ⟨hn, hzeros⟩ := padded_inj (List.cons.inj h).2
      exact ⟨hn, rfl, hzeros⟩
    | false => exact absurd h cons_plus_ne_padded
  | false =>
    cases plus' with
    | true => exact absurd h.symm cons_plus_ne_padded
    | false =>
      obtain ⟨hn, hzeros⟩ := padded_inj h
      exact ⟨hn, rfl, hzeros⟩

/-- What is read as a number below a bound is a spelling of it. -/
theorem natBelow?_eq_some_iff {bound : Nat} {s : String} :
    natBelow? bound s = some n ↔ n < bound ∧ ∃ plus zeros, s.toList = spelling plus zeros n := by
  rw [natBelow?, Option.filter_eq_some_iff, decide_eq_true_iff, decimalValue?_eq_some_iff,
    and_comm]
  refine and_congr_right fun _ => ?_
  split
  · next cs hcs =>
    rw [hcs]
    constructor
    · rintro ⟨zeros, rfl⟩
      exact ⟨true, zeros, rfl⟩
    · rintro ⟨plus, zeros, h⟩
      cases plus with
      | true => exact ⟨zeros, (List.cons.inj h).2⟩
      | false => exact absurd h cons_plus_ne_padded
  · next hplain =>
    constructor
    · rintro ⟨zeros, h⟩
      exact ⟨false, zeros, h⟩
    · rintro ⟨plus, zeros, h⟩
      cases plus with
      | true => exact absurd h (hplain _)
      | false => exact ⟨zeros, h⟩

end Hartwatch.Text
