import Hartwatch.Instruction.Immediate
import Hartwatch.Proofs.Instruction.Decoding

/-! The immediates of a word are its fields one behind the other, extended by their sign: each mask
cuts out one field, and each shift takes it to its place. -/

namespace Hartwatch

open Pattern

theorem Pattern.getLsbD_span (start length i : Nat) :
    (span start length).getLsbD i = decide (start ≤ i ∧ i < start + length ∧ i < 32) := by
  by_cases hi : i < 32
  · rw [BitVec.getLsbD_eq_getElem hi, getElem_span hi]
    simp [hi]
  · simp [BitVec.getLsbD_of_ge _ _ (Nat.not_lt.mp hi), hi]

namespace Instruction

theorem and_signBit_iff (w : Word) :
    w &&& 0x80000000#32 = 0x80000000#32 ↔ w.getLsbD 31 = true := by
  have hpow : 0x80000000#32 = BitVec.twoPow 32 31 := rfl
  rw [hpow, BitVec.and_twoPow]
  cases w.getLsbD 31 <;> decide

theorem getLsbD_signBits (w : Word) (start i : Nat) :
    (signBits w (span start (32 - start))).getLsbD i =
      (decide (start ≤ i ∧ i < 32) && w.getLsbD 31) := by
  by_cases hsign : w.getLsbD 31 = true
  · rw [signBits, if_pos ((and_signBit_iff w).mpr hsign), getLsbD_span, hsign, Bool.and_true]
    exact decide_eq_decide.mpr (by omega)
  · rw [signBits, if_neg (mt (and_signBit_iff w).mp hsign), Bool.eq_false_iff.mpr hsign,
      Bool.and_false]
    exact BitVec.getLsbD_zero

theorem immI_eq (w : Word) : immI w = (w.extractLsb' 20 12).signExtend 32 := by
  have hsign : 0xfffff800#32 = span 11 (32 - 11) := by decide
  have hlow : 0x7ff#32 = span 0 11 := by decide
  apply BitVec.eq_of_getLsbD_eq
  intro i hi
  simp only [immI, hsign, hlow, BitVec.getLsbD_or, BitVec.getLsbD_and, BitVec.getLsbD_ushiftRight,
    getLsbD_span, getLsbD_signBits w 11, BitVec.getLsbD_signExtend, BitVec.msb_eq_getLsbD_last,
    BitVec.getLsbD_extractLsb']
  grind

theorem immU_eq (w : Word) : immU w = w.extractLsb' 12 20 ++ 0#12 := by
  have hhigh : 0xfffff000#32 = span 12 20 := by decide
  apply BitVec.eq_of_getLsbD_eq
  intro i hi
  simp only [immU, hhigh, BitVec.getLsbD_and, getLsbD_span, BitVec.getLsbD_append,
    BitVec.getLsbD_extractLsb', BitVec.getLsbD_zero]
  grind

theorem immS_eq (w : Word) :
    immS w = (w.extractLsb' 25 7 ++ w.extractLsb' 7 5).signExtend 32 := by
  have hsign : 0xfffff000#32 = span 12 (32 - 12) := by decide
  have hhigh : 0xfe0#32 = span 5 7 := by decide
  have hlow : 0x1f#32 = span 0 5 := by decide
  apply BitVec.eq_of_getLsbD_eq
  intro i hi
  simp only [immS, hsign, hhigh, hlow, BitVec.getLsbD_or, BitVec.getLsbD_and,
    BitVec.getLsbD_ushiftRight, getLsbD_span, getLsbD_signBits w 12, BitVec.getLsbD_signExtend,
    BitVec.msb_eq_getLsbD_last, BitVec.getLsbD_append, BitVec.getLsbD_extractLsb']
  grind

theorem immJ_eq (w : Word) :
    immJ w = (w.extractLsb' 31 1 ++ w.extractLsb' 12 8 ++ w.extractLsb' 20 1 ++
      w.extractLsb' 21 10 ++ 0#1).signExtend 32 := by
  have hsign : 0xfff00000#32 = span 20 (32 - 20) := by decide
  have hhigh : 0xff000#32 = span 12 8 := by decide
  have hmiddle : 0x100000#32 = span 20 1 := by decide
  have hlow : 0x7fe00000#32 = span 21 10 := by decide
  apply BitVec.eq_of_getLsbD_eq
  intro i hi
  simp only [immJ, hsign, hhigh, hmiddle, hlow, BitVec.getLsbD_or, BitVec.getLsbD_and,
    BitVec.getLsbD_ushiftRight, getLsbD_span, getLsbD_signBits w 20, BitVec.getLsbD_signExtend,
    BitVec.msb_eq_getLsbD_last, BitVec.getLsbD_append, BitVec.getLsbD_extractLsb',
    BitVec.getLsbD_zero]
  grind

theorem immB_eq (w : Word) :
    immB w = (w.extractLsb' 31 1 ++ w.extractLsb' 7 1 ++ w.extractLsb' 25 6 ++
      w.extractLsb' 8 4 ++ 0#1).signExtend 32 := by
  have hsign : 0xfffff000#32 = span 12 (32 - 12) := by decide
  have hhigh : 0x800#32 = span 11 1 := by decide
  have hmiddle : 0x7e0#32 = span 5 6 := by decide
  have hlow : 0x1e#32 = span 1 4 := by decide
  apply BitVec.eq_of_getLsbD_eq
  intro i hi
  simp only [immB, hsign, hhigh, hmiddle, hlow, BitVec.getLsbD_or, BitVec.getLsbD_and,
    BitVec.getLsbD_ushiftRight, BitVec.getLsbD_shiftLeft, getLsbD_span, getLsbD_signBits w 12,
    BitVec.getLsbD_signExtend, BitVec.msb_eq_getLsbD_last, BitVec.getLsbD_append,
    BitVec.getLsbD_extractLsb', BitVec.getLsbD_zero]
  grind

end Instruction

end Hartwatch
