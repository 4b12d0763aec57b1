import Hartwatch.Memory
import Std.Data.TreeMap.Lemmas

/-! Memory as one row of bits. Whichever lanes an access works on, it reads the bits of the bytes
from its place on, or puts other bits there. -/

namespace Hartwatch.Memory

variable {m m' m₁ m₂ : Memory} {a : Offset} {place width width₁ width₂ k k₁ k₂ : Nat}

def bit (m : Memory) (i : Nat) : Bool :=
  (m.lanes.getD (i / 64) 0).getLsbD (i % 64)

/-- `v` is what the `width` bytes from `place` on hold. -/
def Holds (m : Memory) (place width : Nat) (v : BitVec k) : Prop :=
  ∀ i, v.getLsbD i = (decide (i < 8 * width) && m.bit (8 * place + i))

/-- `m'` is `m` with the low `width` bytes of `v` put in from `place` on. -/
structure Patched (m : Memory) (place width : Nat) (v : BitVec k) (m' : Memory) : Prop where
  laneCount : m'.laneCount = m.laneCount
  bit : ∀ i, m'.bit i =
    if 8 * place ≤ i ∧ i < 8 * (place + width) then v.getLsbD (i - 8 * place) else m.bit i

theorem Holds.setWidth {v : BitVec k₁} (h : m.Holds place width v) (hk : 8 * width ≤ k₂) :
    m.Holds place width (v.setWidth k₂) := by
  intro i
  rw [BitVec.getLsbD_setWidth, h i]
  by_cases hi : i < 8 * width
  · have hik : i < k₂ := by omega
    simp [hi, hik]
  · simp [hi]

theorem Holds.eq {v v' : BitVec k} (h : m.Holds place width v) (h' : m.Holds place width v') :
    v = v' :=
  BitVec.eq_of_getLsbD_eq fun i _ => (h i).trans (h' i).symm

theorem Holds.append {low : BitVec k₁} {high : BitVec k₂} (hlow : m.Holds place width₁ low)
    (hhigh : m.Holds (place + width₁) width₂ high) (hk : 8 * (width₁ + width₂) ≤ k) :
    m.Holds place (width₁ + width₂)
      (low.setWidth k ||| high.setWidth k <<< (8 * width₁)) := by
  have hlow' : m.Holds place width₁ (low.setWidth k) := hlow.setWidth (by omega)
  have hhigh' : m.Holds (place + width₁) width₂ (high.setWidth k) := hhigh.setWidth (by omega)
  intro i
  rw [BitVec.getLsbD_or, BitVec.getLsbD_shiftLeft, hlow' i, hhigh' (i - 8 * width₁)]
  by_cases hi : i < 8 * width₁
  · have hi' : i < 8 * (width₁ + width₂) := by omega
    simp [hi, hi']
  · have hplace : 8 * (place + width₁) + (i - 8 * width₁) = 8 * place + i := by omega
    by_cases hi' : i < 8 * (width₁ + width₂)
    · have hik : i < k := by omega
      have hrest : i - 8 * width₁ < 8 * width₂ := by omega
      simp [hi, hi', hik, hrest, hplace]
    · have hrest : ¬ i - 8 * width₁ < 8 * width₂ := by omega
      simp [hi, hi', hrest]

theorem Patched.capacity {v : BitVec k} (h : m.Patched place width v m') :
    m'.capacity = m.capacity := by
  rw [Memory.capacity, Memory.capacity, h.laneCount]

theorem Patched.of_setWidth {v : BitVec k₁} (h : m.Patched place width (v.setWidth k₂) m')
    (hk : 8 * width ≤ k₂) : m.Patched place width v m' := by
  refine ⟨h.laneCount, fun i => ?_⟩
  rw [h.bit i]
  by_cases hi : 8 * place ≤ i ∧ i < 8 * (place + width)
  · have hik : i - 8 * place < k₂ := by omega
    simp [hi, hik]
  · rw [if_neg hi, if_neg hi]

theorem Patched.append {v : BitVec k} (h₁ : m.Patched place width₁ v m₁)
    (h₂ : m₁.Patched (place + width₁) width₂ (v >>> (8 * width₁)) m₂) :
    m.Patched place (width₁ + width₂) v m₂ := by
  refine ⟨h₂.laneCount.trans h₁.laneCount, fun i => ?_⟩
  rw [h₂.bit i, h₁.bit i, BitVec.getLsbD_ushiftRight]
  by_cases hhigh : 8 * (place + width₁) ≤ i ∧ i < 8 * (place + width₁ + width₂)
  · have hall : 8 * place ≤ i ∧ i < 8 * (place + (width₁ + width₂)) := by omega
    have hi : 8 * width₁ + (i - 8 * (place + width₁)) = i - 8 * place := by omega
    rw [if_pos hhigh, if_pos hall, hi]
  · rw [if_neg hhigh]
    by_cases hlow : 8 * place ≤ i ∧ i < 8 * (place + width₁)
    · rw [if_pos hlow, if_pos (by omega)]
    · rw [if_neg hlow, if_neg (by omega)]

theorem patched_zero (v : BitVec k) : m.Patched place 0 v m :=
  ⟨rfl, fun i => by rw [if_neg (by omega)]⟩

theorem lane_of_lt (hw : 0 < width) (ha : a.toNat + width ≤ m.capacity) :
    m.lane (a.toNat / 8) = .ok (m.lanes.getD (a.toNat / 8) 0) := by
  have hlane : a.toNat / 8 < m.laneCount := by
    simp only [capacity] at ha
    omega
  rw [lane, if_pos hlane]

theorem readLane_eq (m : Memory) (bits : Nat) (a : Offset) :
    m.readLane bits a = m.lane (a.toNat / 8) >>= fun lane =>
      .ok ((lane >>> (8 * (a.toNat % 8))).setWidth bits) := by
  have hshift : 8 * (a.toNat % 8) < 64 := by omega
  simp only [readLane, Checked.shiftRight_of_lt _ hshift]
  rfl

theorem writeLane_eq (m : Memory) {bits : Nat} (a : Offset) (v : BitVec bits) :
    m.writeLane a v = m.lane (a.toNat / 8) >>= fun lane =>
      m.setLane (a.toNat / 8)
        ((lane &&& ~~~((BitVec.allOnes bits).setWidth 64 <<< (8 * (a.toNat % 8)))) |||
          v.setWidth 64 <<< (8 * (a.toNat % 8))) := by
  have hshift : 8 * (a.toNat % 8) < 64 := by omega
  simp only [writeLane, Checked.shiftLeft_of_lt _ hshift]
  rfl

theorem readLane_holds (width : Nat) (hw : 0 < width) (hfit : a.toNat % 8 + width ≤ 8)
    (ha : a.toNat + width ≤ m.capacity) :
    ∃ v, m.readLane (8 * width) a = .ok v ∧ m.Holds a.toNat width v := by
  refine ⟨_, by rw [readLane_eq, lane_of_lt hw ha]; rfl, fun i => ?_⟩
  rw [BitVec.getLsbD_setWidth, BitVec.getLsbD_ushiftRight, bit]
  by_cases hi : i < 8 * width
  · have hlane : (8 * a.toNat + i) / 64 = a.toNat / 8 := by omega
    have hbit : (8 * a.toNat + i) % 64 = 8 * (a.toNat % 8) + i := by omega
    rw [hlane, hbit]
  · simp [hi]

theorem setLane_patched {lane : BitVec 64} {v : BitVec k} (hw : 0 < width)
    (hfit : a.toNat % 8 + width ≤ 8) (ha : a.toNat + width ≤ m.capacity)
    (hlane : ∀ i, i < 64 → lane.getLsbD i =
      if 8 * (a.toNat % 8) ≤ i ∧ i < 8 * (a.toNat % 8 + width) then
        v.getLsbD (i - 8 * (a.toNat % 8))
      else (m.lanes.getD (a.toNat / 8) 0).getLsbD i) :
    ∃ m', m.setLane (a.toNat / 8) lane = .ok m' ∧ m.Patched a.toNat width v m' := by
  have hlt : a.toNat / 8 < m.laneCount := by
    simp only [capacity] at ha
    omega
  refine ⟨{ m with lanes := m.lanes.insert (a.toNat / 8) lane }, if_pos hlt, rfl, fun i => ?_⟩
  simp only [bit, Std.TreeMap.getD_insert, Std.compare_eq_iff_eq]
  by_cases hi : a.toNat / 8 = i / 64
  · rw [if_pos hi, hlane _ (Nat.mod_lt i (by decide)), hi]
    by_cases hin : 8 * a.toNat ≤ i ∧ i < 8 * (a.toNat + width)
    · have hplace : i % 64 - 8 * (a.toNat % 8) = i - 8 * a.toNat := by omega
      rw [if_pos hin, if_pos (by omega), hplace]
    · rw [if_neg hin, if_neg (by omega)]
  · rw [if_neg hi, if_neg (by omega)]

theorem writeLane_patched (width : Nat) (v : BitVec (8 * width)) (hw : 0 < width)
    (hfit : a.toNat % 8 + width ≤ 8) (ha : a.toNat + width ≤ m.capacity) :
    ∃ m', m.writeLane a v = .ok m' ∧ m.Patched a.toNat width v m' := by
  rw [writeLane_eq, lane_of_lt hw ha]
  refine setLane_patched hw hfit ha fun i hi => ?_
  simp only [BitVec.getLsbD_or, BitVec.getLsbD_and, BitVec.getLsbD_not, BitVec.getLsbD_shiftLeft,
    BitVec.getLsbD_setWidth, BitVec.getLsbD_allOnes, hi, decide_true, Bool.true_and]
  by_cases hlow : i < 8 * (a.toNat % 8)
  · simp [hlow, Nat.not_le.mpr hlow]
  · have hshift : i - 8 * (a.toNat % 8) < 64 := by omega
    by_cases hhigh : i < 8 * (a.toNat % 8 + width)
    · have hin : i - 8 * (a.toNat % 8) < 8 * width := by omega
      simp [hlow, hhigh, hshift, hin, Nat.not_lt.mp hlow]
    · have hout : ¬ i - 8 * (a.toNat % 8) < 8 * width := by omega
      have hzero : v.getLsbD (i - 8 * (a.toNat % 8)) = false :=
        BitVec.getLsbD_of_ge _ _ (Nat.not_lt.mp hout)
      simp [hlow, hhigh, hshift, hout, hzero]

/-- Memory ends long before offsets wrap around. -/
theorem toNat_add_of_le (m : Memory) (n : Nat) (h : a.toNat + n ≤ m.capacity) :
    (a + BitVec.ofNat 64 n).toNat = a.toNat + n := by
  have hlt := m.capacity_lt
  rw [BitVec.toNat_add, BitVec.toNat_ofNat]
  omega

theorem readByte_holds (ha : a.toNat + 1 ≤ m.capacity) :
    ∃ v, m.readByte a = .ok v ∧ m.Holds a.toNat 1 v :=
  readLane_holds 1 (by decide) (by omega) ha

theorem writeByte_patched (v : Byte) (ha : a.toNat + 1 ≤ m.capacity) :
    ∃ m', m.writeByte a v = .ok m' ∧ m.Patched a.toNat 1 v m' :=
  writeLane_patched 1 v (by decide) (by omega) ha

theorem readRun_holds (hw : width ≤ 8) (ha : a.toNat + width ≤ m.capacity) :
    ∃ v, m.readRun a width = .ok v ∧ m.Holds a.toNat width v := by
  induction width generalizing a with
  | zero => exact ⟨0, rfl, fun i => by simp⟩
  | succ width ih =>
    have hnext : (a + 1).toNat = a.toNat + 1 := m.toNat_add_of_le 1 (by omega)
    obtain ⟨low, hlow, hlowHolds⟩ := readByte_holds (a := a) (m := m) (by omega)
    obtain ⟨high, hhigh, hhighHolds⟩ := ih (a := a + 1) (by omega) (by omega)
    rw [hnext] at hhighHolds
    refine ⟨_, by rw [readRun, hlow, hhigh]; rfl, ?_⟩
    have happend := hlowHolds.append (k := 64) hhighHolds (by omega)
    rwa [BitVec.setWidth_eq, Nat.add_comm 1 width] at happend

theorem writeRun_patched {v : BitVec 64} (ha : a.toNat + width ≤ m.capacity) :
    ∃ m', m.writeRun a v width = .ok m' ∧ m.Patched a.toNat width v m' := by
  induction width generalizing a m v with
  | zero => exact ⟨m, rfl, patched_zero v⟩
  | succ width ih =>
    have hnext : (a + 1).toNat = a.toNat + 1 := m.toNat_add_of_le 1 (by omega)
    obtain ⟨m₁, hbyte, hpatched⟩ := writeByte_patched (a := a) (m := m) (v.setWidth 8) (by omega)
    obtain ⟨m₂, hrest, hpatchedRest⟩ :=
      ih (a := a + 1) (m := m₁) (v := v >>> 8) (by rw [hpatched.capacity]; omega)
    rw [hnext] at hpatchedRest
    refine ⟨m₂, by rw [writeRun, hbyte]; exact hrest, ?_⟩
    have happend := (hpatched.of_setWidth (by omega)).append hpatchedRest
    rwa [Nat.add_comm 1 width] at happend

end Hartwatch.Memory
