import Hartwatch.Proofs.Memory.Bits

/-! Memory as an array of bytes. An access of any width sees the little-endian number of the bytes
at its place, aligned or not, and one that writes leaves all other bytes as they are. -/

namespace Hartwatch

inductive Width where
  | byte
  | half
  | word
  | double
  deriving DecidableEq, Repr

namespace Width

def bytes : Width → Nat
  | byte => 1
  | half => 2
  | word => 4
  | double => 8

abbrev Value (w : Width) := BitVec (8 * w.bytes)

theorem bytes_le (w : Width) : w.bytes ≤ 8 := by
  cases w <;> decide

end Width

def littleEndian : List Byte → Nat
  | [] => 0
  | b :: bs => b.toNat + 256 * littleEndian bs

namespace Memory

variable {m m' m₁ m₂ : Memory} {a : Offset} {place width i k : Nat}

def read (m : Memory) (a : Offset) : (w : Width) → Except Crash w.Value
  | .byte => m.readByte a
  | .half => m.readHalf a
  | .word => m.readWord a
  | .double => m.readDouble a

def write (m : Memory) (a : Offset) : (w : Width) → w.Value → Except Crash Memory
  | .byte, v => m.writeByte a v
  | .half, v => m.writeHalf a v
  | .word, v => m.writeWord a v
  | .double, v => m.writeDouble a v

theorem validRange_iff : m.validRange a width = true ↔ a.toNat + width ≤ m.capacity :=
  decide_eq_true_iff

theorem readBytes_holds (hw : width ≤ 8) (ha : a.toNat + width ≤ m.capacity) :
    ∃ v, m.readBytes a width = .ok v ∧ m.Holds a.toNat width v := by
  rw [readBytes, if_pos hw]
  exact readRun_holds hw ha

theorem writeBytes_patched {v : BitVec 64} (hw : width ≤ 8)
    (ha : a.toNat + width ≤ m.capacity) :
    ∃ m', m.writeBytes a v width = .ok m' ∧ m.Patched a.toNat width v m' := by
  rw [writeBytes, if_pos hw]
  exact writeRun_patched ha

/-- One lane if the access is aligned, else byte by byte. -/
theorem readAligned_holds (width : Nat) {aligned : Prop} [Decidable aligned] (hpos : 0 < width)
    (hw : width ≤ 8) (hfit : aligned → a.toNat % 8 + width ≤ 8)
    (ha : a.toNat + width ≤ m.capacity) :
    ∃ v, (if aligned then m.readLane (8 * width) a
        else do return (← m.readBytes a width).setWidth (8 * width)) = .ok v ∧
      m.Holds a.toNat width v := by
  by_cases haligned : aligned
  · rw [if_pos haligned]
    exact readLane_holds width hpos (hfit haligned) ha
  · obtain ⟨v, hv, hholds⟩ := readBytes_holds hw ha
    rw [if_neg haligned, hv]
    exact ⟨_, rfl, hholds.setWidth (Nat.le_refl _)⟩

theorem writeAligned_patched (width : Nat) (v : BitVec (8 * width)) {aligned : Prop}
    [Decidable aligned] (hpos : 0 < width) (hw : width ≤ 8)
    (hfit : aligned → a.toNat % 8 + width ≤ 8) (ha : a.toNat + width ≤ m.capacity) :
    ∃ m', (if aligned then m.writeLane a v else m.writeBytes a (v.setWidth 64) width) = .ok m' ∧
      m.Patched a.toNat width v m' := by
  by_cases haligned : aligned
  · rw [if_pos haligned]
    exact writeLane_patched width v hpos (hfit haligned) ha
  · obtain ⟨m', hm, hpatched⟩ := writeBytes_patched (v := v.setWidth 64) hw ha
    rw [if_neg haligned]
    exact ⟨m', hm, hpatched.of_setWidth (Nat.mul_le_mul_left 8 hw)⟩

theorem readHalf_holds (ha : a.toNat + 2 ≤ m.capacity) :
    ∃ v, m.readHalf a = .ok v ∧ m.Holds a.toNat 2 v :=
  readAligned_holds 2 (by decide) (by decide) (by omega) ha

theorem writeHalf_patched (v : BitVec 16) (ha : a.toNat + 2 ≤ m.capacity) :
    ∃ m', m.writeHalf a v = .ok m' ∧ m.Patched a.toNat 2 v m' :=
  writeAligned_patched 2 v (by decide) (by decide) (by omega) ha

theorem readWord_holds (ha : a.toNat + 4 ≤ m.capacity) :
    ∃ v, m.readWord a = .ok v ∧ m.Holds a.toNat 4 v :=
  readAligned_holds 4 (by decide) (by decide) (by omega) ha

theorem writeWord_patched (v : Word) (ha : a.toNat + 4 ≤ m.capacity) :
    ∃ m', m.writeWord a v = .ok m' ∧ m.Patched a.toNat 4 v m' :=
  writeAligned_patched 4 v (by decide) (by decide) (by omega) ha

theorem readDouble_holds (ha : a.toNat + 8 ≤ m.capacity) :
    ∃ v, m.readDouble a = .ok v ∧ m.Holds a.toNat 8 v := by
  rw [readDouble]
  by_cases hlane : a.toNat % 8 = 0
  · refine ⟨_, by rw [if_pos hlane, lane_of_lt (by decide) ha], fun i => ?_⟩
    by_cases hi : i < 64
    · have hplace : (8 * a.toNat + i) / 64 = a.toNat / 8 := by omega
      have hbit : (8 * a.toNat + i) % 64 = i := by omega
      simp [bit, hplace, hbit, hi]
    · simp [hi, BitVec.getLsbD_of_ge _ i (Nat.not_lt.mp hi)]
  · by_cases hwords : a.toNat % 4 = 0
    · have hnext : (a + 4).toNat = a.toNat + 4 := m.toNat_add_of_le 4 (by omega)
      obtain ⟨low, hlow, hlowHolds⟩ := readWord_holds (m := m) (a := a) (by omega)
      obtain ⟨high, hhigh, hhighHolds⟩ := readWord_holds (m := m) (a := a + 4) (by omega)
      rw [hnext] at hhighHolds
      rw [if_neg hlane, if_pos hwords, hlow, hhigh]
      exact ⟨_, rfl, hlowHolds.append hhighHolds (by decide)⟩
    · rw [if_neg hlane, if_neg hwords]
      exact readBytes_holds (by decide) ha

theorem writeDouble_patched (v : BitVec 64) (ha : a.toNat + 8 ≤ m.capacity) :
    ∃ m', m.writeDouble a v = .ok m' ∧ m.Patched a.toNat 8 v m' := by
  rw [writeDouble]
  by_cases hlane : a.toNat % 8 = 0
  · rw [if_pos hlane]
    refine setLane_patched (by decide) (by omega) ha fun i hi => ?_
    rw [if_pos (by omega), hlane]
    rfl
  · by_cases hwords : a.toNat % 4 = 0
    · have hnext : (a + 4).toNat = a.toNat + 4 := m.toNat_add_of_le 4 (by omega)
      obtain ⟨m₁, hlow, hlowPatched⟩ :=
        writeWord_patched (m := m) (a := a) (v.setWidth 32) (by omega)
      obtain ⟨m₂, hhigh, hhighPatched⟩ :=
        writeWord_patched (m := m₁) (a := a + 4) ((v >>> 32).setWidth 32)
          (by rw [hlowPatched.capacity]; omega)
      rw [hnext] at hhighPatched
      rw [if_neg hlane, if_pos hwords, hlow]
      exact ⟨m₂, hhigh, (hlowPatched.of_setWidth (by decide)).append
        (hhighPatched.of_setWidth (by decide))⟩
    · rw [if_neg hlane, if_neg hwords]
      exact writeBytes_patched (by decide) ha

theorem read_holds (w : Width) (ha : a.toNat + w.bytes ≤ m.capacity) :
    ∃ v, m.read a w = .ok v ∧ m.Holds a.toNat w.bytes v := by
  cases w with
  | byte => exact readByte_holds ha
  | half => exact readHalf_holds ha
  | word => exact readWord_holds ha
  | double => exact readDouble_holds ha

theorem write_patched (w : Width) (v : w.Value) (ha : a.toNat + w.bytes ≤ m.capacity) :
    ∃ m', m.write a w v = .ok m' ∧ m.Patched a.toNat w.bytes v m' := by
  cases w with
  | byte => exact writeByte_patched v ha
  | half => exact writeHalf_patched v ha
  | word => exact writeWord_patched v ha
  | double => exact writeDouble_patched v ha

theorem byte_holds (m : Memory) (i : Nat) : m.Holds i 1 (m.byte i) := by
  intro j
  rw [byte, BitVec.getLsbD_setWidth, BitVec.getLsbD_ushiftRight, bit]
  by_cases hj : j < 8
  · have hlane : (8 * i + j) / 64 = i / 8 := by omega
    have hbit : (8 * i + j) % 64 = 8 * (i % 8) + j := by omega
    simp [hlane, hbit]
  · simp [hj]

theorem readByte_eq (m : Memory) (a : Offset) :
    m.readByte a =
      if a.toNat < m.capacity then .ok (m.byte a.toNat) else .error .outOfRange := by
  rw [readByte, readLane_eq, lane]
  by_cases ha : a.toNat / 8 < m.laneCount
  · have hlt : a.toNat < m.capacity := by
      simp only [capacity]
      omega
    rw [if_pos ha, if_pos hlt]
    rfl
  · have hge : ¬ a.toNat < m.capacity := by
      simp only [capacity]
      omega
    rw [if_neg ha, if_neg hge]
    rfl

theorem Patched.byte_of_mem {v : BitVec k} (h : m.Patched place width v m') (hi : place ≤ i)
    (hi' : i < place + width) : m'.byte i = v.extractLsb' (8 * (i - place)) 8 := by
  refine BitVec.eq_of_getLsbD_eq fun j hj => ?_
  have hin : 8 * place ≤ 8 * i + j ∧ 8 * i + j < 8 * (place + width) := by omega
  have hplace : 8 * i + j - 8 * place = 8 * (i - place) + j := by omega
  rw [m'.byte_holds i j, h.bit, if_pos hin, hplace, BitVec.getLsbD_extractLsb']

theorem Patched.byte_of_not_mem {v : BitVec k} (h : m.Patched place width v m')
    (hi : i < place ∨ place + width ≤ i) : m'.byte i = m.byte i := by
  refine BitVec.eq_of_getLsbD_eq fun j hj => ?_
  have hout : ¬ (8 * place ≤ 8 * i + j ∧ 8 * i + j < 8 * (place + width)) := by omega
  rw [m'.byte_holds i j, m.byte_holds i j, h.bit, if_neg hout]

theorem Patched.toList_eq {v : BitVec k} (h₁ : m.Patched place width v m₁)
    (h₂ : m.Patched place width v m₂) : m₁.toList = m₂.toList := by
  rw [toList, toList, h₁.capacity, h₂.capacity]
  refine List.map_congr_left fun i _ => ?_
  by_cases hi : place ≤ i ∧ i < place + width
  · rw [h₁.byte_of_mem hi.1 hi.2, h₂.byte_of_mem hi.1 hi.2]
  · have hout : i < place ∨ place + width ≤ i := by omega
    rw [h₁.byte_of_not_mem hout, h₂.byte_of_not_mem hout]

/-- The bytes at the offsets from `a` on, read one by one. -/
def bytesFrom (m : Memory) (a : Offset) : Nat → Except Crash (List Byte)
  | 0 => .ok []
  | n + 1 => do return (← m.readByte a) :: (← m.bytesFrom (a + 1) n)

theorem bytesFrom_eq (ha : a.toNat + width ≤ m.capacity) :
    m.bytesFrom a width = .ok ((List.range' a.toNat width).map m.byte) := by
  induction width generalizing a with
  | zero => rfl
  | succ width ih =>
    have hnext : (a + 1).toNat = a.toNat + 1 := m.toNat_add_of_le 1 (by omega)
    rw [bytesFrom, ih (by omega), readByte_eq, if_pos (by omega), hnext]
    rfl

theorem Holds.toNat_eq {v : BitVec k} (h : m.Holds place width v) :
    v.toNat = littleEndian ((List.range' place width).map m.byte) := by
  induction width generalizing place v with
  | zero =>
    have hzero : v = 0 := BitVec.eq_of_getLsbD_eq fun i _ => by simp [h i]
    rw [hzero]
    rfl
  | succ width ih =>
    have hlow : v.setWidth 8 = m.byte place := by
      refine BitVec.eq_of_getLsbD_eq fun i hi => ?_
      have hin : i < 8 * (width + 1) := by omega
      rw [BitVec.getLsbD_setWidth, h i, m.byte_holds place i]
      simp [hi, hin]
    have hhigh : m.Holds (place + 1) width (v >>> 8) := by
      intro i
      have hplace : 8 * place + (8 + i) = 8 * (place + 1) + i := by omega
      rw [BitVec.getLsbD_ushiftRight, h, hplace]
      congr 1
      exact decide_eq_decide.mpr (by omega)
    calc v.toNat = (v.setWidth 8).toNat + 256 * (v >>> 8).toNat := by
          rw [BitVec.toNat_setWidth, BitVec.toNat_ushiftRight, Nat.shiftRight_eq_div_pow]
          omega
      _ = littleEndian ((List.range' place (width + 1)).map m.byte) := by
          rw [hlow, ih hhigh]
          rfl

/-- The bytes of `m'` are those of `m`, but for the low `width` bytes of `v` from `a` on. -/
structure Overwritten (m : Memory) (a : Offset) (width : Nat) (v : BitVec k) (m' : Memory) :
    Prop where
  capacity : m'.capacity = m.capacity
  inside : ∀ c : Offset, a.toNat ≤ c.toNat → c.toNat < a.toNat + width →
    m'.readByte c = .ok (v.extractLsb' (8 * (c.toNat - a.toNat)) 8)
  outside : ∀ c : Offset, c.toNat < a.toNat ∨ a.toNat + width ≤ c.toNat →
    m'.readByte c = m.readByte c

theorem Patched.overwritten {v : BitVec k} (h : m.Patched a.toNat width v m')
    (ha : a.toNat + width ≤ m.capacity) : m.Overwritten a width v m' := by
  refine ⟨h.capacity, fun c hc hc' => ?_, fun c hc => ?_⟩
  · rw [readByte_eq, h.capacity, if_pos (by omega), h.byte_of_mem hc hc']
  · rw [readByte_eq, readByte_eq, h.capacity, h.byte_of_not_mem hc]

/-- The bytes of `m'` are those of `m`, but for a copy of some bytes from `place` on. -/
structure Copied (m : Memory) (place : Nat) (bytes : List Byte) (m' : Memory) : Prop where
  capacity : m'.capacity = m.capacity
  inside : ∀ i b, bytes[i]? = some b → m'.byte (place + i) = b
  outside : ∀ i, i < place ∨ place + bytes.length ≤ i → m'.byte i = m.byte i

theorem Copied.cons {b : Byte} {bytes : List Byte}
    (hfirst : m.Patched place 1 b m₁) (hrest : m₁.Copied (place + 1) bytes m₂) :
    m.Copied place (b :: bytes) m₂ := by
  refine ⟨hrest.capacity.trans hfirst.capacity, fun i c hc => ?_, fun i hi => ?_⟩
  · cases i with
    | zero =>
      obtain rfl := Option.some.inj hc
      have hbyte := hfirst.byte_of_mem (i := place) (Nat.le_refl _) (by omega)
      rw [Nat.add_zero, hrest.outside _ (by omega), hbyte]
      simp
    | succ i =>
      have hplace : place + (i + 1) = place + 1 + i := by omega
      rw [hplace]
      exact hrest.inside i c hc
  · rw [List.length_cons] at hi
    rw [hrest.outside _ (by omega), hfirst.byte_of_not_mem (by omega)]

/-- Every access in range reads the little-endian number of its bytes, or replaces these and no
other byte. Whichever way it takes through the lanes, it agrees with the access byte by byte. -/
theorem accesses_littleEndian (m : Memory) (a : Offset) :
    (∀ w : Width, m.validRange a w.bytes = true →
      ∃ bytes v, m.bytesFrom a w.bytes = .ok bytes ∧ m.read a w = .ok v ∧
        v.toNat = littleEndian bytes ∧ m.readBytes a w.bytes = .ok (v.setWidth 64)) ∧
    (∀ (w : Width) (v : w.Value), m.validRange a w.bytes = true →
      ∃ m₁ m₂, m.write a w v = .ok m₁ ∧ m.Overwritten a w.bytes v m₁ ∧
        m.writeBytes a (v.setWidth 64) w.bytes = .ok m₂ ∧ m₂.toList = m₁.toList) ∧
    ∀ (width : Nat) (v : BitVec 64), width ≤ 8 → m.validRange a width = true →
      ∃ m', m.writeBytes a v width = .ok m' ∧ m.Overwritten a width v m' := by
  refine ⟨fun w ha => ?_, fun w v ha => ?_, fun width v hw ha => ?_⟩
  · have ha := validRange_iff.mp ha
    obtain ⟨v, hv, hholds⟩ := read_holds w ha
    obtain ⟨u, hu, hholds'⟩ := readBytes_holds w.bytes_le ha
    have hwide : m.Holds a.toNat w.bytes (v.setWidth 64) :=
      hholds.setWidth (Nat.mul_le_mul_left 8 w.bytes_le)
    rw [hholds'.eq hwide] at hu
    exact ⟨_, v, bytesFrom_eq ha, hv, hholds.toNat_eq, hu⟩
  · have ha := validRange_iff.mp ha
    obtain ⟨m₁, hm₁, hpatched₁⟩ := write_patched w v ha
    obtain ⟨m₂, hm₂, hpatched₂⟩ := writeBytes_patched (v := v.setWidth 64) w.bytes_le ha
    have hsame := hpatched₂.of_setWidth (Nat.mul_le_mul_left 8 w.bytes_le)
    exact ⟨m₁, m₂, hm₁, hpatched₁.overwritten ha, hm₂, hsame.toList_eq hpatched₁⟩
  · have ha := validRange_iff.mp ha
    obtain ⟨m', hm, hpatched⟩ := writeBytes_patched hw ha
    exact ⟨m', hm, hpatched.overwritten ha⟩

/-- A value of eight bytes lies across two lanes, and another write cuts into it. -/
theorem accesses_littleEndian_straddling :
    ∃ m m₁ m₂ bytes v, zeroed 16 = .ok m ∧
      m.validRange 5 Width.double.bytes = true ∧
      m.write 5 .double 0x0807060504030201 = .ok m₁ ∧
      m.Overwritten 5 8 (0x0807060504030201 : BitVec 64) m₁ ∧
      m₁.validRange 6 Width.word.bytes = true ∧ m₁.bytesFrom 6 4 = .ok bytes ∧
      m₁.read 6 .word = .ok v ∧ v.toNat = littleEndian bytes ∧
      m₁.validRange 7 3 = true ∧ m₁.writeBytes 7 0x0c0b0a 3 = .ok m₂ ∧
      m₁.Overwritten 7 3 (0x0c0b0a : BitVec 64) m₂ := by
  obtain ⟨m, hm⟩ : ∃ m, zeroed 16 = .ok m := ⟨_, rfl⟩
  have hcapacity : m.capacity = 16 := by
    cases hm
    rfl
  have hdouble : m.validRange 5 Width.double.bytes = true := by
    rw [validRange_iff, hcapacity]
    decide
  obtain ⟨m₁, -, hwrite, hdone, -⟩ :=
    (m.accesses_littleEndian 5).2.1 .double 0x0807060504030201 hdouble
  have hword : m₁.validRange 6 Width.word.bytes = true := by
    rw [validRange_iff, hdone.capacity, hcapacity]
    decide
  have hthree : m₁.validRange 7 3 = true := by
    rw [validRange_iff, hdone.capacity, hcapacity]
    decide
  obtain ⟨bytes, v, hbytes, hread, hvalue, -⟩ := (m₁.accesses_littleEndian 6).1 .word hword
  obtain ⟨m₂, hcut, hcutDone⟩ :=
    (m₁.accesses_littleEndian 7).2.2 3 0x0c0b0a (by decide) hthree
  exact ⟨m, m₁, m₂, bytes, v, hm, hdouble, hwrite, hdone, hword, hbytes, hread, hvalue, hthree,
    hcut, hcutDone⟩

end Memory

end Hartwatch
