import Hartwatch.Proofs.Memory.Accesses

/-! Where accesses are defined. Each way through the lanes checks only the lanes that it comes to,
yet an access is done exactly if its whole range lies in memory. Memory ends long before offsets
wrap around, so an access has failed before it could come to the first byte again. -/

namespace Hartwatch.Memory

variable {α β : Type} {m m' m₁ m₀ : Memory} {a : Offset} {width width₁ width₂ bits k : Nat}

/-- The access is done if the `width` bytes from `a` on lie in memory, and else it finds a lane
missing. -/
structure DefinedOn (m : Memory) (a : Offset) (width : Nat) (access : Except Crash α) : Prop where
  isOk_iff : access.isOk = true ↔ m.validRange a width = true
  crash : m.validRange a width = false → access = .error .outOfRange

namespace DefinedOn

variable {access : Except Crash α} {rest : α → Except Crash β} {r : α}

theorem of_cases (hin : a.toNat + width ≤ m.capacity → ∃ r, access = .ok r)
    (hout : m.capacity < a.toNat + width → access = .error .outOfRange) :
    m.DefinedOn a width access := by
  by_cases ha : a.toNat + width ≤ m.capacity
  · have hvalid : m.validRange a width = true := validRange_iff.mpr ha
    obtain ⟨r, hr⟩ := hin ha
    rw [hr]
    exact ⟨⟨fun _ => hvalid, fun _ => rfl⟩, fun h => by simp [hvalid] at h⟩
  · have hinvalid : ¬ m.validRange a width = true := mt validRange_iff.mp ha
    rw [hout (by omega)]
    exact ⟨⟨fun h => (nomatch h), fun h => absurd h hinvalid⟩, fun _ => rfl⟩

theorem range_of_ok (h : m.DefinedOn a width access) (hr : access = .ok r) :
    a.toNat + width ≤ m.capacity :=
  validRange_iff.mp (h.isOk_iff.mp (by rw [hr]; rfl))

theorem exists_ok (h : m.DefinedOn a width access) (ha : a.toNat + width ≤ m.capacity) :
    ∃ r, access = .ok r := by
  have hok := h.isOk_iff.mpr (validRange_iff.mpr ha)
  cases access with
  | error c => cases hok
  | ok r => exact ⟨r, rfl⟩

theorem eq_error (h : m.DefinedOn a width access) (ha : m.capacity < a.toNat + width) :
    access = .error .outOfRange := by
  refine h.crash ?_
  rw [← Bool.not_eq_true, validRange_iff]
  omega

/-- An access that starts with a narrower one at its place, which is done if the wider one is. -/
theorem bind (hle : width₁ ≤ width) (hfirst : m.DefinedOn a width₁ access)
    (hrest : ∀ r, access = .ok r → m.DefinedOn a width (rest r)) :
    m.DefinedOn a width (access >>= rest) := by
  by_cases hfit : a.toNat + width₁ ≤ m.capacity
  · obtain ⟨r, hr⟩ := hfirst.exists_ok hfit
    rw [hr]
    exact hrest r hr
  · rw [hfirst.eq_error (Nat.not_le.mp hfit)]
    exact of_cases (fun ha => absurd ha (by omega)) (fun _ => rfl)

theorem map (h : m.DefinedOn a width access) (f : α → β) :
    m.DefinedOn a width (access >>= fun r => .ok (f r)) :=
  h.bind (Nat.le_refl _) fun r hr =>
    of_cases (fun _ => ⟨f r, rfl⟩) fun ha => absurd (h.range_of_ok hr) (Nat.not_le.mpr ha)

theorem behind (ha : a.toNat + width₁ ≤ m.capacity) (hcapacity : m'.capacity = m.capacity)
    (h : m'.DefinedOn (a + BitVec.ofNat 64 width₁) width₂ access) :
    m.DefinedOn a (width₁ + width₂) access := by
  have hnext := m.toNat_add_of_le width₁ ha
  exact of_cases (fun hin => h.exists_ok (by omega)) (fun hout => h.eq_error (by omega))

theorem append (hfirst : m.DefinedOn a width₁ access)
    (hrest : ∀ r, access = .ok r → ∃ m' : Memory, m'.capacity = m.capacity ∧
      m'.DefinedOn (a + BitVec.ofNat 64 width₁) width₂ (rest r)) :
    m.DefinedOn a (width₁ + width₂) (access >>= rest) := by
  refine hfirst.bind (Nat.le_add_right _ _) fun r hr => ?_
  obtain ⟨m', hcapacity, hnext⟩ := hrest r hr
  exact behind (hfirst.range_of_ok hr) hcapacity hnext

theorem of_lane (r : α) (hw : 0 < width) (hfit : a.toNat % 8 + width ≤ 8) :
    m.DefinedOn a width
      (if a.toNat / 8 < m.laneCount then .ok r else .error .outOfRange) := by
  have hlane : a.toNat / 8 < m.laneCount ↔ a.toNat + width ≤ m.capacity := by
    simp only [capacity]
    omega
  refine of_cases (fun ha => ⟨r, if_pos (hlane.mpr ha)⟩) (fun ha => if_neg ?_)
  rw [hlane]
  exact Nat.not_le.mpr ha

theorem capacity_eq {write : Except Crash Memory} {v : BitVec k} (h : m.DefinedOn a width write)
    (hpatched : a.toNat + width ≤ m.capacity →
      ∃ m', write = .ok m' ∧ m.Patched a.toNat width v m')
    (hm : write = .ok m₁) : m₁.capacity = m.capacity := by
  obtain ⟨m', hm', hdone⟩ := hpatched (h.range_of_ok hm)
  obtain rfl := Except.ok.inj (hm'.symm.trans hm)
  exact hdone.capacity

end DefinedOn

theorem lane_definedOn (hw : 0 < width) (hfit : a.toNat % 8 + width ≤ 8) :
    m.DefinedOn a width (m.lane (a.toNat / 8)) :=
  .of_lane _ hw hfit

theorem setLane_definedOn (lane : BitVec 64) (hw : 0 < width) (hfit : a.toNat % 8 + width ≤ 8) :
    m.DefinedOn a width (m.setLane (a.toNat / 8) lane) :=
  .of_lane _ hw hfit

theorem readLane_definedOn (hw : 0 < width) (hfit : a.toNat % 8 + width ≤ 8) :
    m.DefinedOn a width (m.readLane bits a) := by
  rw [readLane_eq]
  exact (lane_definedOn hw hfit).map _

theorem writeLane_definedOn (v : BitVec bits) (hw : 0 < width) (hfit : a.toNat % 8 + width ≤ 8) :
    m.DefinedOn a width (m.writeLane a v) := by
  rw [writeLane_eq]
  exact (lane_definedOn hw hfit).bind (Nat.le_refl _) fun lane _ => setLane_definedOn _ hw hfit

theorem readByte_definedOn (m : Memory) (a : Offset) : m.DefinedOn a 1 (m.readByte a) :=
  readLane_definedOn Nat.one_pos (by omega)

theorem writeByte_definedOn (m : Memory) (a : Offset) (v : Byte) :
    m.DefinedOn a 1 (m.writeByte a v) :=
  writeLane_definedOn v Nat.one_pos (by omega)

theorem writeByte_capacity {v : Byte} (h : m.writeByte a v = .ok m₁) : m₁.capacity = m.capacity :=
  (writeByte_definedOn m a v).capacity_eq (writeByte_patched v) h

theorem readRun_definedOn (m : Memory) (a : Offset) (width : Nat) :
    m.DefinedOn a (width + 1) (m.readRun a (width + 1)) := by
  -- a run of no bytes is done anywhere, so the induction starts from the last byte
  induction width generalizing a with
  | zero =>
    have hlast : m.readRun a 1 =
        m.readByte a >>= fun low => .ok (low.setWidth 64 ||| 0 <<< 8) := rfl
    rw [hlast]
    exact (readByte_definedOn m a).map _
  | succ width ih =>
    rw [readRun, Nat.add_comm (width + 1) 1]
    exact (readByte_definedOn m a).append fun low _ => ⟨m, rfl, (ih (a + 1)).map _⟩

theorem writeRun_definedOn (m : Memory) (a : Offset) (v : BitVec 64) (width : Nat) :
    m.DefinedOn a (width + 1) (m.writeRun a v (width + 1)) := by
  induction width generalizing m a v with
  | zero =>
    have hlast : m.writeRun a v 1 = m.writeByte a (v.setWidth 8) >>= fun m₁ => .ok m₁ := rfl
    rw [hlast]
    exact (writeByte_definedOn m a _).map _
  | succ width ih =>
    rw [writeRun, Nat.add_comm (width + 1) 1]
    exact (writeByte_definedOn m a _).append fun m₁ hm =>
      ⟨m₁, writeByte_capacity hm, ih m₁ (a + 1) (v >>> 8)⟩

theorem readBytes_definedOn (hpos : 0 < width) (hw : width ≤ 8) :
    m.DefinedOn a width (m.readBytes a width) := by
  rw [readBytes, if_pos hw, ← Nat.sub_add_cancel hpos]
  exact readRun_definedOn m a _

theorem writeBytes_definedOn (v : BitVec 64) (hpos : 0 < width) (hw : width ≤ 8) :
    m.DefinedOn a width (m.writeBytes a v width) := by
  rw [writeBytes, if_pos hw, ← Nat.sub_add_cancel hpos]
  exact writeRun_definedOn m a v _

theorem readAligned_definedOn (width : Nat) {aligned : Prop} [Decidable aligned] (hpos : 0 < width)
    (hw : width ≤ 8) (hfit : aligned → a.toNat % 8 + width ≤ 8) :
    m.DefinedOn a width (if aligned then m.readLane (8 * width) a
      else do return (← m.readBytes a width).setWidth (8 * width)) := by
  by_cases haligned : aligned
  · rw [if_pos haligned]
    exact readLane_definedOn hpos (hfit haligned)
  · rw [if_neg haligned]
    exact (readBytes_definedOn hpos hw).map _

theorem writeAligned_definedOn (width : Nat) (v : BitVec (8 * width)) {aligned : Prop}
    [Decidable aligned] (hpos : 0 < width) (hw : width ≤ 8)
    (hfit : aligned → a.toNat % 8 + width ≤ 8) :
    m.DefinedOn a width
      (if aligned then m.writeLane a v else m.writeBytes a (v.setWidth 64) width) := by
  by_cases haligned : aligned
  · rw [if_pos haligned]
    exact writeLane_definedOn v hpos (hfit haligned)
  · rw [if_neg haligned]
    exact writeBytes_definedOn _ hpos hw

theorem readWord_definedOn (m : Memory) (a : Offset) : m.DefinedOn a 4 (m.readWord a) :=
  readAligned_definedOn 4 (by omega) (by omega) (by omega)

theorem writeWord_definedOn (m : Memory) (a : Offset) (v : Word) :
    m.DefinedOn a 4 (m.writeWord a v) :=
  writeAligned_definedOn 4 v (by omega) (by omega) (by omega)

theorem writeWord_capacity {v : Word} (h : m.writeWord a v = .ok m₁) : m₁.capacity = m.capacity :=
  (writeWord_definedOn m a v).capacity_eq (writeWord_patched v) h

theorem readDouble_definedOn (m : Memory) (a : Offset) : m.DefinedOn a 8 (m.readDouble a) := by
  rw [readDouble]
  by_cases hlane : a.toNat % 8 = 0
  · rw [if_pos hlane]
    exact lane_definedOn (by omega) (by omega)
  · by_cases hwords : a.toNat % 4 = 0
    · rw [if_neg hlane, if_pos hwords]
      exact (readWord_definedOn m a).append fun low _ =>
        ⟨m, rfl, (readWord_definedOn m (a + 4)).map _⟩
    · rw [if_neg hlane, if_neg hwords]
      exact readBytes_definedOn (by omega) (by omega)

theorem writeDouble_definedOn (m : Memory) (a : Offset) (v : BitVec 64) :
    m.DefinedOn a 8 (m.writeDouble a v) := by
  rw [writeDouble]
  by_cases hlane : a.toNat % 8 = 0
  · rw [if_pos hlane]
    exact setLane_definedOn v (by omega) (by omega)
  · by_cases hwords : a.toNat % 4 = 0
    · rw [if_neg hlane, if_pos hwords]
      exact (writeWord_definedOn m a _).append fun m₁ hm =>
        ⟨m₁, writeWord_capacity hm, writeWord_definedOn m₁ (a + 4) _⟩
    · rw [if_neg hlane, if_neg hwords]
      exact writeBytes_definedOn v (by omega) (by omega)

theorem read_definedOn (m : Memory) (a : Offset) (w : Width) :
    m.DefinedOn a w.bytes (m.read a w) := by
  cases w with
  | byte => exact readByte_definedOn m a
  | half => exact readAligned_definedOn 2 (by omega) (by omega) (by omega)
  | word => exact readWord_definedOn m a
  | double => exact readDouble_definedOn m a

theorem write_definedOn (m : Memory) (a : Offset) (w : Width) (v : w.Value) :
    m.DefinedOn a w.bytes (m.write a w v) := by
  cases w with
  | byte => exact writeByte_definedOn m a v
  | half => exact writeAligned_definedOn 2 v (by omega) (by omega) (by omega)
  | word => exact writeWord_definedOn m a v
  | double => exact writeDouble_definedOn m a v

theorem writeBytes_capacity {v : BitVec 64} (h : m.writeBytes a v width = .ok m₁) :
    m₁.capacity = m.capacity := by
  by_cases hw : width ≤ 8
  · by_cases hpos : 0 < width
    · exact (writeBytes_definedOn v hpos hw).capacity_eq (writeBytes_patched hw) h
    · obtain rfl : width = 0 := by omega
      cases h
      rfl
  · rw [writeBytes, if_neg hw] at h
    cases h

/-- `m` after any writes that did not crash. -/
inductive Later (m₀ : Memory) : Memory → Prop
  | start : m₀.Later m₀
  | write {m m' : Memory} {a : Offset} {w : Width} {v : w.Value} :
    m₀.Later m → m.write a w v = .ok m' → m₀.Later m'
  | writeBytes {m m' : Memory} {a : Offset} {v : BitVec 64} {width : Nat} :
    m₀.Later m → m.writeBytes a v width = .ok m' → m₀.Later m'

theorem Later.capacity (h : m₀.Later m) : m.capacity = m₀.capacity := by
  induction h with
  | start => rfl
  | write _ hwrite ih =>
    exact ((write_definedOn _ _ _ _).capacity_eq (write_patched _ _) hwrite).trans ih
  | writeBytes _ hwrite ih => exact (writeBytes_capacity hwrite).trans ih

theorem zeroed_cases (capacity : Nat) :
    capacity + 7 < 1 <<< 63 ∧ (∃ m, zeroed capacity = .ok m ∧
        m.capacity = 8 * ((capacity + 7) / 8)) ∨
      ¬ capacity + 7 < 1 <<< 63 ∧ zeroed capacity = .error .allocation := by
  rw [zeroed]
  by_cases hc : capacity + 7 < 1 <<< 63
  · have hlanes : (capacity + 7) / 8 < 1 <<< 60 := by omega
    rw [dif_pos hlanes]
    exact .inl ⟨hc, _, rfl, rfl⟩
  · have hlanes : ¬ (capacity + 7) / 8 < 1 <<< 60 := by omega
    rw [dif_neg hlanes]
    exact .inr ⟨hc, rfl⟩

theorem toNat_add_of_validRange {i : Nat} (ha : m.validRange a width = true) (hi : i < width) :
    (a + BitVec.ofNat 64 i).toNat = a.toNat + i := by
  have hrange := validRange_iff.mp ha
  exact m.toNat_add_of_le i (by omega)

theorem validRange_iff_readByte (hpos : 0 < width) : m.validRange a width = true ↔
    ∀ i, i < width → (m.readByte (a + BitVec.ofNat 64 i)).isOk = true := by
  refine ⟨fun ha i hi => ?_, fun hbytes => ?_⟩
  · have hplace := toNat_add_of_validRange ha hi
    have hrange := validRange_iff.mp ha
    rw [readByte_eq, if_pos (by omega)]
    rfl
  · have hread : ∀ i, i < width → (a + BitVec.ofNat 64 i).toNat < m.capacity := by
      intro i hi
      have hrange := validRange_iff.mp ((readByte_definedOn m _).isOk_iff.mp (hbytes i hi))
      omega
    have hfirst : a.toNat < m.capacity := by simpa using hread 0 hpos
    -- a range that leaves memory has the first byte behind it
    refine validRange_iff.mpr (Nat.not_lt.mp fun hout => ?_)
    have hbehind := hread (m.capacity - a.toNat) (by omega)
    rw [m.toNat_add_of_le _ (by omega)] at hbehind
    omega

/-- Aligned or not, an access of up to eight bytes is done exactly if its range lies in memory,
whose end is that of its last lane. These are the ranges of which each byte can be read, and none of
them wraps around. -/
theorem accesses_definedOn (capacity : Nat) :
    ((zeroed capacity).isOk = true ↔ capacity + 7 < 1 <<< 63) ∧
    ∀ m₀, zeroed capacity = .ok m₀ → ∀ m, m₀.Later m → ∀ a : Offset,
      (∀ w : Width, m.DefinedOn a w.bytes (m.read a w) ∧
        ∀ v, m.DefinedOn a w.bytes (m.write a w v)) ∧
      (∀ width, 1 ≤ width → width ≤ 8 → m.DefinedOn a width (m.readBytes a width) ∧
        ∀ v, m.DefinedOn a width (m.writeBytes a v width)) ∧
      (∀ width, m.validRange a width = true ↔ a.toNat + width ≤ 8 * ((capacity + 7) / 8)) ∧
      ∀ width, 1 ≤ width →
        (m.validRange a width = true ↔
          ∀ i, i < width → (m.readByte (a + BitVec.ofNat 64 i)).isOk = true) ∧
        (m.validRange a width = true →
          ∀ i, i < width → (a + BitVec.ofNat 64 i).toNat = a.toNat + i) := by
  rcases zeroed_cases capacity with ⟨hc, m₁, hm₁, hcapacity⟩ | ⟨hc, hfull⟩
  · rw [hm₁]
    refine ⟨⟨fun _ => hc, fun _ => rfl⟩, fun m₀ hm₀ m hm a => ⟨fun w => ?_, fun width hpos hw => ?_,
      fun width => ?_, fun width hpos => ?_⟩⟩
    · exact ⟨read_definedOn m a w, write_definedOn m a w⟩
    · exact ⟨readBytes_definedOn hpos hw, fun v => writeBytes_definedOn v hpos hw⟩
    · obtain rfl := Except.ok.inj hm₀
      rw [validRange_iff, hm.capacity, hcapacity]
    · exact ⟨validRange_iff_readByte hpos, fun ha i hi => toNat_add_of_validRange ha hi⟩
  · rw [hfull]
    exact ⟨⟨fun hok => (nomatch hok), fun h => absurd h hc⟩, fun m₀ hm₀ => nomatch hm₀⟩

/-- Twelve bytes take two lanes. One access lacks the second of its two words, and another starts at
the last offset of all, from where it would come to the first byte. -/
theorem accesses_definedOn_twelve :
    ∃ m₀ m, zeroed 12 = .ok m₀ ∧ m₀.write 8 .double 0x0807060504030201 = .ok m ∧ m₀.Later m ∧
      (m.read 12 .word).isOk = true ∧ m.read 12 .double = .error .outOfRange ∧
      (m.readByte (0xffffffffffffffff + 1)).isOk = true ∧ 1 ≤ 2 ∧ 2 ≤ 8 ∧
      m.writeBytes 0xffffffffffffffff 0x0201 2 = .error .outOfRange := by
  obtain ⟨m₀, hm₀⟩ : ∃ m₀, zeroed 12 = .ok m₀ := ⟨_, rfl⟩
  have hexact := (accesses_definedOn 12).2 m₀ hm₀
  have hend : ∀ m, m₀.Later m → ∀ (a : Offset) (width : Nat),
      m.validRange a width = decide (a.toNat + width ≤ 16) := by
    intro m hm a width
    exact Bool.eq_iff_iff.mpr (((hexact m hm a).2.2.1 width).trans decide_eq_true_iff.symm)
  obtain ⟨m, hm⟩ := (((hexact m₀ .start 8).1 .double).2 0x0807060504030201).exists_ok
    (validRange_iff.mp (hend m₀ .start 8 8))
  have hlater := Later.start.write hm
  have hword := ((hexact m hlater 12).1 .word).1.isOk_iff.mpr (hend m hlater 12 4)
  have hdouble := ((hexact m hlater 12).1 .double).1.crash (hend m hlater 12 8)
  have hfirst := ((hexact m hlater (0xffffffffffffffff + 1)).1 .byte).1.isOk_iff.mpr
    (hend m hlater _ 1)
  have htwo := (hexact m hlater 0xffffffffffffffff).2.1 2 (by decide) (by decide)
  have hlast := (htwo.2 0x0201).crash (hend m hlater _ 2)
  exact ⟨m₀, m, hm₀, hm, hlater, hword, hdouble, hfirst, by decide, by decide, hlast⟩

end Hartwatch.Memory
