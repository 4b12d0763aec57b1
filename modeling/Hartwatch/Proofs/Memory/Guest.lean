import Hartwatch.Image
import Hartwatch.Proofs.Memory.Accesses
import Hartwatch.Proofs.Outcome

/-! The guest's accesses. None of them crashes: one that lies in memory is done, and any other traps
and leaves memory as it is. The guest's memory is as large as its lanes are, so it ends up to seven
bytes behind the capacity it was made with. -/

namespace Hartwatch.Ram

variable {r r' r'' : Ram} {a : Word} {width : Nat} {v : BitVec 64}

def place (r : Ram) (a : Word) : Nat :=
  a.toNat - r.base.toNat

theorem toNat_offset (h : r.base ≤ a) : ((a - r.base).setWidth 64).toNat = r.place a := by
  have hle : r.base.toNat ≤ a.toNat := BitVec.le_def.mp h
  have hlt := a.isLt
  rw [BitVec.toNat_setWidth, BitVec.toNat_sub_of_le h, place]
  omega

theorem inBounds_iff : r.inBounds a width = true ↔
    r.base.toNat ≤ a.toNat ∧ r.place a + width ≤ r.memory.capacity := by
  rw [inBounds, Bool.and_eq_true, decide_eq_true_iff, BitVec.le_def]
  refine and_congr_right fun hle => ?_
  rw [Memory.validRange_iff, toNat_offset (BitVec.le_def.mpr hle)]

theorem locate_of_inBounds (h : r.inBounds a width = true) (fault : Trap.Kind) :
    ∃ o, r.locate a width fault = .ok (.ok o) ∧ o.toNat = r.place a ∧
      o.toNat + width ≤ r.memory.capacity := by
  obtain ⟨hle, hrange⟩ := inBounds_iff.mp h
  have hbase : r.base ≤ a := BitVec.le_def.mpr hle
  have ho := toNat_offset hbase
  refine ⟨_, ?_, ho, ho ▸ hrange⟩
  rw [locate, covers_eq, h, offset_of_le hbase]
  rfl

theorem locate_of_not_inBounds (h : r.inBounds a width = false) (fault : Trap.Kind) :
    r.locate a width fault = .ok (.error ⟨fault, a⟩) := by
  rw [locate, covers_eq, h]
  rfl

/-- The byte at a guest address, where addresses count on beyond the last one of 32 bits. -/
def byte? (r : Ram) (i : Nat) : Option Byte :=
  if r.base.toNat ≤ i ∧ i < r.base.toNat + r.memory.capacity then
    some (r.memory.byte (i - r.base.toNat))
  else none

theorem byte?_of_holds {k i : Nat} {v : BitVec k} (h : r.inBounds a width = true)
    (hv : r.memory.Holds (r.place a) width v) (hi : i < width) :
    r.byte? (a.toNat + i) = some (v.extractLsb' (8 * i) 8) := by
  obtain ⟨hle, hrange⟩ := inBounds_iff.mp h
  have hplace : a.toNat + i - r.base.toNat = r.place a + i := by
    rw [place]
    omega
  rw [byte?, if_pos (by omega), hplace]
  refine congrArg some (BitVec.eq_of_getLsbD_eq fun j hj => ?_)
  have hin : 8 * i + j < 8 * width := by omega
  have hbit : 8 * (r.place a + i) + j = 8 * r.place a + (8 * i + j) := by omega
  rw [r.memory.byte_holds, BitVec.getLsbD_extractLsb', hv, hbit]
  simp [hj, hin]

/-- The bytes of `r'` are those of `r`, but for the low `width` bytes of `v` from `a` on. -/
structure Overwritten {k : Nat} (r : Ram) (a : Word) (width : Nat) (v : BitVec k) (r' : Ram) :
    Prop where
  base : r'.base = r.base
  capacity : r'.memory.capacity = r.memory.capacity
  byte? : ∀ i, r'.byte? i =
    if a.toNat ≤ i ∧ i < a.toNat + width then some (v.extractLsb' (8 * (i - a.toNat)) 8)
    else r.byte? i

theorem overwritten_of_patched {k : Nat} {v : BitVec k} {m : Memory}
    (h : r.inBounds a width = true) (hm : r.memory.Patched (r.place a) width v m) :
    r.Overwritten a width v { r with memory := m } := by
  refine ⟨rfl, hm.capacity, fun i => ?_⟩
  obtain ⟨hle, hrange⟩ := inBounds_iff.mp h
  simp only [byte?, hm.capacity]
  rw [place] at hm hrange
  by_cases hi : a.toNat ≤ i ∧ i < a.toNat + width
  · have hplace : i - r.base.toNat - (a.toNat - r.base.toNat) = i - a.toNat := by omega
    rw [if_pos hi, if_pos (by omega), hm.byte_of_mem (by omega) (by omega), hplace]
  · rw [if_neg hi]
    by_cases hin : r.base.toNat ≤ i ∧ i < r.base.toNat + r.memory.capacity
    · rw [if_pos hin, if_pos hin, hm.byte_of_not_mem (by omega)]
    · rw [if_neg hin, if_neg hin]

theorem fetch_of_inBounds (h : r.inBounds a 4 = true) :
    ∃ word, r.fetch a = .ok (.ok word) ∧ r.memory.Holds (r.place a) 4 word := by
  obtain ⟨o, ho, hplace, hrange⟩ := locate_of_inBounds h .instructionAccessFault
  obtain ⟨word, hword, hholds⟩ := Memory.readWord_holds hrange
  refine ⟨word, ?_, hplace ▸ hholds⟩
  simp only [fetch, ho, ok_bind, hword]
  rfl

theorem fetch_of_not_inBounds (h : r.inBounds a 4 = false) :
    r.fetch a = .ok (.error ⟨.instructionAccessFault, a⟩) := by
  rw [fetch, locate_of_not_inBounds h]
  rfl

theorem load_of_locate (w : Width) {o : Offset}
    (ho : r.locate a w.bytes .loadAccessFault = .ok (.ok o)) :
    r.load a w.bytes = r.memory.read o w >>= fun v => .ok (.ok (v.setWidth 64)) := by
  rw [load, ho, ok_bind]
  cases w with
  | byte => rfl
  | half => rfl
  | word => rfl
  | double =>
    have hv : ∀ v : Width.double.Value, v.setWidth 64 = v := BitVec.setWidth_eq
    simp only [hv]
    rfl

theorem load_of_inBounds (w : Width) (h : r.inBounds a w.bytes = true) :
    ∃ v : w.Value, r.load a w.bytes = .ok (.ok (v.setWidth 64)) ∧
      r.memory.Holds (r.place a) w.bytes v := by
  obtain ⟨o, ho, hplace, hrange⟩ := locate_of_inBounds h .loadAccessFault
  obtain ⟨v, hv, hholds⟩ := Memory.read_holds w hrange
  exact ⟨v, by rw [load_of_locate w ho, hv]; rfl, hplace ▸ hholds⟩

theorem store_of_locate (w : Width) {o : Offset}
    (ho : r.locate a w.bytes .storeAccessFault = .ok (.ok o)) :
    r.store a w.bytes v =
      r.memory.write o w (v.setWidth _) >>= fun m => .ok (.ok (), { r with memory := m }) := by
  rw [store, ho, ok_bind]
  cases w with
  | byte => rfl
  | half => rfl
  | word => rfl
  | double =>
    have hv : v.setWidth (8 * Width.double.bytes) = v := BitVec.setWidth_eq v
    rw [hv]
    rfl

theorem store_of_inBounds (w : Width) (v : BitVec 64) (h : r.inBounds a w.bytes = true) :
    ∃ m, r.store a w.bytes v = .ok (.ok (), { r with memory := m }) ∧
      r.memory.Patched (r.place a) w.bytes v m := by
  obtain ⟨o, ho, hplace, hrange⟩ := locate_of_inBounds h .storeAccessFault
  obtain ⟨m, hm, hpatched⟩ := Memory.write_patched w (v.setWidth _) hrange
  exact ⟨m, by rw [store_of_locate w ho, hm]; rfl,
    hplace ▸ hpatched.of_setWidth (Nat.le_refl _)⟩

theorem load_of_not (h : width ∈ [1, 2, 4, 8] → r.inBounds a width = false) :
    r.load a width = .ok (.error ⟨.loadAccessFault, a⟩) := by
  by_cases hin : r.inBounds a width = true
  · obtain ⟨o, ho, -⟩ := locate_of_inBounds hin .loadAccessFault
    simp only [load, ho, ok_bind]
    split
    case h_5 => rfl
    all_goals simp [hin] at h
  · rw [load, locate_of_not_inBounds (by simpa using hin)]
    rfl

theorem store_of_not (v : BitVec 64) (h : width ∈ [1, 2, 4, 8] → r.inBounds a width = false) :
    r.store a width v = .ok (.error ⟨.storeAccessFault, a⟩, r) := by
  by_cases hin : r.inBounds a width = true
  · obtain ⟨o, ho, -⟩ := locate_of_inBounds hin .storeAccessFault
    simp only [store, ho, ok_bind]
    split
    case h_5 => rfl
    all_goals simp [hin] at h
  · rw [store, locate_of_not_inBounds (by simpa using hin)]
    rfl

theorem writeAll_copied {m : Memory} {o : Offset} {i : Nat} {bytes : List Byte}
    (h : o.toNat + i + bytes.length ≤ m.capacity) :
    ∃ m', writeAll m o i bytes = .ok m' ∧ m.Copied (o.toNat + i) bytes m' := by
  induction bytes generalizing m i with
  | nil => exact ⟨m, rfl, rfl, fun i b hb => (nomatch hb), fun i _ => rfl⟩
  | cons b bytes ih =>
    rw [List.length_cons] at h
    have hcapacity := m.capacity_lt
    have hplace : (o + .ofNat 64 i).toNat = o.toNat + i := m.toNat_add_of_le i (by omega)
    obtain ⟨m₁, hbyte, hpatched⟩ :=
      Memory.writeByte_patched (a := o + .ofNat 64 i) (m := m) b (by omega)
    obtain ⟨m₂, hrest, hcopied⟩ := ih (m := m₁) (i := i + 1) (by rw [hpatched.capacity]; omega)
    refine ⟨m₂, ?_, .cons (hplace ▸ hpatched) hcopied⟩
    rw [writeAll, Checked.add_of_lt (by omega), ok_bind, hbyte, ok_bind, hrest]

/-- The bytes of `r'` are those of `r`, but for a copy of some bytes from `a` on. -/
structure Copied (r : Ram) (a : Word) (bytes : List Byte) (r' : Ram) : Prop where
  base : r'.base = r.base
  capacity : r'.memory.capacity = r.memory.capacity
  inside : ∀ i b, bytes[i]? = some b → r'.byte? (a.toNat + i) = some b
  outside : ∀ i, i < a.toNat ∨ a.toNat + bytes.length ≤ i → r'.byte? i = r.byte? i

theorem copied_of_memory {bytes : List Byte} {m : Memory}
    (h : r.inBounds a bytes.length = true) (hm : r.memory.Copied (r.place a) bytes m) :
    r.Copied a bytes { r with memory := m } := by
  obtain ⟨hle, hrange⟩ := inBounds_iff.mp h
  rw [place] at hm hrange
  refine ⟨rfl, hm.capacity, fun i b hb => ?_, fun i hi => ?_⟩
  · have hi : i < bytes.length := (List.getElem?_eq_some_iff.mp hb).1
    have hplace : a.toNat + i - r.base.toNat = a.toNat - r.base.toNat + i := by omega
    simp only [byte?, hm.capacity]
    rw [if_pos (by omega), hplace, hm.inside i b hb]
  · simp only [byte?, hm.capacity]
    by_cases hin : r.base.toNat ≤ i ∧ i < r.base.toNat + r.memory.capacity
    · rw [if_pos hin, if_pos hin, hm.outside _ (by omega)]
    · rw [if_neg hin, if_neg hin]

theorem storeBytes_of_inBounds {bytes : List Byte} (h : r.inBounds a bytes.length = true) :
    ∃ r', r.storeBytes a bytes = .ok (.ok (), r') ∧ r.Copied a bytes r' := by
  obtain ⟨o, ho, hplace, hrange⟩ := locate_of_inBounds h .storeAccessFault
  obtain ⟨m, hm, hcopied⟩ := writeAll_copied (i := 0) hrange
  refine ⟨{ r with memory := m }, ?_, copied_of_memory h (hplace ▸ hcopied)⟩
  simp only [storeBytes, ho, ok_bind, hm]
  rfl

theorem storeBytes_of_not {bytes : List Byte} (h : r.inBounds a bytes.length = false) :
    r.storeBytes a bytes = .ok (.error ⟨.storeAccessFault, a⟩, r) := by
  rw [storeBytes, locate_of_not_inBounds h]
  rfl

theorem exists_width (h : width ∈ [1, 2, 4, 8]) : ∃ w : Width, w.bytes = width := by
  simp only [List.mem_cons, List.not_mem_nil, or_false] at h
  rcases h with rfl | rfl | rfl | rfl
  · exact ⟨.byte, rfl⟩
  · exact ⟨.half, rfl⟩
  · exact ⟨.word, rfl⟩
  · exact ⟨.double, rfl⟩

theorem store_cases (r : Ram) (a : Word) (width : Nat) (v : BitVec 64) :
    (width ∈ [1, 2, 4, 8] ∧ r.inBounds a width = true) ∧
        (∃ m, r.store a width v = .ok (.ok (), { r with memory := m }) ∧
          r.memory.Patched (r.place a) width v m) ∨
      ¬ (width ∈ [1, 2, 4, 8] ∧ r.inBounds a width = true) ∧
        r.store a width v = .ok (.error ⟨.storeAccessFault, a⟩, r) := by
  by_cases h : width ∈ [1, 2, 4, 8] ∧ r.inBounds a width = true
  · obtain ⟨w, rfl⟩ := exists_width h.1
    exact .inl ⟨h, store_of_inBounds w v h.2⟩
  · exact .inr ⟨h, store_of_not v fun hw => by simpa [hw] using h⟩

theorem storeBytes_cases (r : Ram) (a : Word) (bytes : List Byte) :
    r.inBounds a bytes.length = true ∧
        (∃ r', r.storeBytes a bytes = .ok (.ok (), r') ∧ r.Copied a bytes r') ∨
      r.inBounds a bytes.length = false ∧
        r.storeBytes a bytes = .ok (.error ⟨.storeAccessFault, a⟩, r) := by
  by_cases h : r.inBounds a bytes.length = true
  · exact .inl ⟨h, storeBytes_of_inBounds h⟩
  · have hnot : r.inBounds a bytes.length = false := by simpa using h
    exact .inr ⟨hnot, storeBytes_of_not hnot⟩

/-- Every access ends without a crash: it is done exactly if it lies in memory and has a width of
the machine's, and else traps with its own kind of fault at its address and writes nothing. -/
theorem accesses_total (r : Ram) (a : Word) (width : Nat) (v : BitVec 64) (bytes : List Byte) :
    (∃ loaded, r.load a width = .ok loaded ∧
      (loaded.isOk = true ↔ width ∈ [1, 2, 4, 8] ∧ r.base.toNat ≤ a.toNat ∧
        a.toNat - r.base.toNat + width ≤ r.memory.capacity) ∧
      ∀ t, loaded = .error t → t = ⟨.loadAccessFault, a⟩) ∧
    (∃ stored r', r.store a width v = .ok (stored, r') ∧
      (stored.isOk = true ↔ width ∈ [1, 2, 4, 8] ∧ r.base.toNat ≤ a.toNat ∧
        a.toNat - r.base.toNat + width ≤ r.memory.capacity) ∧
      ∀ t, stored = .error t → t = ⟨.storeAccessFault, a⟩ ∧ r' = r) ∧
    (∃ fetched loaded, r.fetch a = .ok fetched ∧ r.load a 4 = .ok loaded ∧
      fetched.toOption.map (·.setWidth 64) = loaded.toOption ∧
      ∀ t, fetched = .error t → t = ⟨.instructionAccessFault, a⟩) ∧
    ∃ stored r', r.storeBytes a bytes = .ok (stored, r') ∧
      (stored.isOk = true ↔ r.base.toNat ≤ a.toNat ∧
        a.toNat - r.base.toNat + bytes.length ≤ r.memory.capacity) ∧
      ∀ t, stored = .error t → t = ⟨.storeAccessFault, a⟩ ∧ r' = r := by
  rw [← place, ← inBounds_iff, ← inBounds_iff]
  refine ⟨?_, ?_, ?_, ?_⟩
  · by_cases h : width ∈ [1, 2, 4, 8] ∧ r.inBounds a width = true
    · obtain ⟨w, rfl⟩ := exists_width h.1
      obtain ⟨u, hu, -⟩ := load_of_inBounds w h.2
      exact ⟨_, hu, ⟨fun _ => h, fun _ => rfl⟩, fun t ht => nomatch ht⟩
    · have hload : r.load a width = .ok (.error ⟨.loadAccessFault, a⟩) :=
        load_of_not fun hw => by simpa [hw] using h
      exact ⟨_, hload, ⟨fun hok => (nomatch hok), fun hc => absurd hc h⟩,
        fun t ht => (Except.error.inj ht).symm⟩
  · rcases r.store_cases a width v with ⟨h, m, hm, -⟩ | ⟨h, hstore⟩
    · exact ⟨_, _, hm, ⟨fun _ => h, fun _ => rfl⟩, fun t ht => nomatch ht⟩
    · exact ⟨_, _, hstore, ⟨fun hok => (nomatch hok), fun hc => absurd hc h⟩,
        fun t ht => ⟨(Except.error.inj ht).symm, rfl⟩⟩
  · by_cases h : r.inBounds a 4 = true
    · obtain ⟨word, hword, hholds⟩ := fetch_of_inBounds h
      obtain ⟨u, hu, hholds'⟩ := load_of_inBounds .word h
      obtain rfl : word = u := hholds.eq hholds'
      exact ⟨_, _, hword, hu, rfl, fun t ht => nomatch ht⟩
    · have hnot : r.inBounds a 4 = false := by simpa using h
      exact ⟨_, _, fetch_of_not_inBounds hnot, load_of_not fun _ => hnot, rfl,
        fun t ht => (Except.error.inj ht).symm⟩
  · rcases r.storeBytes_cases a bytes with ⟨h, m, hm, -⟩ | ⟨h, hstore⟩
    · exact ⟨_, _, hm, ⟨fun _ => h, fun _ => rfl⟩, fun t ht => nomatch ht⟩
    · exact ⟨_, _, hstore, ⟨fun hok => (nomatch hok), fun hc => absurd hc (by rw [h]; decide)⟩,
        fun t ht => ⟨(Except.error.inj ht).symm, rfl⟩⟩

end Hartwatch.Ram
