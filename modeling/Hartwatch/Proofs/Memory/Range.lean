import Hartwatch.Proofs.Memory.Definedness
import Hartwatch.Proofs.Memory.Guest

/-! Where the guest's memory starts and ends, from when it is made on. It ends with its last lane,
which is where its capacity ends if that is a multiple of eight. -/

namespace Hartwatch.Ram

variable {r r₀ r' : Ram} {base a : Word} {capacity width i : Nat}

inductive Later (r₀ : Ram) : Ram → Prop
  | start : r₀.Later r₀
  | store {r r' : Ram} {a : Word} {width : Nat} {v : BitVec 64} {stored : Except Trap Unit} :
    r₀.Later r → r.store a width v = .ok (stored, r') → r₀.Later r'
  | storeBytes {r r' : Ram} {a : Word} {bytes : List Byte} {stored : Except Trap Unit} :
    r₀.Later r → r.storeBytes a bytes = .ok (stored, r') → r₀.Later r'

theorem store_keeps {v : BitVec 64} {stored : Except Trap Unit}
    (h : r.store a width v = .ok (stored, r')) :
    r'.base = r.base ∧ r'.memory.capacity = r.memory.capacity := by
  rcases r.store_cases a width v with ⟨-, m, hm, hpatched⟩ | ⟨-, hstore⟩
  · obtain ⟨-, rfl⟩ := Prod.mk.inj (Except.ok.inj (hm.symm.trans h))
    exact ⟨rfl, hpatched.capacity⟩
  · obtain ⟨-, rfl⟩ := Prod.mk.inj (Except.ok.inj (hstore.symm.trans h))
    exact ⟨rfl, rfl⟩

theorem storeBytes_keeps {bytes : List Byte} {stored : Except Trap Unit}
    (h : r.storeBytes a bytes = .ok (stored, r')) :
    r'.base = r.base ∧ r'.memory.capacity = r.memory.capacity := by
  rcases r.storeBytes_cases a bytes with ⟨-, r₁, hr, hcopied⟩ | ⟨-, hstore⟩
  · obtain ⟨-, rfl⟩ := Prod.mk.inj (Except.ok.inj (hr.symm.trans h))
    exact ⟨hcopied.base, hcopied.capacity⟩
  · obtain ⟨-, rfl⟩ := Prod.mk.inj (Except.ok.inj (hstore.symm.trans h))
    exact ⟨rfl, rfl⟩

theorem Later.keeps (h : r₀.Later r) :
    r.base = r₀.base ∧ r.memory.capacity = r₀.memory.capacity := by
  induction h with
  | start => exact ⟨rfl, rfl⟩
  | store _ hstore ih =>
    obtain ⟨hbase, hcapacity⟩ := store_keeps hstore
    exact ⟨hbase.trans ih.1, hcapacity.trans ih.2⟩
  | storeBytes _ hstore ih =>
    obtain ⟨hbase, hcapacity⟩ := storeBytes_keeps hstore
    exact ⟨hbase.trans ih.1, hcapacity.trans ih.2⟩

/-- The size of the lanes that a capacity needs. -/
def laneSize (capacity : Nat) : Nat :=
  8 * ((capacity + 7) / 8)

theorem zeroed_cases (base : Word) (capacity : Nat) :
    capacity + 7 < 1 <<< 63 ∧ (∃ r, zeroed base capacity = .ok r ∧ r.base = base ∧
        r.memory.capacity = laneSize capacity) ∨
      ¬ capacity + 7 < 1 <<< 63 ∧ zeroed base capacity = .error .allocation := by
  rcases Memory.zeroed_cases capacity with ⟨hc, m, hm, hcapacity⟩ | ⟨hc, hfull⟩
  · rw [zeroed, hm]
    exact .inl ⟨hc, ⟨base, m⟩, rfl, rfl, hcapacity⟩
  · rw [zeroed, hfull]
    exact .inr ⟨hc, rfl⟩

theorem le_laneSize (capacity : Nat) : capacity ≤ laneSize capacity := by
  simp only [laneSize]
  omega

theorem laneSize_eq_iff (capacity : Nat) : laneSize capacity = capacity ↔ 8 ∣ capacity := by
  simp only [laneSize]
  omega

theorem inBounds_iff_range : r.inBounds a width = true ↔
    r.base.toNat ≤ a.toNat ∧ a.toNat + width ≤ r.base.toNat + r.memory.capacity := by
  rw [inBounds_iff, place]
  omega

theorem load_image_of_not_inBounds {m : Machine} {image : List Byte} (hne : image ≠ [])
    (h : m.hart.ram.inBounds m.config.resetVector image.length = false) :
    m.load image =
      .ok (.error (.tooLarge image.length m.config.memorySize m.config.memoryBase), m) := by
  have hempty : image.isEmpty = false := by simpa using hne
  simp only [Machine.load, hempty, covers_eq, ok_bind, h]
  rfl

/-- The guest's memory is what its lanes hold, from its base on. An access that touches a byte
outside of it faults, and an image does not fit that would. -/
theorem range_of_zeroed (base : Word) (capacity : Nat) :
    (laneSize capacity = capacity ↔ 8 ∣ capacity) ∧
    ((zeroed base capacity).isOk = true ↔ capacity + 7 < 1 <<< 63) ∧
    ∀ r₀, zeroed base capacity = .ok r₀ → ∀ r, r₀.Later r →
      (∀ a width, r.inBounds a width = true ↔
        base.toNat ≤ a.toNat ∧ a.toNat + width ≤ base.toNat + laneSize capacity) ∧
      ∀ a width i, i < width →
        ¬ (base.toNat ≤ a.toNat + i ∧ a.toNat + i < base.toNat + laneSize capacity) →
        r.load a width = .ok (.error ⟨.loadAccessFault, a⟩) ∧
        (∀ v, r.store a width v = .ok (.error ⟨.storeAccessFault, a⟩, r)) ∧
        (width = 4 → r.fetch a = .ok (.error ⟨.instructionAccessFault, a⟩)) ∧
        ∀ bytes, bytes.length = width →
          r.storeBytes a bytes = .ok (.error ⟨.storeAccessFault, a⟩, r) ∧
          ∀ m : Machine, m.hart.ram = r → m.config.resetVector = a → m.load bytes =
            .ok (.error (.tooLarge width m.config.memorySize m.config.memoryBase), m) := by
  refine ⟨laneSize_eq_iff capacity, ?_⟩
  rcases zeroed_cases base capacity with ⟨hc, r₁, hr₁, hbase, hcapacity⟩ | ⟨hc, hfull⟩
  · rw [hr₁]
    refine ⟨⟨fun _ => hc, fun _ => rfl⟩, fun r₀ hr₀ r hr => ?_⟩
    obtain rfl := Except.ok.inj hr₀
    obtain ⟨hbase', hcapacity'⟩ := hr.keeps
    have hrange : ∀ a width, r.inBounds a width = true ↔
        base.toNat ≤ a.toNat ∧ a.toNat + width ≤ base.toNat + laneSize capacity := by
      intro a width
      rw [inBounds_iff_range, hbase', hcapacity', hbase, hcapacity]
    refine ⟨hrange, fun a width i hi hout => ?_⟩
    have hnot : r.inBounds a width = false := by
      rw [← Bool.not_eq_true, hrange a width]
      omega
    refine ⟨load_of_not fun _ => hnot, fun v => store_of_not v fun _ => hnot, ?_, ?_⟩
    · rintro rfl
      exact fetch_of_not_inBounds hnot
    · rintro bytes rfl
      refine ⟨storeBytes_of_not hnot, ?_⟩
      rintro m rfl rfl
      have hne : bytes ≠ [] := List.ne_nil_of_length_pos (by omega)
      exact load_image_of_not_inBounds hne hnot
  · rw [hfull]
    exact ⟨⟨fun hok => (nomatch hok), fun h => absurd h hc⟩, fun r₀ hr₀ => nomatch hr₀⟩

/-- Twelve bytes take two lanes, and the access goes one byte too far. -/
theorem range_of_zeroed_twelve :
    ∃ r₀ r, zeroed 0x80000000 12 = .ok r₀ ∧
      r₀.store 0x80000008 4 1 = .ok (.ok (), r) ∧ r₀.Later r ∧
      r.inBounds 0x8000000c 4 = true ∧ 3 < 4 ∧
      ¬ (0x80000000 ≤ 0x8000000d + 3 ∧ 0x8000000d + 3 < 0x80000000 + laneSize 12) ∧
      r.load 0x8000000d 4 = .ok (.error ⟨.loadAccessFault, 0x8000000d⟩) := by
  obtain ⟨r₀, hr₀⟩ : ∃ r₀, zeroed 0x80000000 12 = .ok r₀ := ⟨_, rfl⟩
  have hrange := (range_of_zeroed 0x80000000 12).2.2 r₀ hr₀
  have hfirst : r₀.inBounds 0x80000008 Width.word.bytes = true :=
    ((hrange r₀ .start).1 _ _).mpr (by decide)
  obtain ⟨m, hm, -⟩ := store_of_inBounds .word 1 hfirst
  have hlater := Later.start.store hm
  have hin := ((hrange _ hlater).1 0x8000000c 4).mpr (by decide)
  have hout : ¬ (0x80000000 ≤ 0x8000000d + 3 ∧ 0x8000000d + 3 < 0x80000000 + laneSize 12) := by
    decide
  have hfault := ((hrange _ hlater).2 0x8000000d 4 3 (by decide) hout).1
  exact ⟨r₀, _, hr₀, hm, hlater, hin, by decide, hout, hfault⟩

/-- A memory of one byte lets the guest at the byte behind it. -/
theorem inBounds_behind_capacity :
    ¬ ∀ (base : Word) (capacity : Nat) (r : Ram), zeroed base capacity = .ok r →
      ∀ a width, 1 ≤ width → (r.inBounds a width = true ↔
        base.toNat ≤ a.toNat ∧ a.toNat + width ≤ base.toNat + capacity) := by
  intro hall
  obtain ⟨r, hr⟩ : ∃ r, zeroed 0x80000000 1 = .ok r := ⟨_, rfl⟩
  have hin : r.inBounds 0x80000001 1 = true := by
    cases hr
    decide
  have hrange := (hall 0x80000000 1 r hr 0x80000001 1 (by decide)).mp hin
  exact absurd hrange (by decide)

end Hartwatch.Ram
