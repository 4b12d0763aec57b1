import Hartwatch.Proofs.Machine.Frame
import Hartwatch.Proofs.Memory.Range

/-! What the guest's loads find behind its stores. A load puts together the bytes at its address,
each of which is the stored one or the one that was there before. -/

namespace Hartwatch

theorem Width.ext_bytes {w : Width} {u v : w.Value}
    (h : ∀ i < w.bytes, u.extractLsb' (8 * i) 8 = v.extractLsb' (8 * i) 8) : u = v := by
  apply BitVec.eq_of_getLsbD_eq
  intro i hi
  have hlt : i % 8 < 8 := Nat.mod_lt _ (by decide)
  have hsplit : 8 * (i / 8) + i % 8 = i := Nat.div_add_mod i 8
  have hbit := congrArg (fun byte => byte.getLsbD (i % 8)) (h (i / 8) (by omega))
  simpa only [BitVec.getLsbD_extractLsb', hlt, hsplit, decide_true, Bool.true_and] using hbit

def Ram.Covers (r : Ram) (a : Word) (width : Nat) : Prop :=
  r.base.toNat ≤ a.toNat ∧ a.toNat + width ≤ r.base.toNat + r.memory.capacity

namespace Opcode

variable {o : Opcode} {w : Width}

def signed : Opcode → Bool
  | lb | lh | lw => true
  | _ => false

def extend {k : Nat} (o : Opcode) (u : BitVec k) : Word :=
  if o.signed then u.signExtend 32 else u.setWidth 32

theorem eq_signed_of_effect {pc a : Word} {x : Operands} {width : Nat} {signed : Bool}
    (hw : o.loads? = some w) (he : o.effect pc x = .ok (.load width signed a)) :
    signed = o.signed := by
  cases o
  case lb | lh | lw | lbu | lhu =>
    cases he
    rfl
  all_goals cases hw

theorem extend_setWidth (o : Opcode) (u : w.Value) :
    Hart.extend w.bytes o.signed (u.setWidth 64) = o.extend u := by
  have hw : 8 * w.bytes ≤ 64 := Nat.mul_le_mul_left 8 w.bytes_le
  rw [Hart.extend, extend, BitVec.setWidth_setWidth_of_le u hw, BitVec.setWidth_eq,
    BitVec.setWidth_setWidth_of_le u (by decide)]

end Opcode

namespace Hart

variable {h h₁ h₂ h₃ h' : Hart} {s s₁ s₂ : Step} {w w₁ w₂ : Width} {a a₁ a₂ v word : Word}

/-- A step completes if all bytes at an address lie in memory, and else it ends in a trap of one
kind with that address. -/
def FaultsOutside (h : Hart) (fault : Trap.Kind) (a : Word) (width : Nat) : Prop :=
  ∃ result h', h.step = .ok (result, h') ∧
    ∀ t, result = .error t ↔ t = ⟨fault, a⟩ ∧ ¬ h.ram.Covers a width

theorem faultsOutside_of_perform {e : Effect} {fault : Trap.Kind} {width : Nat}
    (hword : h.word? = some word)
    (he : (Opcode.ofWord word).effect h.pc (h.operands word) = .ok e)
    (hout : h.ram.inBounds a width = false →
      h.perform (.straight h.pc word) (h.operands word).rd e = .ok (.error ⟨fault, a⟩, h))
    (hin : h.ram.inBounds a width = true → ∃ next h₁,
      h.perform (.straight h.pc word) (h.operands word).rd e = .ok (.ok next, h₁)) :
    h.FaultsOutside fault a width := by
  have hfetch := fetch_of_word? hword
  cases hcovers : h.ram.inBounds a width with
  | false =>
    have hnot : ¬ h.ram.Covers a width := by
      rw [Ram.Covers, ← Ram.inBounds_iff_range, hcovers]
      decide
    refine ⟨_, _, step_of_perform_trap hfetch he (hout hcovers), fun t => ⟨fun ht => ?_, ?_⟩⟩
    · exact ⟨(Except.error.inj ht).symm, hnot⟩
    · rintro ⟨rfl, -⟩
      rfl
  | true =>
    obtain ⟨next, h₁, hperform⟩ := hin hcovers
    exact ⟨_, _, step_of_perform hfetch he hperform, fun t =>
      ⟨fun ht => (nomatch ht), fun ht => absurd (Ram.inBounds_iff_range.mp hcovers) ht.2⟩⟩

theorem faultsOutside_of_loads (hword : h.word? = some word)
    (hw : (Opcode.ofWord word).loads? = some w) :
    h.FaultsOutside .loadAccessFault (h.read (Instruction.rs1 word) + Instruction.immI word)
      w.bytes := by
  obtain ⟨signed, heffect⟩ := effect_of_loads hw
  refine faultsOutside_of_perform hword heffect perform_load_trap_iff.mpr fun hin => ?_
  obtain ⟨v, hv, -⟩ := Ram.load_of_inBounds w hin
  exact ⟨_, _, by rw [perform, hv]; rfl⟩

theorem faultsOutside_of_stores (hword : h.word? = some word)
    (hw : (Opcode.ofWord word).stores? = some w) :
    h.FaultsOutside .storeAccessFault (h.read (Instruction.rs1 word) + Instruction.immS word)
      w.bytes := by
  refine faultsOutside_of_perform hword (effect_of_stores hw) perform_store_trap_iff.mpr
    fun hin => ?_
  obtain ⟨m, hm, -⟩ :=
    Ram.store_of_inBounds w ((h.read (Instruction.rs2 word)).setWidth 64) hin
  exact ⟨_, _, by rw [perform, hm]; rfl⟩

open Instruction in
/-- A step stores the low bytes of a word at an address. -/
structure Stores (h : Hart) (s : Step) (w : Width) (a v : Word) (h' : Hart) : Prop where
  step : h.step = .ok (.ok s, h')
  width : s.opcode.stores? = some w
  address : h.read (rs1 s.word) + immS s.word = a
  value : h.read (rs2 s.word) = v

open Instruction in
/-- A step loads what stands at an address into a register that can be read. -/
structure Loads (h : Hart) (s : Step) (w : Width) (a : Word) (h' : Hart) : Prop where
  step : h.step = .ok (.ok s, h')
  width : s.opcode.loads? = some w
  address : h.read (rs1 s.word) + immI s.word = a
  destination : rd s.word ≠ .zero

theorem Stores.overwritten (hs : h.Stores s w a v h') : h.ram.Overwritten a w.bytes v h'.ram := by
  obtain ⟨hstep, hw, rfl, rfl⟩ := hs
  rw [opcode_of_step hstep] at hw
  obtain ⟨e, h₁, -, heffect, hleaves, -, rfl⟩ := step_completed hstep
  obtain rfl := Except.ok.inj ((effect_of_stores hw).symm.trans heffect)
  exact hleaves.overwritten

theorem Leaves.loaded {rd : Reg} {next : Word} {width : Nat} {signed : Bool}
    (hl : h.Leaves s rd (.load width signed a) next h') :
    ∃ v, h.ram.load a width = .ok (.ok v) ∧ h' = h.write rd (extend width signed v) := by
  cases hl with
  | load hloaded => exact ⟨_, hloaded, rfl⟩

theorem Loads.exists_value (hl : h.Loads s w a h') :
    ∃ u : w.Value, h'.read (Instruction.rd s.word) = s.opcode.extend u ∧
      ∀ i < w.bytes, h.ram.byte? (a.toNat + i) = some (u.extractLsb' (8 * i) 8) := by
  obtain ⟨hstep, hw, rfl, hrd⟩ := hl
  rw [opcode_of_step hstep] at hw ⊢
  obtain ⟨e, h₁, -, heffect, hleaves, -, rfl⟩ := step_completed hstep
  obtain ⟨signed, hload⟩ := effect_of_loads (h := h) hw
  obtain rfl := Except.ok.inj (hload.symm.trans heffect)
  obtain rfl := Opcode.eq_signed_of_effect hw hload
  obtain ⟨v, hloaded, rfl⟩ := hleaves.loaded
  cases hin : h.ram.inBounds _ w.bytes with
  | false => cases (Ram.load_of_not fun _ => hin).symm.trans hloaded
  | true =>
    obtain ⟨u, hu, hholds⟩ := Ram.load_of_inBounds w hin
    obtain rfl := Except.ok.inj (Except.ok.inj (hu.symm.trans hloaded))
    refine ⟨u, ?_, fun i hi => Ram.byte?_of_holds hin hholds hi⟩
    rw [← Opcode.extend_setWidth]
    exact (read_write_zero 0 _).trans (read_write_self _ hrd)

/-- A load behind a store reads the stored bytes where their addresses meet, and elsewhere the
bytes that were there before. -/
theorem Loads.after_store (hl : h₂.Loads s₂ w₂ a₂ h₃) (hram : h₂.ram = h₁.ram)
    (hs : h.Stores s₁ w₁ a₁ v h₁) :
    ∃ u : w₂.Value, h₃.read (Instruction.rd s₂.word) = s₂.opcode.extend u ∧ ∀ i < w₂.bytes,
      some (u.extractLsb' (8 * i) 8) =
        if a₁.toNat ≤ a₂.toNat + i ∧ a₂.toNat + i < a₁.toNat + w₁.bytes then
          some (v.extractLsb' (8 * (a₂.toNat + i - a₁.toNat)) 8)
        else h.ram.byte? (a₂.toNat + i) := by
  obtain ⟨u, hread, hbytes⟩ := hl.exists_value
  refine ⟨u, hread, fun i hi => ?_⟩
  have hfound := hs.overwritten.byte? (a₂.toNat + i)
  rw [← hram, hbytes i hi] at hfound
  exact hfound

theorem Loads.after_store_same (hl : h₂.Loads s₂ w a h₃) (hram : h₂.ram = h₁.ram)
    (hs : h.Stores s₁ w a v h₁) :
    h₃.read (Instruction.rd s₂.word) = s₂.opcode.extend (v.setWidth (8 * w.bytes)) := by
  obtain ⟨u, hread, hbytes⟩ := hl.after_store hram hs
  rw [hread]
  congr 1
  -- The ranges are the same, so each byte that is read is the stored one.
  refine Width.ext_bytes fun i hi => ?_
  have hbyte := hbytes i hi
  rw [if_pos (by omega), Nat.add_sub_cancel_left] at hbyte
  rw [Option.some.inj hbyte]
  apply BitVec.eq_of_getLsbD_eq
  intro j hj
  have hin : 8 * i + j < 8 * w.bytes := by omega
  simp only [BitVec.getLsbD_extractLsb', BitVec.getLsbD_setWidth, hin, decide_true, Bool.true_and]

theorem Loads.after_store_apart {h₀ h₀' : Hart} {s₀ : Step} (hl : h₂.Loads s₂ w₂ a₂ h₃)
    (hram : h₂.ram = h₁.ram) (hs : h.Stores s₁ w₁ a₁ v h₁)
    (hapart : a₂.toNat + w₂.bytes ≤ a₁.toNat ∨ a₁.toNat + w₁.bytes ≤ a₂.toNat)
    (hl₀ : h₀.Loads s₀ w₂ a₂ h₀') (hram₀ : h₀.ram = h.ram) (ho : s₀.opcode = s₂.opcode) :
    h₀'.read (Instruction.rd s₀.word) = h₃.read (Instruction.rd s₂.word) := by
  obtain ⟨u, hread, hbytes⟩ := hl.after_store hram hs
  obtain ⟨u₀, hread₀, hbytes₀⟩ := hl₀.exists_value
  rw [hread, hread₀, ho]
  congr 1
  refine Width.ext_bytes fun i hi => ?_
  have hbyte := hbytes i hi
  rw [if_neg (by omega), ← hram₀, hbytes₀ i hi] at hbyte
  exact (Option.some.inj hbyte).symm

/-- A load or a store traps with its own kind of fault, at its address, exactly if it would touch a
byte outside of memory. A load that completes behind a store gives what the store wrote, as far as
the addresses of their bytes are the same, and what memory held before elsewhere. -/
theorem load_after_store (h : Hart) :
    (∀ word w, h.word? = some word →
      ((Opcode.ofWord word).loads? = some w →
        h.FaultsOutside .loadAccessFault (h.read (Instruction.rs1 word) + Instruction.immI word)
          w.bytes) ∧
      ((Opcode.ofWord word).stores? = some w →
        h.FaultsOutside .storeAccessFault (h.read (Instruction.rs1 word) + Instruction.immS word)
          w.bytes)) ∧
    ∀ (s₁ : Step) (w₁ : Width) (a₁ v : Word) (h₁ : Hart), h.Stores s₁ w₁ a₁ v h₁ →
      ∀ (h₂ : Hart) (s₂ : Step) (w₂ : Width) (a₂ : Word) (h₃ : Hart), h₂.ram = h₁.ram →
        h₂.Loads s₂ w₂ a₂ h₃ →
        (a₂ = a₁ → w₂ = w₁ →
          h₃.read (Instruction.rd s₂.word) = s₂.opcode.extend (v.setWidth (8 * w₁.bytes))) ∧
        (a₂.toNat + w₂.bytes ≤ a₁.toNat ∨ a₁.toNat + w₁.bytes ≤ a₂.toNat →
          ∀ (h₀ : Hart) (s₀ : Step) (h₀' : Hart), h₀.ram = h.ram → h₀.Loads s₀ w₂ a₂ h₀' →
            s₀.opcode = s₂.opcode →
              h₀'.read (Instruction.rd s₀.word) = h₃.read (Instruction.rd s₂.word)) ∧
        ∃ u : w₂.Value, h₃.read (Instruction.rd s₂.word) = s₂.opcode.extend u ∧
          ∀ i < w₂.bytes, some (u.extractLsb' (8 * i) 8) =
            if a₁.toNat ≤ a₂.toNat + i ∧ a₂.toNat + i < a₁.toNat + w₁.bytes then
              some (v.extractLsb' (8 * (a₂.toNat + i - a₁.toNat)) 8)
            else h.ram.byte? (a₂.toNat + i) := by
  refine ⟨fun word w hword => ⟨faultsOutside_of_loads hword, faultsOutside_of_stores hword⟩, ?_⟩
  intro s₁ w₁ a₁ v h₁ hs h₂ s₂ w₂ a₂ h₃ hram hl
  refine ⟨?_, ?_, hl.after_store hram hs⟩
  · rintro rfl rfl
    exact hl.after_store_same hram hs
  · intro hapart h₀ s₀ h₀' hram₀ hl₀ ho
    exact hl.after_store_apart hram hs hapart hl₀ hram₀ ho

/-- The load reaches back by one byte from the store and fills its own address register. -/
theorem load_after_store_overlapping :
    ∃ (h h₁ h₃ : Hart) (s₁ s₂ : Step) (u : BitVec 16),
      holding [0x00b2a023, 0xfff29283] [(5, 0x80000021), (11, 0xdeadbeef)] = .ok h ∧
      h.Stores s₁ .word 0x80000021 0xdeadbeef h₁ ∧ h₁.Loads s₂ .half 0x80000020 h₃ ∧
      Instruction.rs1 s₂.word = 5 ∧ Instruction.rd s₂.word = 5 ∧
      h₃.read 5 = u.signExtend 32 ∧ h.ram.byte? 0x80000020 = some (u.extractLsb' 0 8) ∧
      u.extractLsb' 8 8 = 0xef := by
  have hcalls : (do
      let h ← holding [0x00b2a023, 0xfff29283] [(5, 0x80000021), (11, 0xdeadbeef)]
      let stored ← h.step
      let loaded ← stored.2.step
      return (h.read 5, h.read 11, stored.1.toOption, stored.2.read 5, loaded.1.toOption) :
        Except Crash _).toOption =
      some (0x80000021, 0xdeadbeef, some ⟨0x80000000, 0x80000004, 0x80000004, 0x00b2a023, .sw⟩,
        0x80000021, some ⟨0x80000004, 0x80000008, 0x80000008, 0xfff29283, .lh⟩) := by
    decide +kernel
  obtain ⟨h, hcreate, hcalls⟩ := bind_eq_ok (eq_ok_of_toOption hcalls)
  obtain ⟨⟨stored, h₁⟩, hstore, hcalls⟩ := bind_eq_ok hcalls
  obtain ⟨⟨loaded, h₃⟩, hload, hcalls⟩ := bind_eq_ok hcalls
  simp only [Prod.mk.injEq, Except.ok.injEq, pure, Except.pure] at hcalls
  obtain ⟨haddress, hvalue, hstored, haddress', hloaded⟩ := hcalls
  obtain rfl := eq_ok_of_toOption hstored
  obtain rfl := eq_ok_of_toOption hloaded
  have hs : h.Stores _ .word 0x80000021 0xdeadbeef h₁ :=
    ⟨hstore, rfl, by rw [show Instruction.rs1 _ = 5 from rfl, haddress]; rfl, hvalue⟩
  have hl : h₁.Loads _ .half 0x80000020 h₃ :=
    ⟨hload, rfl, by rw [show Instruction.rs1 _ = 5 from rfl, haddress']; rfl, by decide⟩
  obtain ⟨-, -, u, hread, hbytes⟩ := (load_after_store h).2 _ _ _ _ _ hs _ _ _ _ _ rfl hl
  refine ⟨h, h₁, h₃, _, _, u, hcreate, hs, hl, rfl, rfl, hread, (hbytes 0 (by decide)).symm, ?_⟩
  exact Option.some.inj (hbytes 1 (by decide))

end Hart

end Hartwatch
