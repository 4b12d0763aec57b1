import Hartwatch.Proofs.Instruction.Masks
import Hartwatch.Proofs.Machine.Faults

/-! What an instruction that completes leaves as it was. It may fill the register that its word
names as the destination, and a store replaces the bytes at its address: nothing else changes but
the pc. -/

namespace Hartwatch

variable {word : Word} {e : Effect}

theorem Word.and_32_eq_zero_iff (x : Word) : x &&& 32 = 0 ↔ x.getLsbD 5 = false := by
  have hpow : (32 : Word) = BitVec.twoPow 32 5 := rfl
  rw [hpow, BitVec.and_twoPow]
  cases x.getLsbD 5 <;> decide

theorem Instruction.immI_and_32 (word : Word) : immI word &&& 32 = 0 ↔ word.getLsbD 25 = false := by
  have hbit : (immI word).getLsbD 5 = word.getLsbD 25 := by
    rw [immI_eq, BitVec.getLsbD_signExtend, BitVec.getLsbD_extractLsb']
    rfl
  rw [Word.and_32_eq_zero_iff, hbit]

namespace Opcode

variable {pc : Word} {x : Operands} {o : Opcode} {width : Nat} {a v : Word}

def branches : Opcode → Bool
  | beq | bne | blt | bge | bltu | bgeu => true
  | _ => false

def shiftsByImmediate : Opcode → Bool
  | slli | srli | srai => true
  | _ => false

/-- Whether an instruction leaves the register alone that its word names as the destination. -/
def SparesDestination (o : Opcode) (word : Word) : Prop :=
  (∃ w, o.stores? = some w) ∨ o.branches = true ∨
    o.shiftsByImmediate = true ∧ word.getLsbD 25 = true

theorem effect_of_branches (h : o.branches = true) (pc : Word) (x : Operands) :
    ∃ taken target, o.effect pc x = .ok (.branch taken target) := by
  cases o
  case beq | bne | blt | bge | bltu | bgeu => exact ⟨_, _, rfl⟩
  all_goals cases h

theorem effect_of_shiftsByImmediate (h : o.shiftsByImmediate = true) (pc : Word) (x : Operands) :
    o.format = .I ∧ ∃ shift, o.effect pc x = Effect.ofShift shift x.src1 x.imm := by
  cases o
  case slli | srli | srai => exact ⟨rfl, _, rfl⟩
  all_goals cases h

theorem stores?_of_effect (h : o.effect pc x = .ok (.store width a v)) :
    ∃ w, o.stores? = some w := by
  rcases effect_cases h with hquiet | ⟨w, hw⟩ | hw | ⟨-, he⟩ | ⟨-, he⟩ | ⟨-, he⟩
  · exact absurd (hquiet ⟨.replicate 32 0, 0, 0, .empty⟩ 0) (by simp [Effect.trap?])
  · obtain ⟨-, signed, hload⟩ := effect_of_loads hw pc x
    cases Except.ok.inj (hload.symm.trans h)
  · exact hw
  all_goals cases he

end Opcode

namespace Effect

def sparesDestination : Effect → Bool
  | skip | branch _ _ | store _ _ _ => true
  | _ => false

end Effect

namespace Hart

variable {h h' : Hart} {s : Step} {rd r : Reg} {next v : Word} {w : Width}

/-- What an effect leaves behind that ends without a trap, and where the program goes on. -/
inductive Leaves (h : Hart) (s : Step) (rd : Reg) : Effect → Word → Hart → Prop
  | skip : h.Leaves s rd .skip s.fallThrough h
  | write (v : Word) : h.Leaves s rd (.write v) s.fallThrough (h.write rd v)
  | jump (target : Word) : h.Leaves s rd (.jump target) target (h.write rd s.fallThrough)
  | branch (taken : Bool) (target : Word) :
    h.Leaves s rd (.branch taken target) (if taken then target else s.fallThrough) h
  | load {width : Nat} {signed : Bool} {a : Word} {v : BitVec 64} :
    h.ram.load a width = .ok (.ok v) →
    h.Leaves s rd (.load width signed a) s.fallThrough (h.write rd (extend width signed v))
  | store {width : Nat} {a v : Word} {ram : Ram} :
    h.ram.store a width (v.setWidth 64) = .ok (.ok (), ram) →
    h.Leaves s rd (.store width a v) s.fallThrough { h with ram }

theorem perform_leaves (hp : h.perform s rd e = .ok (.ok next, h')) :
    h.Leaves s rd e next h' := by
  cases e with
  | illegal | environmentCall | breakpoint => cases hp
  | skip =>
    obtain ⟨hnext, rfl⟩ := Prod.mk.inj (Except.ok.inj hp)
    obtain rfl := Except.ok.inj hnext
    exact .skip
  | write v =>
    obtain ⟨hnext, rfl⟩ := Prod.mk.inj (Except.ok.inj hp)
    obtain rfl := Except.ok.inj hnext
    exact .write v
  | jump target =>
    obtain ⟨hnext, rfl⟩ := Prod.mk.inj (Except.ok.inj hp)
    obtain rfl := Except.ok.inj hnext
    exact .jump target
  | branch taken target =>
    obtain ⟨hnext, rfl⟩ := Prod.mk.inj (Except.ok.inj hp)
    obtain rfl := Except.ok.inj hnext
    exact .branch taken target
  | load width signed a =>
    obtain ⟨r, hload, hr⟩ := bind_eq_ok hp
    cases r with
    | error t => cases hr
    | ok v =>
      obtain ⟨hnext, rfl⟩ := Prod.mk.inj (Except.ok.inj hr)
      obtain rfl := Except.ok.inj hnext
      exact .load hload
  | store width a v =>
    obtain ⟨⟨r, ram⟩, hstore, hr⟩ := bind_eq_ok hp
    obtain ⟨hnext, rfl⟩ := Prod.mk.inj (Except.ok.inj hr)
    cases r with
    | error t => cases hnext
    | ok u =>
      obtain rfl := Except.ok.inj hnext
      exact .store hstore

theorem Leaves.read (hl : h.Leaves s rd e next h') (hr : e.sparesDestination = true ∨ r ≠ rd) :
    h'.read r = h.read r := by
  cases hl with
  | skip | branch => rfl
  | store => rfl
  | write | jump | load => exact read_write_ne _ (hr.resolve_left fun he => nomatch he)

theorem Leaves.ram (hl : h.Leaves s rd e next h') (he : ∀ width a v, e ≠ .store width a v) :
    h'.ram = h.ram := by
  cases hl with
  | store => exact absurd rfl (he _ _ _)
  | skip | branch | write | jump | load => rfl

theorem Leaves.overwritten {a : Word} (hl : h.Leaves s rd (.store w.bytes a v) next h') :
    h.ram.Overwritten a w.bytes v h'.ram := by
  cases hl with
  | store hstore =>
    rcases h.ram.store_cases a w.bytes (v.setWidth 64) with
      ⟨⟨-, hin⟩, m, hm, hpatched⟩ | ⟨-, htrap⟩
    · obtain ⟨-, rfl⟩ := Prod.mk.inj (Except.ok.inj (hm.symm.trans hstore))
      exact Ram.overwritten_of_patched hin
        (hpatched.of_setWidth (Nat.mul_le_mul_left 8 w.bytes_le))
    · cases htrap.symm.trans hstore

theorem operands_rd (h : Hart) (word : Word) : (h.operands word).rd = Instruction.rd word := by
  unfold operands
  cases (Opcode.ofWord word).format <;> rfl

theorem step_completed (hs : h.step = .ok (.ok s, h')) :
    ∃ e h₁, h.ram.fetch h.pc = .ok (.ok s.word) ∧
      (Opcode.ofWord s.word).effect h.pc (h.operands s.word) = .ok e ∧
      h.Leaves (.straight h.pc s.word) (Instruction.rd s.word) e s.next h₁ ∧
      s = { Step.straight h.pc s.word with next := s.next } ∧
      h' = { h₁.write .zero 0 with pc := s.next } := by
  obtain ⟨r, hfetch, hr⟩ := bind_eq_ok hs
  cases r with
  | error t => cases hr
  | ok word =>
    obtain ⟨e, heffect, hr⟩ := bind_eq_ok hr
    obtain ⟨⟨result, h₁⟩, hperform, hr⟩ := bind_eq_ok hr
    cases result with
    | error t => cases hr
    | ok next =>
      obtain ⟨hstep, rfl⟩ := Prod.mk.inj (Except.ok.inj hr)
      obtain rfl := Except.ok.inj hstep
      have hleaves : h.Leaves (.straight h.pc word) (h.operands word).rd e next h₁ :=
        perform_leaves hperform
      rw [operands_rd] at hleaves
      exact ⟨e, h₁, hfetch, heffect, hleaves, rfl, rfl⟩

theorem opcode_of_step (hs : h.step = .ok (.ok s, h')) : s.opcode = .ofWord s.word := by
  obtain ⟨e, h₁, -, -, -, hrecord, -⟩ := step_completed hs
  rw [hrecord]
  rfl

theorem effect_of_reserved (hshift : (Opcode.ofWord word).shiftsByImmediate = true)
    (hbit : word.getLsbD 25 = true) :
    (Opcode.ofWord word).effect h.pc (h.operands word) = .ok .skip := by
  obtain ⟨hformat, shift, heffect⟩ :=
    Opcode.effect_of_shiftsByImmediate hshift h.pc (h.operands word)
  have himm : (h.operands word).imm = Instruction.immI word := by rw [operands, hformat]; rfl
  have hreserved : ¬ Instruction.immI word &&& 32 = 0 := by
    rw [Instruction.immI_and_32, hbit]
    decide
  rw [heffect, himm, Effect.ofShift, if_neg hreserved]
  rfl

theorem sparesDestination_of_effect (ho : (Opcode.ofWord word).SparesDestination word)
    (he : (Opcode.ofWord word).effect h.pc (h.operands word) = .ok e) :
    e.sparesDestination = true := by
  rcases ho with ⟨w, hw⟩ | hbranch | ⟨hshift, hbit⟩
  · obtain rfl := Except.ok.inj ((effect_of_stores hw).symm.trans he)
    rfl
  · obtain ⟨taken, target, heffect⟩ := Opcode.effect_of_branches hbranch h.pc (h.operands word)
    obtain rfl := Except.ok.inj (heffect.symm.trans he)
    rfl
  · obtain rfl := Except.ok.inj ((effect_of_reserved hshift hbit).symm.trans he)
    rfl

theorem byte?_of_fetch (hf : h.ram.fetch h.pc = .ok (.ok word)) {i : Nat} (hi : i < 4) :
    h.ram.byte? (h.pc.toNat + i) = some (word.extractLsb' (8 * i) 8) := by
  cases hin : h.ram.inBounds h.pc 4 with
  | false => cases (Ram.fetch_of_not_inBounds hin).symm.trans hf
  | true =>
    obtain ⟨word', hword, hholds⟩ := Ram.fetch_of_inBounds hin
    obtain rfl := Except.ok.inj (Except.ok.inj (hword.symm.trans hf))
    exact Ram.byte?_of_holds hin hholds hi

/-- An instruction that completes stood at the pc and goes on at its record's next address. It
changes no register but its destination, and that not either if it is a store, a branch or a
reserved shift. It changes no byte of memory unless it is a store, which puts the low bytes of its
second operand at its address and changes no other byte. -/
theorem step_frame (hs : h.step = .ok (.ok s, h')) :
    s.pc = h.pc ∧ s.fallThrough = h.pc + 4 ∧ s.opcode = .ofWord s.word ∧
      (∀ i < 4, h.ram.byte? (h.pc.toNat + i) = some (s.word.extractLsb' (8 * i) 8)) ∧
      h'.pc = s.next ∧
      (∀ r, r ≠ Instruction.rd s.word ∨ s.opcode.SparesDestination s.word →
        h'.read r = h.read r) ∧
      h'.read .zero = 0 ∧
      (s.opcode.stores? = none → h'.ram = h.ram) ∧
      ∀ w, s.opcode.stores? = some w →
        h.ram.Overwritten (h.read (Instruction.rs1 s.word) + Instruction.immS s.word) w.bytes
          (h.read (Instruction.rs2 s.word)) h'.ram := by
  obtain ⟨e, h₁, hfetch, heffect, hleaves, hrecord, rfl⟩ := step_completed hs
  have hopcode : s.opcode = .ofWord s.word := by rw [hrecord]; rfl
  have hpc : s.pc = h.pc := by rw [hrecord]; rfl
  have hfall : s.fallThrough = h.pc + 4 := by rw [hrecord]; rfl
  rw [hopcode]
  refine ⟨hpc, hfall, rfl, fun i hi => byte?_of_fetch hfetch hi, rfl, fun r hr => ?_, rfl,
    fun hnone => ?_, fun w hw => ?_⟩
  · have hkept : h₁.read r = h.read r :=
      hleaves.read (hr.symm.imp_left fun ho => sparesDestination_of_effect ho heffect)
    exact (h₁.read_write_zero 0 r).trans hkept
  · refine hleaves.ram fun width a v he => ?_
    obtain ⟨w, hw⟩ := Opcode.stores?_of_effect (he ▸ heffect)
    cases hnone.symm.trans hw
  · obtain rfl := Except.ok.inj ((effect_of_stores hw).symm.trans heffect)
    exact hleaves.overwritten

/-- The store replaces three bytes of its own word, in which its address register stands as the
destination. -/
theorem step_frame_overwriting_itself :
    ∃ h s h', (do
        let h ← create 0x80000000 64
        let stored ← h.ram.storeWord 0x80000000 0x00b2a2a3
        return ({ h with ram := stored.2 }.write 5 0x7ffffffc).write 11 0xdeadbeef) =
          Except.ok (ε := Crash) h ∧
      h.step = .ok (.ok s, h') ∧ Instruction.rd s.word = 5 ∧ h'.read 5 = 0x7ffffffc ∧
      h'.ram.byte? 0x80000000 = some 0xa3 ∧ h'.ram.byte? 0x80000001 = some 0xef := by
  have hcalls : (do
      let h ← (do
        let h ← create 0x80000000 64
        let stored ← h.ram.storeWord 0x80000000 0x00b2a2a3
        return ({ h with ram := stored.2 }.write 5 0x7ffffffc).write 11 0xdeadbeef)
      let stepped ← h.step
      return (stepped.1.toOption, h.pc, h.read 5, h.read 11) : Except Crash _).toOption =
      some (some ⟨0x80000000, 0x80000004, 0x80000004, 0x00b2a2a3, .sw⟩, 0x80000000, 0x7ffffffc,
        0xdeadbeef) := by
    decide +kernel
  obtain ⟨h, hcreate, hcalls⟩ := bind_eq_ok (eq_ok_of_toOption hcalls)
  obtain ⟨⟨result, h'⟩, hstep, hcalls⟩ := bind_eq_ok hcalls
  simp only [Prod.mk.injEq, Except.ok.injEq, pure, Except.pure] at hcalls
  obtain ⟨hresult, hpc, haddress, hvalue⟩ := hcalls
  obtain rfl := eq_ok_of_toOption hresult
  obtain ⟨-, -, -, hword, -, hregs, -, -, hstored⟩ := step_frame hstep
  have hbytes := (hstored .word rfl).byte?
  rw [show Instruction.rs1 0x00b2a2a3 = 5 from rfl, show Instruction.rs2 0x00b2a2a3 = 11 from rfl,
    haddress, hvalue] at hbytes
  refine ⟨h, _, h', hcreate, hstep, rfl, (hregs 5 (.inr (.inl ⟨.word, rfl⟩))).trans haddress, ?_,
    hbytes 0x80000001⟩
  rw [hbytes 0x80000000]
  have hfirst := hword 0 (by decide)
  rw [hpc] at hfirst
  exact hfirst

end Hart

end Hartwatch
