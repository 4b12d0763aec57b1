import Hartwatch.Proofs.Instruction.Decoding
import Hartwatch.Proofs.Machine.Trap
import Hartwatch.Proofs.Memory.Guest

/-! Why an instruction traps. It cannot be fetched, or it is a load, a store, a call, a breakpoint
or no instruction at all. Each has a trap of its own, and has done nothing when it traps. -/

namespace Hartwatch

variable {t : Trap} {w : Width}

namespace Opcode

variable {pc : Word} {x : Operands} {o : Opcode} {e : Effect}

def loads? : Opcode → Option Width
  | lb | lbu => some .byte
  | lh | lhu => some .half
  | lw => some .word
  | _ => none

def stores? : Opcode → Option Width
  | sb => some .byte
  | sh => some .half
  | sw => some .word
  | _ => none

theorem effect_of_loads (h : o.loads? = some w) (pc : Word) (x : Operands) :
    o.format = .I ∧ ∃ signed, o.effect pc x = .ok (.load w.bytes signed (x.src1 + x.imm)) := by
  cases o
  case lb | lh | lw | lbu | lhu =>
    obtain rfl := Option.some.inj h
    exact ⟨rfl, _, rfl⟩
  all_goals cases h

theorem effect_of_stores (h : o.stores? = some w) (pc : Word) (x : Operands) :
    o.format = .S ∧ o.effect pc x = .ok (.store w.bytes (x.src1 + x.imm) x.src2) := by
  cases o
  case sb | sh | sw =>
    obtain rfl := Option.some.inj h
    exact ⟨rfl, rfl⟩
  all_goals cases h

theorem effect_cases (h : o.effect pc x = .ok e) :
    (∀ hart word, e.trap? hart word = none) ∨ (∃ w, o.loads? = some w) ∨
      (∃ w, o.stores? = some w) ∨ o = .inv ∧ e = .illegal ∨ o = .ecall ∧ e = .environmentCall ∨
      o = .ebreak ∧ e = .breakpoint := by
  cases o
  case lb | lh | lw | lbu | lhu => exact .inr (.inl ⟨_, rfl⟩)
  case sb | sh | sw => exact .inr (.inr (.inl ⟨_, rfl⟩))
  case inv | ecall | ebreak =>
    obtain rfl := Except.ok.inj h
    simp
  case slli | srli | srai =>
    rcases Effect.ofShift_eq_ok h with rfl | ⟨v, rfl⟩ <;> exact .inl fun _ _ => rfl
  case sll | srl | sra =>
    obtain ⟨v, -, hv⟩ := bind_eq_ok h
    obtain rfl := Except.ok.inj hv
    exact .inl fun _ _ => rfl
  case mulh | mulhsu | mulhu =>
    obtain ⟨v, rfl⟩ := Effect.ofHighHalf_eq_ok h
    exact .inl fun _ _ => rfl
  case div | divu | rem | remu =>
    obtain ⟨v, rfl⟩ := Effect.ofDivision_eq_ok h
    exact .inl fun _ _ => rfl
  all_goals
    obtain rfl := Except.ok.inj h
    exact .inl fun _ _ => rfl

end Opcode

namespace Hart

variable {h h' : Hart} {a v word : Word} {s : Step} {rd : Reg}

open Instruction in
/-- The trap that the instruction at the pc ends in. -/
inductive TrapsWith (h : Hart) : Trap → Prop
  | fetch : h.ram.inBounds h.pc 4 = false → h.TrapsWith ⟨.instructionAccessFault, h.pc⟩
  | illegal {word : Word} : h.word? = some word →
    (∀ o : Opcode, o.pattern.recognizes word = true → o = .inv) →
    h.TrapsWith ⟨.illegalInstruction, word⟩
  | load {word : Word} {w : Width} : h.word? = some word →
    (Opcode.ofWord word).loads? = some w →
    h.ram.inBounds (h.read (rs1 word) + immI word) w.bytes = false →
    h.TrapsWith ⟨.loadAccessFault, h.read (rs1 word) + immI word⟩
  | store {word : Word} {w : Width} : h.word? = some word →
    (Opcode.ofWord word).stores? = some w →
    h.ram.inBounds (h.read (rs1 word) + immS word) w.bytes = false →
    h.TrapsWith ⟨.storeAccessFault, h.read (rs1 word) + immS word⟩
  | environmentCall {word : Word} : h.word? = some word → Opcode.ofWord word = .ecall →
    h.TrapsWith ⟨.environmentCall, h.read .a7⟩
  | breakpoint {word : Word} : h.word? = some word → Opcode.ofWord word = .ebreak →
    h.TrapsWith ⟨.breakpoint, h.read .a0⟩

theorem fetch_of_word? (hword : h.word? = some word) :
    h.ram.fetch h.pc = .ok (.ok word) := by
  unfold word? at hword
  split at hword
  · next hf => rw [hf, Option.some.inj hword]
  · cases hword

theorem effect_of_loads (hw : (Opcode.ofWord word).loads? = some w) :
    ∃ signed, (Opcode.ofWord word).effect h.pc (h.operands word) =
      .ok (.load w.bytes signed (h.read (Instruction.rs1 word) + Instruction.immI word)) := by
  obtain ⟨hformat, signed, heffect⟩ := Opcode.effect_of_loads hw h.pc (h.operands word)
  have hoperands : h.operands word = Format.I.operands word h.read := by rw [operands, hformat]
  exact ⟨signed, by rw [heffect, hoperands]; rfl⟩

theorem effect_of_stores (hw : (Opcode.ofWord word).stores? = some w) :
    (Opcode.ofWord word).effect h.pc (h.operands word) =
      .ok (.store w.bytes (h.read (Instruction.rs1 word) + Instruction.immS word)
        (h.read (Instruction.rs2 word))) := by
  obtain ⟨hformat, heffect⟩ := Opcode.effect_of_stores hw h.pc (h.operands word)
  have hoperands : h.operands word = Format.S.operands word h.read := by rw [operands, hformat]
  rw [heffect, hoperands]
  rfl

theorem perform_load_trap_iff {signed : Bool} :
    h.perform s rd (.load w.bytes signed a) = .ok (.error ⟨.loadAccessFault, a⟩, h) ↔
      h.ram.inBounds a w.bytes = false := by
  cases hin : h.ram.inBounds a w.bytes with
  | false => simp [perform, Ram.load_of_not fun _ => hin]; rfl
  | true =>
    obtain ⟨v, hv, -⟩ := Ram.load_of_inBounds w hin
    simp only [perform, hv]
    exact ⟨fun hp => (nomatch hp), fun hf => nomatch hf⟩

theorem perform_store_trap_iff :
    h.perform s rd (.store w.bytes a v) = .ok (.error ⟨.storeAccessFault, a⟩, h) ↔
      h.ram.inBounds a w.bytes = false := by
  cases hin : h.ram.inBounds a w.bytes with
  | false => simp [perform, Ram.store_of_not _ fun _ => hin]; rfl
  | true =>
    obtain ⟨m, hm, -⟩ := Ram.store_of_inBounds w (v.setWidth 64) hin
    simp only [perform, hm]
    exact ⟨fun hp => (nomatch hp), fun hf => nomatch hf⟩

theorem step_of_trapsWith (ht : h.TrapsWith t) : ∃ h', h.step = .ok (.error t, h') := by
  cases ht with
  | fetch hout => exact ⟨_, step_of_fetch_trap (Ram.fetch_of_not_inBounds hout)⟩
  | illegal hword honly =>
    have ho := (Opcode.ofWord_eq_inv_iff _).mpr honly
    exact ⟨_, step_of_perform_trap (e := .illegal) (fetch_of_word? hword) (by rw [ho]; rfl) rfl⟩
  | load hword hw hout =>
    obtain ⟨signed, heffect⟩ := effect_of_loads hw
    exact ⟨_, step_of_perform_trap (fetch_of_word? hword) heffect
      (perform_load_trap_iff.mpr hout)⟩
  | store hword hw hout =>
    exact ⟨_, step_of_perform_trap (fetch_of_word? hword) (effect_of_stores hw)
      (perform_store_trap_iff.mpr hout)⟩
  | environmentCall hword ho =>
    exact ⟨_, step_of_perform_trap (e := .environmentCall) (fetch_of_word? hword)
      (by rw [ho]; rfl) rfl⟩
  | breakpoint hword ho =>
    exact ⟨_, step_of_perform_trap (e := .breakpoint) (fetch_of_word? hword)
      (by rw [ho]; rfl) rfl⟩

theorem trapsWith_of_step (hs : h.step = .ok (.error t, h')) : h.TrapsWith t := by
  rcases step_trap hs with ⟨hfetch, -⟩ | ⟨word, e, hfetch, -, heffect, hperform⟩
  · obtain rfl := Ram.fetch_trap hfetch
    refine .fetch (Bool.eq_false_iff.mpr fun hin => ?_)
    obtain ⟨word, hword, -⟩ := Ram.fetch_of_inBounds hin
    cases hword.symm.trans hfetch
  · have hword := word?_of_fetch hfetch
    have htrap : e.trap? h word = some t := (perform_trap hperform).1
    rcases Opcode.effect_cases heffect with
      hquiet | ⟨w, hw⟩ | ⟨w, hw⟩ | ⟨ho, rfl⟩ | ⟨ho, rfl⟩ | ⟨ho, rfl⟩
    · cases (hquiet h word).symm.trans htrap
    · obtain ⟨signed, hload⟩ := effect_of_loads (h := h) hw
      obtain rfl := Except.ok.inj (hload.symm.trans heffect)
      obtain rfl := Option.some.inj htrap
      exact .load hword hw (perform_load_trap_iff.mp hperform)
    · obtain rfl := Except.ok.inj ((effect_of_stores hw).symm.trans heffect)
      obtain rfl := Option.some.inj htrap
      exact .store hword hw (perform_store_trap_iff.mp hperform)
    · obtain rfl := Option.some.inj htrap
      exact .illegal hword ((Opcode.ofWord_eq_inv_iff word).mp ho)
    · obtain rfl := Option.some.inj htrap
      exact .environmentCall hword ho
    · obtain rfl := Option.some.inj htrap
      exact .breakpoint hword ho

/-- An `ebreak` hands back `a0`, an `ecall` the number in `a7`, and nothing else that traps
retires. -/
theorem step_trap_cases (hs : h.step = .ok (.error t, h')) :
    (∃ word, h.word? = some word ∧ Opcode.ofWord word = .ebreak ∧
        t = ⟨.breakpoint, h.read .a0⟩) ∨
      (∃ word, h.word? = some word ∧ Opcode.ofWord word = .ecall ∧
        t = ⟨.environmentCall, h.read .a7⟩) ∨
      t.retires = false ∧ ∀ word, h.word? = some word →
        Opcode.ofWord word ≠ .ebreak ∧ Opcode.ofWord word ≠ .ecall := by
  cases trapsWith_of_step hs with
  | breakpoint hword ho => exact .inl ⟨_, hword, ho, rfl⟩
  | environmentCall hword ho => exact .inr (.inl ⟨_, hword, ho, rfl⟩)
  | fetch hout =>
    refine .inr (.inr ⟨rfl, fun word hword => ?_⟩)
    cases (Ram.fetch_of_not_inBounds hout).symm.trans (fetch_of_word? hword)
  | illegal hword honly =>
    refine .inr (.inr ⟨rfl, fun word' hword' => ?_⟩)
    obtain rfl := Option.some.inj (hword.symm.trans hword')
    rw [(Opcode.ofWord_eq_inv_iff _).mpr honly]
    decide
  | load hword hw | store hword hw =>
    refine .inr (.inr ⟨rfl, fun word' hword' => ?_⟩)
    obtain rfl := Option.some.inj (hword.symm.trans hword')
    refine ⟨fun ho => ?_, fun ho => ?_⟩
    all_goals
      rw [ho] at hw
      cases hw

/-- An instruction that traps has the trap of what went wrong and no effect. -/
theorem trap_leaves_hart (h : Hart) :
    (∀ t, (∃ h', h.step = .ok (.error t, h')) ↔ h.TrapsWith t) ∧
      ∀ t h', h.step = .ok (.error t, h') →
        h'.pc = h.pc ∧ (∀ r, h'.read r = h.read r) ∧ h'.ram = h.ram := by
  refine ⟨fun t => ⟨fun ⟨h', hs⟩ => trapsWith_of_step hs, step_of_trapsWith⟩, fun t h' hs => ?_⟩
  rcases step_trap hs with ⟨-, rfl⟩ | ⟨word, e, -, rfl, -, -⟩
  · exact ⟨rfl, fun _ => rfl, rfl⟩
  · exact ⟨rfl, fun r => h.read_write_zero 0 r, rfl⟩

/-- The store would run over the end of memory by two bytes. -/
theorem trap_leaves_hart_straddling :
    ∃ h h' : Hart, (do
        let h ← create 0x80000000 64
        let (_, ram) ← h.ram.store 0x80000000 4 0x00b2a023
        return { h with ram }.write 5 0x8000003e) = Except.ok (ε := Crash) h ∧
      h.step = .ok (.error ⟨.storeAccessFault, 0x8000003e⟩, h') ∧
      h'.pc = h.pc ∧ (∀ r, h'.read r = h.read r) ∧ h'.ram = h.ram := by
  have hcalls : (do
      let h ← create 0x80000000 64
      let (_, ram) ← h.ram.store 0x80000000 4 0x00b2a023
      let h := { h with ram }.write 5 0x8000003e
      return (h.word?, h.read 5, h.ram.inBounds 0x8000003e 4) :
        Except Crash (Option Word × Word × Bool)).toOption =
      some (some 0x00b2a023, 0x8000003e, false) := by
    decide +kernel
  obtain ⟨h₀, hcreate, hcalls⟩ := bind_eq_ok (eq_ok_of_toOption hcalls)
  obtain ⟨⟨stored, ram⟩, hstore, hcalls⟩ := bind_eq_ok hcalls
  simp only [Prod.mk.injEq, Except.ok.injEq, pure, Except.pure] at hcalls
  obtain ⟨hword, hread, hout⟩ := hcalls
  generalize hh : { h₀ with ram }.write 5 0x8000003e = h at hword hread hout
  have haddress : h.read (Instruction.rs1 0x00b2a023) + Instruction.immS 0x00b2a023 =
      0x8000003e := by
    rw [show Instruction.rs1 0x00b2a023 = 5 from rfl, hread]
    rfl
  have htraps : h.TrapsWith ⟨.storeAccessFault, _⟩ :=
    .store (w := .word) hword rfl (by rw [haddress]; exact hout)
  rw [haddress] at htraps
  obtain ⟨htrap, hleft⟩ := trap_leaves_hart h
  obtain ⟨h', hstep⟩ := (htrap _).mpr htraps
  refine ⟨h, h', ?_, hstep, hleft _ h' hstep⟩
  rw [hcreate, ← hh]
  simp only [bind, Except.bind, hstore]
  rfl

def holding (program : List Word) (contents : List (Reg × Word)) : Except Crash Hart := do
  let h ← create 0x80000000 64
  let stored ← h.ram.storeBytes 0x80000000 (bytesOfWords program)
  return contents.foldl (fun h entry => h.write entry.1 entry.2) { h with ram := stored.2 }

end Hart

end Hartwatch
