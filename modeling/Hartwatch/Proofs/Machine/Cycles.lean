import Hartwatch.Machine
import Hartwatch.Proofs.Machine.Faults

/-! Instruction cycles. A monitor is shown each cycle that completes an instruction, and that of an
`ebreak` or an `ecall` although it ends in a trap. -/

namespace Hartwatch

/-- One instruction cycle: the hart before, what came of it, and the hart behind. -/
structure Cycle where
  before : Hart
  result : Except Trap Step
  after : Hart

/-- A hart goes through cycles, each from where the one before has left it. -/
def Hart.Cycles : Hart → List Cycle → Hart → Prop
  | h, [], h' => h' = h
  | h, c :: cs, h' => c.before = h ∧ h.step = .ok (c.result, c.after) ∧ c.after.Cycles cs h'

namespace Hart.Cycles

variable {h h₁ h₂ : Hart} {cs cs₁ cs₂ : List Cycle}

theorem concat {result : Except Trap Step} (hc : h.Cycles cs h₁)
    (hs : h₁.step = .ok (result, h₂)) : h.Cycles (cs ++ [⟨h₁, result, h₂⟩]) h₂ := by
  induction cs generalizing h with
  | nil =>
    obtain rfl : h₁ = h := hc
    exact ⟨rfl, hs, rfl⟩
  | cons c cs ih => exact ⟨hc.1, hc.2.1, ih hc.2.2⟩

theorem prefix_total (h₁c : h.Cycles cs₁ h₁) (h₂c : h.Cycles cs₂ h₂) :
    cs₁ <+: cs₂ ∨ cs₂ <+: cs₁ := by
  induction cs₁ generalizing h cs₂ with
  | nil => exact .inl List.nil_prefix
  | cons c cs₁ ih =>
    cases cs₂ with
    | nil => exact .inr List.nil_prefix
    | cons d cs₂ =>
      obtain ⟨hcb, hcs, hrest₁⟩ := h₁c
      obtain ⟨hdb, hds, hrest₂⟩ := h₂c
      obtain ⟨hresult, hafter⟩ := Prod.mk.inj (Except.ok.inj (hcs.symm.trans hds))
      obtain rfl : c = d := by
        cases c
        cases d
        simp_all
      simpa using ih hrest₁ hrest₂

end Hart.Cycles

namespace Cycle

/-- What a monitor is shown of a cycle. -/
def shown? (c : Cycle) : Option (Step × Hart) :=
  match c.result, c.before.word? with
  | .ok s, _ => some (s, c.after)
  | .error _, some word =>
    if Opcode.ofWord word = .ebreak ∨ Opcode.ofWord word = .ecall then
      some (.straight c.before.pc word, c.after)
    else none
  | .error _, none => none

def shown (cs : List Cycle) : List (Step × Hart) :=
  cs.filterMap shown?

/-- What a machine comes to that runs no further than this cycle. -/
def status (c : Cycle) : Status :=
  match c.result, c.before.word?.map Opcode.ofWord with
  | .ok _, _ => .stopped
  | .error _, some .ebreak => .trapped c.before.pc (c.before.read .a0)
  | .error t, some .ecall =>
    if c.before.read .a7 = Machine.exitCall then .halted c.before.pc (c.before.read .a0)
    else .aborted c.before.pc t
  | .error t, _ => .aborted c.before.pc t

variable {h h' : Hart} {t : Trap}

theorem status_ne_running (c : Cycle) : c.status ≠ .running := by
  unfold status
  split
  · simp
  · simp
  · split <;> simp
  · simp

theorem hasEnded_status {c : Cycle} (hc : c.result = .error t) : c.status.hasEnded = true := by
  simp only [status, hc]
  split
  · next heq => cases heq
  · rfl
  · split <;> rfl
  · rfl

theorem length_shown {cs : List Cycle} (h : ∀ c ∈ cs, ∃ s, c.result = .ok s) :
    (shown cs).length = cs.length := by
  refine List.filterMap_length_eq_length.mpr fun c hc => ?_
  obtain ⟨s, hs⟩ := h c hc
  simp [shown?, hs]

theorem shown_append (cs₁ cs₂ : List Cycle) : shown (cs₁ ++ cs₂) = shown cs₁ ++ shown cs₂ :=
  List.filterMap_append

theorem shown_concat (cs : List Cycle) (c : Cycle) :
    shown (cs ++ [c]) = shown cs ++ c.shown?.toList := by
  rw [shown_append]
  cases hc : c.shown? <;> simp [shown, hc]

theorem shown?_of_retires {word : Word} (hs : h.step = .ok (.error t, h'))
    (hr : t.retires = true) (hf : h.ram.fetch h.pc = .ok (.ok word)) :
    (Cycle.mk h (.error t) h').shown? = some (.straight h.pc word, h') := by
  have hword := Hart.word?_of_fetch hf
  have ho : Opcode.ofWord word = .ebreak ∨ Opcode.ofWord word = .ecall := by
    rcases Hart.step_trap_cases hs with ⟨w, hw, ho, -⟩ | ⟨w, hw, ho, -⟩ | ⟨hnot, -⟩
    · exact .inl (Option.some.inj (hword.symm.trans hw) ▸ ho)
    · exact .inr (Option.some.inj (hword.symm.trans hw) ▸ ho)
    · rw [hnot] at hr
      cases hr
  simp [shown?, hword, ho]

theorem shown?_of_not_retires (hs : h.step = .ok (.error t, h')) (hr : t.retires = false) :
    (Cycle.mk h (.error t) h').shown? = none := by
  rcases Hart.step_trap_cases hs with ⟨-, -, -, rfl⟩ | ⟨-, -, -, rfl⟩ | ⟨-, ho⟩
  · cases hr
  · cases hr
  · cases hword : h.word? with
    | none => simp [shown?, hword]
    | some word => simp [shown?, hword, ho word hword]

theorem status_of_trap (hs : h.step = .ok (.error t, h')) :
    (Cycle.mk h (.error t) h').status = Machine.trapStatus h' h.pc t := by
  rcases Hart.step_trap_cases hs with ⟨word, hword, ho, rfl⟩ | ⟨word, hword, ho, rfl⟩ | ⟨hr, ho⟩
  · simp [status, hword, ho, Machine.trapStatus]
  · obtain ⟨-, -, rfl⟩ := Hart.step_retiring_trap hs rfl
    simp [status, hword, ho, Machine.trapStatus, Hart.read_write_zero]
  · have haborted : Machine.trapStatus h' h.pc t = .aborted h.pc t := by
      obtain ⟨kind, value⟩ := t
      cases kind <;> first | rfl | cases hr
    rw [haborted]
    cases hword : h.word? with
    | none => simp [status, hword]
    | some word =>
      obtain ⟨hbreak, hcall⟩ := ho word hword
      unfold status
      split <;> simp_all

end Cycle

end Hartwatch
