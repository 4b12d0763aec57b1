import Hartwatch.Proofs.Debugger.Reach
import Hartwatch.Proofs.Debugger.Running
import Hartwatch.Proofs.Machine.Runs
import Hartwatch.Proofs.Machine.Standstill

/-! What command lines do to the program. Whatever lines a debugger executes, the program goes
through its own cycles one after the other, and a trap stays where it is until a run starts over. -/

namespace Hartwatch.Debugger

open Session Machine

variable {σ : Type} {d d' : Debugger}
variable {m₀ m m' : Machine} {cs cs' : List Cycle} {straight : Prop}

def afterLines : List String → Debugger → Except Crash Debugger
  | [], d => .ok d
  | line :: lines, d => do
    let (_, d) ← (execute line).on d
    afterLines lines d

/-- A machine has gone through some cycles. In a straight advance only the last one traps, and then
the program has ended. -/
structure Advanced (straight : Prop) (m₀ : Machine) (cs : List Cycle) (m : Machine) : Prop where
  cycles : m₀.hart.Cycles cs m.hart
  retired : m.retired = m₀.retired + (Cycle.shown cs).length
  before : straight → ∀ c ∈ cs.dropLast, ∃ s, c.result = .ok s
  onward : straight → m.status.hasEnded = false → ∀ c ∈ cs, ∃ s, c.result = .ok s

theorem completed_of_ran {budget : Budget} {monitor : Monitor σ} {x x' : σ}
    (hran : m.Ran budget monitor x cs m' x') (hm' : m'.status.hasEnded = false) {c : Cycle}
    (hc : c ∈ cs) : ∃ s, c.result = .ok s := by
  rcases cs.eq_nil_or_concat' with rfl | ⟨front, last, rfl⟩
  · cases hc
  · -- only the last cycle can trap, and then the status behind it is that of an ended program
    have honward := hran.onward
    have hstatus := hran.status
    rw [List.dropLast_concat] at honward
    rw [List.getLast?_concat] at hstatus
    rcases List.mem_append.mp hc with hc | hc
    · exact honward.completed hc
    · rw [List.mem_singleton.mp hc]
      cases hresult : last.result with
      | ok s => exact ⟨s, rfl⟩
      | error t =>
        have hended : m'.status.hasEnded = true := hstatus ▸ Cycle.hasEnded_status hresult
        cases hm'.symm.trans hended

theorem Advanced.ran {budget : Budget} {monitor : Monitor σ} {x x' : σ}
    (h : Advanced straight m₀ cs m) (hm : m.status.hasEnded = false)
    (hran : m.Ran budget monitor x cs' m' x') : Advanced straight m₀ (cs ++ cs') m' := by
  refine ⟨h.cycles.append hran.cycles, ?_, fun hs c hc => ?_, fun hs hm' c hc => ?_⟩
  · rw [hran.retired, h.retired, Cycle.shown_append, List.length_append, Nat.add_assoc]
  · have hmem : c ∈ cs ∨ c ∈ cs'.dropLast := by
      rw [List.dropLast_append] at hc
      split at hc
      · exact .inl (List.mem_of_mem_dropLast hc)
      · exact List.mem_append.mp hc
    exact hmem.elim (h.onward hs hm c) hran.onward.completed
  · exact (List.mem_append.mp hc).elim (h.onward hs hm c) (completed_of_ran hran hm')

def AdvancedFrom (straight : Prop) (m₀ : Machine) (d : Debugger) : Prop :=
  ∃ cs, Advanced straight m₀ cs d.machine

theorem run_advances (budget : Budget) :
    Preserves (fun _ => True) (AdvancedFrom straight m₀) (run budget) := by
  rintro d r d' ⟨cs, hcs⟩ h -
  cases hd : d.machine.status.hasEnded with
  | true => exact ⟨cs, (run_ended_keeps hd h).1 ▸ hcs⟩
  | false =>
    obtain ⟨w, hrun, -, -⟩ := run_cases hd h
    obtain ⟨cs', hran⟩ := run_ran hd hrun
    exact ⟨cs ++ cs', hcs.ran hd hran⟩

theorem advances_closed : Closed (Preserves (fun _ => True) (AdvancedFrom straight m₀)) :=
  Preserves.closed_of_machine (Q := fun m => ∃ cs, Advanced straight m₀ cs m) run_advances

theorem quit_advances (hs : ¬ straight) :
    Preserves (fun _ => True) (AdvancedFrom straight m₀) quit :=
  .update fun _ ⟨cs, hcs⟩ =>
    ⟨cs, hcs.cycles, hcs.retired, fun h => absurd h hs, fun h => absurd h hs⟩

theorem afterLines_advances {lines : List String}
    (hs : straight → ∀ line ∈ lines, leaves line = false) (hd : AdvancedFrom straight m₀ d)
    (h : afterLines lines d = .ok d') :
    AdvancedFrom straight m₀ d' := by
  induction lines generalizing d with
  | nil =>
    obtain rfl := Except.ok.inj h
    exact hd
  | cons line lines ih =>
    obtain ⟨⟨r, d₁⟩, hexecute, h⟩ := bind_eq_ok h
    have hquit : leaves line = true →
        Preserves (fun _ => True) (AdvancedFrom straight m₀) quit := by
      refine fun hl => quit_advances fun hstraight => ?_
      cases hl.symm.trans (hs hstraight line List.mem_cons_self)
    have hd₁ := advances_closed.execute line hquit hd hexecute fun _ _ => trivial
    exact ih (fun hstraight l hl => hs hstraight l (List.mem_cons_of_mem line hl)) hd₁ h

/-- Behind any command lines, the program is where some number of instructions that complete take
it. It has retired these and every call that was met at their end, which is met again only after
leaving the session. -/
theorem afterLines_program {lines : List String} (h : afterLines lines d = .ok d') :
    ∃ completed trapped h₁, d.machine.hart.Cycles completed h₁ ∧
      (∀ c ∈ completed, ∃ s, c.result = .ok s) ∧ h₁.Alike d'.machine.hart ∧
      h₁.Cycles trapped d'.machine.hart ∧ (∀ c ∈ trapped, ∃ t, c.result = .error t) ∧
      d'.machine.retired =
        d.machine.retired + completed.length + (Cycle.shown trapped).length ∧
      ((∀ line ∈ lines, leaves line = false) → (Cycle.shown trapped).length ≤ 1) := by
  have hstart : AdvancedFrom (∀ line ∈ lines, leaves line = false) d.machine d :=
    ⟨[], rfl, rfl, fun _ => List.forall_mem_nil _, fun _ _ => List.forall_mem_nil _⟩
  obtain ⟨cs, hcs⟩ := afterLines_advances id hstart h
  obtain ⟨completed, trapped, h₁, rfl, hdone, hok, htraps, herror, halike⟩ := hcs.cycles.split
  refine ⟨completed, trapped, h₁, hdone, hok, halike, htraps, herror, ?_, fun hs => ?_⟩
  · rw [hcs.retired, Cycle.shown_append, List.length_append, Cycle.length_shown hok, Nat.add_assoc]
  · have hbefore := hcs.before hs
    have hlen : trapped.length ≤ 1 := by
      match trapped with
      | [] | [_] => simp
      | c :: next :: rest =>
        have hc : c ∈ (completed ++ c :: next :: rest).dropLast := by
          simp
        obtain ⟨s, hs⟩ := hbefore c hc
        obtain ⟨t, ht⟩ := herror c List.mem_cons_self
        cases hs.symm.trans ht
    exact (List.length_filterMap_le Cycle.shown? trapped).trans hlen

theorem afterLines_program_watched :
    ∃ d d' completed trapped h₁,
      afterLines ["w $a0", "c", "x 1", "c", "p $a0", "si 3"] d = .ok d' ∧
      d.machine.hart.Cycles completed h₁ ∧ h₁.Alike d'.machine.hart ∧
      d.machine.retired = 0 ∧ d'.machine.retired = 2 ∧
      completed.length + (Cycle.shown trapped).length = 2 ∧ (Cycle.shown trapped).length ≤ 1 := by
  have hcalls : (do
      let d ← createWith [0x00100513, 0x00100073]
      let d' ← afterLines ["w $a0", "c", "x 1", "c", "p $a0", "si 3"] d
      return (d.machine.retired, d'.machine.retired,
        ["w $a0", "c", "x 1", "c", "p $a0", "si 3"].any leaves) : Except Crash _).toOption =
      some (0, 2, false) := by
    decide +kernel
  obtain ⟨d, -, h⟩ := bind_eq_ok (eq_ok_of_toOption hcalls)
  obtain ⟨d', hlines, h⟩ := bind_eq_ok h
  simp only [Prod.mk.injEq, Except.ok.injEq, pure, Except.pure] at h
  obtain ⟨hbefore, hafter, hleaves⟩ := h
  obtain ⟨completed, trapped, h₁, hcycles, -, halike, -, -, hretired, hcalls⟩ :=
    afterLines_program hlines
  have hgrowth : completed.length + (Cycle.shown trapped).length = 2 := by omega
  exact ⟨d, d', completed, trapped, h₁, hlines, hcycles, halike, hbefore, hafter, hgrowth,
    hcalls fun line hline => by simpa using List.any_eq_false.mp hleaves line hline⟩

end Hartwatch.Debugger
