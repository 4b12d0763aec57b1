import Hartwatch.Image
import Hartwatch.Proofs.Machine.Cycles
import Hartwatch.Proofs.Machine.Loop
import Mathlib.Data.List.Basic

/-! What a run is made of: the cycles up to the first one that uses up the budget, ends in a trap
or makes the monitor ask to stop. -/

namespace Hartwatch

variable {σ : Type} {monitor : Monitor σ} {x x₁ x₂ x' : σ} {budget : Budget}
variable {cs cs₁ cs₂ : List Cycle}

namespace Monitor

def after (monitor : Monitor σ) (x : σ) (calls : List (Step × Hart)) : σ :=
  calls.foldl (fun x call => (monitor call.1 call.2 x).2) x

/-- A run that has gone through some cycles ends with the next one: it ends in a trap, or the
monitor asks to stop. -/
def EndsAt (monitor : Monitor σ) (x : σ) (cs : List Cycle) (c : Cycle) : Prop :=
  (∃ t, c.result = .error t) ∨
    ∃ call, c.shown? = some call ∧
      (monitor call.1 call.2 (monitor.after x (Cycle.shown cs))).1 = .stop

/-- A run goes on behind each of these cycles. -/
def Onward (monitor : Monitor σ) (x : σ) (cs : List Cycle) : Prop :=
  ∀ front c back, cs = front ++ c :: back → ¬ monitor.EndsAt x front c

theorem after_concat {c : Cycle} {call : Step × Hart} (hc : c.shown? = some call) :
    monitor.after x (Cycle.shown (cs ++ [c])) =
      (monitor call.1 call.2 (monitor.after x (Cycle.shown cs))).2 := by
  simp [Cycle.shown_concat, hc, after]

theorem ends_of_trap {h h' : Hart} {t : Trap} (monitor : Monitor σ)
    (hs : h.step = .ok (.error t, h')) :
    Machine.trapStatus h' h.pc t ≠ .running ∧ monitor.EndsAt x cs ⟨h, .error t, h'⟩ ∧
      Machine.trapStatus h' h.pc t = (Cycle.mk h (.error t) h').status :=
  ⟨Status.ne_running_of_hasEnded (Machine.hasEnded_trapStatus h' h.pc t), .inl ⟨t, rfl⟩,
    (Cycle.status_of_trap hs).symm⟩

theorem onward_nil : monitor.Onward x [] := by
  intro front c back h
  simp at h

theorem Onward.concat {c : Cycle} (h : monitor.Onward x cs) (hc : ¬ monitor.EndsAt x cs c) :
    monitor.Onward x (cs ++ [c]) := by
  intro front d back hd
  rcases back.eq_nil_or_concat' with rfl | ⟨back, e, rfl⟩
  · obtain ⟨rfl, hcd⟩ := List.append_inj' hd rfl
    rwa [← List.singleton_inj.mp hcd]
  · rw [← List.cons_append, ← List.append_assoc] at hd
    exact h front d back (List.append_inj' hd rfl).1

theorem Onward.of_isPrefix (h : monitor.Onward x cs₂) (hp : cs₁ <+: cs₂) :
    monitor.Onward x cs₁ := by
  obtain ⟨rest, rfl⟩ := hp
  intro front c back hcs
  exact h front c (back ++ rest) (by simp [hcs])

theorem Onward.completed {c : Cycle} (h : monitor.Onward x cs) (hc : c ∈ cs) :
    ∃ s, c.result = .ok s := by
  obtain ⟨front, back, hcs⟩ := List.append_of_mem hc
  cases hr : c.result with
  | ok s => exact ⟨s, rfl⟩
  | error t => exact absurd (.inl ⟨t, hr⟩) (h front c back hcs)

theorem Onward.length_shown (h : monitor.Onward x cs) : (Cycle.shown cs).length = cs.length :=
  Cycle.length_shown fun _ hc => h.completed hc

end Monitor

namespace Machine

variable {m m₁ m₂ m' : Machine}

structure Passed (m : Machine) (monitor : Monitor σ) (x : σ) (cs : List Cycle) (m' : Machine)
    (x' : σ) : Prop where
  cycles : m.hart.Cycles cs m'.hart
  seen : x' = monitor.after x (Cycle.shown cs)
  retired : m'.retired = m.retired + (Cycle.shown cs).length
  config : m'.config = m.config

/-- A run goes through cycles up to the first one that spends the budget, ends in a trap or makes
the monitor ask to stop. -/
structure Ran (m : Machine) (budget : Budget) (monitor : Monitor σ) (x : σ) (cs : List Cycle)
    (m' : Machine) (x' : σ) : Prop extends m.Passed monitor x cs m' x' where
  within : ∀ n, budget = .limited n → cs.length ≤ n
  onward : monitor.Onward x cs.dropLast
  last : budget = .limited cs.length ∨ ∃ c, cs.getLast? = some c ∧ monitor.EndsAt x cs.dropLast c
  status : m'.status = cs.getLast?.elim .stopped Cycle.status

theorem Passed.step (hp : m.Passed monitor x cs m₁ x₁) (hm : m₁.status = .running)
    (hs : Stepped monitor m₁ x₁ m' x') :
    ∃ c, m.Passed monitor x (cs ++ [c]) m' x' ∧
      (m'.status = .running ∧ ¬ monitor.EndsAt x cs c ∧ m'.retired < 1 <<< 64 ∨
        m'.status ≠ .running ∧ monitor.EndsAt x cs c ∧ m'.status = c.status) := by
  obtain ⟨hcycles, rfl, hretired, hconfig⟩ := hp
  cases hs with
  | @completed s hart hstep hlt =>
    have hshown : (Cycle.mk m₁.hart (.ok s) hart).shown? = some (s, hart) := rfl
    refine ⟨⟨m₁.hart, .ok s, hart⟩, ⟨hcycles.concat hstep, ?_, ?_, hconfig⟩, ?_⟩
    · rw [Monitor.after_concat hshown]
    · simp [Cycle.shown_concat, hshown, hretired, Nat.add_assoc]
    · have hends : monitor.EndsAt x cs ⟨m₁.hart, .ok s, hart⟩ ↔
          (monitor s hart (monitor.after x (Cycle.shown cs))).1 = .stop := by
        simp [Monitor.EndsAt, hshown]
      rw [hends]
      by_cases hstop : (monitor s hart (monitor.after x (Cycle.shown cs))).1 = .stop
      · simp [hstop, hm, Cycle.status]
      · simpa [hstop, hm] using hlt
  | @called t hart word hstep hretires hfetch hlt =>
    have hshown := Cycle.shown?_of_retires hstep hretires hfetch
    refine ⟨⟨m₁.hart, .error t, hart⟩, ⟨hcycles.concat hstep, ?_, ?_, hconfig⟩,
      .inr (monitor.ends_of_trap hstep)⟩
    · rw [Monitor.after_concat hshown]
    · simp [Cycle.shown_concat, hshown, hretired, Nat.add_assoc]
  | @aborted t hart hstep hretires =>
    have hshown := Cycle.shown?_of_not_retires hstep hretires
    refine ⟨⟨m₁.hart, .error t, hart⟩, ⟨hcycles.concat hstep, ?_, ?_, hconfig⟩,
      .inr (monitor.ends_of_trap hstep)⟩
    · simp [Cycle.shown_concat, hshown]
    · simp [Cycle.shown_concat, hshown, hretired]

/-- A run is under way after `k` cycles, behind each of which it goes on. -/
def UnderWay (m : Machine) (monitor : Monitor σ) (x : σ) (k : Nat) (m' : Machine) (x' : σ) : Prop :=
  ∃ cs, cs.length = k ∧ m.Passed monitor x cs m' x' ∧ monitor.Onward x cs ∧
    (cs = [] ∨ m'.retired < 1 <<< 64)

/-- A run is over with the `k`th cycle, the first one behind which it does not go on. -/
def Over (m : Machine) (monitor : Monitor σ) (x : σ) (k : Nat) (m' : Machine) (x' : σ) : Prop :=
  ∃ cs c, cs.length + 1 = k ∧ m.Passed monitor x (cs ++ [c]) m' x' ∧ monitor.Onward x cs ∧
    monitor.EndsAt x cs c ∧ m'.status = c.status

theorem UnderWay.step {k : Nat} (h : m.UnderWay monitor x k m₁ x₁) (hm : m₁.status = .running)
    (hs : Stepped monitor m₁ x₁ m' x') :
    if m'.status = .running then m.UnderWay monitor x (k + 1) m' x'
    else m.Over monitor x (k + 1) m' x' := by
  obtain ⟨cs, rfl, hp, hon, -⟩ := h
  obtain ⟨c, hp', ⟨hrun, hgo, hlt⟩ | ⟨hrun, hend, hstatus⟩⟩ := hp.step hm hs
  · rw [if_pos hrun]
    exact ⟨cs ++ [c], by simp, hp', hon.concat hgo, .inr hlt⟩
  · rw [if_neg hrun]
    exact ⟨cs, c, rfl, hp', hon, hend, hstatus⟩

theorem loop_outcome {n : Nat} (hm : m.status = .running)
    (h : loop monitor n m x = .ok (m', x')) :
    m'.status = .running ∧ m.UnderWay monitor x n m' x' ∨
      m'.status ≠ .running ∧ ∃ k, k ≤ n ∧ m.Over monitor x k m' x' := by
  have hstart : m.UnderWay monitor x 0 m x :=
    ⟨[], rfl, ⟨rfl, rfl, rfl, rfl⟩, Monitor.onward_nil, .inl rfl⟩
  simpa using loop_rule UnderWay.step hstart hm h

/-- A run that is still under way at its bound has used up its budget: the bound of an unlimited
one is never reached, as each of its cycles retires an instruction. -/
theorem UnderWay.ran (h : m.UnderWay monitor x budget.bound m' x') :
    ∃ cs, monitor.Onward x cs ∧ m.Ran budget monitor x cs { m' with status := .stopped } x' := by
  obtain ⟨cs, hlen, hp, hon, hlt⟩ := h
  have hbound : budget.bound = 0 ∨ budget.bound < 1 <<< 64 := by
    have hretired := hp.retired
    rw [hon.length_shown] at hretired
    rcases hlt with rfl | hlt
    · exact .inl hlen.symm
    · exact .inr (by omega)
  have hlimited := eq_limited_of_bound hlen hbound
  refine ⟨cs, hon, ⟨hp.cycles, hp.seen, hp.retired, hp.config⟩, ?_, ?_, .inl hlimited, ?_⟩
  · rintro n rfl
    exact Nat.le_of_eq (Budget.limited.inj hlimited).symm
  · exact hon.of_isPrefix cs.dropLast_prefix
  · cases hlast : cs.getLast? with
    | none => rfl
    | some c =>
      obtain ⟨s, hs⟩ := hon.completed (List.mem_of_getLast? hlast)
      simp [Cycle.status, hs]

theorem Over.ran {k : Nat} (h : m.Over monitor x k m' x') (hk : k ≤ budget.bound) :
    ∃ cs, cs.length = k ∧ m.Ran budget monitor x cs m' x' := by
  obtain ⟨cs, c, rfl, hp, hon, hend, hstatus⟩ := h
  refine ⟨cs ++ [c], by simp, hp, ?_, ?_, .inr ⟨c, ?_, ?_⟩, ?_⟩
  · rintro n rfl
    simpa [Budget.bound] using hk
  · simpa using hon
  · simp
  · simpa using hend
  · simpa using hstatus

theorem Ran.of_status {status : Status}
    (h : ({ m with status } : Machine).Ran budget monitor x cs m' x') :
    m.Ran budget monitor x cs m' x' :=
  ⟨⟨h.cycles, h.seen, h.retired, h.config⟩, h.within, h.onward, h.last, h.status⟩

theorem run_ran (hm : m.status.hasEnded = false)
    (h : m.run budget monitor x = .ok (m', x')) : ∃ cs, m.Ran budget monitor x cs m' x' := by
  obtain ⟨m₁, hloop, rfl⟩ := run_eq_ok hm h
  rcases loop_outcome rfl hloop with ⟨hrun, hunder⟩ | ⟨hrun, k, hk, hover⟩
  · rw [if_pos hrun]
    obtain ⟨cs, -, hran⟩ := hunder.ran
    exact ⟨cs, hran.of_status⟩
  · rw [if_neg hrun]
    obtain ⟨cs, -, hran⟩ := hover.ran hk
    exact ⟨cs, hran.of_status⟩

theorem Ran.eq_of_isPrefix (h₁ : m.Ran budget monitor x cs₁ m₁ x₁)
    (h₂ : m.Ran budget monitor x cs₂ m₂ x₂) (hp : cs₁ <+: cs₂) : cs₁ = cs₂ := by
  obtain ⟨rest, rfl⟩ := hp
  by_contra hne
  have hrest : rest ≠ [] := fun h => hne (by simp [h])
  rcases h₁.last with hb | ⟨c, hc, hend⟩
  · have hlen := h₂.within _ hb
    rw [List.length_append] at hlen
    exact hrest (List.length_eq_zero_iff.mp (by omega))
  · refine h₂.onward cs₁.dropLast c rest.dropLast ?_ hend
    rw [List.dropLast_append_of_ne_nil hrest]
    nth_rewrite 1 [← List.dropLast_append_getLast? c hc]
    simp

theorem Ran.unique (h₁ : m.Ran budget monitor x cs₁ m₁ x₁)
    (h₂ : m.Ran budget monitor x cs₂ m₂ x₂) : cs₁ = cs₂ := by
  rcases h₁.cycles.prefix_total h₂.cycles with hp | hp
  · exact h₁.eq_of_isPrefix h₂ hp
  · exact (h₂.eq_of_isPrefix h₁ hp).symm

theorem Ran.eq_limited_zero (h : m.Ran budget monitor x [] m' x') : budget = .limited 0 := by
  rcases h.last with hb | ⟨c, hc, -⟩
  · exact hb
  · cases hc

theorem Ran.status_ne_running (h : m.Ran budget monitor x cs m' x') : m'.status ≠ .running := by
  rw [h.status]
  cases cs.getLast? with
  | none => simp
  | some c => exact c.status_ne_running

/-- A run that returns has gone through exactly the cycles up to the first one that uses up the
budget, traps or makes the monitor ask to stop; a machine that has ended does not run. -/
theorem run_cycles (m : Machine) (budget : Budget) (monitor : Monitor σ) (x : σ) :
    (m.status.hasEnded = true → m.run budget monitor x = .ok (m, x)) ∧
      (m.status.hasEnded = false → ∀ m' x', m.run budget monitor x = .ok (m', x') →
        m'.status ≠ .running ∧ ∃! cs, m.Ran budget monitor x cs m' x') := by
  refine ⟨run_of_hasEnded, fun hm m' x' h => ?_⟩
  obtain ⟨cs, hran⟩ := run_ran hm h
  exact ⟨hran.status_ne_running, cs, hran, fun cs' hran' => hran'.unique hran⟩

def holding (program : List Word) : Except Crash Machine := do
  let m ← create ⟨Config.ramStart, 64, Config.ramStart⟩
  return (← m.load (bytesOfWords program)).2

/-- The breakpoint is shown to the monitor and ends the program, although the monitor asks to
stop. -/
theorem run_cycles_ebreak :
    ∃ m m' cs, holding [0x00100513, 0x00100073] = .ok m ∧
      m.run .unlimited (fun s _ n => (if s.opcode = .ebreak then .stop else .go, n + 1)) 0 =
        .ok (m', 2) ∧
      m.Ran .unlimited (fun s _ n => (if s.opcode = .ebreak then .stop else .go, n + 1)) 0 cs m'
        2 ∧
      m'.status = .trapped 0x80000004 1 ∧ (Cycle.shown cs).length = 2 := by
  have hcalls : (do
      let m ← holding [0x00100513, 0x00100073]
      let ran ← m.run .unlimited
        (fun s _ n => (if s.opcode = .ebreak then .stop else .go, n + 1)) 0
      return (m.status.hasEnded, m.retired, ran.2, ran.1.status, ran.1.retired) :
        Except Crash (Bool × Nat × Nat × Status × Nat)).toOption =
      some (false, 0, 2, .trapped 0x80000004 1, 2) := by
    decide +kernel
  obtain ⟨m, hm, h⟩ := bind_eq_ok (eq_ok_of_toOption hcalls)
  obtain ⟨⟨m', n⟩, hrun, h⟩ := bind_eq_ok h
  simp only [Prod.mk.injEq, Except.ok.injEq, pure, Except.pure] at h
  obtain ⟨hended, hbefore, rfl, hstatus, hretired⟩ := h
  obtain ⟨-, cs, hran, -⟩ := (run_cycles m _ _ _).2 hended m' _ hrun
  have hgrowth := hran.retired
  rw [hbefore, hretired, Nat.zero_add] at hgrowth
  exact ⟨m, m', cs, hm, hrun, hran, hstatus, hgrowth.symm⟩

end Machine

end Hartwatch
