import Hartwatch.Proofs.Machine.Runs

/-! Runs that are cut in two. Without a monitor that asks to stop, a machine comes to the same in
one run as in several that take the same number of steps in all. -/

namespace Hartwatch.Machine

variable {σ : Type} {monitor : Monitor σ} {m m' : Machine} {x x' : σ} {a b n : Nat}

theorem loop_add (hm : m.status = .running) :
    loop monitor (a + b) m x = loop monitor a m x >>= fun (m, x) =>
      if m.status = .running then loop monitor b m x else .ok (m, x) := by
  induction a generalizing m x with
  | zero =>
    rw [Nat.zero_add]
    exact (if_pos hm).symm
  | succ a ih =>
    rw [Nat.succ_add, loop, loop]
    cases m.step monitor x with
    | error e => rfl
    | ok next =>
      obtain ⟨m₁, x₁⟩ := next
      by_cases hrun : m₁.status = .running
      · simpa [bind, Except.bind, hrun] using ih hrun
      · simp [bind, Except.bind, pure, Except.pure, hrun]

theorem loop_status (hgo : ∀ s h x, (monitor s h x).1 = .go) (hm : m.status = .running)
    (h : loop monitor n m x = .ok (m', x')) :
    m'.status = .running ∨ m'.status.hasEnded = true := by
  refine loop_invariant (I := fun m _ => m.status = .running ∨ m.status.hasEnded = true) ?_
    (.inl hm) hm h
  intro m x m' x' _ hm hs
  cases hs with
  | completed => exact .inl (by simp [hgo, hm])
  | called => exact .inr (hasEnded_trapStatus _ _ _)
  | aborted => exact .inr (hasEnded_trapStatus _ _ _)

theorem run_add (hgo : ∀ s h x, (monitor s h x).1 = .go) :
    (m.run (.limited a) monitor x >>= fun (m, x) => m.run (.limited b) monitor x) =
      m.run (.limited (a + b)) monitor x := by
  cases hm : m.status.hasEnded with
  | true =>
    rw [run_of_hasEnded hm, run_of_hasEnded hm]
    exact run_of_hasEnded hm
  | false =>
    rw [run_of_not_ended hm, run_of_not_ended hm, Budget.bound, Budget.bound, loop_add rfl]
    cases hloop : loop monitor a { m with status := .running } x with
    | error e => rfl
    | ok half =>
      obtain ⟨m₁, x₁⟩ := half
      rcases loop_status hgo rfl hloop with hrun | hended
      · have hagain : { m₁ with status := Status.running } = m₁ := by rw [← hrun]
        have hstopped : ({ m₁ with status := .stopped } : Machine).status.hasEnded = false := rfl
        simp only [bind, Except.bind, hrun, if_true]
        rw [run_of_not_ended hstopped, hagain]
        rfl
      · have hrun := Status.ne_running_of_hasEnded hended
        simp only [bind, Except.bind, hrun, if_false]
        exact run_of_hasEnded hended

/-- A run that nobody watches. -/
def advance (m : Machine) (steps : Nat) : Except Crash Machine := do
  return (← m.run (.ofCount steps) .idle ()).1

def singleSteps : Nat → Machine → Except Crash Machine
  | 0, m => .ok m
  | n + 1, m => do singleSteps n (← m.advance 1)

theorem advance_eq (hn : n < 1 <<< 64 - 1) :
    m.advance n = m.run (.limited n) .idle () >>= fun (m, _) => .ok m := by
  rw [advance, Budget.ofCount, if_pos hn]
  rfl

theorem advance_add (hab : a + b < 1 <<< 64 - 1) :
    (m.advance a >>= fun m => m.advance b) = m.advance (a + b) := by
  have hsplit : (m.run (.limited a) .idle () >>= fun (m, x) => m.run (.limited b) .idle x) =
      m.run (.limited (a + b)) .idle () := run_add fun _ _ _ => rfl
  rw [advance_eq hab, ← hsplit, advance_eq (by omega)]
  cases m.run (.limited a) .idle () with
  | error e => rfl
  | ok half => exact advance_eq (by omega)

theorem singleSteps_succ (hn : n + 1 < 1 <<< 64 - 1) :
    m.singleSteps (n + 1) = m.advance (n + 1) := by
  induction n generalizing m with
  | zero =>
    rw [singleSteps]
    cases m.advance 1 <;> rfl
  | succ n ih =>
    rw [singleSteps, Nat.add_comm (n + 1) 1, ← advance_add (by omega)]
    exact congrArg _ (funext fun m => ih (by omega))

theorem advance_zero (hrun : m.status ≠ .running) (hquit : m.status ≠ .quit) :
    m.advance 0 = .ok m := by
  cases hm : m.status.hasEnded with
  | true => rw [advance, run_of_hasEnded hm]; rfl
  | false =>
    have hstopped : m.status = .stopped := by
      cases hs : m.status <;> simp_all [Status.hasEnded]
    rw [advance_eq (by decide), run_of_not_ended hm]
    refine (show _ = Except.ok { m with status := .stopped } from rfl).trans ?_
    rw [← hstopped]

/-- Where a run is cut makes no difference, and single steps add up to a run. A run of no steps is
still a run, so it makes a machine that was quit a stopped one. -/
theorem advance_cut (hm : m.status ≠ .running) :
    (∀ a b, a + b < 1 <<< 64 - 1 → (m.advance a >>= fun m => m.advance b) = m.advance (a + b)) ∧
      ∀ n, n < 1 <<< 64 - 1 → (n = 0 → m.status ≠ .quit) → m.singleSteps n = m.advance n := by
  refine ⟨fun a b => advance_add, fun n hn hquit => ?_⟩
  cases n with
  | zero => exact (advance_zero hm (hquit rfl)).symm
  | succ n => exact singleSteps_succ hn

/-- The breakpoint is the second of the three steps. -/
theorem advance_cut_ebreak :
    ∃ m, holding [0x00100513, 0x00100073] = .ok m ∧
      (m.advance 1 >>= fun m => m.advance 2) = m.advance 3 ∧ m.singleSteps 3 = m.advance 3 ∧
      (m.advance 3).toOption.map status = some (.trapped 0x80000004 1) := by
  have hcalls : (do
      let m ← holding [0x00100513, 0x00100073]
      return (m.status, (m.advance 3).toOption.map status) :
        Except Crash (Status × Option Status)).toOption =
      some (.stopped, some (.trapped 0x80000004 1)) := by
    decide +kernel
  obtain ⟨m, hm, h⟩ := bind_eq_ok (eq_ok_of_toOption hcalls)
  simp only [Prod.mk.injEq, Except.ok.injEq, pure, Except.pure] at h
  obtain ⟨hstatus, htrapped⟩ := h
  have hcut := advance_cut (m := m) (by simp [hstatus])
  exact ⟨m, hm, hcut.1 1 2 (by decide), hcut.2 3 (by decide) (by simp), htrapped⟩

/-- No steps leave a machine quit, and a run of no steps does not. -/
theorem singleSteps_zero_of_quit :
    ¬ ∀ m : Machine, m.status ≠ .running →
      (∀ a b, a + b < 1 <<< 64 - 1 →
        (m.advance a >>= fun m => m.advance b) = m.advance (a + b)) ∧
      ∀ n, n < 1 <<< 64 - 1 → m.singleSteps n = m.advance n := by
  intro hall
  obtain ⟨m, -⟩ : ∃ m, create ⟨Config.ramStart, 4096, Config.ramStart⟩ = .ok m := ⟨_, rfl⟩
  have hzero : Except.ok m.quit = Except.ok { m.quit with status := .stopped } :=
    (hall m.quit (by simp [quit])).2 0 (by decide)
  cases congrArg Machine.status (Except.ok.inj hzero)

end Hartwatch.Machine
