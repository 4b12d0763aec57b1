import Hartwatch.Proofs.Machine.Runs

/-! Calls on a machine whose program has ended. Runs leave it as it is, until one that takes steps
comes behind a `quit`: it executes the instruction again at which the program has ended. -/

namespace Hartwatch.Machine

variable {σ : Type} {m m' : Machine} {x x' : σ} {monitor : Monitor σ} {budget : Budget}

inductive Call (σ : Type) where
  | run (budget : Budget) (monitor : Monitor σ)
  | quit

def call (m : Machine) (x : σ) : Call σ → Except Crash (Machine × σ)
  | .run budget monitor => m.run budget monitor x
  | .quit => .ok (m.quit, x)

def callAll : List (Call σ) → Machine → σ → Except Crash (Machine × σ)
  | [], m, x => .ok (m, x)
  | c :: cs, m, x => do
    let (m, x) ← m.call x c
    callAll cs m x

inductive Request (σ : Type) where
  | call (c : Call σ)
  | load (image : List Byte)

def request (m : Machine) (x : σ) : Request σ → Except Crash (Machine × σ)
  | .call c => m.call x c
  | .load image => do
    let (_, m) ← m.load image
    return (m, x)

def requestAll : List (Request σ) → Machine → σ → Except Crash (Machine × σ)
  | [], m, x => .ok (m, x)
  | r :: rs, m, x => do
    let (m, x) ← m.request x r
    requestAll rs m x

def Call.takesSteps : Call σ → Bool
  | .run budget _ => budget ≠ .limited 0
  | .quit => false

/-- Whether a run that takes steps comes behind a `quit`. -/
def reopens : List (Call σ) → Bool
  | [] => false
  | .quit :: cs => cs.any Call.takesSteps
  | .run _ _ :: cs => reopens cs

theorem callAll_of_no_steps {cs : List (Call σ)} (hm : m.status.hasEnded = false)
    (hcs : ∀ c ∈ cs, c.takesSteps = false) :
    ∃ s : Status, s.hasEnded = false ∧ m.callAll cs x = .ok ({ m with status := s }, x) := by
  induction cs generalizing m with
  | nil => exact ⟨m.status, hm, rfl⟩
  | cons c cs ih =>
    have hrest : ∀ c ∈ cs, c.takesSteps = false := fun c hc => hcs c (by simp [hc])
    cases c with
    | quit => exact ih (m := m.quit) rfl hrest
    | run budget monitor =>
      have hsteps := hcs (.run budget monitor) (by simp)
      obtain rfl : budget = .limited 0 := by simpa [Call.takesSteps] using hsteps
      rw [callAll, call, run_of_not_ended hm]
      exact ih (m := { m with status := .stopped }) rfl hrest

/-- A machine that has ended stays what it is as long as no run that takes steps comes behind a
`quit`. The first such run starts with the instruction at which the program has ended. -/
theorem ended_until_reopened (hm : m.status.hasEnded = true) (cs : List (Call σ)) (x : σ) :
    (reopens cs = false → ∃ status, m.callAll cs x = .ok ({ m with status }, x)) ∧
      (reopens cs = true → ∃ front budget monitor back status,
        cs = front ++ .run budget monitor :: back ∧
        m.callAll front x = .ok ({ m with status }, x) ∧
        ∀ m' x', { m with status }.run budget monitor x = .ok (m', x') →
          ∃ c cycles, c.before = m.hart ∧
            { m with status }.Ran budget monitor x (c :: cycles) m' x') := by
  induction cs with
  | nil => exact ⟨fun _ => ⟨m.status, rfl⟩, fun h => nomatch h⟩
  | cons c cs ih =>
    cases c with
    | run budget monitor =>
      have hstay : ∀ cs, m.callAll (.run budget monitor :: cs) x = m.callAll cs x := by
        intro cs
        rw [callAll, call, run_of_hasEnded hm]
        rfl
      refine ⟨fun h => ?_, fun h => ?_⟩
      · rw [hstay]
        exact ih.1 h
      · obtain ⟨front, b, f, back, s, rfl, hfront, hran⟩ := ih.2 h
        exact ⟨.run budget monitor :: front, b, f, back, s, rfl, (hstay front).trans hfront, hran⟩
    | quit =>
      refine ⟨fun h => ?_, fun h => ?_⟩
      · have hrest : ∀ c ∈ cs, c.takesSteps = false := by simpa [reopens] using h
        obtain ⟨s, -, hs⟩ := callAll_of_no_steps (m := m.quit) (x := x) rfl hrest
        exact ⟨s, hs⟩
      · have hsome := List.find?_isSome.mpr (List.any_eq_true.mp h)
        obtain ⟨c, hc⟩ := Option.isSome_iff_exists.mp hsome
        obtain ⟨hsteps, front, back, rfl, hfront⟩ := List.find?_eq_some_iff_append.mp hc
        cases c with
        | quit => cases hsteps
        | run budget monitor =>
          have hrest : ∀ c ∈ front, c.takesSteps = false := by simpa using hfront
          obtain ⟨s, hs, hcalls⟩ := callAll_of_no_steps (m := m.quit) (x := x) rfl hrest
          refine ⟨.quit :: front, budget, monitor, back, s, rfl, hcalls, fun m' x' hrun => ?_⟩
          obtain ⟨cycles, hran⟩ := run_ran (m := { m with status := s }) hs hrun
          cases cycles with
          | nil => exact absurd hran.eq_limited_zero (by simpa [Call.takesSteps] using hsteps)
          | cons c cycles => exact ⟨c, cycles, hran.cycles.1, hran⟩

theorem ended_until_reopened_quit :
    ∃ m m' s, holding [0x00100513, 0x00100073] = .ok m ∧
      m.run .unlimited .idle () = .ok (m', ()) ∧ m'.status = .trapped 0x80000004 1 ∧
      m'.callAll [.run .unlimited .idle, .quit, .run (.limited 0) .idle] () =
        .ok ({ m' with status := s }, ()) := by
  have hcalls : (do
      let m ← holding [0x00100513, 0x00100073]
      let ran ← m.run .unlimited .idle ()
      return ran.1.status : Except Crash Status).toOption = some (.trapped 0x80000004 1) := by
    decide +kernel
  obtain ⟨m, hm, h⟩ := bind_eq_ok (eq_ok_of_toOption hcalls)
  obtain ⟨⟨m', u⟩, hrun, h⟩ := bind_eq_ok h
  have hstatus : m'.status = .trapped 0x80000004 1 := Except.ok.inj h
  have hstays := ended_until_reopened (m := m') (by rw [hstatus]; rfl)
    [.run .unlimited .idle, .quit, .run (.limited 0) .idle] ()
  obtain ⟨s, hs⟩ := hstays.1 rfl
  exact ⟨m, m', s, hm, hrun, hstatus, hs⟩

/-- Behind a `quit`, a run retires the breakpoint again that has ended the program, and shows it to
its monitor. -/
theorem quit_reopens_ended :
    ¬ ∀ (m m' : Machine) (cs : List (Call (List Word))) (x x' : List Word),
      m.status.hasEnded = true → m.callAll cs x = .ok (m', x') →
        m'.hart = m.hart ∧ m'.retired = m.retired ∧ x' = x := by
  intro hall
  have hcalls : (do
      let m ← create ⟨Config.ramStart, 4096, Config.ramStart⟩
      let loaded ← m.loadBuiltin
      let ran ← loaded.2.run .unlimited .idle ()
      let again ← ran.1.callAll [.quit, .run (.limited 1) fun s _ pcs => (.go, s.pc :: pcs)] []
      return (ran.1.status.hasEnded, ran.1.retired, again.1.retired, again.2) :
        Except Crash (Bool × Nat × Nat × List Word)).toOption =
      some (true, 4, 5, [0x8000000c]) := by
    decide +kernel
  obtain ⟨m, -, h⟩ := bind_eq_ok (eq_ok_of_toOption hcalls)
  obtain ⟨loaded, -, h⟩ := bind_eq_ok h
  obtain ⟨⟨m₁, u⟩, -, h⟩ := bind_eq_ok h
  obtain ⟨⟨m₂, pcs⟩, hagain, h⟩ := bind_eq_ok h
  simp only [Prod.mk.injEq, Except.ok.injEq, pure, Except.pure] at h
  obtain ⟨hended, hbefore, hafter, -⟩ := h
  have hsame := (hall m₁ m₂ _ _ _ hended hagain).2.1
  rw [hbefore, hafter] at hsame
  cases hsame

end Hartwatch.Machine
