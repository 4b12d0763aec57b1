import Hartwatch.Machine
import Hartwatch.Proofs.Machine.Trap

/-! The loop of a machine. A step has one of three outcomes, and what each step of a loop
preserves holds where the loop ends. -/

namespace Hartwatch

/-- The hart after a number of steps, where a trap is a step that stays in place. -/
def Hart.after : Nat → Hart → Except Crash Hart
  | 0, h => .ok h
  | n + 1, h => do
    let (_, h) ← h.step
    after n h

theorem Hart.after_succ {h h₁ h₂ : Hart} {n : Nat} {result : Except Trap Step}
    (hn : h.after n = .ok h₁) (hs : h₁.step = .ok (result, h₂)) : h.after (n + 1) = .ok h₂ := by
  induction n generalizing h with
  | zero =>
    obtain rfl := Except.ok.inj hn
    simp [after, hs, bind, Except.bind]
  | succ n ih =>
    obtain ⟨⟨r, h'⟩, hstep, hn⟩ := bind_eq_ok hn
    rw [after, hstep]
    exact ih hn

theorem Checked.succ_eq_ok {m n : Nat} (h : Checked.succ m = .ok n) : n = m + 1 ∧ n < 1 <<< 64 := by
  unfold Checked.succ at h
  split at h
  · next hlt =>
    obtain rfl := Except.ok.inj h
    exact ⟨rfl, hlt⟩
  · cases h

theorem Status.ne_running_of_hasEnded {s : Status} (h : s.hasEnded = true) : s ≠ .running := by
  rintro rfl
  cases h

theorem eq_limited_of_bound {budget : Budget} {k : Nat} (hk : k = budget.bound)
    (hb : budget.bound = 0 ∨ budget.bound < 1 <<< 64) : budget = .limited k := by
  cases budget with
  | limited n => rw [hk]; rfl
  | unlimited => simp [Budget.bound] at hb

namespace Machine

variable {σ : Type} {monitor : Monitor σ} {m m' : Machine} {x x' : σ}

/-- The outcomes of a step: an instruction completes, or it traps and retires all the same, or
the trap keeps it from retiring. -/
inductive Stepped (monitor : Monitor σ) (m : Machine) (x : σ) : Machine → σ → Prop
  | completed {s : Step} {hart : Hart} : m.hart.step = .ok (.ok s, hart) →
    m.retired + 1 < 1 <<< 64 →
    Stepped monitor m x
      { m with
        hart, retired := m.retired + 1
        status :=
          if (monitor s hart x).1 = .stop ∧ m.status = .running then .stopped else m.status }
      (monitor s hart x).2
  | called {t : Trap} {hart : Hart} {word : Word} : m.hart.step = .ok (.error t, hart) →
    t.retires = true → m.hart.ram.fetch m.hart.pc = .ok (.ok word) → m.retired + 1 < 1 <<< 64 →
    Stepped monitor m x
      { m with hart, retired := m.retired + 1, status := trapStatus hart m.hart.pc t }
      (monitor (.straight m.hart.pc word) hart x).2
  | aborted {t : Trap} {hart : Hart} : m.hart.step = .ok (.error t, hart) → t.retires = false →
    Stepped monitor m x { m with hart, status := trapStatus hart m.hart.pc t } x

theorem retire_eq_ok {s : Step} (h : m.retire monitor s x = .ok (m', x')) :
    m.retired + 1 < 1 <<< 64 ∧ x' = (monitor s m.hart x).2 ∧
      m' = { m with
        retired := m.retired + 1
        status := if (monitor s m.hart x).1 = .stop ∧ m.status = .running then .stopped
          else m.status } := by
  obtain ⟨n, hn, h⟩ := bind_eq_ok h
  obtain ⟨rfl, hlt⟩ := Checked.succ_eq_ok hn
  obtain ⟨rfl, rfl⟩ := Prod.mk.inj (Except.ok.inj h)
  exact ⟨hlt, rfl, rfl⟩

theorem step_cases (h : m.step monitor x = .ok (m', x')) : Stepped monitor m x m' x' := by
  obtain ⟨⟨result, hart⟩, hstep, h⟩ := bind_eq_ok h
  cases result with
  | ok s =>
    obtain ⟨hlt, rfl, rfl⟩ := retire_eq_ok h
    exact .completed hstep hlt
  | error t =>
    obtain ⟨⟨m₁, x₁⟩, htrap, h⟩ := bind_eq_ok h
    obtain ⟨rfl, rfl⟩ := Prod.mk.inj (Except.ok.inj h)
    unfold retireTrapped at htrap
    split at htrap
    · next hretires =>
      obtain ⟨word, hfetch, hhart⟩ := Hart.step_retiring_trap hstep hretires
      have hram : hart.ram = m.hart.ram := by rw [hhart]; rfl
      obtain ⟨result, hagain, htrap⟩ := bind_eq_ok htrap
      obtain rfl := Except.ok.inj (hfetch.symm.trans (hram ▸ hagain))
      obtain ⟨hlt, rfl, rfl⟩ := retire_eq_ok htrap
      exact .called hstep hretires hfetch hlt
    · next hretires =>
      obtain ⟨rfl, rfl⟩ := Prod.mk.inj (Except.ok.inj htrap)
      exact .aborted hstep (by simpa using hretires)

theorem hasEnded_trapStatus (h : Hart) (pc : Word) (t : Trap) :
    (trapStatus h pc t).hasEnded = true := by
  unfold trapStatus
  split
  · rfl
  · split <;> rfl
  · rfl

theorem retire_asks_once (m : Machine) (monitor : Monitor σ) (s : Step) :
    (∃ c, ∀ x, m.retire monitor s x = .error c) ∨
      ∃ next : Control → Machine, (next .stop).status ≠ .running ∧
        ∀ x, m.retire monitor s x = .ok (next (monitor s m.hart x).1, (monitor s m.hart x).2) := by
  cases hcount : Checked.succ m.retired with
  | error c => exact .inl ⟨c, fun x => by rw [retire, hcount]; rfl⟩
  | ok retired =>
    let next : Control → Machine := fun control =>
      { m with
        retired
        status := if control = .stop ∧ m.status = .running then .stopped else m.status }
    have hstop : (next .stop).status ≠ .running := by
      by_cases hrun : m.status = .running <;> simp [next, hrun]
    exact .inr ⟨next, hstop, fun x => by rw [retire, hcount]; rfl⟩

/-- A step shows at most one instruction, told by the machine alone, and goes on by the monitor's
answer. -/
theorem step_asks_once (m : Machine) (monitor : Monitor σ) :
    (∃ c, ∀ x, m.step monitor x = .error c) ∨ (∃ m', ∀ x, m.step monitor x = .ok (m', x)) ∨
      ∃ s h, ∃ next : Control → Machine, (next .stop).status ≠ .running ∧
        ∀ x, m.step monitor x = .ok (next (monitor s h x).1, (monitor s h x).2) := by
  cases hstep : m.hart.step with
  | error c => exact .inl ⟨c, fun x => by rw [step, hstep]; rfl⟩
  | ok outcome =>
    obtain ⟨result, hart⟩ := outcome
    cases result with
    | ok s =>
      have hretire : ∀ x, m.step monitor x = retire { m with hart } monitor s x :=
        fun x => by rw [step, hstep]; rfl
      simp only [hretire]
      rcases retire_asks_once { m with hart } monitor s with ⟨c, hcrash⟩ | ⟨next, hstop, hnext⟩
      · exact .inl ⟨c, hcrash⟩
      · exact .inr (.inr ⟨s, hart, next, hstop, hnext⟩)
    | error t =>
      let close : Machine → Machine := fun m' =>
        { m' with status := trapStatus m'.hart m.hart.pc t }
      have htrap : ∀ x, m.step monitor x =
          retireTrapped { m with hart } monitor m.hart.pc t x >>= fun after =>
            .ok (close after.1, after.2) := fun x => by rw [step, hstep]; rfl
      simp only [htrap, retireTrapped]
      cases hretires : t.retires with
      | false => exact .inr (.inl ⟨close { m with hart }, fun x => rfl⟩)
      | true =>
        cases hart.ram.fetch m.hart.pc with
        | error c => exact .inl ⟨c, fun x => rfl⟩
        | ok fetched =>
          cases fetched with
          | error f => exact .inr (.inl ⟨close { m with hart }, fun x => rfl⟩)
          | ok word =>
            have hclosed : ∀ m', (close m').status ≠ .running := fun m' =>
              Status.ne_running_of_hasEnded (hasEnded_trapStatus m'.hart m.hart.pc t)
            rcases retire_asks_once { m with hart } monitor (.straight m.hart.pc word) with
              ⟨c, hcrash⟩ | ⟨next, -, hnext⟩
            · exact .inl ⟨c, fun x => congrArg (· >>= _) (hcrash x)⟩
            · exact .inr (.inr ⟨.straight m.hart.pc word, hart, fun control => close (next control),
                hclosed _, fun x => congrArg (· >>= _) (hnext x)⟩)

/-- A loop either goes on until its steps are used up, with an invariant that each step keeps, or
ends with the first step that leaves the machine not running. -/
theorem loop_rule {I Q : Nat → Machine → σ → Prop}
    (hstep : ∀ {k m x m' x'}, I k m x → m.status = .running → Stepped monitor m x m' x' →
      if m'.status = .running then I (k + 1) m' x' else Q (k + 1) m' x')
    {n k : Nat} (hI : I k m x) (hm : m.status = .running)
    (h : loop monitor n m x = .ok (m', x')) :
    m'.status = .running ∧ I (k + n) m' x' ∨
      m'.status ≠ .running ∧ ∃ j, j ≤ n ∧ Q (k + j) m' x' := by
  induction n generalizing k m x with
  | zero =>
    obtain ⟨rfl, rfl⟩ := Prod.mk.inj (Except.ok.inj h)
    exact .inl ⟨hm, hI⟩
  | succ n ih =>
    obtain ⟨⟨m₁, x₁⟩, hs, h⟩ := bind_eq_ok h
    have hnext := hstep hI hm (step_cases hs)
    by_cases hrun : m₁.status = .running
    · simp only [hrun, if_true] at hnext h
      rcases ih hnext hrun h with ⟨hm', hI'⟩ | ⟨hm', j, hj, hQ⟩
      · exact .inl ⟨hm', by rwa [Nat.add_right_comm] at hI'⟩
      · exact .inr ⟨hm', j + 1, by omega, by rwa [Nat.add_right_comm] at hQ⟩
    · simp only [hrun, if_false] at hnext h
      obtain ⟨rfl, rfl⟩ := Prod.mk.inj (Except.ok.inj h)
      exact .inr ⟨hrun, 1, by omega, hnext⟩

theorem loop_invariant {I : Machine → σ → Prop}
    (hstep : ∀ {m x m' x'}, I m x → m.status = .running → Stepped monitor m x m' x' → I m' x')
    {n : Nat} (hI : I m x) (hm : m.status = .running) (h : loop monitor n m x = .ok (m', x')) :
    I m' x' := by
  have hnext : ∀ {k : Nat} {m x m' x'}, I m x → m.status = .running → Stepped monitor m x m' x' →
      if m'.status = .running then I m' x' else I m' x' := by
    intro _ m x m' x' hI hm hs
    rw [ite_self]
    exact hstep hI hm hs
  rcases loop_rule (k := 0) (I := fun _ => I) (Q := fun _ => I) (hnext (k := 0)) hI hm h with
    ⟨-, h⟩ | ⟨-, -, -, h⟩
  · exact h
  · exact h

theorem run_of_hasEnded {budget : Budget} (hm : m.status.hasEnded = true) :
    m.run budget monitor x = .ok (m, x) := by
  rw [run, if_pos hm]

theorem run_of_not_ended {budget : Budget} (hm : m.status.hasEnded = false) :
    m.run budget monitor x = loop monitor budget.bound { m with status := .running } x >>=
      fun (m, x) =>
        .ok ({ m with status := if m.status = .running then .stopped else m.status }, x) := by
  rw [run, if_neg (by simp [hm])]
  rfl

theorem run_eq_ok {budget : Budget} (hm : m.status.hasEnded = false)
    (h : m.run budget monitor x = .ok (m', x')) :
    ∃ m₁, loop monitor budget.bound { m with status := .running } x = .ok (m₁, x') ∧
      m' = { m₁ with status := if m₁.status = .running then .stopped else m₁.status } := by
  rw [run_of_not_ended hm] at h
  obtain ⟨⟨m₁, x₁⟩, hloop, h⟩ := bind_eq_ok h
  obtain ⟨rfl, rfl⟩ := Prod.mk.inj (Except.ok.inj h)
  exact ⟨m₁, hloop, rfl⟩

end Machine

end Hartwatch
