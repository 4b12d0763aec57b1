import Hartwatch.Proofs.Debugger.Advance
import Hartwatch.Proofs.Debugger.Transcript

/-! How sessions end. One that reads commands is left by the first line that says so, and only such
a line gives the machine the status of a session that was left. In batch mode a session says how the
program has ended, and no more. -/

namespace Hartwatch

theorem Cycle.status_ne_quit (c : Cycle) : c.status ≠ .quit := by
  cases hresult : c.result with
  | ok s => simp [status, hresult]
  | error t =>
    intro hquit
    cases (congrArg Status.hasEnded hquit).symm.trans (hasEnded_status hresult)

theorem Machine.Ran.status_ne_quit {σ : Type} {m m' : Machine} {budget : Budget}
    {monitor : Monitor σ} {x x' : σ} {cs : List Cycle} (h : m.Ran budget monitor x cs m' x') :
    m'.status ≠ .quit := by
  rw [h.status]
  cases cs.getLast? with
  | none => exact fun hquit => nomatch hquit
  | some c => exact c.status_ne_quit

namespace Debugger

open Session Machine

variable {d d' : Debugger} {line : String} {budget : Budget}

/-! ### Leaving -/

def Stays (d : Debugger) : Prop :=
  d.machine.status ≠ .quit

theorem run_stays (budget : Budget) : Preserves (fun _ => True) Stays (run budget) := by
  intro d r d' hd h _
  cases hended : d.machine.status.hasEnded with
  | true =>
    rw [Stays, (run_ended_keeps hended h).1]
    exact hd
  | false =>
    obtain ⟨w, hrun, -, -⟩ := run_cases hended h
    obtain ⟨cs, hran⟩ := run_ran hended hrun
    exact hran.status_ne_quit

theorem stays_closed : Closed (Preserves (fun _ => True) Stays) :=
  Preserves.closed_of_machine (Q := fun m => m.status ≠ .quit) run_stays

theorem execute_left {r : Except Error Flow} (hl : leaves line = true)
    (h : (execute line).on d = .ok (r, d')) : d'.machine.status = .quit := by
  rw [execute_of_leaves hl] at h
  obtain ⟨-, rfl⟩ := Prod.mk.inj (Except.ok.inj h)
  rfl

theorem answerAll_left_iff {lines : List String} {answers : List Answer} (hd : d.Stays)
    (h : answerAll (upToLeave lines) d = .ok (answers, d')) :
    d'.machine.status = .quit ↔ (upToLeave lines).any leaves = true := by
  induction lines generalizing d answers with
  | nil =>
    obtain ⟨-, rfl⟩ := Prod.mk.inj (Except.ok.inj h)
    exact iff_of_false hd (by simp [upToLeave])
  | cons line lines ih =>
    obtain ⟨⟨r, d₁⟩, hexecute, h⟩ := bind_eq_ok h
    obtain ⟨⟨answers₁, last⟩, hrest, h⟩ := bind_eq_ok h
    obtain ⟨-, rfl⟩ := Prod.mk.inj (Except.ok.inj h)
    cases hl : leaves line with
    | true =>
      rw [if_pos hl] at hrest
      obtain ⟨-, rfl⟩ := Prod.mk.inj (Except.ok.inj hrest)
      exact iff_of_true (execute_left hl hexecute) (by simp [upToLeave, hl])
    | false =>
      have hstart : (d.onto (.empty none)).Stays := hd
      have hquit : leaves line = true → Preserves (fun _ => True) Stays quit := by
        intro htrue
        cases hl.symm.trans htrue
      have hd₁ := stays_closed.execute line hquit hstart hexecute fun _ _ => trivial
      rw [if_neg (by simp [hl])] at hrest
      simpa [upToLeave, hl] using ih hd₁ hrest

theorem ending_isFatal {lines : List (Option String)} {e : Error}
    (h : ending lines = .error e) : e.isFatal = true := by
  induction lines with
  | nil => cases h
  | cons line? lines ih =>
    cases line? with
    | none =>
      obtain rfl := Except.error.inj h
      rfl
    | some line =>
      rw [ending] at h
      split at h
      · cases h
      · exact ih h

/-- Among the lines that a session executes is one that leaves. -/
def Leaves (batch : Bool) (input : List UInt8) : Prop :=
  batch = false ∧ (upToLeave (decoded (Text.lines input))).any leaves = true

/-! ### Batch mode -/

theorem session_of_batch (hbatch : d.batch = true) (input : List UInt8) :
    (session input).on d = (do let _ ← run .unlimited).on d := by
  rw [session, on_get_bind, if_pos hbatch]

theorem lookAround_unwatched {w : Watcher} (hpool : w.pool.active = []) (h : Hart) :
    lookAround h w = (.go, w) := by
  have hnothing : w.pool.detect h.context = ⟨w.pool, [], none⟩ := by
    rw [WatchpointPool.detect, hpool]
    rfl
  simp [lookAround, hnothing]

/-- Without watchpoints, a run that does not echo its steps writes how the program has ended. -/
theorem run_unwatched {r : Except Error (List Watchpoint.Change)}
    (hd : d.machine.status.hasEnded = false) (hpool : d.pool.active = [])
    (hroom : d.out.room? = none) (hecho : echoes budget = false)
    (h : (run budget).on d = .ok (r, d')) :
    r = .ok [] ∧ d'.out = d.out.append (endText d'.machine) := by
  obtain ⟨w, hrun, -, hend⟩ := run_cases hd h
  obtain ⟨m, hloop, -⟩ := Machine.run_eq_ok hd hrun
  -- no watchpoint and no echo, so the loop hands its record on as it got it
  have hidle : ∀ s h, (watcher (echoes budget) s h ⟨d.pool, [], d.out, none⟩).2 =
      ⟨d.pool, [], d.out, none⟩ := by
    intro s h
    rw [hecho]
    exact congrArg Prod.snd (lookAround_unwatched hpool h)
  have hw : w = ⟨d.pool, [], d.out, none⟩ := by
    refine loop_invariant (I := fun _ w => w = ⟨d.pool, [], d.out, none⟩) ?_ rfl rfl hloop
    rintro m x m' x' rfl - hs
    cases hs with
    | completed => exact hidle _ _
    | called => exact hidle _ _
    | aborted => rfl
  subst hw
  rcases hend with ⟨e, he, -⟩ | ⟨-, hconclude⟩
  · cases he
  · have hprints := conclude_prints (d := d.withRun d'.machine ⟨d.pool, [], d.out, none⟩) hroom []
    obtain ⟨rfl, hd'⟩ := Prod.mk.inj (Except.ok.inj (hconclude.symm.trans hprints))
    refine ⟨rfl, ?_⟩
    rw [hd']
    simp [withRun]

/-- A session that starts without watchpoints, on an output that takes all, fails with fatal errors
only, and it has been left if and only if its machine says so. -/
theorem session_ends {input : List UInt8} {r : Except Error Unit} (hd : d.machine.status = .stopped)
    (hpool : d.pool.active = []) (hroom : d.out.room? = none)
    (h : (session input).on d = .ok (r, d')) :
    (∀ e, r = .error e → e.isFatal = true) ∧ (d'.machine.status = .quit ↔ Leaves d.batch input) ∧
      (d.batch = true → r = .ok () ∧ d'.out = d.out.append (endText d'.machine)) := by
  have hstays : d.Stays := by simp [Stays, hd]
  cases hbatch : d.batch with
  | false =>
    rw [session_eq input hbatch hroom] at h
    obtain ⟨⟨answers, last⟩, hanswers, h⟩ := bind_eq_ok h
    obtain ⟨rfl, rfl⟩ := Prod.mk.inj (Except.ok.inj h)
    have hleft := answerAll_left_iff hstays hanswers
    refine ⟨fun e => ending_isFatal, ?_, fun h => nomatch h⟩
    rw [Leaves, and_iff_right rfl]
    exact hleft
  | true =>
    have hnot : ¬ Leaves true input := fun hl => nomatch hl.1
    have hended : d.machine.status.hasEnded = false := by rw [hd]; rfl
    rw [session_of_batch hbatch] at h
    rcases on_bind_eq_ok h with ⟨changes, d₁, hrun, hrest⟩ | ⟨e, hrun, rfl⟩
    · obtain ⟨rfl, rfl⟩ := Prod.mk.inj (Except.ok.inj hrest)
      have hout := (run_unwatched hended hpool hroom rfl hrun).2
      have hquit : d₁.machine.status ≠ .quit :=
        run_stays .unlimited hstays hrun fun _ _ => trivial
      exact ⟨fun e he => (nomatch he), iff_of_false hquit hnot, fun _ => ⟨rfl, hout⟩⟩
    · cases (run_unwatched hended hpool hroom rfl hrun).1

end Debugger

end Hartwatch
