import Hartwatch.Proofs.Debugger.Output
import Hartwatch.Proofs.Debugger.Watcher

/-! Runs of a debugger, in two parts: the watched run of its machine and, unless that met an error,
the report of what it gathered. -/

namespace Hartwatch.Debugger

open Session

variable {d d' : Debugger} {budget : Budget} {r : Except Error (List Watchpoint.Change)}

def conclude (changes : List Watchpoint.Change) : Session (List Watchpoint.Change) := do
  changes.forM fun c => write (changeText c)
  reportEnd
  return changes

def withRun (d : Debugger) (machine : Machine) (w : Watcher) : Debugger :=
  { d with machine, pool := w.pool, out := w.out }

theorem run_of_ended (hd : d.machine.status.hasEnded = true) :
    (run budget).on d = (do writeLine endedNotice; return []).on d := by
  rw [run, on_get_bind, if_pos hd]

theorem run_ended_keeps (hd : d.machine.status.hasEnded = true)
    (h : (run budget).on d = .ok (r, d')) : d'.machine = d.machine ∧ d'.pool = d.pool := by
  rw [run_of_ended hd] at h
  obtain ⟨hm, hp, -⟩ := OnlyWrites.bind (.writeLine _) (fun _ => .pure _) h
  exact ⟨hm, hp⟩

theorem run_of_not_ended (hd : d.machine.status.hasEnded = false) :
    (run budget).on d =
      d.machine.run budget (watcher (echoes budget)) ⟨d.pool, [], d.out, none⟩ >>=
      fun (machine, w) =>
        match w.error? with
        | some e => .ok (.error e, d.withRun machine w)
        | none => (conclude w.changes).on (d.withRun machine w) := by
  rw [run, on_get_bind, if_neg (by simp [hd]), on_bind, watchedRun, on_get_bind, on_liftM_bind]
  cases d.machine.run budget (watcher (echoes budget)) ⟨d.pool, [], d.out, none⟩ with
  | error c => rfl
  | ok x =>
    obtain ⟨machine, pool, changes, out, error?⟩ := x
    cases error? <;> rfl

theorem reportEnd_onlyWrites : OnlyWrites reportEnd := by
  refine .bind .get fun d => ?_
  extract_lets m
  split
  · exact .pure _
  · exact .bind (.writeLine _) fun _ => .writeLine _

theorem conclude_onlyWrites (changes : List Watchpoint.Change) : OnlyWrites (conclude changes) :=
  .bind (.forM (fun _ => .write _) _) fun _ => .bind reportEnd_onlyWrites fun _ => .pure _

theorem conclude_eq_ok {changes changes' : List Watchpoint.Change}
    (h : (conclude changes).on d = .ok (.ok changes', d')) : changes' = changes := by
  rcases on_bind_eq_ok h with ⟨u, d₁, -, h⟩ | ⟨e, -, he⟩
  · rcases on_bind_eq_ok h with ⟨u, d₂, -, h⟩ | ⟨e, -, he⟩
    · exact (Except.ok.inj (Prod.mk.inj (Except.ok.inj h)).1).symm
    · cases he
  · cases he

def endText (m : Machine) : String :=
  match m.status.report? with
  | none => ""
  | some report =>
    report ++ "\n" ++ (s!"total guest instructions = {Text.decimal m.retired}" ++ "\n")

theorem reportEnd_prints (h : d.out.room? = none) : Prints reportEnd d () (endText d.machine) := by
  have hd : ∀ t, { d with out := d.out.append t }.out.room? = none := fun _ => h
  rw [Prints, reportEnd, on_get_bind, endText]
  extract_lets
  cases d.machine.status.report? with
  | none => exact Prints.pure () d
  | some report => exact (Prints.write h _).bind (Prints.write (hd _) _)

theorem conclude_prints (h : d.out.room? = none) (changes : List Watchpoint.Change) :
    Prints (conclude changes) d changes
      (.join (changes.map changeText) ++ (endText d.machine ++ "")) := by
  have hd : ∀ t, { d with out := d.out.append t }.out.room? = none := fun _ => h
  exact (Prints.forM h changes).bind ((reportEnd_prints (hd _)).bind (.pure _ _))

/-! ### Outcomes -/

/-- A run answers with the error that its watcher has met, or else concludes with the changes that
were gathered. -/
def Concluded (d : Debugger) (w : Watcher) (r : Except Error (List Watchpoint.Change))
    (d' : Debugger) : Prop :=
  (∃ e, w.error? = some e ∧ r = .error e ∧ d' = d.withRun d'.machine w) ∨
    w.error? = none ∧ (conclude w.changes).on (d.withRun d'.machine w) = .ok (r, d')

theorem Concluded.eq_error {w : Watcher} {e : Error} (hend : d.Concluded w r d')
    (he : w.error? = some e) : r = .error e := by
  rcases hend with ⟨e', he', hr, -⟩ | ⟨hnone, -⟩
  · rw [hr, Option.some.inj (he.symm.trans he')]
  · cases hnone.symm.trans he

theorem Concluded.eq_ok {w : Watcher} (hend : d.Concluded w r d') (he : w.error? = none)
    (hout : r ≠ .error (.stream .outputFull)) : r = .ok w.changes := by
  rcases hend with ⟨e, he', -, -⟩ | ⟨-, hconclude⟩
  · cases he.symm.trans he'
  · cases r with
    | error e =>
      obtain ⟨-, -, hfull⟩ := conclude_onlyWrites _ hconclude
      exact absurd (congrArg _ (hfull e rfl)) hout
    | ok changes => rw [conclude_eq_ok hconclude]

theorem run_cases (hd : d.machine.status.hasEnded = false)
    (h : (run budget).on d = .ok (r, d')) :
    ∃ w, d.machine.run budget (watcher (echoes budget)) ⟨d.pool, [], d.out, none⟩ =
        .ok (d'.machine, w) ∧ d'.pool = w.pool ∧ d.Concluded w r d' := by
  rw [run_of_not_ended hd] at h
  obtain ⟨⟨machine, w⟩, hrun, h⟩ := bind_eq_ok h
  refine ⟨w, ?_⟩
  cases he : w.error? with
  | some e =>
    simp only [he] at h
    obtain ⟨rfl, rfl⟩ := Prod.mk.inj (Except.ok.inj h)
    exact ⟨hrun, rfl, .inl ⟨e, he, rfl, rfl⟩⟩
  | none =>
    simp only [he] at h
    obtain ⟨hm, hp, -⟩ := conclude_onlyWrites _ h
    have hm : d'.machine = machine := hm
    rw [Concluded, hm]
    exact ⟨hrun, hp, .inr ⟨he, h⟩⟩

theorem run_settled (hnodup : d.pool.active.Nodup) (hd : d.machine.status.hasEnded = false)
    (h : (run budget).on d = .ok (r, d')) :
    ∃ m w, Settled { d.machine with status := .running } d.pool budget.bound m w ∧
      (d.out.room? = none → w.Echoes d.out) ∧
      d'.machine = { m with status := if m.status = .running then .stopped else m.status } ∧
      d'.pool = w.pool ∧ d.Concluded w r d' := by
  obtain ⟨w, hrun, hpool, hend⟩ := run_cases hd h
  obtain ⟨m, hloop, hm⟩ := Machine.run_eq_ok hd hrun
  exact ⟨m, w, settled_of_loop hnodup ⟨rfl, rfl, rfl⟩ rfl hloop,
    fun hout => echoes_of_loop hout rfl hloop, hm, hpool, hend⟩

end Hartwatch.Debugger
