import Hartwatch.Proofs.Debugger.Reports

/-! When the end of a program is reported. A program that ends with a breakpoint or an environment
call has its watchpoints looked at once more, and the error of that look takes the place of the
report. Any other end is always reported. -/

namespace Hartwatch

def Status.lastRetired : Status → Bool
  | trapped .. | halted .. => true
  | aborted _ trap => trap.retires
  | running | stopped | quit => false

theorem Status.exists_report {s : Status} (h : s.hasEnded = true) :
    ∃ report, s.report? = some report := by
  cases s with
  | trapped pc value =>
    unfold report?
    dsimp only
    split <;> exact ⟨_, rfl⟩
  | halted | aborted => exact ⟨_, rfl⟩
  | running | stopped | quit => cases h

theorem Machine.lastRetired_trapStatus (h : Hart) (pc : Word) (t : Trap) :
    (trapStatus h pc t).lastRetired = t.retires := by
  obtain ⟨kind, value⟩ := t
  cases kind with
  | environmentCall =>
    unfold trapStatus
    dsimp only
    split <;> rfl
  | breakpoint => rfl
  | illegalInstruction | instructionAccessFault | loadAccessFault | storeAccessFault => rfl

namespace Debugger

open Session Machine

variable {d d' : Debugger} {budget : Budget} {r : Except Error (List Watchpoint.Change)}
variable {m m' : Machine} {w w' : Watcher} {p : WatchpointPool} {echo : Bool} {n : Nat}

/-- The debuggers that runs start from: those that calls lead to, and those that a session comes to
between its lines, where it writes prompts and messages. -/
inductive Attained : Debugger → Prop
  | called {d : Debugger} : Reachable (fun _ => True) d → Attained d
  | wrote {d d' : Debugger} {r : Except Error Unit} (text : String) : Attained d →
    (write text).on d = .ok (r, d') → Attained d'
  | executed {d d' : Debugger} {r : Except Error Flow} (line : String) : Attained d →
    (execute line).on d = .ok (r, d') → Attained d'

theorem Attained.laid (hd : Attained d) : d.Laid := by
  have hinvariant : Invariant (fun _ => True) Laid := laid_invariant
  induction hd with
  | called hd => exact laid_of_reachable hd
  | wrote text _ h ih => exact hinvariant.write text ih h fun _ _ => trivial
  | executed line _ h ih => exact hinvariant.execute line ih h fun _ _ => trivial

/-! ### The last look -/

theorem echoed_of_no_limit {out : Sink} (hout : out.room? = none) (s : Step) :
    (echoed echo s out).1 = true ∧ (echoed echo s out).2.room? = none := by
  cases echo with
  | false => exact ⟨rfl, hout⟩
  | true =>
    rw [echoed, if_pos rfl, Sink.write_of_no_limit hout]
    exact ⟨rfl, hout⟩

theorem watcher_found (echo : Bool) (s : Step) (h : Hart) (hw : w.Idle p)
    (hnodup : p.active.Nodup) (hout : w.out.room? = none) :
    (watcher echo s h w).2.Found h.context p ∧
      ((watcher echo s h w).1 = .go → (watcher echo s h w).2.Idle p) := by
  rw [watcher_eq, if_pos (echoed_of_no_limit hout s).1]
  have hidle : ({ w with out := (echoed echo s w.out).2 } : Watcher).Idle p :=
    ⟨hw.pool, hw.changes, hw.error?⟩
  rcases lookAround_cases hidle hnodup with ⟨-, hidle, hcurrent⟩ | ⟨hstop, hfound, -⟩
  · exact ⟨hidle.found hnodup hcurrent, fun _ => hidle⟩
  · exact ⟨hfound, fun hgo => nomatch hgo.symm.trans hstop⟩

/-- At the end of a program, a watcher has gathered what a look finds then, or nothing if the last
instruction has not retired. -/
def LastLook (p : WatchpointPool) (m : Machine) (w : Watcher) : Prop :=
  if m.status.lastRetired then w.Found m.hart.context p else w.Idle p

/-- A step leaves the watcher idle as long as the machine runs. The step that ends the program looks
at the watchpoints if it retires an instruction. -/
theorem lastLook_of_stepped (hnodup : p.active.Nodup) (hout : w.out.room? = none) (hw : w.Idle p)
    (hm : m.status = .running) (hs : Stepped (watcher echo) m w m' w') :
    if m'.status = .running then w'.Idle p ∧ w'.out.room? = none
    else m'.status.hasEnded = true → LastLook p m' w' := by
  cases hs with
  | @completed s hart hstep hlt =>
    obtain ⟨-, hidle⟩ := watcher_found echo s hart hw hnodup hout
    cases hcontrol : (watcher echo s hart w).1 with
    | go =>
      simp only [hm, reduceCtorEq, false_and, if_false, if_true]
      rw [watcher_out]
      exact ⟨hidle hcontrol, (echoed_of_no_limit hout s).2⟩
    | stop =>
      simp only [hm, and_self, if_true, reduceCtorEq, if_false]
      exact fun hstopped => nomatch hstopped
  | @called t hart word hstep hretires hfetch hlt =>
    have hended := hasEnded_trapStatus hart m.hart.pc t
    rw [if_neg (Status.ne_running_of_hasEnded hended)]
    intro _
    rw [LastLook, lastRetired_trapStatus, hretires, if_pos rfl]
    exact (watcher_found echo _ hart hw hnodup hout).1
  | @aborted t hart hstep hretires =>
    have hended := hasEnded_trapStatus hart m.hart.pc t
    rw [if_neg (Status.ne_running_of_hasEnded hended)]
    intro _
    rw [LastLook, lastRetired_trapStatus, if_neg (by simp [hretires])]
    exact hw

theorem lastLook_of_loop (hnodup : p.active.Nodup) (hout : w.out.room? = none) (hw : w.Idle p)
    (hm : m.status = .running) (h : loop (watcher echo) n m w = .ok (m', w'))
    (hend : m'.status.hasEnded = true) : LastLook p m' w' := by
  rcases loop_rule (k := 0) (I := fun _ _ x => x.Idle p ∧ x.out.room? = none)
      (Q := fun _ m x => m.status.hasEnded = true → LastLook p m x)
      (fun ⟨hx, hroom⟩ => lastLook_of_stepped hnodup hroom hx) ⟨hw, hout⟩ hm h with
    ⟨hrunning, -⟩ | ⟨-, -, -, hlast⟩
  · exact absurd hrunning (Status.ne_running_of_hasEnded hend)
  · exact hlast hend

theorem run_lastLook (hnodup : d.pool.active.Nodup) (hout : d.out.room? = none)
    (hended : d.machine.status.hasEnded = false) (hrun : (run budget).on d = .ok (r, d'))
    (hend : d'.machine.status.hasEnded = true) :
    ∃ w, LastLook d.pool d'.machine w ∧ w.Echoes d.out ∧ d.Concluded w r d' := by
  obtain ⟨w, hmachine, -, hconcluded⟩ := run_cases hended hrun
  obtain ⟨m, hloop, hm⟩ := Machine.run_eq_ok hended hmachine
  have hsame : d'.machine = m := by
    rw [hm] at hend ⊢
    by_cases hrunning : m.status = .running
    · simp only [hrunning, if_true] at hend
      cases hend
    · simp only [hrunning, if_false]
  rw [hsame] at hend ⊢
  exact ⟨w, lastLook_of_loop hnodup hout ⟨rfl, rfl, rfl⟩ rfl hloop hend,
    echoes_of_loop hout rfl hloop, hconcluded⟩

theorem LastLook.error?_eq_none_iff (hw : LastLook p m w) (hnodup : p.active.Nodup) :
    w.error? = none ↔ (m.status.lastRetired = true →
      ∀ i ∈ p.active, ∃ v, Expr.evaluate m.hart.context (p.slots.get i).expr = .ok v) := by
  unfold LastLook at hw
  split at hw
  · next hretired =>
    rw [hw.error?, Option.map_eq_none_iff, WatchpointPool.detect_error?_eq_none hnodup]
    exact ⟨fun hread _ => hread, fun hread => hread hretired⟩
  · next hretired => exact iff_of_true hw.error? fun h => absurd h hretired

theorem equalSign_mem_endText (hend : m.status.hasEnded = true) : '=' ∈ (endText m).toList := by
  obtain ⟨report, hreport⟩ := Status.exists_report hend
  rw [endText, hreport]
  simp only [String.toList_append]
  refine List.mem_append_right _ (List.mem_append_left _ (List.mem_append_left _ ?_))
  decide

theorem printed_end_iff_ok (hnodup : d.pool.active.Nodup) (hout : d.out.room? = none)
    (hended : d.machine.status.hasEnded = false) (hrun : (run budget).on d = .ok (r, d'))
    (hend : d'.machine.status.hasEnded = true) :
    Printed d d' (endText d'.machine) ↔ ∃ changes, r = .ok changes := by
  obtain ⟨w, -, hecho, hconcluded⟩ := run_lastLook hnodup hout hended hrun hend
  rcases hconcluded.output hecho hout with ⟨e, -, rfl, hhidden⟩ | ⟨-, hr, echoes, htext⟩
  · exact iff_of_false (hhidden _ (equalSign_mem_endText hend)) fun ⟨_, hr⟩ => nomatch hr
  · refine iff_of_true ⟨echoes ++ .join (w.changes.map changeText), "", ?_⟩ ⟨_, hr⟩
    rw [htext, String.append_empty, String.append_assoc]

/-- With an output that takes all, a run that ends the program reports the end if and only if the
last instruction has not retired or all watchpoints have a value then. All that takes the place of
the report is the error that the run answers with. -/
theorem run_reports_end_iff (hd : Attained d) (hout : d.out.room? = none)
    (hended : d.machine.status.hasEnded = false) (hrun : (run budget).on d = .ok (r, d'))
    (hend : d'.machine.status.hasEnded = true) :
    (Printed d d' (endText d'.machine) ↔ (d'.machine.status.lastRetired = true →
      ∀ i ∈ d.pool.active,
        ∃ v, Expr.evaluate d'.machine.hart.context (d.pool.slots.get i).expr = .ok v)) ∧
      (Printed d d' (endText d'.machine) ↔ ∃ changes, r = .ok changes) := by
  obtain ⟨as, fs, hl⟩ := hd.laid
  have hnodup := hl.nodup_active
  have hprinted := printed_end_iff_ok hnodup hout hended hrun hend
  obtain ⟨w, hlast, hecho, hconcluded⟩ := run_lastLook hnodup hout hended hrun hend
  have hok : (∃ changes, r = .ok changes) ↔ w.error? = none := by
    rcases hconcluded.output hecho hout with ⟨e, he, rfl, -⟩ | ⟨hnone, hr, -⟩
    · exact iff_of_false (fun ⟨_, hr⟩ => nomatch hr) (by simp [he])
    · exact iff_of_true ⟨_, hr⟩ hnone
  exact ⟨hprinted.trans (hok.trans (hlast.error?_eq_none_iff hnodup)), hprinted⟩

theorem run_reports_end_iff_bad_trap :
    ∃ d d' changes, Attained d ∧ d.out.room? = none ∧
      d.pool.active.map (fun i => (d.pool.slots.get i).expr) = ["$a1"] ∧
      (run (.limited 3)).on d = .ok (.ok changes, d') ∧
      Printed d d' ("rvdb: HIT BAD TRAP at pc = 0x80000004 (a0 = 0x1)\n" ++
        "total guest instructions = 2\n") := by
  have hcalls : (do
      let d₀ ← createWith [0x00100513, 0x00100073]
      let watched ← (execute "w $a1").on d₀
      let ran ← (run (.limited 3)).on watched.2
      return (watched.2.pool.active.map (fun i => (watched.2.pool.slots.get i).expr),
        [watched.2, ran.2].map (fun d => d.machine.status.hasEnded), watched.2.out.room?,
        endText ran.2.machine) : Except Crash _).toOption =
      some (["$a1"], [false, true], none,
        "rvdb: HIT BAD TRAP at pc = 0x80000004 (a0 = 0x1)\n" ++
          "total guest instructions = 2\n") := by
    decide +kernel
  obtain ⟨d₀, hnew, h⟩ := bind_eq_ok (eq_ok_of_toOption hcalls)
  obtain ⟨⟨r₁, d₁⟩, hwatch, h⟩ := bind_eq_ok h
  obtain ⟨⟨r₂, d₂⟩, hrun, h⟩ := bind_eq_ok h
  simp only [Prod.mk.injEq, Except.ok.injEq, pure, Except.pure, List.map_cons, List.map_nil,
    List.cons.injEq, and_true] at h
  obtain ⟨hexprs, ⟨hended, hend⟩, hroom, htext⟩ := h
  have hd : Attained d₁ := .executed "w $a1" (.called (reachable_createWith hnew)) hwatch
  have hread : ∀ i ∈ d₁.pool.active,
      ∃ v, Expr.evaluate d₂.machine.hart.context (d₁.pool.slots.get i).expr = .ok v := by
    intro i hi
    have hexpr : (d₁.pool.slots.get i).expr ∈ ["$a1"] :=
      hexprs ▸ List.mem_map_of_mem (f := fun i => (d₁.pool.slots.get i).expr) hi
    rw [List.mem_singleton.mp hexpr]
    exact ⟨d₂.machine.hart.read 11, rfl⟩
  obtain ⟨hreported, hanswer⟩ := run_reports_end_iff hd hroom hended hrun hend
  have hprinted := hreported.mpr fun _ => hread
  obtain ⟨changes, rfl⟩ := hanswer.mp hprinted
  exact ⟨d₁, d₂, changes, hd, hroom, hexprs, hrun, htext ▸ hprinted⟩

/-- A breakpoint ends the program while a watchpoint has no value any more. -/
theorem run_hides_end :
    ¬ ∀ d d' : Debugger, ∀ budget r, Reachable (fun _ => True) d → d.out.room? = none →
      d.machine.status.hasEnded = false → (run budget).on d = .ok (r, d') →
      d'.machine.status.hasEnded = true → Printed d d' (endText d'.machine) := by
  intro hall
  have hcalls : (do
      let d₀ ← createWith [0x00100513, 0x00100073]
      let watched ← (execute "w 1/($a0-1)").on d₀
      let stopped ← (run (.limited 1)).on watched.2
      let ran ← (run (.limited 1)).on stopped.2
      return (stopped.2.out.room?, stopped.2.machine.status.hasEnded,
        ran.2.machine.status.hasEnded, ran.1.isOk) : Except Crash _).toOption =
      some (none, false, true, false) := by
    decide +kernel
  obtain ⟨d₀, hnew, h⟩ := bind_eq_ok (eq_ok_of_toOption hcalls)
  obtain ⟨⟨r₁, d₁⟩, hwatch, h⟩ := bind_eq_ok h
  obtain ⟨⟨r₂, d₂⟩, hstop, h⟩ := bind_eq_ok h
  obtain ⟨⟨r₃, d₃⟩, hrun, h⟩ := bind_eq_ok h
  simp only [Prod.mk.injEq, Except.ok.injEq, pure, Except.pure] at h
  obtain ⟨hroom, hended, hend, hfails⟩ := h
  have hd : Reachable (fun _ => True) d₂ :=
    .run (.limited 1) (.execute "w 1/($a0-1)" (reachable_createWith hnew) hwatch
      fun _ _ => trivial) hstop fun _ _ => trivial
  obtain ⟨as, fs, hl⟩ := laid_of_reachable hd
  obtain ⟨changes, rfl⟩ := (printed_end_iff_ok hl.nodup_active hroom hended hrun hend).mp
    (hall d₂ d₃ _ _ hd hroom hended hrun hend)
  cases hfails

end Debugger

end Hartwatch
