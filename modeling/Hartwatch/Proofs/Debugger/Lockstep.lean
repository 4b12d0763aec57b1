import Hartwatch.Proofs.Debugger.Running
import Hartwatch.Proofs.Debugger.Uptake

/-! Watched runs on two outputs. They go in lockstep until one of the outputs is full, which is seen
at once and stops the run. So runs, and with them all command lines, are oblivious of the output. -/

namespace Hartwatch.Debugger

open Session Machine

variable {d : Debugger} {s : Sink} {m m' : Machine} {w w' : Watcher} {echo : Bool} {n : Nat}

def Watcher.onto (w : Watcher) (out : Sink) : Watcher :=
  { w with out }

def echoText (echo : Bool) (s : Step) : ByteArray :=
  if echo then (echoLine s).toUTF8 else .empty

theorem echoed_eq (echo : Bool) (s : Step) (out : Sink) :
    echoed echo s out = (out.takes (echoText echo s), out.after (echoText echo s)) := by
  cases echo with
  | false => rw [echoText, if_neg (by simp), Sink.takes_empty, Sink.after_empty]; rfl
  | true => exact out.write_eq _

theorem lookAround_onto (h : Hart) (w : Watcher) (out : Sink) :
    lookAround h (w.onto out) = ((lookAround h w).1, (lookAround h w).2.onto out) := by
  unfold lookAround Watcher.onto
  dsimp only
  cases (w.pool.detect h.context).error? <;> rfl

theorem watcher_of_takes {step : Step} (h : Hart) (hw : w.out.takes (echoText echo step) = true) :
    watcher echo step h w = ((lookAround h w).1,
      (lookAround h w).2.onto (w.out.after (echoText echo step))) := by
  rw [watcher_eq, echoed_eq, if_pos hw]
  exact lookAround_onto h w _

theorem watcher_of_not {step : Step} (h : Hart) (hw : w.out.takes (echoText echo step) = false) :
    watcher echo step h w = (.stop, { w with
      out := w.out.after (echoText echo step)
      error? := some (.stream .outputFull) }) := by
  rw [watcher_eq, echoed_eq, if_neg (by simp [hw])]

/-- Shown an instruction on two outputs, a watcher gathers the same, or one of them is full. -/
theorem watcher_lockstep (echo : Bool) (step : Step) (h : Hart) (hroom : w.out.room? = none)
    (htakes : s.takes w.out.bytes = true) :
    ∃ control w₁, watcher echo step h w = (control, w₁) ∧ w₁.out.room? = none ∧
      (s.takes w₁.out.bytes = true ∧
          watcher echo step h (w.onto (s.after w.out.bytes)) =
            (control, w₁.onto (s.after w₁.out.bytes)) ∨
        s.takes w₁.out.bytes = false ∧ ∃ w₂,
          watcher echo step h (w.onto (s.after w.out.bytes)) = (.stop, w₂) ∧
          w₂.error? = some (.stream .outputFull) ∧ w₂.out = s.after w₁.out.bytes) := by
  let text := echoText echo step
  let w₁ := (lookAround h w).2.onto (w.out.after text)
  have hout : w₁.out = ⟨w.out.bytes ++ text, none⟩ := Sink.after_of_no_limit hroom text
  have hend : (s.after w.out.bytes).after text = s.after w₁.out.bytes := by
    rw [hout, Sink.after_append htakes]
  have hfits : s.takes w₁.out.bytes = (s.after w.out.bytes).takes text := by
    rw [hout, Sink.takes_append, htakes, Bool.true_and]
  have hfull : watcher echo step h w = ((lookAround h w).1, w₁) :=
    watcher_of_takes h (Sink.takes_of_no_limit hroom text)
  refine ⟨_, w₁, hfull, by rw [hout], ?_⟩
  cases hrest : (s.after w.out.bytes).takes text with
  | true =>
    refine .inl ⟨hfits.trans hrest, ?_⟩
    rw [watcher_of_takes (w := w.onto (s.after w.out.bytes)) h hrest, lookAround_onto, ← hend]
    rfl
  | false =>
    exact .inr ⟨hfits.trans hrest, _,
      watcher_of_not (w := w.onto (s.after w.out.bytes)) h hrest, rfl, hend⟩

/-! ### Loops -/

def resume (echo : Bool) (n : Nat) (x : Machine × Watcher) : Except Crash (Machine × Watcher) :=
  if x.1.status = .running then loop (watcher echo) n x.1 x.2 else .ok x

theorem resume_succ (hm : m.status = .running) :
    resume echo (n + 1) (m, w) = m.step (watcher echo) w >>= resume echo n :=
  if_pos hm

theorem resume_appends (hroom : w.out.room? = none)
    (h : resume echo n (m, w) = .ok (m', w')) : ∃ text, w'.out = w.out.after text := by
  unfold resume at h
  split at h
  · next hm =>
    obtain ⟨steps, hsteps⟩ := echoes_of_loop hroom hm h
    refine ⟨(String.join (steps.map echoLine)).toUTF8, ?_⟩
    rw [hsteps, Sink.after_of_no_limit hroom, Sink.append, hroom]
  · obtain ⟨-, rfl⟩ := Prod.mk.inj (Except.ok.inj h)
    exact ⟨.empty, by rw [Sink.after_empty]⟩

def Watcher.outcome (w : Watcher) : Except Error (List Watchpoint.Change) :=
  match w.error? with
  | some e => .error e
  | none => .ok w.changes

def gathered (d : Debugger) (x : Machine × Watcher) :
    Except Error (List Watchpoint.Change) × Debugger :=
  (x.2.outcome, d.withRun { x.1 with
    status := if x.1.status = .running then .stopped else x.1.status } x.2)

theorem gathered_of_full (hw : w.error? = some (.stream .outputFull)) (d : Debugger)
    (m : Machine) : (d.gathered (m, w)).1 = .error (.stream .outputFull) := by
  rw [gathered, Watcher.outcome, hw]

theorem resume_follows (d : Debugger) (hroom : w.out.room? = none)
    (htakes : s.takes w.out.bytes = true) :
    Follows s (resume echo n (m, w) >>= fun x => .ok (d.gathered x))
      (resume echo n (m, w.onto (s.after w.out.bytes)) >>= fun x => .ok (d.gathered x)) := by
  have hdone : ∀ {m : Machine} {w : Watcher}, s.takes w.out.bytes = true →
      Follows s (.ok (d.gathered (m, w))) (.ok (d.gathered (m, w.onto (s.after w.out.bytes)))) :=
    fun {m w} h => .taken (r := (d.gathered (m, w)).1) (d := (d.gathered (m, w)).2) h
  induction n generalizing m w with
  | zero =>
    have hzero : ∀ w, resume echo 0 (m, w) = .ok (m, w) := fun w => ite_self _
    rw [hzero, hzero]
    exact hdone htakes
  | succ n ih =>
    by_cases hm : m.status = .running
    · rw [resume_succ hm, resume_succ hm]
      rcases step_asks_once m (watcher echo) with
        ⟨c, hcrash⟩ | ⟨m', hquiet⟩ | ⟨step, h, next, hstop, hnext⟩
      · rw [hcrash, hcrash]
        exact .crashed c
      · rw [hquiet, hquiet]
        exact ih hroom htakes
      · obtain ⟨control, w₁, hfull, hroom₁, ⟨htakes₁, hcut⟩ | ⟨hnot, w₂, hcut, herror, hout⟩⟩ :=
          watcher_lockstep echo step h hroom htakes
        · rw [hnext, hnext, hfull, hcut]
          exact ih hroom₁ htakes₁
        · -- the loop ends here on the full output, and goes on on the other one
          have hends : resume echo n (next .stop, w₂) = .ok (next .stop, w₂) := if_neg hstop
          rw [hnext, hnext, hfull, hcut]
          change Follows s (resume echo n (next control, w₁) >>= _)
            (resume echo n (next .stop, w₂) >>= _)
          rw [hends]
          change Follows s _ (.ok ((d.gathered (next .stop, w₂)).1, _))
          rw [gathered_of_full herror]
          refine .of_not_takes hnot hout fun r d' hd' => ?_
          obtain ⟨⟨m', w'⟩, hrest, hd'⟩ := bind_eq_ok hd'
          obtain ⟨-, rfl⟩ := Prod.mk.inj (Except.ok.inj hd')
          obtain ⟨text, htext⟩ := resume_appends hroom₁ hrest
          exact ⟨text, congrArg Sink.bytes (htext.trans (Sink.after_of_no_limit hroom₁ text))⟩
    · have hstay : ∀ w, resume echo (n + 1) (m, w) = .ok (m, w) := fun w => if_neg hm
      rw [hstay, hstay]
      exact hdone htakes

/-! ### Runs -/

def gather (budget : Budget) : Session (List Watchpoint.Change) := do
  let w ← watchedRun budget
  match w.error? with
  | some e => throw e
  | none => return w.changes

theorem on_gather (budget : Budget) (d : Debugger) :
    (gather budget).on d =
      d.machine.run budget (watcher (echoes budget)) ⟨d.pool, [], d.out, none⟩ >>= fun x =>
        .ok (x.2.outcome, d.withRun x.1 x.2) := by
  rw [gather, watchedRun, on_bind, on_get_bind, on_liftM_bind]
  cases d.machine.run budget (watcher (echoes budget)) ⟨d.pool, [], d.out, none⟩ with
  | error c => rfl
  | ok x =>
    obtain ⟨machine, pool, changes, out, error?⟩ := x
    cases error? <;> rfl

theorem on_gather_of_ended {budget : Budget} (hd : d.machine.status.hasEnded = true) :
    (gather budget).on d = .ok (.ok [], d) := by
  rw [on_gather, run_of_hasEnded hd]
  rfl

theorem on_gather_of_not_ended {budget : Budget} (hd : d.machine.status.hasEnded = false) :
    (gather budget).on d =
      resume (echoes budget) budget.bound
        ({ d.machine with status := .running }, ⟨d.pool, [], d.out, none⟩) >>= fun x =>
          .ok (d.gathered x) := by
  rw [on_gather, Machine.run_of_not_ended hd, resume, if_pos rfl]
  cases loop (watcher (echoes budget)) budget.bound { d.machine with status := .running }
    ⟨d.pool, [], d.out, none⟩ <;> rfl

theorem gather_oblivious (budget : Budget) : Oblivious (gather budget) := by
  refine ⟨fun d r d' hroom h => ?_, fun d s hroom htakes => ?_⟩
  · cases hd : d.machine.status.hasEnded with
    | true =>
      obtain ⟨-, rfl⟩ := Prod.mk.inj (Except.ok.inj ((on_gather_of_ended hd).symm.trans h))
      exact ⟨.empty, by rw [Sink.after_empty]⟩
    | false =>
      rw [on_gather_of_not_ended hd] at h
      obtain ⟨x, hloop, h⟩ := bind_eq_ok h
      obtain ⟨-, rfl⟩ := Prod.mk.inj (Except.ok.inj h)
      exact resume_appends (w := ⟨d.pool, [], d.out, none⟩) hroom hloop
  · have hsame : (d.onto (s.after d.out.bytes)).machine = d.machine := rfl
    cases hd : d.machine.status.hasEnded with
    | true =>
      rw [on_gather_of_ended hd, on_gather_of_ended (hsame ▸ hd)]
      exact .taken htakes
    | false =>
      rw [on_gather_of_not_ended hd, on_gather_of_not_ended (hsame ▸ hd)]
      exact resume_follows (w := ⟨d.pool, [], d.out, none⟩) d hroom htakes

theorem run_eq (budget : Budget) :
    run budget = (do
      let d ← get
      if d.machine.status.hasEnded then
        writeLine endedNotice
        return []
      else conclude (← gather budget)) := by
  funext d
  change (run budget).on d = Session.on _ d
  rw [on_get_bind]
  cases hd : d.machine.status.hasEnded with
  | true => rw [run_of_ended hd, if_pos rfl]
  | false =>
    rw [run_of_not_ended hd, if_neg (by simp), on_bind, on_gather]
    cases d.machine.run budget (watcher (echoes budget)) ⟨d.pool, [], d.out, none⟩ with
    | error c => rfl
    | ok x =>
      obtain ⟨machine, pool, changes, out, error?⟩ := x
      cases error? <;> rfl

theorem Sequential.conclude {C : {α : Type} → Session α → Prop} (hC : Sequential C)
    (changes : List Watchpoint.Change) : C (conclude changes) :=
  hC.bind (hC.forM (fun _ => hC.write _) _) fun _ => hC.bind hC.reportEnd fun _ => hC.pure _

theorem Sequential.run {C : {α : Type} → Session α → Prop} (hC : Sequential C)
    {budget : Budget} (hgather : C (gather budget)) : C (run budget) := by
  rw [run_eq]
  refine hC.observe (fun _ _ => rfl) fun d => ?_
  split
  · exact hC.bind (hC.writeLine _) fun _ => hC.pure _
  · exact hC.bind hgather hC.conclude

theorem run_oblivious (budget : Budget) : Oblivious (run budget) :=
  oblivious_sequential.run (gather_oblivious budget)

theorem oblivious_closed : Closed Oblivious where
  toSequential := oblivious_sequential
  count := fun _ => .update fun _ _ => rfl
  watch := oblivious_sequential.watch fun _ => .update fun _ _ => rfl
  deleteNumber := oblivious_sequential.deleteNumber fun _ => .update fun _ _ => rfl
  run := run_oblivious

theorem execute_oblivious (line : String) : Oblivious (execute line) :=
  oblivious_closed.execute line fun _ => .quit

end Hartwatch.Debugger
