import Hartwatch.Proofs.Debugger.Reach
import Hartwatch.Proofs.Debugger.Running

/-! What holds of the pool at every prompt. Its lists are in order, and as long as no run was
disturbed every active watchpoint holds the present value of its expression. -/

namespace Hartwatch.Debugger

open Session

variable {admits : Error → Prop} {d d' : Debugger} {budget : Budget}

def Laid (d : Debugger) : Prop :=
  ∃ as fs, d.pool.Layout as fs

theorem laid_invariant : Invariant admits Laid where
  frame := fun _ _ _ hpool ⟨as, fs, hl⟩ => ⟨as, fs, hpool ▸ hl⟩
  afterQuit := fun _ hd => hd
  afterWatch := by
    rintro d expr h pool ⟨as, fs, hl⟩ hw
    obtain ⟨-, fs', -, -, hl', -⟩ := hl.watch_eq_ok hw
    exact ⟨h :: as, fs', hl'⟩
  afterDelete := by
    rintro d number r pool ⟨as, fs, hl⟩ hdelete
    rcases hl.delete number with ⟨hnone, -⟩ | ⟨front, h, back, pool', -, -, hsome, hl', -⟩
    · obtain ⟨-, rfl⟩ := Prod.mk.inj (Except.ok.inj (hnone.symm.trans hdelete))
      exact ⟨as, fs, hl⟩
    · obtain ⟨-, rfl⟩ := Prod.mk.inj (Except.ok.inj (hsome.symm.trans hdelete))
      exact ⟨_, _, hl'⟩
  run := by
    rintro budget d r d' ⟨as, fs, hl⟩ h -
    cases hd : d.machine.status.hasEnded with
    | true =>
      exact ⟨as, fs, (run_ended_keeps hd h).2 ▸ hl⟩
    | false =>
      obtain ⟨m, w, hs, -, -, hpool, -⟩ := run_settled hl.nodup_active hd h
      exact ⟨as, fs, hpool ▸ hs.layout hl⟩

theorem laid_of_reachable (hd : Reachable admits d) : d.Laid :=
  laid_invariant.reachable (fun _ _ => ⟨_, _, WatchpointPool.layout_empty⟩) hd

/-- An error that neither a failed write nor a failed look at the watchpoints leaves behind. -/
def Undisturbed (e : Error) : Prop :=
  e ≠ .stream .outputFull ∧ ∀ number x, e ≠ .watchpoint (.evaluation number x)

def UpToDate (d : Debugger) : Prop :=
  d.Laid ∧ d.pool.Current d.machine.hart.context

theorem upToDate_invariant : Invariant Undisturbed UpToDate where
  frame := by
    rintro d d' hm hp ⟨hl, hc⟩
    rw [UpToDate, Laid, hm, hp]
    exact ⟨hl, hc⟩
  afterQuit := fun _ hd => hd
  afterWatch := by
    rintro d expr h pool ⟨⟨as, fs, hl⟩, hc⟩ hw
    obtain ⟨v, fs', hv, -, hl', hexpr, hvalue, hsame⟩ := hl.watch_eq_ok hw
    refine ⟨⟨_, _, hl'⟩, fun i hi => ?_⟩
    rw [hl'.active_eq] at hi
    by_cases hih : i = h
    · rw [hih, Watchpoint.expr, hexpr, hvalue]
      exact hv
    · have hi : i ∈ d.pool.active := hl.active_eq ▸ (List.mem_cons.mp hi).resolve_left hih
      rw [(hsame i hih).expr, (hsame i hih).2]
      exact hc i hi
  afterDelete := by
    rintro d number r pool ⟨⟨as, fs, hl⟩, hc⟩ hdelete
    rcases hl.delete number with ⟨hnone, -⟩ | ⟨front, h, back, pool', has, -, hsome, hl', hsame⟩
    · obtain ⟨-, rfl⟩ := Prod.mk.inj (Except.ok.inj (hnone.symm.trans hdelete))
      exact ⟨⟨as, fs, hl⟩, hc⟩
    · obtain ⟨-, rfl⟩ := Prod.mk.inj (Except.ok.inj (hsome.symm.trans hdelete))
      refine ⟨⟨_, _, hl'⟩, hc.of_sameContent fun i hi => ?_⟩
      have hne : h ∉ front ++ back :=
        (List.nodup_cons.mp (List.nodup_middle.mp (has ▸ hl.active_nodup))).1
      rw [hl'.active_eq] at hi
      refine ⟨?_, hsame i fun he => hne (he ▸ hi)⟩
      rw [hl.active_eq, has]
      exact List.perm_middle.mem_iff.mpr (List.mem_cons_of_mem h hi)
  run := by
    rintro budget d r d' ⟨⟨as, fs, hl⟩, hc⟩ h he
    have hnodup := hl.nodup_active
    cases hd : d.machine.status.hasEnded with
    | true =>
      obtain ⟨hm, hp⟩ := run_ended_keeps hd h
      rw [UpToDate, Laid, hm, hp]
      exact ⟨⟨as, fs, hl⟩, hc⟩
    | false =>
      obtain ⟨m, w, hs, -, hm, hpool, hend⟩ := run_settled hnodup hd h
      have hhart : d'.machine.hart = m.hart := by rw [hm]
      have hundisturbed : ∀ e, w.error? = some e → Undisturbed e :=
        fun e hw => he e (hend.eq_error hw)
      rw [UpToDate, Laid, hhart, hpool]
      refine ⟨⟨as, fs, hs.layout hl⟩, ?_⟩
      rcases hs.found hnodup hc with hw | ⟨k, -, -, hw, -⟩
      · exact absurd rfl (hundisturbed _ hw.error?).1
      · cases herr : (d.pool.detect m.hart.context).error? with
        | none => exact hw.current hl (by rw [hw.error?, herr]; rfl)
        | some e =>
          obtain ⟨number, x, rfl⟩ := WatchpointPool.detect_error?_eq_some hnodup herr
          exact absurd rfl ((hundisturbed _ (by rw [hw.error?, herr]; rfl)).2 number x)

theorem upToDate_of_reachable (hd : Reachable Undisturbed d) : d.UpToDate :=
  upToDate_invariant.reachable
    (fun _ _ => ⟨⟨_, _, WatchpointPool.layout_empty⟩, fun _ hi => nomatch hi⟩) hd

/-- Between calls every active watchpoint holds the value that its expression has, however the last
run has ended. -/
theorem watchpoint_current (hd : Reachable Undisturbed d) {w : Watchpoint}
    (hw : w ∈ d.pool.watchpoints) :
    Expr.evaluate d.machine.hart.context w.expr = .ok w.value := by
  obtain ⟨i, hi, rfl⟩ := List.mem_map.mp hw
  exact (upToDate_of_reachable hd).2 i hi

theorem watchpoint_current_aborted :
    ∃ d w, Reachable Undisturbed d ∧
      d.machine.status = .aborted 0x80000004 ⟨.loadAccessFault, 0⟩ ∧ d.pool.watchpoints = [w] ∧
      w.expr = "$a0" ∧ w.value = 1 ∧
      Expr.evaluate d.machine.hart.context w.expr = .ok w.value := by
  have hcalls : (do
      let d₀ ← createWith [0x00100513, 0x00002583]
      let watched ← (execute "w $a0").on d₀
      let changed ← (execute "c").on watched.2
      let ended ← (run .unlimited).on changed.2
      return ([watched.1.isOk, changed.1.isOk, ended.1.isOk], ended.2.machine.status,
        ended.2.pool.watchpoints.map fun w => (w.expr, w.value)) : Except Crash _).toOption =
      some ([true, true, true], .aborted 0x80000004 ⟨.loadAccessFault, 0⟩, [("$a0", 1)]) := by
    decide +kernel
  obtain ⟨d₀, hnew, h⟩ := bind_eq_ok (eq_ok_of_toOption hcalls)
  obtain ⟨⟨r₁, d₁⟩, hwatch, h⟩ := bind_eq_ok h
  obtain ⟨⟨r₂, d₂⟩, hresume, h⟩ := bind_eq_ok h
  obtain ⟨⟨r₃, d₃⟩, hrun, h⟩ := bind_eq_ok h
  simp only [Prod.mk.injEq, Except.ok.injEq, pure, Except.pure, List.cons.injEq, and_true] at h
  obtain ⟨⟨hok₁, hok₂, hok₃⟩, hstatus, hwatched⟩ := h
  have hd₁ : Reachable Undisturbed d₁ :=
    .execute "w $a0" (reachable_createWith hnew) hwatch (admits_of_isOk hwatch hok₁)
  have hd₂ : Reachable Undisturbed d₂ := .execute "c" hd₁ hresume (admits_of_isOk hresume hok₂)
  have hd₃ : Reachable Undisturbed d₃ := .run .unlimited hd₂ hrun (admits_of_isOk hrun hok₃)
  obtain ⟨w, hw, hfields⟩ := List.map_eq_singleton_iff.mp hwatched
  obtain ⟨hexpr, hvalue⟩ := Prod.mk.inj hfields
  exact ⟨d₃, w, hd₃, hstatus, hw, hexpr, hvalue,
    watchpoint_current hd₃ (by rw [hw]; exact List.mem_singleton_self w)⟩

end Hartwatch.Debugger
