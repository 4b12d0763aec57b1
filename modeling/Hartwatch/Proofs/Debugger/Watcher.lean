import Hartwatch.Debugger.Run
import Hartwatch.Proofs.Debugger.Output
import Hartwatch.Proofs.Machine.Loop
import Hartwatch.Proofs.Watchpoint.Detection

/-! The watcher of a run. It looks at the watchpoints after every retired instruction and stops the
run at the first look that finds something, so a run gathers what one look finds. -/

namespace Hartwatch.Debugger

open Machine

variable {m m' : Machine} {w w' : Watcher} {p : WatchpointPool} {echo : Bool} {n : Nat}

def echoed (echo : Bool) (s : Step) (out : Sink) : Bool × Sink :=
  if echo then out.write (echoLine s) else (true, out)

theorem watcher_eq (echo : Bool) (s : Step) (h : Hart) (w : Watcher) :
    watcher echo s h w =
      if (echoed echo s w.out).1 then lookAround h { w with out := (echoed echo s w.out).2 }
      else (.stop, { w with
        out := (echoed echo s w.out).2
        error? := some (.stream .outputFull) }) := by
  cases echo <;> rfl

structure Watcher.Idle (p : WatchpointPool) (w : Watcher) : Prop where
  pool : w.pool = p
  changes : w.changes = []
  error? : w.error? = none

structure Watcher.Found (ctx : Expr.Context) (p : WatchpointPool) (w : Watcher) : Prop where
  pool : w.pool = (p.detect ctx).pool
  changes : w.changes = (p.detect ctx).changes
  error? : w.error? = (p.detect ctx).error?.map .watchpoint

structure Watcher.Silenced (p : WatchpointPool) (w : Watcher) : Prop where
  pool : w.pool = p
  changes : w.changes = []
  error? : w.error? = some (.stream .outputFull)

theorem Watcher.Idle.found {ctx : Expr.Context} (hw : w.Idle p) (hnodup : p.active.Nodup)
    (hc : p.Current ctx) : w.Found ctx p := by
  have hd := hc.detect hnodup
  refine ⟨?_, ?_, ?_⟩
  · rw [hd, hw.pool]
  · rw [hd, hw.changes]
  · rw [hd, hw.error?]
    rfl

/-- Looking around, an idle watcher stays idle where all values are current, and stops the run
anywhere else. -/
theorem lookAround_cases {h : Hart} (hw : w.Idle p) (hnodup : p.active.Nodup) :
    (lookAround h w).1 = .go ∧ (lookAround h w).2.Idle p ∧ p.Current h.context ∨
      (lookAround h w).1 = .stop ∧ (lookAround h w).2.Found h.context p ∧
        ((lookAround h w).2.changes ≠ [] ∨ (lookAround h w).2.error? ≠ none) := by
  have hfound : (lookAround h w).2.Found h.context p := by
    unfold lookAround
    rw [hw.pool, hw.changes]
    cases he : (p.detect h.context).error? with
    | none => exact ⟨by simp [he], by simp [he], by simp [he, hw.error?]⟩
    | some e => exact ⟨by simp [he], by simp [he], by simp [he]⟩
  by_cases hc : p.Current h.context
  · have hd := hc.detect hnodup
    refine .inl ⟨?_, ⟨?_, ?_, ?_⟩, hc⟩
    · simp [lookAround, hw.pool, hd]
    · rw [hfound.pool, hd]
    · rw [hfound.changes, hd]
    · rw [hfound.error?, hd]
      rfl
  · have hsome : (p.detect h.context).changes ≠ [] ∨ (p.detect h.context).error? ≠ none := by
      by_contra hnone
      rw [not_or, not_not, not_not] at hnone
      exact hc (WatchpointPool.current_of_detect hnodup hnone.1 hnone.2)
    refine .inr ⟨?_, hfound, ?_⟩
    · unfold lookAround
      rw [hw.pool]
      cases he : (p.detect h.context).error? with
      | none =>
        have hchanges : (p.detect h.context).changes ≠ [] := by simpa [he] using hsome
        simp [he, hchanges]
      | some e => simp [he]
    · rw [hfound.changes, hfound.error?]
      simpa using hsome

theorem watcher_cases (echo : Bool) (s : Step) (h : Hart) (hw : w.Idle p)
    (hnodup : p.active.Nodup) :
    (watcher echo s h w).1 = .go ∧ (watcher echo s h w).2.Idle p ∧ p.Current h.context ∨
      (watcher echo s h w).1 = .stop ∧
        ((watcher echo s h w).2.Silenced p ∨ (watcher echo s h w).2.Found h.context p ∧
          ((watcher echo s h w).2.changes ≠ [] ∨ (watcher echo s h w).2.error? ≠ none)) := by
  rw [watcher_eq]
  split
  · have hout : ({ w with out := (echoed echo s w.out).2 } : Watcher).Idle p :=
      ⟨hw.pool, hw.changes, hw.error?⟩
    exact (lookAround_cases hout hnodup).imp_right fun ⟨hstop, hfound⟩ => ⟨hstop, .inr hfound⟩
  · exact .inr ⟨rfl, .inl ⟨hw.pool, hw.changes, rfl⟩⟩

/-! ### Runs -/

/-- A machine stands where another one comes to by retiring `k` instructions, and on the way there
the active watchpoints had the values they hold. -/
structure Path (start : Machine) (p : WatchpointPool) (k : Nat) (m : Machine) : Prop where
  hart : ∃ h, start.hart.after k = .ok h ∧ m.hart.context = h.context
  retired : m.retired = start.retired + k
  quiet : ∀ j, 0 < j → j < k → ∀ h, start.hart.after j = .ok h → p.Current h.context

/-- What the loop of a watched run keeps as long as it goes on. -/
structure Quiet (start : Machine) (p : WatchpointPool) (k : Nat) (m : Machine) (w : Watcher) :
    Prop where
  hart : start.hart.after k = .ok m.hart
  retired : m.retired = start.retired + k
  bounded : k = 0 ∨ m.retired < 1 <<< 64
  idle : w.Idle p
  current : ∀ j, 0 < j → j ≤ k → ∀ h, start.hart.after j = .ok h → p.Current h.context

/-- How a watched run comes to its end within `n` steps: its output is full, or it finds nothing
and ends with the program or goes on to the last step, or the last look finds something. -/
def Settled (start : Machine) (p : WatchpointPool) (n : Nat) (m : Machine) (w : Watcher) : Prop :=
  w.Silenced p ∨ ∃ k, k ≤ n ∧ Path start p k m ∧
    (w.Idle p ∧ (0 < k → p.Current m.hart.context) ∧
        (m.status.hasEnded = true ∨ m.status = .running ∧ k = n ∧ (n = 0 ∨ n < 1 <<< 64)) ∨
      w.Found m.hart.context p ∧ 0 < k ∧ (w.changes ≠ [] ∨ w.error? ≠ none))

variable {start : Machine} {k : Nat}

theorem Settled.mono (h : Settled start p k m w) (hm : m.status ≠ .running) (hk : k ≤ n) :
    Settled start p n m w := by
  rcases h with hw | ⟨j, hj, hpath, ⟨hidle, hcurrent, hlast⟩ | hfound⟩
  · exact .inl hw
  · have hended : m.status.hasEnded = true := hlast.resolve_right fun hrun => hm hrun.1
    exact .inr ⟨j, hj.trans hk, hpath, .inl ⟨hidle, hcurrent, .inl hended⟩⟩
  · exact .inr ⟨j, hj.trans hk, hpath, .inr hfound⟩

theorem Quiet.stay (hq : Quiet start p k m w) (last : Machine)
    (hc : last.hart.context = m.hart.context) (hr : last.retired = m.retired) :
    Path start p k last ∧ (0 < k → p.Current last.hart.context) := by
  have hquiet : ∀ j, 0 < j → j < k → ∀ h, start.hart.after j = .ok h → p.Current h.context :=
    fun j hj hjk => hq.current j hj hjk.le
  refine ⟨⟨⟨m.hart, hq.hart, hc⟩, hr.trans hq.retired, hquiet⟩, fun hk => ?_⟩
  rw [hc]
  exact hq.current k hk le_rfl _ hq.hart

theorem Quiet.settled (hq : Quiet start p k m w) (hm : m.status = .running) :
    Settled start p k m w := by
  have hbound : k = 0 ∨ k < 1 <<< 64 := by
    have := hq.retired
    rcases hq.bounded with hk | hk
    · exact .inl hk
    · exact .inr (by omega)
  obtain ⟨hpath, hcurrent⟩ := hq.stay m rfl rfl
  exact .inr ⟨k, le_rfl, hpath, .inl ⟨hq.idle, hcurrent, .inr ⟨hm, rfl, hbound⟩⟩⟩

theorem Quiet.path (hq : Quiet start p k m w) {r : Except Trap Step}
    (hs : m.hart.step = .ok (r, m'.hart)) (hm' : m'.retired = m.retired + 1) :
    Path start p (k + 1) m' where
  hart := ⟨m'.hart, Hart.after_succ hq.hart hs, rfl⟩
  retired := by rw [hm', hq.retired, Nat.add_assoc]
  quiet := fun j hj hk => hq.current j hj (Nat.le_of_lt_succ hk)

theorem Quiet.next (hq : Quiet start p k m w) {r : Except Trap Step}
    (hs : m.hart.step = .ok (r, m'.hart)) (hm' : m'.retired = m.retired + 1)
    (hlt : m'.retired < 1 <<< 64) (hidle : w'.Idle p) (hc : p.Current m'.hart.context) :
    Quiet start p (k + 1) m' w' where
  hart := Hart.after_succ hq.hart hs
  retired := by rw [hm', hq.retired, Nat.add_assoc]
  bounded := .inr hlt
  idle := hidle
  current := by
    intro j hj hjk h hh
    rcases Nat.le_succ_iff.mp hjk with hjk | rfl
    · exact hq.current j hj hjk h hh
    · obtain rfl := Except.ok.inj ((Hart.after_succ hq.hart hs).symm.trans hh)
      exact hc

theorem Quiet.stepped (hnodup : p.active.Nodup) (hq : Quiet start p k m w)
    (hm : m.status = .running) (hs : Stepped (watcher echo) m w m' w') :
    if m'.status = .running then Quiet start p (k + 1) m' w'
    else Settled start p (k + 1) m' w' := by
  cases hs with
  | @completed s hart hstep hlt =>
    rcases watcher_cases echo s hart hq.idle hnodup with
      ⟨hgo, hidle, hcurrent⟩ | ⟨hstop, hfound⟩
    · simp only [hgo, hm, reduceCtorEq, false_and, if_false, if_true]
      exact hq.next hstep rfl hlt hidle hcurrent
    · simp only [hstop, hm, and_self, if_true, reduceCtorEq, if_false]
      refine hfound.imp_right fun hfound => ⟨k + 1, le_rfl, hq.path hstep rfl, .inr ?_⟩
      exact ⟨hfound.1, k.succ_pos, hfound.2⟩
  | @called t hart word hstep hretires hfetch hlt =>
    have hended := hasEnded_trapStatus hart m.hart.pc t
    rw [if_neg (Status.ne_running_of_hasEnded hended)]
    rcases watcher_cases echo (.straight m.hart.pc word) hart hq.idle hnodup with
      ⟨-, hidle, hcurrent⟩ | ⟨-, hfound⟩
    · refine .inr ⟨k + 1, le_rfl, hq.path hstep rfl, .inl ⟨hidle, fun _ => hcurrent, .inl hended⟩⟩
    · refine hfound.imp_right fun hfound => ⟨k + 1, le_rfl, hq.path hstep rfl, .inr ?_⟩
      exact ⟨hfound.1, k.succ_pos, hfound.2⟩
  | @aborted t hart hstep hretires =>
    have hended := hasEnded_trapStatus hart m.hart.pc t
    have hcontext : hart.context = m.hart.context := Hart.context_of_trap hstep
    rw [if_neg (Status.ne_running_of_hasEnded hended)]
    obtain ⟨hpath, hcurrent⟩ :=
      hq.stay { m with hart, status := trapStatus hart m.hart.pc t } hcontext rfl
    exact .inr ⟨k, k.le_succ, hpath, .inl ⟨hq.idle, hcurrent, .inl hended⟩⟩

theorem settled_of_loop (hnodup : p.active.Nodup) (hw : w.Idle p) (hm : m.status = .running)
    (h : loop (watcher echo) n m w = .ok (m', w')) : Settled m p n m' w' := by
  have hstart : Quiet m p 0 m w :=
    ⟨rfl, rfl, .inl rfl, hw, fun j hj hj0 => absurd hj hj0.not_gt⟩
  rcases loop_rule (Q := fun k => Settled m p k) (Quiet.stepped hnodup) hstart hm h with
    ⟨hm', hq⟩ | ⟨hm', j, hj, hs⟩
  · rw [Nat.zero_add] at hq
    exact hq.settled hm'
  · rw [Nat.zero_add] at hs
    exact hs.mono hm' hj

theorem Watcher.Found.layout {ctx : Expr.Context} {as fs : List Watchpoint.Handle}
    (hw : w.Found ctx p) (hl : p.Layout as fs) : w.pool.Layout as fs := by
  rw [hw.pool, WatchpointPool.detect_eq hl.nodup_active]
  exact hl.refresh

theorem Settled.layout {as fs : List Watchpoint.Handle} (hs : Settled start p n m w)
    (hl : p.Layout as fs) : w.pool.Layout as fs := by
  rcases hs with hw | ⟨k, -, -, ⟨hw, -⟩ | ⟨hw, -⟩⟩
  · exact hw.pool ▸ hl
  · exact hw.pool ▸ hl
  · exact hw.layout hl

theorem Settled.found (hs : Settled start p n m w) (hnodup : p.active.Nodup)
    (hc : p.Current start.hart.context) :
    w.Silenced p ∨ ∃ k, k ≤ n ∧ Path start p k m ∧ w.Found m.hart.context p ∧
      (m.status.hasEnded = true ∨ m.status = .running ∧ k = n ∧ (n = 0 ∨ n < 1 <<< 64) ∨
        0 < k ∧ (w.changes ≠ [] ∨ w.error? ≠ none)) := by
  refine hs.imp_right fun ⟨k, hk, hpath, hend⟩ => ⟨k, hk, hpath, ?_⟩
  rcases hend with ⟨hidle, hcurrent, hlast⟩ | ⟨hfound, hlast⟩
  · refine ⟨hidle.found hnodup ?_, hlast.imp_right .inl⟩
    rcases Nat.eq_zero_or_pos k with rfl | hpos
    · obtain ⟨h, hh, hcontext⟩ := hpath.hart
      obtain rfl := Except.ok.inj hh
      rwa [hcontext]
    · exact hcurrent hpos
  · exact ⟨hfound, .inr (.inr hlast)⟩

theorem Watcher.Found.current {ctx : Expr.Context} {as fs : List Watchpoint.Handle}
    (hw : w.Found ctx p) (hl : p.Layout as fs) (he : w.error? = none) : w.pool.Current ctx := by
  have herr : (p.detect ctx).error? = none := by
    rw [hw.error?] at he
    simpa using he
  rw [hw.pool, WatchpointPool.detect_eq hl.nodup_active]
  exact hl.current_refresh ((WatchpointPool.detect_error?_eq_none hl.nodup_active).mp herr)

/-! ### Echoes -/

theorem lookAround_out (h : Hart) (w : Watcher) : (lookAround h w).2.out = w.out := by
  unfold lookAround
  extract_lets found w'
  split <;> rfl

theorem watcher_out (echo : Bool) (s : Step) (h : Hart) (w : Watcher) :
    (watcher echo s h w).2.out = (echoed echo s w.out).2 := by
  rw [watcher_eq]
  split
  · exact lookAround_out _ _
  · rfl

/-- A watcher has written nothing but echoes of steps since the output was `out`. -/
def Watcher.Echoes (out : Sink) (w : Watcher) : Prop :=
  ∃ steps : List Step, w.out = out.append (.join (steps.map echoLine))

theorem Watcher.Echoes.watcher {out : Sink} (hw : w.Echoes out) (hout : out.room? = none)
    (s : Step) (h : Hart) : (watcher echo s h w).2.Echoes out := by
  obtain ⟨steps, hsteps⟩ := hw
  rw [Watcher.Echoes, watcher_out, hsteps]
  cases echo with
  | false => exact ⟨steps, rfl⟩
  | true =>
    refine ⟨steps ++ [s], ?_⟩
    rw [echoed, if_pos rfl, Sink.write_of_no_limit (show (out.append _).room? = none from hout),
      Sink.append_append]
    simp

theorem echoes_of_loop (hout : w.out.room? = none) (hm : m.status = .running)
    (h : loop (watcher echo) n m w = .ok (m', w')) : w'.Echoes w.out := by
  refine loop_invariant (I := fun _ x => x.Echoes w.out) ?_ ⟨[], by simp [Sink.append_empty]⟩ hm h
  intro m x m' x' hx _ hs
  cases hs with
  | completed => exact hx.watcher hout _ _
  | called => exact hx.watcher hout _ _
  | aborted => exact hx

end Hartwatch.Debugger
