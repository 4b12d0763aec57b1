import Hartwatch.Debugger.Run
import Hartwatch.Proofs.Watchpoint.Detection

/-! One look at the watchpoints, slot by slot: those in front of the first one without a value are
brought up to date, each that differed is reported once, and the rest of the pool stays. A second
look finds nothing. -/

namespace Hartwatch

open Watchpoint

namespace WatchpointPool

/-- What a look at a pool does that comes as far as these watchpoints. -/
structure Looked (ctx : Expr.Context) (p : WatchpointPool) (found : Detection)
    (seen : List Handle) : Prop where
  current : ∀ i ∈ seen,
    Expr.evaluate ctx (p.slots.get i).expr = .ok (found.pool.slots.get i).value
  changes : found.changes =
    (seen.filter fun i => (found.pool.slots.get i).value ≠ (p.slots.get i).value).map fun i =>
      ⟨(p.slots.get i).number, (p.slots.get i).expr, (p.slots.get i).value,
        (found.pool.slots.get i).value⟩
  kept : ∀ i ∉ seen, found.pool.slots.get i = p.slots.get i
  expr? : ∀ i : Handle, (found.pool.slots.get i).expr? = (p.slots.get i).expr?
  links : p.SameLinks found.pool

/-- How a look ends: everything is up to date, or the first of the other watchpoints has no
value. -/
def EndsBefore (ctx : Expr.Context) (p : WatchpointPool) (found : Detection) : List Handle → Prop
  | [] => found.error? = none ∧ found.pool.detect ctx = ⟨found.pool, [], none⟩
  | i :: _ => ∃ e, Expr.evaluate ctx (p.slots.get i).expr = .error e ∧
      found.error? = some (.evaluation (p.slots.get i).number e)

variable {p : WatchpointPool} {ctx : Expr.Context} {as fs : List Handle}

theorem change?_eq {w : Watchpoint} {v : Word} (h : Expr.evaluate ctx w.expr = .ok v) :
    w.change? ctx =
      if (w.refresh ctx).value ≠ w.value then
        some ⟨w.number, w.expr, w.value, (w.refresh ctx).value⟩
      else none := by
  rw [change?_of_ok h, refresh_of_ok h]
  by_cases hv : v = w.value <;> simp [hv]

theorem detect_looked (hnodup : p.active.Nodup) : Looked ctx p (p.detect ctx) (p.seen ctx) := by
  have hslot : ∀ i ∈ p.seen ctx,
      (p.refresh ctx (p.seen ctx)).slots.get i = (p.slots.get i).refresh ctx := by
    intro i hi
    rw [get_refresh, if_pos hi]
  rw [detect_eq hnodup]
  refine ⟨fun i hi => ?_, ?_, fun i hi => ?_, fun i => ?_, refresh_sameLinks⟩
  · obtain ⟨v, hv⟩ := evaluate_of_mem_seen hi
    rw [hv, hslot i hi, refresh_of_ok hv]
  · rw [← List.filterMap_eq_map, List.filterMap_filter]
    refine List.filterMap_congr fun i hi => ?_
    obtain ⟨v, hv⟩ := evaluate_of_mem_seen hi
    simp only [change?_eq hv, hslot i hi, Function.comp_apply, decide_eq_true_eq]
  · rw [get_refresh, if_neg hi]
  · rw [get_refresh]
    split
    · exact refresh_expr?
    · rfl

theorem detect_endsBefore (hl : p.Layout as fs) :
    EndsBefore ctx p (p.detect ctx)
      (p.active.dropWhile fun i => (p.slots.get i).readable ctx) := by
  have hfind := p.active.find?_not_eq_head?_dropWhile fun i => (p.slots.get i).readable ctx
  cases hrest : p.active.dropWhile fun i => (p.slots.get i).readable ctx with
  | nil =>
    have hr : ∀ i ∈ p.active, ∃ v, Expr.evaluate ctx (p.slots.get i).expr = .ok v :=
      fun i hi => readable_eq_true (List.dropWhile_eq_nil_iff.mp hrest i hi)
    refine ⟨(detect_error?_eq_none hl.nodup_active).mpr hr, ?_⟩
    rw [detect_eq hl.nodup_active]
    exact (hl.current_refresh hr).detect hl.refresh.nodup_active
  | cons i rest =>
    rw [hrest] at hfind
    have hi : (p.slots.get i).readable ctx = false := by simpa using List.find?_some hfind
    obtain ⟨e, he⟩ := readable_eq_false hi
    refine ⟨e, he, ?_⟩
    rw [detect_eq hl.nodup_active, hfind]
    exact failure?_of_error he

/-- A look at a pool comes as far as the watchpoints have values, and it reports exactly the changes
among those. A watcher has them behind the changes it had before. -/
theorem detect_exact (hl : p.Layout as fs) (ctx : Expr.Context) :
    (∃ seen rest, as = seen ++ rest ∧ Looked ctx p (p.detect ctx) seen ∧
      EndsBefore ctx p (p.detect ctx) rest) ∧
    (p.detect ctx).pool.Layout as fs ∧
    ∀ (h : Hart) (w : Debugger.Watcher), h.context = ctx → w.pool = p →
      (Debugger.lookAround h w).2.pool = (p.detect ctx).pool ∧
      (Debugger.lookAround h w).2.changes = w.changes ++ (p.detect ctx).changes ∧
      ((Debugger.lookAround h w).1 = .go ↔
        (p.detect ctx).error? = none ∧ (p.detect ctx).changes.length = 0) := by
  refine ⟨⟨p.seen ctx, _, ?_, detect_looked hl.nodup_active, detect_endsBefore hl⟩, ?_, ?_⟩
  · rw [← hl.active_eq]
    exact List.takeWhile_append_dropWhile.symm
  · rw [detect_eq hl.nodup_active]
    exact hl.refresh
  · rintro h w rfl rfl
    unfold Debugger.lookAround
    cases he : (w.pool.detect h.context).error? <;> simp [he]

theorem detect_exact_register :
    let before : Expr.Context := ⟨fun _ => some 0, fun _ => none⟩
    let ctx : Expr.Context := ⟨fun _ => some 5, fun _ => none⟩
    ∃ p, empty.watch before "$a0" = .ok (0, p) ∧ p.Layout [0] (List.finRange 32).tail ∧
      (p.detect ctx).changes = [⟨0, "$a0", 0, 5⟩] ∧
      ∃ seen rest, [0] = seen ++ rest ∧ Looked ctx p (p.detect ctx) seen ∧
        EndsBefore ctx p (p.detect ctx) rest := by
  intro before ctx
  have hempty : empty.Layout [] (0 :: (List.finRange 32).tail) := layout_empty
  have hbefore : Expr.evaluate before "$a0" = .ok 0 := rfl
  obtain ⟨p, hp, hl, hexpr, hvalue, -⟩ := hempty.watch_cons hbefore
  refine ⟨p, hp, hl, ?_, (detect_exact hl ctx).1⟩
  have hwatched : (p.slots.get 0).expr = "$a0" := by rw [Watchpoint.expr, hexpr]; rfl
  have hctx : Expr.evaluate ctx "$a0" = .ok 5 := rfl
  simp [detect, hl.active_eq, detectIn, hwatched, hctx, hvalue, hl.number]

end WatchpointPool

end Hartwatch
