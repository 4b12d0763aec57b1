import Hartwatch.Proofs.Watchpoint.Links
import Mathlib.Data.List.TakeWhile

/-! What looking at the active watchpoints finds. Those before the first one without a value take
the values they have now, each that differs is a change, and nothing else in the pool moves. -/

namespace Hartwatch

namespace Watchpoint

variable {ctx : Expr.Context} {w : Watchpoint}

def readable (ctx : Expr.Context) (w : Watchpoint) : Bool :=
  (Expr.evaluate ctx w.expr).isOk

def change? (ctx : Expr.Context) (w : Watchpoint) : Option Change :=
  match Expr.evaluate ctx w.expr with
  | .ok v => if v = w.value then none else some ⟨w.number, w.expr, w.value, v⟩
  | .error _ => none

def failure? (ctx : Expr.Context) (w : Watchpoint) : Option Error :=
  match Expr.evaluate ctx w.expr with
  | .ok _ => none
  | .error e => some (.evaluation w.number e)

def refresh (ctx : Expr.Context) (w : Watchpoint) : Watchpoint :=
  match Expr.evaluate ctx w.expr with
  | .ok value => { w with value }
  | .error _ => w

theorem readable_of_ok {v : Word} (h : Expr.evaluate ctx w.expr = .ok v) :
    w.readable ctx = true := by
  rw [readable, h]
  rfl

theorem readable_of_error {e : Expr.Error} (h : Expr.evaluate ctx w.expr = .error e) :
    w.readable ctx = false := by
  rw [readable, h]
  rfl

theorem failure?_of_error {e : Expr.Error} (h : Expr.evaluate ctx w.expr = .error e) :
    w.failure? ctx = some (.evaluation w.number e) := by
  rw [failure?, h]

theorem change?_of_ok {v : Word} (h : Expr.evaluate ctx w.expr = .ok v) :
    w.change? ctx = if v = w.value then none else some ⟨w.number, w.expr, w.value, v⟩ := by
  rw [change?, h]

theorem refresh_of_ok {v : Word} (h : Expr.evaluate ctx w.expr = .ok v) :
    w.refresh ctx = { w with value := v } := by
  rw [refresh, h]

theorem readable_eq_true (h : w.readable ctx) : ∃ v, Expr.evaluate ctx w.expr = .ok v := by
  cases hv : Expr.evaluate ctx w.expr with
  | error e => simp [readable_of_error hv] at h
  | ok v => exact ⟨v, rfl⟩

theorem readable_eq_false (h : w.readable ctx = false) :
    ∃ e, Expr.evaluate ctx w.expr = .error e := by
  cases hv : Expr.evaluate ctx w.expr with
  | error e => exact ⟨e, rfl⟩
  | ok v => simp [readable_of_ok hv] at h

theorem refresh_next : (w.refresh ctx).next = w.next := by
  unfold refresh
  split <;> rfl

theorem refresh_number : (w.refresh ctx).number = w.number := by
  unfold refresh
  split <;> rfl

theorem refresh_expr? : (w.refresh ctx).expr? = w.expr? := by
  unfold refresh
  split <;> rfl

end Watchpoint

open Watchpoint

namespace WatchpointPool

variable {p q : WatchpointPool} {ctx : Expr.Context} {h : Handle} {as fs hs : List Handle}

def refresh (ctx : Expr.Context) (hs : List Handle) (p : WatchpointPool) : WatchpointPool :=
  { p with slots := .ofFn fun i => if i ∈ hs then (p.slots.get i).refresh ctx else p.slots.get i }

theorem get_refresh (i : Handle) :
    (p.refresh ctx hs).slots.get i =
      if i ∈ hs then (p.slots.get i).refresh ctx else p.slots.get i :=
  Vector.getElem_ofFn i.isLt

theorem ext_slots (hhead : p.head = q.head) (hfree : p.free = q.free)
    (hs : ∀ i : Handle, p.slots.get i = q.slots.get i) : p = q := by
  obtain ⟨slots, head, free⟩ := p
  obtain ⟨slots', head', free'⟩ := q
  obtain rfl : head = head' := hhead
  obtain rfl : free = free' := hfree
  obtain rfl : slots = slots' := Vector.ext fun i hi => hs ⟨i, hi⟩
  rfl

@[simp]
theorem refresh_head : (p.refresh ctx hs).head = p.head := by
  simp only [refresh]

@[simp]
theorem refresh_free : (p.refresh ctx hs).free = p.free := by
  simp only [refresh]

theorem refresh_nil : p.refresh ctx [] = p := by
  refine ext_slots refresh_head refresh_free fun i => ?_
  rw [get_refresh, if_neg List.not_mem_nil]

theorem refresh_set (hh : h ∉ hs) :
    { p with slots := p.slots.set h ((p.slots.get h).refresh ctx) h.isLt }.refresh ctx hs =
      p.refresh ctx (h :: hs) := by
  refine ext_slots (by simp) (by simp) fun i => ?_
  rw [get_refresh, get_refresh, get_set]
  by_cases hi : i = h
  · simp [hi, hh]
  · simp [hi]

/-- The active watchpoints before the first one without a value. -/
def seen (ctx : Expr.Context) (p : WatchpointPool) : List Handle :=
  p.active.takeWhile fun i => (p.slots.get i).readable ctx

def changes (ctx : Expr.Context) (p : WatchpointPool) : List Change :=
  (p.seen ctx).filterMap fun i => (p.slots.get i).change? ctx

theorem detectIn_eq (hnodup : hs.Nodup) (hq : ∀ i ∈ hs, q.slots.get i = p.slots.get i) :
    detectIn ctx q hs =
      ⟨q.refresh ctx (hs.takeWhile fun i => (p.slots.get i).readable ctx),
        (hs.takeWhile fun i => (p.slots.get i).readable ctx).filterMap fun i =>
          (p.slots.get i).change? ctx,
        (hs.find? fun i => !(p.slots.get i).readable ctx).bind fun i =>
          (p.slots.get i).failure? ctx⟩ := by
  induction hs generalizing q with
  | nil => simp [detectIn, refresh_nil]
  | cons h hs ih =>
    obtain ⟨hh, hnodup⟩ := List.nodup_cons.mp hnodup
    have hqh : q.slots.get h = p.slots.get h := hq h (by simp)
    have hqs : ∀ i ∈ hs, q.slots.get i = p.slots.get i := fun i hi => hq i (by simp [hi])
    have hseen : h ∉ hs.takeWhile fun i => (p.slots.get i).readable ctx :=
      fun hm => hh ((List.takeWhile_sublist _).subset hm)
    rw [detectIn, hqh]
    cases he : Expr.evaluate ctx (p.slots.get h).expr with
    | error e =>
      have hr := readable_of_error he
      simp only [List.takeWhile_cons, List.find?_cons, hr, Bool.not_false, refresh_nil,
        Bool.false_eq_true, if_false, Option.bind_some, failure?_of_error he, List.filterMap_nil]
    | ok v =>
      have hr := readable_of_ok he
      simp only [List.takeWhile_cons, List.find?_cons, hr, Bool.not_true, if_true]
      rw [← refresh_set hseen, hqh, refresh_of_ok he]
      by_cases hv : v = (p.slots.get h).value
      · have hsame : q.slots.set h { p.slots.get h with value := v } = q.slots := by
          rw [hv, ← hqh]
          exact Vector.set_getElem_self _
        have hnone : (p.slots.get h).change? ctx = none := by rw [change?_of_ok he, if_pos hv]
        simp only [if_pos hv, hsame, ih hnodup hqs, List.filterMap_cons, hnone]
      · have hset : ∀ i ∈ hs,
            (q.slots.set h { p.slots.get h with value := v }).get i = p.slots.get i := by
          intro i hi
          rw [get_set, if_neg fun he : i = h => hh (he ▸ hi)]
          exact hqs i hi
        have hsome := change?_of_ok he
        rw [if_neg hv] at hsome
        rw [if_neg hv, ih hnodup hset, List.filterMap_cons, hsome]

theorem detect_eq (hnodup : p.active.Nodup) :
    p.detect ctx = ⟨p.refresh ctx (p.seen ctx), p.changes ctx,
      (p.active.find? fun i => !(p.slots.get i).readable ctx).bind fun i =>
        (p.slots.get i).failure? ctx⟩ :=
  detectIn_eq hnodup fun _ _ => rfl

theorem refresh_sameLinks : p.SameLinks (p.refresh ctx hs) where
  head := refresh_head
  free := refresh_free
  next := fun i => by
    rw [get_refresh]
    split
    · exact refresh_next
    · rfl
  number := fun i => by
    rw [get_refresh]
    split
    · exact refresh_number
    · rfl

theorem refresh_expr (i : Handle) :
    ((p.refresh ctx hs).slots.get i).expr = (p.slots.get i).expr := by
  rw [Watchpoint.expr, Watchpoint.expr, get_refresh]
  split
  · rw [refresh_expr?]
  · rfl

theorem seen_subset (hi : h ∈ p.seen ctx) : h ∈ p.active :=
  (List.takeWhile_sublist _).subset hi

theorem evaluate_of_mem_seen (hi : h ∈ p.seen ctx) :
    ∃ v, Expr.evaluate ctx (p.slots.get h).expr = .ok v :=
  readable_eq_true (List.mem_takeWhile_imp (p := fun i : Handle => (p.slots.get i).readable ctx) hi)

theorem mem_changes_of_value_ne
    (hne : ((p.refresh ctx (p.seen ctx)).slots.get h).value ≠ (p.slots.get h).value) :
    ⟨(p.slots.get h).number, (p.slots.get h).expr, (p.slots.get h).value,
      ((p.refresh ctx (p.seen ctx)).slots.get h).value⟩ ∈ p.changes ctx := by
  rw [get_refresh] at hne ⊢
  by_cases hs : h ∈ p.seen ctx
  · rw [if_pos hs] at hne ⊢
    obtain ⟨v, hv⟩ := evaluate_of_mem_seen hs
    rw [refresh_of_ok hv] at hne ⊢
    exact List.mem_filterMap.mpr ⟨h, hs, by rw [change?_of_ok hv, if_neg hne]⟩
  · rw [if_neg hs] at hne
    exact absurd rfl hne

theorem Layout.refresh (hl : p.Layout as fs) : (p.refresh ctx (p.seen ctx)).Layout as fs := by
  refine hl.of_sameLinks refresh_sameLinks fun i hi => ?_
  have hseen : i ∉ p.seen ctx := fun hm =>
    (List.nodup_append.mp hl.nodup).2.2 i (hl.active_eq ▸ seen_subset hm) i hi rfl
  rw [SameContent, get_refresh, if_neg hseen]
  exact ⟨rfl, rfl⟩

/-- Every active watchpoint holds the value that its expression has. -/
def Current (ctx : Expr.Context) (p : WatchpointPool) : Prop :=
  ∀ h ∈ p.active, Expr.evaluate ctx (p.slots.get h).expr = .ok (p.slots.get h).value

theorem Current.of_sameContent (hc : p.Current ctx)
    (hs : ∀ i ∈ q.active, i ∈ p.active ∧ p.SameContent q i) : q.Current ctx := by
  intro i hi
  obtain ⟨hp, hsame⟩ := hs i hi
  rw [hsame.expr, hsame.2]
  exact hc i hp

theorem seen_eq_active (hr : ∀ i ∈ p.active, ∃ v, Expr.evaluate ctx (p.slots.get i).expr = .ok v) :
    p.seen ctx = p.active := by
  refine List.takeWhile_eq_self_iff.mpr fun i hi => ?_
  obtain ⟨v, hv⟩ := hr i hi
  exact readable_of_ok hv

theorem detect_error?_eq_none (hnodup : p.active.Nodup) :
    (p.detect ctx).error? = none ↔
      ∀ i ∈ p.active, ∃ v, Expr.evaluate ctx (p.slots.get i).expr = .ok v := by
  rw [detect_eq hnodup]
  cases hfind : p.active.find? fun i => !(p.slots.get i).readable ctx with
  | none =>
    refine ⟨fun _ i hi => readable_eq_true ?_, fun _ => rfl⟩
    simpa using List.find?_eq_none.mp hfind i hi
  | some j =>
    have hj : (p.slots.get j).readable ctx = false := by simpa using List.find?_some hfind
    obtain ⟨e, he⟩ := readable_eq_false hj
    simp only [Option.bind_some, failure?_of_error he, reduceCtorEq, false_iff]
    intro hr
    obtain ⟨v, hv⟩ := hr j (List.mem_of_find?_eq_some hfind)
    exact nomatch he.symm.trans hv

theorem changes_eq_nil (hr : ∀ i ∈ p.active, ∃ v, Expr.evaluate ctx (p.slots.get i).expr = .ok v) :
    p.changes ctx = [] ↔ p.Current ctx := by
  rw [changes, seen_eq_active hr, List.filterMap_eq_nil_iff]
  refine forall₂_congr fun i hi => ?_
  obtain ⟨v, hv⟩ := hr i hi
  rw [change?_of_ok hv, hv]
  by_cases he : v = (p.slots.get i).value
  · simp only [he, if_true]
  · simp only [he, if_false, Except.ok.injEq, reduceCtorEq]

theorem Current.refresh (hc : p.Current ctx) : p.refresh ctx (p.seen ctx) = p := by
  refine ext_slots refresh_head refresh_free fun i => ?_
  rw [get_refresh]
  split
  · next hi => rw [refresh_of_ok (hc i (seen_subset hi))]
  · rfl

/-- Where every value is current, a look at the watchpoints finds nothing and moves nothing. -/
theorem Current.detect (hnodup : p.active.Nodup) (hc : p.Current ctx) :
    p.detect ctx = ⟨p, [], none⟩ := by
  have hr : ∀ i ∈ p.active, ∃ v, Expr.evaluate ctx (p.slots.get i).expr = .ok v :=
    fun i hi => ⟨_, hc i hi⟩
  have hnone := (detect_error?_eq_none hnodup).mpr hr
  rw [detect_eq hnodup] at hnone ⊢
  rw [hc.refresh, (changes_eq_nil hr).mpr hc]
  exact congrArg _ hnone

theorem exists_unreadable {e : Error} (hnodup : p.active.Nodup)
    (he : (p.detect ctx).error? = some e) :
    ∃ i ∈ p.active, ∃ x, Expr.evaluate ctx (p.slots.get i).expr = .error x ∧
      e = .evaluation (p.slots.get i).number x := by
  rw [detect_eq hnodup] at he
  obtain ⟨i, hfind, hi⟩ := Option.bind_eq_some_iff.mp he
  unfold failure? at hi
  split at hi
  · cases hi
  · next x hx => exact ⟨i, List.mem_of_find?_eq_some hfind, x, hx, (Option.some.inj hi).symm⟩

theorem detect_error?_eq_some {e : Error} (hnodup : p.active.Nodup)
    (he : (p.detect ctx).error? = some e) : ∃ number x, e = .evaluation number x := by
  obtain ⟨i, -, x, -, rfl⟩ := exists_unreadable hnodup he
  exact ⟨_, x, rfl⟩

theorem current_of_detect (hnodup : p.active.Nodup) (hch : (p.detect ctx).changes = [])
    (herr : (p.detect ctx).error? = none) : p.Current ctx := by
  rw [detect_eq hnodup] at hch
  exact (changes_eq_nil ((detect_error?_eq_none hnodup).mp herr)).mp hch

theorem Layout.current_refresh (hl : p.Layout as fs)
    (hr : ∀ i ∈ p.active, ∃ v, Expr.evaluate ctx (p.slots.get i).expr = .ok v) :
    (p.refresh ctx (p.seen ctx)).Current ctx := by
  intro i hi
  rw [hl.refresh.active_eq, ← hl.active_eq] at hi
  obtain ⟨v, hv⟩ := hr i hi
  rw [refresh_expr, get_refresh, if_pos (seen_eq_active hr ▸ hi), refresh_of_ok hv, hv]

end WatchpointPool

end Hartwatch
