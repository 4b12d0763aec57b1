import Hartwatch.Proofs.Watchpoint.Detection

/-! Operations on a pool, one after another. Whatever they are, and also where they fail, they
leave the two lists in order, and none of them meets a broken link. -/

namespace Hartwatch

open Watchpoint

namespace WatchpointPool

inductive Operation where
  | allocate
  | watch (ctx : Expr.Context) (expr : String)
  | delete (number : Nat)
  /-- Releases what is found under a number, if anything is. -/
  | release (number : Nat)
  | detect (ctx : Expr.Context)

/-- The pool that an operation leaves behind, which is the old one where no slot can be taken. -/
def after (p : WatchpointPool) : Operation → Except Crash WatchpointPool
  | .allocate => .ok (p.allocate.toOption.elim p Prod.snd)
  | .watch ctx expr => .ok ((p.watch ctx expr).toOption.elim p Prod.snd)
  | .delete number => do return (← p.delete number).2
  | .release number =>
    match p.find? number with
    | none => .ok p
    | some (h, before) => p.release h before
  | .detect ctx => .ok (p.detect ctx).pool

def afterAll (p : WatchpointPool) : List Operation → Except Crash WatchpointPool
  | [] => .ok p
  | o :: os => do (← p.after o).afterAll os

variable {p : WatchpointPool} {h : Handle} {as fs : List Handle}

namespace Layout

theorem length_add_length (hl : p.Layout as fs) : as.length + fs.length = capacity := by
  have huniv : (as ++ fs).toFinset = Finset.univ :=
    Finset.eq_univ_iff_forall.mpr fun i => List.mem_toFinset.mpr (hl.complete i)
  rw [← List.length_append, ← List.toFinset_card_of_nodup hl.nodup, huniv]
  exact Finset.card_fin 32

theorem allocate_eq_error (hl : p.Layout as fs) (e : Error) :
    p.allocate = .error e ↔ e = .exhausted ∧ as.length = capacity := by
  have hlen := hl.length_add_length
  cases fs with
  | nil =>
    rw [hl.allocate_nil, Except.error.injEq, eq_comm]
    exact (and_iff_left (by simpa using hlen)).symm
  | cons h fs =>
    obtain ⟨q, hq, -⟩ := hl.allocate_cons
    have hfree : as.length ≠ capacity := by
      simp only [List.length_cons] at hlen
      omega
    simp [hq, hfree]

theorem watch_eq_error {ctx : Expr.Context} {expr : String} {v : Word} (hl : p.Layout as fs)
    (hv : Expr.evaluate ctx expr = .ok v) (e : Error) :
    p.watch ctx expr = .error e ↔ e = .exhausted ∧ as.length = capacity := by
  rw [← hl.allocate_eq_error, watch, hv]
  cases p.allocate <;> simp [bind, Except.bind, pure, Except.pure]

theorem allocate_fresh {q : WatchpointPool} (hl : p.Layout as fs)
    (ha : p.allocate = .ok (h, q)) :
    (q.slots.get h).expr? = none ∧ (q.slots.get h).value = 0 := by
  cases fs with
  | nil => cases hl.allocate_nil.symm.trans ha
  | cons f fs =>
    obtain ⟨q', hq, -, hsame⟩ := hl.allocate_cons
    obtain ⟨rfl, rfl⟩ := Prod.mk.inj (Except.ok.inj (hq.symm.trans ha))
    rw [(hsame f).1, (hsame f).2]
    exact hl.cleared f (by simp)

theorem after (hl : p.Layout as fs) (o : Operation) :
    ∃ q as' fs', p.after o = .ok q ∧ q.Layout as' fs' := by
  cases o with
  | allocate =>
    cases fs with
    | nil => exact ⟨p, as, [], by rw [WatchpointPool.after, hl.allocate_nil]; rfl, hl⟩
    | cons h fs =>
      obtain ⟨q, hq, hlq, -⟩ := hl.allocate_cons
      exact ⟨q, h :: as, fs, by rw [WatchpointPool.after, hq]; rfl, hlq⟩
  | watch ctx expr =>
    cases hw : p.watch ctx expr with
    | error e => exact ⟨p, as, fs, by rw [WatchpointPool.after, hw]; rfl, hl⟩
    | ok taken =>
      obtain ⟨-, fs', -, -, hlq, -⟩ := hl.watch_eq_ok hw
      exact ⟨taken.2, taken.1 :: as, fs', by rw [WatchpointPool.after, hw]; rfl, hlq⟩
  | delete number =>
    rcases hl.delete number with ⟨hnone, -⟩ | ⟨front, h, back, q, -, -, hsome, hlq, -⟩
    · exact ⟨p, as, fs, by rw [WatchpointPool.after, hnone]; rfl, hl⟩
    · exact ⟨q, _, _, by rw [WatchpointPool.after, hsome]; rfl, hlq⟩
  | release number =>
    cases hf : p.find? number with
    | none => exact ⟨p, as, fs, by simp only [WatchpointPool.after, hf], hl⟩
    | some found =>
      obtain ⟨front, back, rfl, -, hbefore⟩ := hl.find?_eq_some hf
      obtain ⟨q, hq, hlq, -⟩ := hl.release
      exact ⟨q, _, _, by simp only [WatchpointPool.after, hf, hbefore, hq], hlq⟩
  | detect ctx =>
    refine ⟨(p.detect ctx).pool, as, fs, rfl, ?_⟩
    rw [detect_eq hl.nodup_active]
    exact hl.refresh

theorem afterAll (hl : p.Layout as fs) (os : List Operation) :
    ∃ q as' fs', p.afterAll os = .ok q ∧ q.Layout as' fs' := by
  induction os generalizing p as fs with
  | nil => exact ⟨p, as, fs, rfl, hl⟩
  | cons o os ih =>
    obtain ⟨q, as', fs', hq, hlq⟩ := hl.after o
    rw [WatchpointPool.afterAll, hq]
    exact ih hlq

end Layout

/-- A new pool goes through any operations without a crash, and behind them its links run through
the active and the free slots, each slot once. Free slots hold nothing, and the pool is exhausted
exactly when all slots are active. -/
theorem afterAll_layout (os : List Operation) :
    ∃ p as fs, empty.afterAll os = .ok p ∧ p.Layout as fs ∧ p.active = as ∧
      (∀ number h before, p.find? number = some (h, before) → (p.release h before).isOk) ∧
      (∀ e, p.allocate = .error e ↔ e = .exhausted ∧ as.length = capacity) ∧
      (∀ ctx expr v, Expr.evaluate ctx expr = .ok v →
        ∀ e, p.watch ctx expr = .error e ↔ e = .exhausted ∧ as.length = capacity) ∧
      (∀ h q, p.allocate = .ok (h, q) →
        (q.slots.get h).expr? = none ∧ (q.slots.get h).value = 0) := by
  obtain ⟨p, as, fs, hp, hl⟩ := layout_empty.afterAll os
  refine ⟨p, as, fs, hp, hl, hl.active_eq, fun number h before hf => ?_, hl.allocate_eq_error,
    fun ctx expr v hv => hl.watch_eq_error hv, fun h q ha => hl.allocate_fresh ha⟩
  obtain ⟨front, back, rfl, -, rfl⟩ := hl.find?_eq_some hf
  obtain ⟨q, hq, -⟩ := hl.release
  rw [hq]
  rfl

end WatchpointPool

end Hartwatch
