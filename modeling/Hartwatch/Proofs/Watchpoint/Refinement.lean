import Hartwatch.Proofs.Watchpoint.Roster

/-! Every operation on the linked slots answers as the one on list and stack does, and leaves the
same list and stack behind. -/

namespace Hartwatch

open Watchpoint

namespace WatchpointPool

variable {p q : WatchpointPool} {ctx : Expr.Context} {h : Handle}
variable {as fs hs front back : List Handle} {n : Nat}

/-! ### Looking -/

theorem look_map_entryAt (hnodup : hs.Nodup) :
    Roster.look ctx (hs.map p.entryAt) =
      (hs.map (p.refresh ctx (hs.takeWhile fun i => (p.slots.get i).readable ctx)).entryAt,
        (hs.takeWhile fun i => (p.slots.get i).readable ctx).filterMap fun i =>
          (p.slots.get i).change? ctx,
        (hs.find? fun i => !(p.slots.get i).readable ctx).bind fun i =>
          (p.slots.get i).failure? ctx) := by
  induction hs with
  | nil => rfl
  | cons h hs ih =>
    obtain ⟨hh, hnodup⟩ := List.nodup_cons.mp hnodup
    have hexpr : (p.entryAt h).expr = (p.slots.get h).expr := rfl
    rw [List.map_cons, Roster.look, hexpr]
    cases hv : Expr.evaluate ctx (p.slots.get h).expr with
    | error x =>
      have hr := readable_of_error hv
      simp only [List.takeWhile_cons, List.find?_cons, hr, Bool.not_false, refresh_nil,
        Bool.false_eq_true, if_false, Option.bind_some, failure?_of_error hv, List.filterMap_nil,
        List.map_cons]
      rfl
    | ok value =>
      have hr := readable_of_ok hv
      have hhead : ∀ seen, (p.refresh ctx (h :: seen)).entryAt h = { p.entryAt h with value } := by
        intro seen
        rw [entryAt, get_refresh, if_pos List.mem_cons_self, refresh_of_ok hv]
        rfl
      -- no slot comes twice, so looking at this one leaves those behind it alone
      have hrest : ∀ seen,
          hs.map (p.refresh ctx (h :: seen)).entryAt = hs.map (p.refresh ctx seen).entryAt := by
        intro seen
        refine List.map_congr_left fun i hi => ?_
        have hne : i ≠ h := fun he => hh (he ▸ hi)
        simp only [entryAt, get_refresh, List.mem_cons, hne, false_or]
      simp only [List.takeWhile_cons, List.find?_cons, hr, Bool.not_true, if_true, List.map_cons,
        List.filterMap_cons, change?_of_ok hv, hhead, hrest, ih hnodup]
      by_cases he : value = (p.slots.get h).value
      · simp [he, entryAt, Watchpoint.entry]
      · simp [he, entryAt, Watchpoint.entry]

/-! ### Taking and dropping -/

namespace Layout

theorem roster_take (hl : p.Layout as (h :: fs)) (hlq : q.Layout (h :: as) fs)
    (hsame : ∀ i, i ≠ h → p.SameContent q i) :
    p.roster.take (q.slots.get h).expr (q.slots.get h).value = .ok (h.val, q.roster) := by
  have hh : h ∉ as := fun hm => (List.nodup_append.mp hl.nodup).2.2 h hm h (by simp) rfl
  have hrest : as.map q.entryAt = as.map p.entryAt :=
    hl.map_entryAt_eq hlq fun i hi => hsame i fun he => hh (he ▸ hi)
  have hhead : q.entryAt h = ⟨h.val, (q.slots.get h).expr, (q.slots.get h).value⟩ := by
    rw [entryAt, Watchpoint.entry, hlq.number]
  rw [hl.roster_eq, hlq.roster_eq, List.map_cons, List.map_cons, hrest, hhead]
  rfl

theorem roster_take_nil (hl : p.Layout as []) (expr : String) (value : Word) :
    p.roster.take expr value = .error .exhausted := by
  rw [hl.roster_eq]
  rfl

theorem map_allocate (hl : p.Layout as fs) : p.allocate.map shown = p.roster.take "" 0 := by
  cases fs with
  | nil =>
    rw [hl.allocate_nil, hl.roster_take_nil]
    rfl
  | cons h fs =>
    obtain ⟨q, hq, hlq, hsame⟩ := hl.allocate_cons
    obtain ⟨hexpr, hvalue⟩ := hl.allocate_fresh hq
    have htake := hl.roster_take hlq fun i _ => hsame i
    rw [Watchpoint.expr, hexpr, hvalue] at htake
    rw [hq]
    exact htake.symm

theorem map_watch (hl : p.Layout as fs) (ctx : Expr.Context) (expr : String) :
    (p.watch ctx expr).map shown = p.roster.watch ctx expr := by
  rw [Roster.watch]
  cases hv : Expr.evaluate ctx expr with
  | error e =>
    rw [WatchpointPool.watch, hv]
    rfl
  | ok value =>
    cases fs with
    | nil =>
      have hw := (hl.watch_eq_error hv .exhausted).mpr ⟨rfl, by simpa using hl.length_add_length⟩
      rw [hw]
      exact (hl.roster_take_nil expr value).symm
    | cons h fs =>
      obtain ⟨q, hq, hlq, hexpr, hvalue, hsame⟩ := hl.watch_cons hv
      have htake := hl.roster_take hlq hsame
      rw [Watchpoint.expr, hexpr, hvalue] at htake
      rw [hq]
      exact htake.symm

theorem roster_drop (hl : p.Layout (front ++ h :: back) fs)
    (hlq : q.Layout (front ++ back) (h :: fs)) (hsame : ∀ i, i ≠ h → p.SameContent q i) :
    q.roster = p.roster.drop h.val := by
  have hnumber : ∀ i, (p.entryAt i).number = i.val := hl.number
  have hnodup := List.nodup_cons.mp (List.nodup_middle.mp hl.active_nodup)
  have hne : ∀ i ∈ front ++ back, i ≠ h := fun i hi he => hnodup.1 (he ▸ hi)
  have hfilter : (front ++ h :: back).filter (fun i => (p.entryAt i).number ≠ h.val) =
      front ++ back := by
    have hkept : ∀ i ∈ front ++ back, decide ((p.entryAt i).number ≠ h.val) = true := by
      intro i hi
      rw [hnumber]
      exact decide_eq_true fun hv => hne i hi (Fin.ext hv)
    simpa [hnumber, List.filter_append] using List.filter_eq_self.mpr hkept
  have hrest : (front ++ back).map q.entryAt = (front ++ back).map p.entryAt :=
    hl.map_entryAt_eq hlq fun i hi => hsame i (hne i hi)
  rw [hl.roster_eq, hlq.roster_eq, Roster.drop, List.filter_map, hrest, ← hfilter]
  rfl

theorem drop_cases (hl : p.Layout as fs) (n : Nat) :
    n ∉ p.roster.numbers ∧ p.find? n = none ∨
      n ∈ p.roster.numbers ∧ ∃ h before q, p.find? n = some (h, before) ∧
        p.release h before = .ok q ∧ q.roster = p.roster.drop n := by
  rcases hl.find?_cases n with ⟨hf, hn⟩ | ⟨front, h, back, rfl, rfl, hf, hn⟩
  · exact .inl ⟨hn, hf⟩
  · obtain ⟨q, hq, hlq, hsame⟩ := hl.release
    exact .inr ⟨hn, h, front.getLast?, q, hf, hq, hl.roster_drop hlq hsame⟩

theorem look_eq_detect (hl : p.Layout as fs) (ctx : Expr.Context) :
    Roster.look ctx p.roster.active =
        ((p.detect ctx).pool.roster.active, (p.detect ctx).changes, (p.detect ctx).error?) ∧
      (p.detect ctx).pool.roster.free = p.roster.free := by
  have hlq : (p.detect ctx).pool.Layout as fs := by
    rw [detect_eq hl.nodup_active]
    exact hl.refresh
  rw [hl.roster_eq, hlq.roster_eq, detect_eq hl.nodup_active, seen, changes, seen, hl.active_eq]
  exact ⟨look_map_entryAt hl.active_nodup, rfl⟩

/-! ### Operations -/

/-- An operation answers as it does on the roster, and leaves the roster behind that it leaves
there. -/
theorem roster_after {o : Operation} (hl : p.Layout as fs) (hq : p.after o = .ok q) :
    p.reply o = .ok (p.roster.perform o).1 ∧ q.roster = (p.roster.perform o).2 := by
  cases o with
  | allocate =>
    obtain rfl := Except.ok.inj hq
    rw [reply, Roster.perform, ← hl.map_allocate]
    cases p.allocate <;> exact ⟨rfl, rfl⟩
  | watch ctx expr =>
    obtain rfl := Except.ok.inj hq
    rw [reply, Roster.perform, ← hl.map_watch]
    cases p.watch ctx expr <;> exact ⟨rfl, rfl⟩
  | delete n =>
    rw [WatchpointPool.after, WatchpointPool.delete] at hq
    rw [reply, Roster.perform, WatchpointPool.delete]
    rcases hl.drop_cases n with ⟨hn, hf⟩ | ⟨hn, h, before, q', hf, hrelease, hroster⟩
    · rw [hf] at hq ⊢
      obtain rfl := Except.ok.inj hq
      rw [if_neg hn]
      exact ⟨rfl, rfl⟩
    · simp only [hf, hrelease] at hq ⊢
      obtain rfl := Except.ok.inj hq
      rw [if_pos hn]
      exact ⟨rfl, hroster⟩
  | release n =>
    rw [WatchpointPool.after] at hq
    rw [reply, Roster.perform, hl.place?_eq]
    refine ⟨rfl, ?_⟩
    rcases hl.drop_cases n with ⟨hn, hf⟩ | ⟨hn, h, before, q', hf, hrelease, hroster⟩
    · rw [hf] at hq
      obtain rfl := Except.ok.inj hq
      rw [if_neg hn]
    · rw [hf] at hq
      obtain rfl := Except.ok.inj (hrelease.symm.trans hq)
      rw [if_pos hn]
      exact hroster
  | detect ctx =>
    obtain rfl := Except.ok.inj hq
    obtain ⟨hlook, hfree⟩ := hl.look_eq_detect ctx
    rw [reply, Roster.perform, hlook]
    refine ⟨rfl, ?_⟩
    rw [← hfree]

theorem roster_afterAll (hl : p.Layout as fs) (os : List Operation) :
    ∃ q as' fs', p.afterAll os = .ok q ∧ q.roster = p.roster.afterAll os ∧ q.Layout as' fs' := by
  induction os generalizing p as fs with
  | nil => exact ⟨p, as, fs, rfl, rfl, hl⟩
  | cons o os ih =>
    obtain ⟨q, as', fs', hq, hlq⟩ := hl.after o
    rw [WatchpointPool.afterAll, hq, Roster.afterAll, ← (hl.roster_after hq).2]
    exact ih hlq

theorem allocate_of_dropped {o : Operation} (hl : p.Layout as fs)
    (ho : o = .delete n ∨ o = .release n) (hn : n ∈ p.roster.numbers) (hq : p.after o = .ok q) :
    ∃ h q', q.allocate = .ok (h, q') ∧ h.val = n := by
  obtain ⟨q', as', fs', hq', hlq⟩ := hl.after o
  obtain rfl := Except.ok.inj (hq'.symm.trans hq)
  have hdrop : q'.roster = p.roster.drop n := by
    rw [(hl.roster_after hq).2]
    rcases ho with rfl | rfl
    · rw [Roster.perform, if_pos hn]
    · rw [Roster.perform, if_pos hn]
  have htake := hlq.map_allocate
  rw [hdrop] at htake
  cases ha : q'.allocate with
  | error e => cases ha ▸ htake
  | ok taken =>
    rw [ha] at htake
    exact ⟨taken.1, taken.2, rfl, congrArg Prod.fst (Except.ok.inj htake)⟩

end Layout

/-- After any operations on a new pool, the pool shows the list and holds the stack that the same
operations make of an empty list and the stack of all numbers, and it answers as these do. -/
theorem afterAll_refines_roster (os : List Operation) :
    ∃ p, empty.afterAll os = .ok p ∧ p.roster = Roster.initial.afterAll os ∧
      (∀ o, p.reply o = .ok (p.roster.perform o).1) ∧
      (∀ n, p.place? n = p.roster.find? n) ∧
      (∀ n, (p.get? n).map Watchpoint.entry = p.roster.get? n) ∧
      ∀ o n q, o = .delete n ∨ o = .release n → n ∈ p.roster.numbers → p.after o = .ok q →
        ∃ h q', q.allocate = .ok (h, q') ∧ h.val = n := by
  obtain ⟨p, as, fs, hp, hroster, hl⟩ := layout_empty.roster_afterAll os
  rw [roster_empty] at hroster
  refine ⟨p, hp, hroster, fun o => ?_, hl.place?_eq, hl.get?_eq,
    fun o n q ho hn hq => hl.allocate_of_dropped ho hn hq⟩
  obtain ⟨q, as', fs', hq, -⟩ := hl.after o
  exact (hl.roster_after hq).1

end WatchpointPool

end Hartwatch
