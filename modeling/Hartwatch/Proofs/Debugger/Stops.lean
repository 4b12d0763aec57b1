import Hartwatch.Proofs.Debugger.Upkeep

/-! Where runs stop. From a prompt at which all values are those of the present, a run stops behind
the first instruction that changes one of them, and tells every change that it finds there. -/

namespace Hartwatch.Debugger

open Session

variable {d d' : Debugger} {budget : Budget}

/-- After some instructions, the expression of an active watchpoint has another value. -/
def ChangedAfter (d : Debugger) (k : Nat) : Prop :=
  ∃ h, d.machine.hart.after k = .ok h ∧ ∃ i ∈ d.pool.active,
    Expr.evaluate h.context (d.pool.slots.get i).expr ≠
      Expr.evaluate d.machine.hart.context (d.pool.slots.get i).expr

def changeBetween? (before after : Expr.Context) (w : Watchpoint) : Option Watchpoint.Change :=
  match Expr.evaluate before w.expr, Expr.evaluate after w.expr with
  | .ok old, .ok new => if new = old then none else some ⟨w.number, w.expr, old, new⟩
  | _, _ => none

theorem changedAfter_iff {k : Nat} {h : Hart} (hc : d.pool.Current d.machine.hart.context)
    (hh : d.machine.hart.after k = .ok h) : d.ChangedAfter k ↔ ¬ d.pool.Current h.context := by
  constructor
  · rintro ⟨h', hh', i, hi, hne⟩ hcurrent
    obtain rfl := Except.ok.inj (hh.symm.trans hh')
    exact hne ((hcurrent i hi).trans (hc i hi).symm)
  · intro hcurrent
    by_contra hsame
    refine hcurrent fun i hi => ?_
    by_contra hne
    exact hsame ⟨h, hh, i, hi, fun he => hne (he.trans (hc i hi))⟩

theorem change?_eq_changeBetween? {before after : Expr.Context} {w : Watchpoint}
    (hw : Expr.evaluate before w.expr = .ok w.value) :
    w.change? after = changeBetween? before after w := by
  unfold Watchpoint.change? changeBetween?
  rw [hw]
  cases Expr.evaluate after w.expr <;> rfl

theorem not_changedAfter {j k : Nat} (hc : d.pool.Current d.machine.hart.context)
    (hquiet : ∀ j, 0 < j → j < k → ∀ h, d.machine.hart.after j = .ok h → d.pool.Current h.context)
    (hj : j < k) : ¬ d.ChangedAfter j := by
  intro hchange
  obtain ⟨h, hh, -⟩ := id hchange
  refine (changedAfter_iff hc hh).mp hchange ?_
  rcases Nat.eq_zero_or_pos j with rfl | hpos
  · obtain rfl := Except.ok.inj hh
    exact hc
  · exact hquiet j hpos hj h hh

/-- A run in which no write fails stops after the first instruction behind which the expression of
an active watchpoint has another value than at its start, and answers with all that then have one.
If there is none, it uses up its budget or ends with the program. -/
theorem run_stops_at_first_change {r : Except Error (List Watchpoint.Change)}
    (hd : Reachable Undisturbed d) (hended : d.machine.status.hasEnded = false)
    (hrun : (run budget).on d = .ok (r, d')) (hout : r ≠ .error (.stream .outputFull))
    (hreadable : ∀ k, 0 < k → d.machine.retired + k ≤ d'.machine.retired →
      ∀ h, d.machine.hart.after k = .ok h → ∀ i ∈ d.pool.active,
        ∃ v, Expr.evaluate h.context (d.pool.slots.get i).expr = .ok v) :
    ∃ k changes, r = .ok changes ∧ d'.machine.retired = d.machine.retired + k ∧
      (∃ h, d.machine.hart.after k = .ok h ∧ d'.machine.hart.context = h.context) ∧
      (∀ n, budget = .limited n → k ≤ n) ∧
      (∀ j, j < k → ¬ d.ChangedAfter j) ∧
      (changes ≠ [] ↔ d.ChangedAfter k) ∧
      (changes = [] → budget = .limited k ∨ d'.machine.status.hasEnded = true) ∧
      changes = d.pool.active.filterMap fun i =>
        changeBetween? d.machine.hart.context d'.machine.hart.context (d.pool.slots.get i) := by
  obtain ⟨⟨as, fs, hl⟩, hc⟩ := upToDate_of_reachable hd
  have hnodup := hl.nodup_active
  obtain ⟨m, w, hs, -, hm, -, hend⟩ := run_settled hnodup hended hrun
  have hhart : d'.machine.hart = m.hart := by rw [hm]
  have hretired : d'.machine.retired = m.retired := by rw [hm]
  have hfull : w.error? ≠ some (.stream .outputFull) := fun hw => hout (hend.eq_error hw)
  rcases hs.found hnodup hc with hw | ⟨k, hk, hpath, hw, hlast⟩
  · exact absurd hw.error? hfull
  obtain ⟨h, hh, hcontext⟩ := hpath.hart
  have hread : ∀ i ∈ d.pool.active,
      ∃ v, Expr.evaluate m.hart.context (d.pool.slots.get i).expr = .ok v := by
    intro i hi
    rw [hcontext]
    rcases Nat.eq_zero_or_pos k with rfl | hpos
    · obtain rfl := Except.ok.inj hh
      exact ⟨_, hc i hi⟩
    · exact hreadable k hpos (by rw [hretired, hpath.retired]) h hh i hi
  have herr : w.error? = none := by
    rw [hw.error?, (WatchpointPool.detect_error?_eq_none hnodup).mpr hread]
    rfl
  have hchanges : w.changes = d.pool.changes m.hart.context := by
    rw [hw.changes, WatchpointPool.detect_eq hnodup]
  have hnil : w.changes ≠ [] ↔ d.ChangedAfter k := by
    rw [hchanges, ne_eq, WatchpointPool.changes_eq_nil hread, changedAfter_iff hc hh, hcontext]
  refine ⟨k, w.changes, hend.eq_ok herr hout, hretired.trans hpath.retired,
    ⟨h, hh, hhart ▸ hcontext⟩, ?_, fun j hj => not_changedAfter hc hpath.quiet hj, hnil, ?_, ?_⟩
  · rintro n rfl
    exact hk
  · intro hnone
    rcases hlast with hover | ⟨-, hkn, hbound⟩ | ⟨-, hsome⟩
    · refine .inr ?_
      rw [hm]
      simpa only [if_neg (Status.ne_running_of_hasEnded hover)] using hover
    · exact .inl (eq_limited_of_bound hkn hbound)
    · exact (hsome.resolve_left (not_not.mpr hnone) herr).elim
  · rw [hchanges, hhart, WatchpointPool.changes, WatchpointPool.seen_eq_active hread]
    exact List.filterMap_congr fun i hi => change?_eq_changeBetween? (hc i hi)

theorem run_stops_at_first_change_li :
    ∃ d d' k, Reachable Undisturbed d ∧
      (run (.limited 3)).on d = .ok (.ok [⟨0, "$a0", 0, 1⟩], d') ∧
      d'.machine.retired = d.machine.retired + k ∧ d.ChangedAfter k ∧
      ∀ j, j < k → ¬ d.ChangedAfter j := by
  have hcalls : (do
      let d₀ ← createWith [0x00100513, 0x00000013]
      let watched ← (execute "w $a0").on d₀
      let ran ← (run (.limited 3)).on watched.2
      return (watched.1.isOk, ran.1.toOption, watched.2.machine.status.hasEnded,
        watched.2.pool.active.map fun i => (watched.2.pool.slots.get i).expr) :
          Except Crash _).toOption =
      some (true, some [⟨0, "$a0", 0, 1⟩], false, ["$a0"]) := by
    decide +kernel
  obtain ⟨d₀, hnew, h⟩ := bind_eq_ok (eq_ok_of_toOption hcalls)
  obtain ⟨⟨r₁, d₁⟩, hwatch, h⟩ := bind_eq_ok h
  obtain ⟨⟨r₂, d₂⟩, hrun, h⟩ := bind_eq_ok h
  simp only [Prod.mk.injEq, Except.ok.injEq, pure, Except.pure] at h
  obtain ⟨hok, hanswer, hended, hexprs⟩ := h
  obtain rfl := eq_ok_of_toOption hanswer
  have hd : Reachable Undisturbed d₁ :=
    .execute "w $a0" (reachable_createWith hnew) hwatch (admits_of_isOk hwatch hok)
  have hreadable : ∀ (h : Hart), ∀ i ∈ d₁.pool.active,
      ∃ v, Expr.evaluate h.context (d₁.pool.slots.get i).expr = .ok v := by
    intro h i hi
    have hexpr : (d₁.pool.slots.get i).expr ∈ ["$a0"] :=
      hexprs ▸ List.mem_map_of_mem (f := fun i => (d₁.pool.slots.get i).expr) hi
    rw [List.mem_singleton.mp hexpr]
    exact ⟨h.read 10, rfl⟩
  obtain ⟨k, changes, hchanges, hretired, -, -, hleast, hchanged, -⟩ :=
    run_stops_at_first_change hd hended hrun (fun hr => nomatch hr) fun k _ _ h _ => hreadable h
  obtain rfl := Except.ok.inj hchanges
  exact ⟨d₁, d₂, k, hd, hrun, hretired, hchanged.mp (by simp), hleast⟩

end Hartwatch.Debugger
