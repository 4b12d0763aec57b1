import Hartwatch.Proofs.Debugger.Upkeep

/-! Which changes a run reports. All that it has gathered is reported if it ends well, and nothing
if it ends in an error: what was gathered by then is in the pool but not in the output. -/

namespace Hartwatch.Debugger

open Session

variable {d d' : Debugger} {budget : Budget}

def heldChange (d d' : Debugger) (i : Watchpoint.Handle) : Watchpoint.Change :=
  ⟨(d.pool.slots.get i).number, (d.pool.slots.get i).expr, (d.pool.slots.get i).value,
    (d'.pool.slots.get i).value⟩

/-- A text is part of what was written since. -/
def Printed (d d' : Debugger) (text : String) : Prop :=
  ∃ front back, d'.out = d.out.append (front ++ text ++ back)

/-! ### Echo lines hold no equal sign -/

theorem digitChar_of_mem_toDigits {n : Nat} {c : Char} (h : c ∈ Nat.toDigits 16 n) :
    ∃ d, d < 16 ∧ c = Nat.digitChar d := by
  induction n using Nat.strongRecOn with
  | ind n ih =>
    rw [Nat.toDigits_eq_if (by decide)] at h
    split at h
    · next hn => exact ⟨n, hn, List.mem_singleton.mp h⟩
    · next hn =>
      rcases List.mem_append.mp h with h | h
      · exact ih (n / 16) (by omega) h
      · exact ⟨n % 16, Nat.mod_lt _ (by decide), List.mem_singleton.mp h⟩

theorem equalSign_notMem_wordDigits (w : Word) : '=' ∉ (Text.wordDigits w).toList := by
  intro h
  simp only [Text.wordDigits, Text.padLeft, Text.hexDigits, String.toList_append,
    String.toList_ofList, List.mem_append, List.mem_replicate] at h
  rcases h with ⟨-, h⟩ | h
  · cases h
  · obtain ⟨d, hd, he⟩ := digitChar_of_mem_toDigits h
    have hne : ∀ d < 16, '=' ≠ Nat.digitChar d := by decide
    exact hne d hd he

theorem equalSign_notMem_name (o : Opcode) : '=' ∉ o.name.toList := by
  cases o <;> decide

theorem toString_eq (s : String) : toString s = s :=
  rfl

theorem equalSign_notMem_echoLine (s : Step) : '=' ∉ (echoLine s).toList := by
  have hpc := equalSign_notMem_wordDigits s.pc
  have hword := equalSign_notMem_wordDigits s.word
  have hname := equalSign_notMem_name s.opcode
  simp only [echoLine, Text.wordHex, toString_eq, String.toList_append, List.mem_append]
  simp [hpc, hword, hname]

theorem equalSign_mem_changeText (c : Watchpoint.Change) : '=' ∈ (changeText c).toList := by
  unfold changeText
  rw [String.toList_append]
  refine List.mem_append_right _ ?_
  rw [String.toList_append, String.toList_append]
  exact List.mem_append_left _ (List.mem_append_left _ (by decide))

theorem Watcher.Echoes.not_printed {w : Watcher} {machine : Machine} {text : String}
    (hw : w.Echoes d.out) (htext : '=' ∈ text.toList) :
    ¬ Printed d (d.withRun machine w) text := by
  rintro ⟨front, back, hprinted⟩
  obtain ⟨steps, hsteps⟩ := hw
  have hsame : .join (steps.map echoLine) = front ++ text ++ back :=
    Sink.append_right_inj.mp (hsteps.symm.trans hprinted)
  have hmem : '=' ∈ (String.join (steps.map echoLine)).toList := by
    rw [hsame, String.toList_append, String.toList_append]
    exact List.mem_append_left _ (List.mem_append_right _ htext)
  rw [String.toList_join, List.mem_flatMap] at hmem
  obtain ⟨line, hline, hmem⟩ := hmem
  obtain ⟨s, -, rfl⟩ := List.mem_map.mp hline
  exact equalSign_notMem_echoLine s hmem

theorem Watcher.Echoes.concludes {w : Watcher} {changes : List Watchpoint.Change}
    {machine : Machine} {r : Except Error (List Watchpoint.Change)} (hw : w.Echoes d.out)
    (hout : d.out.room? = none) (h : (conclude changes).on (d.withRun machine w) = .ok (r, d')) :
    r = .ok changes ∧ ∃ echoes,
      d'.out = d.out.append (echoes ++ (.join (changes.map changeText) ++ endText machine)) := by
  obtain ⟨steps, hsteps⟩ := hw
  have hroom : (d.withRun machine w).out.room? = none := by
    rw [withRun, hsteps]
    exact hout
  have hprints := conclude_prints hroom changes
  obtain ⟨rfl, rfl⟩ := Prod.mk.inj (Except.ok.inj (h.symm.trans hprints))
  refine ⟨rfl, .join (steps.map echoLine), ?_⟩
  simp only [withRun, hsteps, Sink.append_append, String.append_empty]

theorem printed_of_mem {w : Watcher} {changes : List Watchpoint.Change} {machine : Machine}
    {r : Except Error (List Watchpoint.Change)} (hw : w.Echoes d.out) (hout : d.out.room? = none)
    (h : (conclude changes).on (d.withRun machine w) = .ok (r, d')) :
    (∃ cs, r = .ok cs) ∧ ∀ c ∈ changes, Printed d d' (changeText c) := by
  obtain ⟨hr, echoes, htext⟩ := hw.concludes hout h
  refine ⟨⟨_, hr⟩, fun c hc => ?_⟩
  obtain ⟨before, after, rfl⟩ := List.append_of_mem hc
  refine ⟨echoes ++ .join (before.map changeText),
    .join (after.map changeText) ++ endText machine, ?_⟩
  simp only [htext, List.map_append, List.map_cons, String.join_append, String.join_cons,
    String.append_assoc]

/-- On an output that takes all, a run that fails has written nothing but echoes, and any other one
has written all that it gathered and the end of the program. -/
theorem Concluded.output {w : Watcher} {r : Except Error (List Watchpoint.Change)}
    (hend : d.Concluded w r d') (hw : w.Echoes d.out) (hout : d.out.room? = none) :
    (∃ e, w.error? = some e ∧ r = .error e ∧
      ∀ text : String, '=' ∈ text.toList → ¬ Printed d d' text) ∨
    w.error? = none ∧ r = .ok w.changes ∧ ∃ echoes, d'.out =
      d.out.append (echoes ++ (.join (w.changes.map changeText) ++ endText d'.machine)) := by
  rcases hend with ⟨e, he, hr, hd'⟩ | ⟨hnone, hconclude⟩
  · refine .inl ⟨e, he, hr, fun text htext => ?_⟩
    rw [hd']
    exact hw.not_printed htext
  · exact .inr ⟨hnone, hw.concludes hout hconclude⟩

theorem Settled.mem_changes {start m : Machine} {p : WatchpointPool} {n : Nat} {w : Watcher}
    {i : Watchpoint.Handle} (hs : Settled start p n m w) (hnodup : p.active.Nodup)
    (hne : (w.pool.slots.get i).value ≠ (p.slots.get i).value) :
    ⟨(p.slots.get i).number, (p.slots.get i).expr, (p.slots.get i).value,
      (w.pool.slots.get i).value⟩ ∈ w.changes := by
  rcases hs with hw | ⟨k, -, -, ⟨hw, -⟩ | ⟨hw, -⟩⟩
  · exact absurd (by rw [hw.pool]) hne
  · exact absurd (by rw [hw.pool]) hne
  · have hpool := hw.pool
    have hchanges := hw.changes
    rw [WatchpointPool.detect_eq hnodup] at hpool hchanges
    rw [hpool] at hne ⊢
    rw [hchanges]
    exact WatchpointPool.mem_changes_of_value_ne hne

theorem not_printed_of_error {e : Error} (hd : d.Laid)
    (hended : d.machine.status.hasEnded = false) (hout : d.out.room? = none)
    (hrun : (run budget).on d = .ok (.error e, d')) (c : Watchpoint.Change) :
    ¬ Printed d d' (changeText c) := by
  obtain ⟨as, fs, hl⟩ := hd
  obtain ⟨m, w, -, hecho, -, -, hend⟩ :=
    run_settled hl.nodup_active hended hrun
  rcases hend.output (hecho hout) hout with ⟨-, -, -, hhidden⟩ | ⟨-, hr, -⟩
  · exact hhidden _ (equalSign_mem_changeText c)
  · cases hr

/-- With an output that takes all, a run reports every change of a value that it leaves in the pool
if and only if it ends well or leaves no change: an error on the way swallows them all. -/
theorem run_reports_iff {r : Except Error (List Watchpoint.Change)}
    (hd : Reachable (fun _ => True) d) (hout : d.out.room? = none)
    (hrun : (run budget).on d = .ok (r, d')) :
    (∀ i ∈ d.pool.active, (d'.pool.slots.get i).value ≠ (d.pool.slots.get i).value →
      Printed d d' (changeText (heldChange d d' i))) ↔
    (∃ changes, r = .ok changes) ∨
      ∀ i ∈ d.pool.active, (d'.pool.slots.get i).value = (d.pool.slots.get i).value := by
  obtain ⟨as, fs, hl⟩ := laid_of_reachable hd
  have hnodup := hl.nodup_active
  cases hended : d.machine.status.hasEnded with
  | true =>
    rw [(run_ended_keeps hended hrun).2]
    exact iff_of_true (fun i _ hne => absurd rfl hne) (.inr fun i _ => rfl)
  | false =>
    obtain ⟨m, w, hs, hecho, -, hpool, hend⟩ := run_settled hnodup hended hrun
    have hmem : ∀ i, (d'.pool.slots.get i).value ≠ (d.pool.slots.get i).value →
        heldChange d d' i ∈ w.changes := by
      intro i hne
      rw [heldChange, hpool]
      exact hs.mem_changes hnodup (hpool ▸ hne)
    rcases hend with ⟨e, -, rfl, -⟩ | ⟨-, hconclude⟩
    · constructor
      · refine fun hprinted => .inr fun i hi => ?_
        by_contra hne
        exact not_printed_of_error ⟨as, fs, hl⟩ hended hout hrun _ (hprinted i hi hne)
      · rintro (⟨changes, hr⟩ | hsame) i hi hne
        · cases hr
        · exact absurd (hsame i hi) hne
    · obtain ⟨hok, hprinted⟩ := printed_of_mem (hecho hout) hout hconclude
      exact iff_of_true (fun i _ hne => hprinted _ (hmem i hne)) (.inl hok)

theorem run_reports_iff_li :
    ∃ d d', Reachable (fun _ => True) d ∧ d.out.room? = none ∧
      (run (.limited 3)).on d = .ok (.ok [⟨0, "$a0", 0, 1⟩], d') ∧
      Printed d d' (changeText ⟨0, "$a0", 0, 1⟩) := by
  have hcalls : (do
      let d₀ ← createWith [0x00100513, 0x00000013]
      let watched ← (execute "w $a0").on d₀
      let ran ← (run (.limited 3)).on watched.2
      return (ran.1.toOption, watched.2.out.room?, watched.2.pool.active,
        heldChange watched.2 ran.2 0) : Except Crash _).toOption =
      some (some [⟨0, "$a0", 0, 1⟩], none, [0], ⟨0, "$a0", 0, 1⟩) := by
    decide +kernel
  obtain ⟨d₀, hnew, h⟩ := bind_eq_ok (eq_ok_of_toOption hcalls)
  obtain ⟨⟨r₁, d₁⟩, hwatch, h⟩ := bind_eq_ok h
  obtain ⟨⟨r₂, d₂⟩, hrun, h⟩ := bind_eq_ok h
  simp only [Prod.mk.injEq, Except.ok.injEq, pure, Except.pure] at h
  obtain ⟨hanswer, hroom, hactive, hchange⟩ := h
  obtain rfl := eq_ok_of_toOption hanswer
  have hd : Reachable (fun _ => True) d₁ :=
    .execute "w $a0" (reachable_createWith hnew) hwatch fun _ _ => trivial
  have hprinted := (run_reports_iff hd hroom hrun).mpr (.inl ⟨_, rfl⟩) 0 (by simp [hactive])
  rw [hchange] at hprinted
  refine ⟨d₁, d₂, hd, hroom, hrun, hprinted ?_⟩
  obtain ⟨-, -, hold, hnew⟩ := Watchpoint.Change.mk.inj hchange
  rw [hold, hnew]
  decide

/-- A watchpoint that changes and one that can no longer be evaluated, in one step. -/
theorem run_swallows_change :
    ¬ ∀ d d' : Debugger, ∀ budget r, Reachable (fun _ => True) d → d.out.room? = none →
      (run budget).on d = .ok (r, d') → ∀ i ∈ d.pool.active,
        (d'.pool.slots.get i).value ≠ (d.pool.slots.get i).value →
        Printed d d' (changeText (heldChange d d' i)) := by
  intro hall
  have hcalls : (do
      let d₀ ← createWith [0x00100513, 0x00150513, 0x00150513, 0x00100073]
      let first ← (execute "w 1/($a0-1)").on d₀
      let second ← (execute "w $a0").on first.2
      let ran ← (run (.limited 1)).on second.2
      return (ran.1.isOk, second.2.out.room?, second.2.machine.status.hasEnded,
        second.2.pool.active, heldChange second.2 ran.2 1) : Except Crash _).toOption =
      some (false, none, false, [1, 0], ⟨1, "$a0", 0, 1⟩) := by
    decide +kernel
  obtain ⟨d₀, hnew, h⟩ := bind_eq_ok (eq_ok_of_toOption hcalls)
  obtain ⟨⟨r₁, d₁⟩, hfirst, h⟩ := bind_eq_ok h
  obtain ⟨⟨r₂, d₂⟩, hsecond, h⟩ := bind_eq_ok h
  obtain ⟨⟨r₃, d₃⟩, hrun, h⟩ := bind_eq_ok h
  simp only [Prod.mk.injEq, Except.ok.injEq, pure, Except.pure] at h
  obtain ⟨hfails, hroom, hended, hactive, hchange⟩ := h
  have hd : Reachable (fun _ => True) d₂ :=
    .execute "w $a0" (.execute "w 1/($a0-1)" (reachable_createWith hnew) hfirst fun _ _ => trivial)
      hsecond fun _ _ => trivial
  cases r₃ with
  | ok changes => cases hfails
  | error e =>
    refine not_printed_of_error (laid_of_reachable hd) hended hroom hrun _
      (hall d₂ d₃ _ _ hd hroom hrun 1 (by simp [hactive]) ?_)
    obtain ⟨-, -, hold, hnew⟩ := Watchpoint.Change.mk.inj hchange
    rw [hold, hnew]
    decide

end Hartwatch.Debugger
