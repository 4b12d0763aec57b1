import Hartwatch.Proofs.Debugger.EndReports
import Hartwatch.Proofs.Debugger.Lockstep
import Hartwatch.Proofs.Debugger.Reads
import Hartwatch.Proofs.Machine.Budgets

/-! What a run writes: its instructions if it echoes them, then the changes that it answers with,
then the end of the program. A run that answers with changes has had all of this taken by its
output. -/

namespace Hartwatch.Debugger

open Machine

variable {d d' : Debugger} {w : Watcher} {echo : Bool} {n : Nat}
variable {calls : List (Step × Hart)} {changes : List Watchpoint.Change}

def echoedText (echo : Bool) (calls : List (Step × Hart)) : String :=
  if echo then .join (calls.map fun call => echoLine call.1) else ""

theorem echoedText_cons (echo : Bool) (s : Step) (h : Hart) (calls : List (Step × Hart)) :
    (echoedText echo ((s, h) :: calls)).toUTF8 =
      echoText echo s ++ (echoedText echo calls).toUTF8 := by
  cases echo with
  | false => exact ByteArray.empty_append.symm
  | true =>
    rw [echoedText, if_pos rfl, List.map_cons, String.join_cons]
    exact String.toByteArray_append

theorem echoes_ofCount (n : Nat) : echoes (.ofCount n) = decide (n < echoLimit) := by
  by_cases hn : n < Budget.unlimitedCount
  · rw [Budget.ofCount_of_lt hn]
    rfl
  · have hlarge : ¬ n < echoLimit := fun hlt => hn (Nat.lt_trans hlt (by decide))
    rw [Budget.ofCount_of_not_lt hn, decide_eq_false hlarge]
    rfl

theorem endText_of_not_ended {m : Machine} (hm : m.status.hasEnded = false) : endText m = "" := by
  have hnone : m.status.report? = none := by
    cases hstatus : m.status
    case running | stopped | quit => rfl
    all_goals
      rw [hstatus] at hm
      cases hm
  rw [endText, hnone]

theorem endText_of_ended {m : Machine} (hm : m.status.hasEnded = true) :
    ∃ report, m.status.report? = some report ∧ endText m = report ++ "\n" ++
      ("total guest instructions = " ++ Text.decimal m.retired ++ "\n") := by
  obtain ⟨report, hreport⟩ := Status.exists_report hm
  exact ⟨report, hreport, by rw [endText, hreport]; rfl⟩

theorem lookAround_error? {h : Hart} (he : (lookAround h w).2.error? = none) :
    w.error? = none := by
  unfold lookAround at he
  dsimp only at he
  split at he
  · cases he
  · exact he

theorem watcher_echoes {s : Step} {h : Hart} (he : (watcher echo s h w).2.error? = none) :
    w.error? = none ∧ (watcher echo s h w).2.out.bytes = w.out.bytes ++ echoText echo s := by
  cases htakes : w.out.takes (echoText echo s) with
  | true =>
    rw [watcher_of_takes h htakes] at he ⊢
    exact ⟨lookAround_error? he, Sink.bytes_after_of_takes htakes⟩
  | false =>
    rw [watcher_of_not h htakes] at he
    cases he

theorem after_echoes (he : ((watcher echo).after w calls).error? = none) :
    w.error? = none ∧ ((watcher echo).after w calls).out.bytes =
      w.out.bytes ++ (echoedText echo calls).toUTF8 := by
  induction calls generalizing w with
  | nil =>
    refine ⟨he, ?_⟩
    cases echo <;> exact ByteArray.append_empty.symm
  | cons call calls ih =>
    obtain ⟨s, h⟩ := call
    obtain ⟨hfirst, hrest⟩ := ih (w := (watcher echo s h w).2) he
    obtain ⟨hnone, hbytes⟩ := watcher_echoes hfirst
    refine ⟨hnone, ?_⟩
    rw [echoedText_cons, ← ByteArray.append_assoc, ← hbytes]
    exact hrest

theorem conclude_writes (h : (conclude changes).on d = .ok (.ok changes, d')) :
    d'.machine = d.machine ∧ d'.out.bytes =
      d.out.bytes ++ (String.join (changes.map changeText) ++ endText d.machine).toUTF8 := by
  have hprints := conclude_prints (d := d.onto (.empty none)) rfl changes
  rw [String.append_empty] at hprints
  have hon := on_of_unlimited (oblivious_sequential.conclude changes)
    (reads_sequential.conclude changes) hprints
  rw [h] at hon
  obtain ⟨hr, rfl⟩ := Prod.mk.inj (Except.ok.inj hon)
  refine ⟨rfl, Sink.bytes_after_of_takes ?_⟩
  by_contra hnot
  rw [if_neg hnot] at hr
  cases hr

/-- A run that answers with changes has written its instructions, if it takes few steps, the changes
in this order, and the end of the program if it has come to it. -/
theorem run_output (hended : d.machine.status.hasEnded = false)
    (hrun : (run (.ofCount n)).on d = .ok (.ok changes, d')) :
    ∃ cs w, d.machine.Ran (.ofCount n) (watcher (n < 10)) ⟨d.pool, [], d.out, none⟩ cs
        d'.machine w ∧
      w.changes = changes ∧ d.machine.hart.Recorded cs (Cycle.shown cs) ∧
      d'.machine.retired = d.machine.retired + (Cycle.shown cs).length ∧
      d'.out.bytes = d.out.bytes ++
        ((if n < 10 then String.join ((Cycle.shown cs).map fun call => echoLine call.1) else "") ++
          (String.join (changes.map changeText) ++ endText d'.machine)).toUTF8 ∧
      (d'.machine.status.hasEnded = false → endText d'.machine = "") ∧
      (d'.machine.status.hasEnded = true → ∃ report, d'.machine.status.report? = some report ∧
        endText d'.machine = report ++ "\n" ++
          ("total guest instructions = " ++ Text.decimal d'.machine.retired ++ "\n")) := by
  obtain ⟨w, hmachine, -, hconcluded⟩ := run_cases hended hrun
  rw [echoes_ofCount] at hmachine
  obtain ⟨cs, hran⟩ := run_ran hended hmachine
  have hrecorded := hran.cycles.recorded fun _ hc => hran.onward.completed hc
  rcases hconcluded with ⟨e, -, he, -⟩ | ⟨hnone, hconclude⟩
  · cases he
  obtain rfl := conclude_eq_ok hconclude
  obtain ⟨-, hwritten⟩ := conclude_writes hconclude
  have hseen := hran.seen
  rw [hseen] at hnone
  obtain ⟨-, hechoed⟩ := after_echoes hnone
  rw [← hseen] at hechoed
  refine ⟨cs, w, hran, rfl, hrecorded, hran.retired, ?_, endText_of_not_ended, endText_of_ended⟩
  have hechoes : echoedText (n < echoLimit) (Cycle.shown cs) =
      if n < 10 then .join ((Cycle.shown cs).map fun call => echoLine call.1) else "" := by
    simp only [echoedText, decide_eq_true_iff]
    rfl
  have hbytes : d'.out.bytes = w.out.bytes ++
      (String.join (w.changes.map changeText) ++ endText d'.machine).toUTF8 := hwritten
  rw [hbytes, hechoed, hechoes, ByteArray.append_assoc]
  exact congrArg (d.out.bytes ++ ·) String.toByteArray_append.symm

/-- The other watchpoint has no value after the first instruction and is deleted. The next run meets
the breakpoint with the change that was not looked at. -/
theorem run_output_change_at_breakpoint :
    ∃ d d' cs w, d.machine.status.hasEnded = false ∧
      (run (.ofCount 1)).on d = .ok (.ok [⟨0, "$a0", 0, 1⟩], d') ∧
      d.machine.Ran (.ofCount 1) (watcher (1 < 10)) ⟨d.pool, [], d.out, none⟩ cs d'.machine w ∧
      (Cycle.shown cs).length = 1 ∧
      String.join ((Cycle.shown cs).map fun call => echoLine call.1) =
        "0x80000004: 00100073\tebreak\n" ∧
      d'.out.bytes = d.out.bytes ++ ("0x80000004: 00100073\tebreak\n" ++
        ("\nwatchpoint 0: $a0\n\nOld value = 0\nNew value = 1\n" ++
          ("rvdb: HIT BAD TRAP at pc = 0x80000004 (a0 = 0x1)\n" ++
            "total guest instructions = 2\n"))).toUTF8 := by
  let text := "0x80000004: 00100073\tebreak\n" ++
    ("\nwatchpoint 0: $a0\n\nOld value = 0\nNew value = 1\n" ++
      ("rvdb: HIT BAD TRAP at pc = 0x80000004 (a0 = 0x1)\n" ++ "total guest instructions = 2\n"))
  have hcalls : (do
      let d₀ ← createWith [0x00100513, 0x00100073]
      let first ← (execute "w $a0").on d₀
      let second ← (execute "w 1/($a0-1)").on first.2
      let failed ← (run (.ofCount 1)).on second.2
      let deleted ← (execute "d 1").on failed.2
      let ran ← (run (.ofCount 1)).on deleted.2
      return (deleted.2.machine.status.hasEnded, ran.1.toOption, deleted.2.machine.retired,
        ran.2.machine.retired, endText ran.2.machine, decide (ran.2.out.bytes.data.toList =
          deleted.2.out.bytes.data.toList ++ text.toUTF8.data.toList)) : Except Crash _).toOption =
      some (false, some [⟨0, "$a0", 0, 1⟩], 1, 2,
        "rvdb: HIT BAD TRAP at pc = 0x80000004 (a0 = 0x1)\n" ++
          "total guest instructions = 2\n", true) := by
    decide +kernel
  obtain ⟨d₀, -, h⟩ := bind_eq_ok (eq_ok_of_toOption hcalls)
  obtain ⟨first, -, h⟩ := bind_eq_ok h
  obtain ⟨second, -, h⟩ := bind_eq_ok h
  obtain ⟨failed, -, h⟩ := bind_eq_ok h
  obtain ⟨⟨r, d⟩, -, h⟩ := bind_eq_ok h
  obtain ⟨⟨r', d'⟩, hrun, h⟩ := bind_eq_ok h
  simp only [Prod.mk.injEq, Except.ok.injEq, pure, Except.pure, decide_eq_true_eq] at h
  obtain ⟨hended, hanswer, hbefore, hafter, htext, hlist⟩ := h
  obtain rfl := eq_ok_of_toOption hanswer
  have hbytes : d'.out.bytes = d.out.bytes ++ text.toUTF8 := by
    apply ByteArray.ext
    rw [ByteArray.data_append, ← Array.toList_inj, Array.toList_append]
    exact hlist
  obtain ⟨cs, w, hran, -, -, hretired, hwritten, -⟩ := run_output hended hrun
  rw [hbefore, hafter] at hretired
  have hone : (Cycle.shown cs).length = 1 := by omega
  have hechoes : String.join ((Cycle.shown cs).map fun call => echoLine call.1) =
      "0x80000004: 00100073\tebreak\n" := by
    have hsame := (ByteArray.append_right_inj _).mp (hwritten.symm.trans hbytes)
    rw [if_pos (by decide), htext] at hsame
    exact (String.append_left_inj _).mp (String.toByteArray_inj.mp hsame)
  exact ⟨d, d', cs, w, hended, hrun, hran, hone, hechoes, hbytes⟩

end Hartwatch.Debugger
