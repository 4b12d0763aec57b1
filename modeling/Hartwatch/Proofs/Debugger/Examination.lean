import Hartwatch.Proofs.Debugger.Listing
import Hartwatch.Proofs.Debugger.Lockstep
import Hartwatch.Proofs.Debugger.Reads

/-! Examining memory. The loop reads one address after the other up to the first one that cannot be
read, and the command prints the words before it and reports its address. -/

namespace Hartwatch.Debugger

open Session Text

variable {d d' : Debugger} {base : Word} {count i : Nat} {ws : List Word}

/-! ### Addresses that are read -/

/-- The loop with a list of the addresses that it reads. -/
def examineLogged (base : Word) : (count i : Nat) → Debugger →
    Except Crash (List Word × Except Error (Option Word) × Debugger)
  | 0, _, d => .ok ([], .ok none, d)
  | count + 1, i, d => do
    match ← (startWord base i).on d with
    | (.error e, d) => return ([], .error e, d)
    | (.ok a, d) =>
      match d.machine.hart.readWord? a with
      | none => return ([a], .ok (some a), d)
      | some v =>
        match ← (write ("\t" ++ wordHex v)).on d with
        | (.error e, d) => return ([a], .error e, d)
        | (.ok _, d) =>
          let (as, outcome) ← examineLogged base count (i + 1) d
          return (a :: as, outcome)

theorem map_snd_examineLogged (base : Word) (count i : Nat) (d : Debugger) :
    (examineLogged base count i d).map Prod.snd = (examineFrom base count i).on d := by
  induction count generalizing i d with
  | zero => rfl
  | succ count ih =>
    rw [examineLogged, examineFrom_succ, on_bind]
    cases (startWord base i).on d with
    | error c => rfl
    | ok started =>
      obtain ⟨r, d⟩ := started
      cases r with
      | error e => rfl
      | ok a =>
        rw [ok_bind, ok_bind, continueWith, on_get_bind]
        dsimp only
        cases d.machine.hart.readWord? a with
        | none => rfl
        | some v =>
          dsimp only
          rw [on_bind]
          cases (write ("\t" ++ wordHex v)).on d with
          | error c => rfl
          | ok written =>
            obtain ⟨r, d⟩ := written
            cases r with
            | error e => rfl
            | ok u =>
              rw [ok_bind, ok_bind, continueWith, ← ih]
              dsimp only
              cases examineLogged base count (i + 1) d <;> rfl

theorem reads_startLine (a : Word) (i : Nat) : Reads (startLine a i) := by
  unfold startLine
  split
  · split
    · exact .bind (.write _) fun _ => .write _
    · exact .write _
  · exact .pure _

theorem startWord_cases {r : Except Error Word} (hi : i ≤ 1 <<< 29)
    (h : (startWord base i).on d = .ok (r, d')) :
    d'.machine = d.machine ∧ ∀ a, r = .ok a → a = wordAddress base i := by
  rw [startWord_eq hi] at h
  rcases on_bind_eq_ok h with ⟨u, d₁, hline, h⟩ | ⟨e, hline, rfl⟩
  · obtain ⟨rfl, rfl⟩ := Prod.mk.inj (Except.ok.inj h)
    exact ⟨(reads_startLine _ _).machine_eq hline, fun a ha => (Except.ok.inj ha).symm⟩
  · exact ⟨(reads_startLine _ _).machine_eq hline, fun a ha => nomatch ha⟩

/-- The addresses are read in their order, none of them behind the first one that cannot be read,
and not all of them only if the output is full. -/
theorem reads_of_examineLogged {log : List Word} {r : Except Error (Option Word)}
    (hi : i + ws.length ≤ 1 <<< 29)
    (hws : d.machine.hart.Readable (wordAddress base i) count ws)
    (h : examineLogged base count i d = .ok (log, r, d')) :
    log <+: (List.range' i (min count (ws.length + 1))).map (wordAddress base) ∧
      (r.isOk = true →
        log = (List.range' i (min count (ws.length + 1))).map (wordAddress base)) := by
  induction count generalizing i d ws log with
  | zero =>
    obtain ⟨rfl, -⟩ := Prod.mk.inj (Except.ok.inj h)
    rw [Nat.zero_min]
    exact ⟨List.prefix_rfl, fun _ => rfl⟩
  | succ count ih =>
    have hrange : (List.range' i (min (count + 1) (ws.length + 1))).map (wordAddress base) =
        wordAddress base i ::
          (List.range' (i + 1) (min count ws.length)).map (wordAddress base) := by
      rw [Nat.add_min_add_right, List.range'_succ, List.map_cons]
    rw [hrange]
    obtain ⟨⟨r₁, d₁⟩, hstart, h⟩ := bind_eq_ok h
    obtain ⟨hmachine, haddress⟩ := startWord_cases (by omega) hstart
    cases r₁ with
    | error e =>
      obtain ⟨rfl, hr⟩ := Prod.mk.inj (Except.ok.inj h)
      obtain ⟨rfl, -⟩ := Prod.mk.inj hr
      refine ⟨?_, fun hok => nomatch hok⟩
      exact List.nil_prefix
    | ok a =>
      obtain rfl := haddress a rfl
      dsimp only at h
      rw [hmachine] at h
      cases ws with
      | nil =>
        rw [hws.readWord?_eq_none] at h
        obtain ⟨rfl, -⟩ := Prod.mk.inj (Except.ok.inj h)
        rw [List.length_nil, Nat.min_zero]
        exact ⟨List.prefix_rfl, fun _ => rfl⟩
      | cons w ws =>
        rw [hws.readWord?_eq_some] at h
        obtain ⟨⟨r₂, d₂⟩, hwrite, h⟩ := bind_eq_ok h
        have hmachine₂ : d₂.machine = d.machine :=
          ((Reads.write _).machine_eq hwrite).trans hmachine
        cases r₂ with
        | error e =>
          obtain ⟨rfl, hr⟩ := Prod.mk.inj (Except.ok.inj h)
          obtain ⟨rfl, -⟩ := Prod.mk.inj hr
          refine ⟨List.cons_prefix_cons.mpr ⟨rfl, ?_⟩, fun hok => nomatch hok⟩
          exact List.nil_prefix
        | ok u =>
          obtain ⟨⟨as, r₃, d₃⟩, hrest, h⟩ := bind_eq_ok h
          obtain ⟨rfl, hr⟩ := Prod.mk.inj (Except.ok.inj h)
          obtain ⟨rfl, rfl⟩ := Prod.mk.inj hr
          have hlen : (w :: ws).length = ws.length + 1 := rfl
          have hnext := hws.tail
          rw [wordAddress_wordAddress, ← hmachine₂] at hnext
          obtain ⟨hlog, hall⟩ := ih (by omega) hnext hrest
          exact ⟨List.cons_prefix_cons.mpr ⟨rfl, hlog⟩, fun hok => congrArg _ (hall hok)⟩

/-! ### The command -/

/-- What becomes of an examination of some words, if all before the first one that cannot be read
are given. -/
def examination (a : Word) (count : Nat) (ws : List Word) : Except Error Flow :=
  if ws.length = count then .ok .go
  else .error (.expression (.memory (wordAddress a ws.length)))

theorem prints_examined (hroom : d.out.room? = none) (hws : d.machine.hart.Readable base count ws)
    (hlen : ws.length ≤ 1 <<< 29) :
    Prints (do
      let unreadable? ← examineFrom base count 0
      if 0 < count then write "\n"
      return unreadable?) d
      (if ws.length < count then some (wordAddress base ws.length) else none)
      (memoryText base ws (min count (ws.length + 1))) := by
  have hle := hws.length_le
  have hplace : 0 + ws.length ≤ 1 <<< 29 := by omega
  have hstart : d.machine.hart.Readable (wordAddress base 0) count ws := by rwa [wordAddress_zero]
  have hloop := prints_examineFrom hroom hplace hstart
  rw [wordAddress_zero, Nat.zero_add] at hloop
  by_cases hcount : 0 < count
  · have hreads : min count (ws.length + 1) = ws.length + (decide (ws.length < count)).toNat := by
      by_cases hstop : ws.length < count
      · rw [decide_eq_true hstop, Bool.toNat_true]
        omega
      · rw [decide_eq_false hstop, Bool.toNat_false]
        omega
    have htext := examined_eq (a := base) (Nat.zero_mod 4) hreads (by omega)
    rw [if_neg (Nat.lt_irrefl 0), String.empty_append] at htext
    rw [← htext]
    simp only [hcount, if_true]
    refine hloop.bind ((Prints.write ?_ _).andThen (.pure _ _))
    exact hroom
  · obtain rfl : count = 0 := by omega
    obtain rfl : ws = [] := List.eq_nil_of_length_eq_zero (by omega)
    exact .pure _ _

theorem examine_eq {args number expr : String} (hargs : cutAtBlank? args = some (number, expr))
    (hnumber : natBelow? (1 <<< 64) number = some count) :
    examine args = (do
      let base ← evaluate expr
      let unreadable? ← (do
        let unreadable? ← examineFrom base count 0
        if 0 < count then write "\n"
        return unreadable?)
      if let some a := unreadable? then throw (.expression (.memory a))) := by
  rw [examine, hargs]
  dsimp only
  rw [hnumber]
  dsimp only
  refine congrArg _ (funext fun base => ?_)
  rw [bind_assoc]
  refine congrArg _ (funext fun unreadable? => ?_)
  split
  · rw [bind_assoc]
    rfl
  · rfl

theorem on_examine {args number expr : String} (hroom : d.out.room? = none)
    (hargs : cutAtBlank? args = some (number, expr))
    (hnumber : natBelow? (1 <<< 64) number = some count)
    (hbase : Expr.evaluate d.machine.hart.context expr = .ok base)
    (hws : d.machine.hart.Readable base count ws) (hlen : ws.length ≤ 1 <<< 29) :
    (perform args .examine).on d = .ok (examination base count ws,
      { d with out := d.out.append (memoryText base ws (min count (ws.length + 1))) }) := by
  have hevaluate : (evaluate expr).on d = .ok (.ok base, d) := by
    rw [evaluate, on_get_bind, hbase]
    rfl
  have hle := hws.length_le
  rw [perform, on_bind, examine_eq hargs hnumber, on_bind_of_ok _ hevaluate,
    on_bind_of_ok _ (prints_examined hroom hws hlen), examination]
  by_cases hstop : ws.length < count
  · rw [if_pos hstop, if_neg (by omega)]
    rfl
  · rw [if_neg hstop, if_pos (by omega)]
    rfl

theorem exists_examineLogged (hws : d.machine.hart.Readable base count ws)
    (hlen : ws.length ≤ 1 <<< 29) :
    ∃ log r d', examineLogged base count 0 d = .ok (log, r, d') ∧
      (examineFrom base count 0).on d = .ok (r, d') ∧
      log <+: (List.range (min count (ws.length + 1))).map (wordAddress base) ∧
      (r.isOk = true → log = (List.range (min count (ws.length + 1))).map (wordAddress base)) := by
  have hplace : 0 + ws.length ≤ 1 <<< 29 := by omega
  have hstart : d.machine.hart.Readable (wordAddress base 0) count ws := by rwa [wordAddress_zero]
  have hprints := prints_examineFrom (d := d.onto (.empty none)) rfl hplace hstart
  have hloop := on_of_unlimited (oblivious_sequential.examineFrom base count 0)
    (reads_sequential.examineFrom base count 0) hprints
  cases hlogged : examineLogged base count 0 d with
  | error c =>
    rw [← map_snd_examineLogged, hlogged] at hloop
    cases hloop
  | ok logged =>
    obtain ⟨log, r, d'⟩ := logged
    have hreads := reads_of_examineLogged hplace hstart hlogged
    rw [← List.range_eq_range'] at hreads
    refine ⟨log, r, d', rfl, ?_, hreads⟩
    rw [← map_snd_examineLogged, hlogged]
    rfl

/-- Words are printed four on a line, up to the first one that cannot be read, whose address is the
error then. However many are asked for, no more than `2 ^ 29 + 1` are read. -/
theorem execute_examine {line number expr : String}
    (hc : command? line = some .examine)
    (hargs : cutAtBlank? (arguments line) = some (number, expr))
    (hnumber : natBelow? (1 <<< 64) number = some count)
    (hbase : Expr.evaluate d.machine.hart.context expr = .ok base)
    (hsize : d.machine.hart.ram.memory.capacity ≤ 1 <<< 31) :
    ∃ ws reads, d.machine.hart.Readable base count ws ∧ reads = min count (ws.length + 1) ∧
      reads ≤ 1 <<< 29 + 1 ∧
      (let text := memoryText base ws reads
      (execute line).on d =
        .ok (if d.out.takes text.toUTF8 then examination base count ws
          else .error (.stream .outputFull), d.onto (d.out.after text.toUTF8))) ∧
      ∃ log r d', examineLogged base count 0 d = .ok (log, r, d') ∧
        (examineFrom base count 0).on d = .ok (r, d') ∧
        log <+: (List.range reads).map (wordAddress base) ∧
        (r.isOk = true → log = (List.range reads).map (wordAddress base)) := by
  obtain ⟨ws, hws⟩ := d.machine.hart.exists_readable base count
  have hlen := hws.length_le_of_size hsize
  have hroom : (d.onto (.empty none)).out.room? = none := rfl
  refine ⟨ws, _, hws, rfl, by omega, ?_, exists_examineLogged hws hlen⟩
  rw [execute_of_command? hc]
  refine on_of_unlimited ?_ ?_ (on_examine hroom hargs hnumber hbase hws hlen)
  · exact .bind (oblivious_sequential.examine _) fun _ => .pure _
  · exact .bind (reads_sequential.examine _) fun _ => .pure _

/-- As many words as can be asked for, from the last four addresses on. -/
theorem execute_examine_wrapping :
    let line := "x 18446744073709551615 $pc"
    ∃ m, Machine.create ⟨0xfffffff0, 32, 0xfffffff0⟩ = .ok m ∧
      let d := Debugger.create m (.empty none)
      command? line = some .examine ∧
      cutAtBlank? (arguments line) = some ("18446744073709551615", "$pc") ∧
      natBelow? (1 <<< 64) "18446744073709551615" = some 18446744073709551615 ∧
      Expr.evaluate d.machine.hart.context "$pc" = .ok 0xfffffff0 ∧
      d.machine.hart.ram.memory.capacity ≤ 1 <<< 31 ∧
      (execute line).on d = .ok (.error (.expression (.memory 0)), d.onto (d.out.append
        "0xfffffff0:\t0x00000000\t0x00000000\t0x00000000\t0x00000000\n0x00000000:\n")) := by
  intro line
  obtain ⟨m, hm⟩ : ∃ m, Machine.create ⟨0xfffffff0, 32, 0xfffffff0⟩ = .ok m := ⟨_, rfl⟩
  have hc : command? line = some .examine := by decide
  have hargs : cutAtBlank? (arguments line) = some ("18446744073709551615", "$pc") := by decide
  have hnumber : natBelow? (1 <<< 64) "18446744073709551615" = some 18446744073709551615 := by
    decide
  have hbase : Expr.evaluate m.hart.context "$pc" = .ok 0xfffffff0 := by
    cases hm
    rfl
  have hsize : m.hart.ram.memory.capacity ≤ 1 <<< 31 := by
    cases hm
    decide
  have hwords : m.hart.Readable 0xfffffff0 18446744073709551615 [0, 0, 0, 0] := by
    cases hm
    exact .cons rfl (.cons rfl (.cons rfl (.cons rfl ⟨Nat.zero_le _, nofun, fun _ => rfl⟩)))
  obtain ⟨ws, reads, hws, rfl, -, hon, -⟩ :=
    execute_examine (d := .create m (.empty none)) hc hargs hnumber hbase hsize
  obtain rfl := hwords.unique hws
  refine ⟨m, hm, hc, hargs, hnumber, hbase, hsize, hon.trans ?_⟩
  rw [Sink.takes_of_no_limit rfl, Sink.after_of_no_limit rfl]
  rfl

end Hartwatch.Debugger
