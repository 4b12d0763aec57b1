import Hartwatch.Proofs.Debugger.EndReports
import Hartwatch.Proofs.Debugger.Refusals
import Hartwatch.Proofs.Debugger.Transcript
import Hartwatch.Proofs.Watchpoint.Refinement

/-! What command lines leave behind. One that is turned down leaves all as it was, and one that asks
or keeps watchpoints does what its command is for and nothing else. Printed values are numbered one
after the other. -/

namespace Hartwatch.Debugger

open Session Text

variable {α β : Type} {d d' : Debugger} {args line : String}

/-! ### What commands do -/

def valueLine (number : Nat) (value : Word) : String :=
  s!"${decimal number} = {decimal value.toNat}" ++ "\n"

/-- What a command that succeeds has done, unless it is one that runs the program or leaves. -/
def Accomplished (args : String) (d d' : Debugger) : Command → Prop
  | .help | .info | .examine => d' = d.onto d'.out
  | .print => ∃ value, Expr.evaluate d.machine.hart.context args = .ok value ∧
    d' = { d with printed := d.printed + 1, out := d.out.append (valueLine d.printed value) }
  | .watch => ∃ number free value, Expr.evaluate d.machine.hart.context args = .ok value ∧
    d.pool.roster.free = number :: free ∧
    d'.pool.roster = ⟨⟨number, args, value⟩ :: d.pool.roster.active, free⟩ ∧
    d' = { d with pool := d'.pool, out := d'.out }
  | .delete => ∃ word number, words args = [word] ∧ natBelow? (1 <<< 64) word = some number ∧
    number ∈ d.pool.roster.numbers ∧ d'.pool.roster = d.pool.roster.drop number ∧
    d' = { d with pool := d'.pool }
  | .resume | .quit | .stepInstructions => True

theorem on_andThen_eq_ok {action : Session α} {y : β} {r : Except Error β}
    (h : (do let _ ← action; return y).on d = .ok (r, d')) (hr : r.isOk = true) :
    ∃ x, action.on d = .ok (.ok x, d') := by
  rcases on_bind_eq_ok h with ⟨x, d₁, hfirst, h⟩ | ⟨e, -, rfl⟩
  · obtain ⟨-, rfl⟩ := Prod.mk.inj (Except.ok.inj h)
    exact ⟨x, hfirst⟩
  · cases hr

theorem evaluate_eq_ok {value : Word} (h : (evaluate args).on d = .ok (.ok value, d')) :
    Expr.evaluate d.machine.hart.context args = .ok value ∧ d' = d := by
  rw [evaluate, on_get_bind] at h
  cases hv : Expr.evaluate d.machine.hart.context args with
  | error e =>
    rw [hv] at h
    cases (Prod.mk.inj (Except.ok.inj h)).1
  | ok v =>
    rw [hv] at h
    obtain ⟨hr, rfl⟩ := Prod.mk.inj (Except.ok.inj h)
    exact ⟨congrArg _ (Except.ok.inj hr), rfl⟩

theorem singleWord_eq_ok {word : String} (h : (singleWord args).on d = .ok (.ok word, d')) :
    words args = [word] ∧ d' = d := by
  unfold singleWord at h
  split at h
  · cases (Prod.mk.inj (Except.ok.inj h)).1
  · next hwords =>
    obtain ⟨hr, rfl⟩ := Prod.mk.inj (Except.ok.inj h)
    exact ⟨Except.ok.inj hr ▸ hwords, rfl⟩
  · cases (Prod.mk.inj (Except.ok.inj h)).1

theorem print_eq_ok (hroom : d.out.room? = none) (h : (print args).on d = .ok (.ok (), d')) :
    Accomplished args d d' .print := by
  rcases on_bind_eq_ok h with ⟨value, d₁, hevaluate, hrest⟩ | ⟨e, -, hr⟩
  · obtain ⟨hvalue, rfl⟩ := evaluate_eq_ok hevaluate
    have hwrite : (writeLine s!"${decimal d₁.printed} = {decimal value.toNat}").on d₁ =
        .ok (.ok (), { d₁ with out := d₁.out.append (valueLine d₁.printed value) }) :=
      Prints.write hroom _
    rw [on_get_bind] at hrest
    dsimp only at hrest
    rw [on_bind_of_ok _ hwrite, on_liftM_bind] at hrest
    obtain ⟨printed, hsucc, hrest⟩ := bind_eq_ok hrest
    obtain ⟨-, rfl⟩ := Prod.mk.inj (Except.ok.inj hrest)
    refine ⟨value, hvalue, ?_⟩
    rw [(Checked.succ_eq_ok hsucc).1]
  · cases hr

theorem watch_eq_ok (hd : d.Laid) (h : (watch args).on d = .ok (.ok (), d')) :
    Accomplished args d d' .watch := by
  obtain ⟨as, fs, hl⟩ := hd
  rw [watch, on_get_bind] at h
  have hroster := hl.map_watch d.machine.hart.context args
  cases hw : d.pool.watch d.machine.hart.context args with
  | error e =>
    rw [hw] at h
    cases (Prod.mk.inj (Except.ok.inj h)).1
  | ok taken =>
    rw [hw] at h hroster
    obtain ⟨value, free, hvalue, hfree, htaken⟩ := Roster.watch_eq_ok hroster.symm
    have hd' := Reads.write _ h
    have hpool : d'.pool = taken.2 := by rw [hd']; rfl
    refine ⟨_, free, value, hvalue, hfree, hpool ▸ htaken, ?_⟩
    rw [hpool]
    exact hd'

theorem deleteNumber_eq_ok {number : Nat} (hd : d.Laid)
    (h : (deleteNumber number).on d = .ok (.ok (), d')) :
    number ∈ d.pool.roster.numbers ∧ d'.pool.roster = d.pool.roster.drop number ∧
      d' = { d with pool := d'.pool } := by
  obtain ⟨as, fs, hl⟩ := hd
  rw [deleteNumber, on_get_bind, on_liftM_bind] at h
  obtain ⟨⟨result, pool⟩, hdelete, h⟩ := bind_eq_ok h
  cases result with
  | error e => cases (Prod.mk.inj (Except.ok.inj h)).1
  | ok u =>
    obtain ⟨-, rfl⟩ := Prod.mk.inj (Except.ok.inj h)
    have hafter : d.pool.after (.delete number) = .ok pool := by
      rw [WatchpointPool.after, hdelete]
      rfl
    obtain ⟨hreply, hroster⟩ := hl.roster_after hafter
    rw [WatchpointPool.reply, hdelete, Roster.perform] at hreply
    rw [Roster.perform] at hroster
    by_cases hn : number ∈ d.pool.roster.numbers
    · rw [if_pos hn] at hroster
      exact ⟨hn, hroster, rfl⟩
    · rw [if_neg hn] at hreply
      cases Except.ok.inj hreply

theorem delete_eq_ok (hd : d.Laid) (h : (delete args).on d = .ok (.ok (), d')) :
    Accomplished args d d' .delete := by
  unfold delete at h
  rcases on_bind_eq_ok h with ⟨word, d₁, hword, hrest⟩ | ⟨e, -, hr⟩
  · obtain ⟨hwords, rfl⟩ := singleWord_eq_ok hword
    cases hnumber : natBelow? (1 <<< 64) word with
    | none =>
      simp only [hnumber] at hrest
      cases (Prod.mk.inj (Except.ok.inj hrest)).1
    | some number =>
      simp only [hnumber] at hrest
      exact ⟨word, number, hwords, hnumber, deleteNumber_eq_ok hd hrest⟩
  · cases hr

theorem perform_accomplished {c : Command} {r : Except Error Flow} (hd : d.Laid)
    (hroom : d.out.room? = none) (h : (perform args c).on d = .ok (r, d')) (hr : r.isOk = true) :
    Accomplished args d d' c := by
  cases c with
  | help =>
    obtain ⟨u, h⟩ := on_andThen_eq_ok h hr
    exact reads_sequential.help args h
  | info =>
    obtain ⟨u, h⟩ := on_andThen_eq_ok h hr
    exact reads_sequential.info args h
  | examine =>
    obtain ⟨u, h⟩ := on_andThen_eq_ok h hr
    exact reads_sequential.examine args h
  | print =>
    obtain ⟨u, h⟩ := on_andThen_eq_ok h hr
    exact print_eq_ok hroom h
  | watch =>
    obtain ⟨u, h⟩ := on_andThen_eq_ok h hr
    exact watch_eq_ok hd h
  | delete =>
    obtain ⟨u, h⟩ := on_andThen_eq_ok h hr
    exact delete_eq_ok hd h
  | resume | quit | stepInstructions => exact trivial

/-! ### Numbers of printed values -/

/-- An action that leaves the number of the next printed value as it is. -/
def Counts (action : Session α) : Prop :=
  ∀ ⦃d r d'⦄, action.on d = .ok (r, d') → d'.printed = d.printed

namespace Counts

theorem of_reads {action : Session α} (ha : Reads action) : Counts action := by
  intro d r d' h
  rw [ha h]
  rfl

theorem update {f : Debugger → Debugger} (hf : ∀ d, (f d).printed = d.printed) :
    Counts (modify f : Session PUnit) := by
  intro d r d' h
  obtain ⟨-, rfl⟩ := Prod.mk.inj (Except.ok.inj h)
  exact hf d

theorem bind {action : Session α} {next : α → Session β} (ha : Counts action)
    (hn : ∀ x, Counts (next x)) : Counts (action >>= next) := by
  intro d r d' h
  rcases on_bind_eq_ok h with ⟨x, d₁, hfirst, h⟩ | ⟨e, hfirst, -⟩
  · exact (hn x h).trans (ha hfirst)
  · exact ha hfirst

theorem observe {next : Debugger → Session β} (hn : ∀ d, Counts (next d)) :
    Counts (get >>= next) :=
  fun d _ _ h => hn d h

end Counts

theorem counts_sequential : Sequential Counts where
  pure := fun _ => .of_reads (.pure _)
  throw := fun _ => .of_reads (.throw _)
  liftM := fun _ => .of_reads (.liftM _)
  bind := .bind
  observe := fun _ => .observe
  write := fun _ => .of_reads (.write _)

theorem gather_counts (budget : Budget) : Counts (gather budget) := by
  intro d r d' h
  rw [on_gather] at h
  obtain ⟨x, -, h⟩ := bind_eq_ok h
  obtain ⟨-, rfl⟩ := Prod.mk.inj (Except.ok.inj h)
  rfl

theorem run_counts (budget : Budget) : Counts (run budget) :=
  counts_sequential.run (gather_counts budget)

theorem perform_counts {c : Command} (hc : c ≠ .print) (args : String) :
    Counts (perform args c) := by
  have hpool : ∀ pool, Counts (modify fun d => { d with pool } : Session PUnit) :=
    fun pool => .update fun _ => rfl
  have hdelete : ∀ number, Counts (deleteNumber number) := counts_sequential.deleteNumber hpool
  cases c with
  | help => exact .bind (counts_sequential.help args) fun _ => counts_sequential.pure _
  | resume => exact .bind (run_counts _) fun _ => counts_sequential.pure _
  | quit => exact .bind (.update fun _ => rfl) fun _ => counts_sequential.pure _
  | stepInstructions =>
    exact .bind (counts_sequential.stepInstructions run_counts args) fun _ =>
      counts_sequential.pure _
  | info => exact .bind (counts_sequential.info args) fun _ => counts_sequential.pure _
  | examine => exact .bind (counts_sequential.examine args) fun _ => counts_sequential.pure _
  | print => exact absurd rfl hc
  | watch => exact .bind (counts_sequential.watch hpool args) fun _ => counts_sequential.pure _
  | delete => exact .bind (counts_sequential.delete hdelete args) fun _ => counts_sequential.pure _

def prints (line : String) (r : Except Error Flow) : Bool :=
  command? line = some .print && r.isOk

theorem execute_printed {r : Except Error Flow} (hd : d.Laid) (hroom : d.out.room? = none)
    (h : (execute line).on d = .ok (r, d')) :
    d'.printed = d.printed + if prints line r then 1 else 0 := by
  cases hc : command? line with
  | none =>
    rw [execute_reads hc h, prints, hc]
    rfl
  | some c =>
    rw [execute_of_command? hc] at h
    by_cases hprint : c = .print
    · subst hprint
      cases r with
      | ok flow =>
        obtain ⟨value, -, hd'⟩ := perform_accomplished hd hroom h rfl
        rw [hd', prints, hc]
        rfl
      | error e =>
        have hcareful : Careful (fun _ => True) (perform (arguments line) .print) :=
          .andThen (.print _) _
        rw [hcareful hd h trivial, prints, hc]
        rfl
    · have hnot : prints line r = false := by simp [prints, hc, hprint]
      rw [perform_counts hprint _ h, hnot]
      rfl

theorem execute_prints {r : Except Error Flow} (hd : d.Laid) (hroom : d.out.room? = none)
    (h : (execute line).on d = .ok (r, d')) (hp : prints line r = true) :
    ∃ value, d'.out = d.out.append (valueLine d.printed value) := by
  obtain ⟨hc, hr⟩ : command? line = some .print ∧ r.isOk = true := by simpa [prints] using hp
  rw [execute_of_command? hc] at h
  obtain ⟨value, -, hd'⟩ := perform_accomplished hd hroom h hr
  exact ⟨value, by rw [hd']⟩

def printedAnswers (lines : List String) (answers : List Answer) : List Answer :=
  ((lines.zip answers).filter fun x => prints x.1 x.2.result).map Prod.snd

theorem printedAnswers_cons (line : String) (lines : List String) (a : Answer)
    (answers : List Answer) :
    printedAnswers (line :: lines) (a :: answers) =
      (if prints line a.result then [a] else []) ++ printedAnswers lines answers := by
  cases hp : prints line a.result <;> simp [printedAnswers, hp]

theorem answerAll_numbered {lines : List String} {answers : List Answer} {last : Debugger}
    (hd : d.Laid) (h : answerAll lines d = .ok (answers, last)) {k : Nat} {a : Answer}
    (ha : (printedAnswers lines answers)[k]? = some a) :
    ∃ value, a.text = (valueLine (d.printed + k) value).toUTF8 := by
  induction lines generalizing d answers last k with
  | nil => cases ha
  | cons line lines ih =>
    obtain ⟨⟨r, d₁⟩, hexecute, h⟩ := bind_eq_ok h
    obtain ⟨⟨answers₁, last₁⟩, hrest, h⟩ := bind_eq_ok h
    obtain ⟨rfl, rfl⟩ := Prod.mk.inj (Except.ok.inj h)
    have hinvariant : Invariant (fun _ => True) Laid := laid_invariant
    have hstart : (d.onto (.empty none)).Laid := hd
    have hd₁ : d₁.Laid := hinvariant.execute line hstart hexecute fun _ _ => trivial
    have hroom : (d.onto (.empty none)).out.room? = none := rfl
    have hprinted := execute_printed hstart hroom hexecute
    change d₁.printed = d.printed + _ at hprinted
    rw [printedAnswers_cons] at ha
    -- a line that prints gives the first of the answers counted, any other is not among them
    cases hp : prints line r with
    | false =>
      rw [if_neg (by simp [hp]), List.nil_append] at ha
      obtain ⟨value, hvalue⟩ := ih hd₁ hrest ha
      rw [hprinted, hp] at hvalue
      exact ⟨value, hvalue⟩
    | true =>
      rw [if_pos hp] at ha
      cases k with
      | zero =>
        obtain rfl := Option.some.inj ha
        obtain ⟨value, hout⟩ := execute_prints hstart hroom hexecute hp
        refine ⟨value, ?_⟩
        rw [hout]
        exact ByteArray.empty_append
      | succ k =>
        obtain ⟨value, hvalue⟩ := ih hd₁ hrest ha
        have hnumber : d₁.printed + k = d.printed + (k + 1) := by
          rw [hprinted, if_pos hp]
          omega
        exact ⟨value, hnumber ▸ hvalue⟩

/-- A line that is turned down leaves all but the output as it was. One that succeeds and neither
runs the program nor leaves does what its command is for, and the values that a session prints are
numbered from the next number on. -/
theorem commands_atomic (hd : Attained d) (hroom : d.out.room? = none) :
    (∀ line e d', (execute line).on d = .ok (.error e, d') → TurnsDown e (command? line) →
      d' = d.onto d'.out) ∧
    (∀ line c r d', (execute line).on d = .ok (r, d') → command? line = some c → r.isOk = true →
      Accomplished (arguments line) d d' c) ∧
    (d.batch = false → ∀ input r d', (session input).on d = .ok (r, d') →
      ∃ lines answers last, lines = upToLeave (decoded (Text.lines input)) ∧
        answerAll lines d = .ok (answers, last) ∧
        d'.out.bytes = d.out.bytes ++ (transcript answers ++
          lastPrompt (decoded (Text.lines input))) ∧
        ∀ k a, (printedAnswers lines answers)[k]? = some a →
          ∃ value, a.text = (valueLine (d.printed + k) value).toUTF8) := by
  have hlaid := hd.laid
  refine ⟨fun line e d' h he => execute_turned_down hlaid h he, fun line c r d' h hc hr => ?_,
    fun hbatch input r d' h => ?_⟩
  · rw [execute_of_command? hc] at h
    exact perform_accomplished hlaid hroom h hr
  · rw [session_eq input hbatch hroom] at h
    obtain ⟨⟨answers, last⟩, hanswers, h⟩ := bind_eq_ok h
    obtain ⟨-, rfl⟩ := Prod.mk.inj (Except.ok.inj h)
    refine ⟨_, answers, last, rfl, hanswers, ?_, fun k a ha => answerAll_numbered hlaid hanswers ha⟩
    exact congrArg Sink.bytes (Sink.after_of_no_limit hroom _)

theorem commands_atomic_watching :
    ∃ d refused watched : Debugger, Attained d ∧ d.out.room? = none ∧ d.printed = 0 ∧
      (execute "w 1/$a0").on d =
        .ok (.error (.watchpoint (.expression .divisionByZero)), refused) ∧
      refused = d.onto refused.out ∧
      (execute "\tw  $a0 ").on d = .ok (.ok .go, watched) ∧ Accomplished "$a0" d watched .watch ∧
      ∃ answers last, answerAll ["p 7", "p 1/0", "p 8"] d = .ok (answers, last) ∧
        ∀ k a, (printedAnswers ["p 7", "p 1/0", "p 8"] answers)[k]? = some a →
          ∃ value, a.text = (valueLine k value).toUTF8 := by
  have hcalls : (do
      let d ← createWith [0x00100513]
      let _ ← (execute "w 1/$a0").on d
      let watched ← (execute "\tw  $a0 ").on d
      let _ ← (session "p 7\np 1/0\np 8".toUTF8.toList).on d
      return (d.out.room?, d.batch, d.printed, failures (execute "w 1/$a0") d,
        watched.1.toOption) : Except Crash _).toOption =
      some (none, false, 0, [.watchpoint (.expression .divisionByZero)], some .go) := by
    decide +kernel
  have hrefuses : command? "w 1/$a0" = some .watch := by decide +kernel
  have hwatches : command? "\tw  $a0 " = some .watch := by decide +kernel
  have hargs : arguments "\tw  $a0 " = "$a0" := by decide +kernel
  have hlines : upToLeave (decoded (Text.lines "p 7\np 1/0\np 8".toUTF8.toList)) =
      ["p 7", "p 1/0", "p 8"] := by
    decide +kernel
  obtain ⟨d, hnew, h⟩ := bind_eq_ok (eq_ok_of_toOption hcalls)
  obtain ⟨⟨r₁, refused⟩, hrefused, h⟩ := bind_eq_ok h
  obtain ⟨⟨r₂, watched⟩, hwatched, h⟩ := bind_eq_ok h
  obtain ⟨⟨r₃, held⟩, hheld, h⟩ := bind_eq_ok h
  simp only [Prod.mk.injEq, Except.ok.injEq, pure, Except.pure] at h
  obtain ⟨hroom, hbatch, hprinted, herror, hflow⟩ := h
  obtain rfl : r₁ = .error (.watchpoint (.expression .divisionByZero)) := by
    cases r₁ with
    | ok flow => cases (failures_of_ok hrefused).symm.trans herror
    | error e =>
      have he := mem_failures hrefused
      rw [herror] at he
      rw [List.mem_singleton.mp he]
  obtain rfl : r₂ = .ok .go := eq_ok_of_toOption hflow
  have hd : Attained d := .called (reachable_createWith hnew)
  obtain ⟨hrefusing, haccomplishes, hsession⟩ := commands_atomic hd hroom
  obtain ⟨lines, answers, last, rfl, hanswers, -, hnumbers⟩ := hsession hbatch _ _ _ hheld
  rw [hlines] at hanswers hnumbers
  simp only [hprinted, Nat.zero_add] at hnumbers
  exact ⟨d, refused, watched, hd, hroom, hprinted, hrefused,
    hrefusing _ _ _ hrefused (.inl hrefuses), hwatched,
    hargs ▸ haccomplishes _ _ _ _ hwatched hwatches rfl, answers, last, hanswers, hnumbers⟩

end Hartwatch.Debugger
