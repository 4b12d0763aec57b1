import Hartwatch.Proofs.Debugger.Lockstep
import Hartwatch.Proofs.Debugger.Reach

/-! Sessions as transcripts. On an output without limit a session executes its lines one after the
other, up to the first one that leaves, and writes down what they answer behind their prompts. -/

namespace Hartwatch.Debugger

open Session Machine

variable {α β : Type} {d d' : Debugger}

/-! ### Errors on an output without limit -/

/-- On an output without limit, an action stays on such an output and fails with no fatal error. -/
def Recovers (action : Session α) : Prop :=
  ∀ ⦃d r d'⦄, d.out.room? = none → action.on d = .ok (r, d') →
    d'.out.room? = none ∧ ∀ e, r = .error e → e.isFatal = false

namespace Recovers

theorem of_onto {action : Session α} {r : Except Error α} {f : Debugger → Debugger}
    (hon : ∀ d, action.on d = .ok (r, f d)) (hf : ∀ d, (f d).out = d.out)
    (hr : ∀ e, r = .error e → e.isFatal = false) : Recovers action := by
  intro d r' d' hroom h
  obtain ⟨rfl, rfl⟩ := Prod.mk.inj (Except.ok.inj ((hon d).symm.trans h))
  exact ⟨(congrArg _ (hf d)).trans hroom, hr⟩

theorem pure (x : α) : Recovers (Pure.pure x : Session α) :=
  .of_onto (f := id) (fun _ => rfl) (fun _ => rfl) fun _ h => nomatch h

theorem throw {e : Error} (he : e.isFatal = false) :
    Recovers (MonadExcept.throw e : Session α) :=
  .of_onto (f := id) (fun _ => rfl) (fun _ => rfl) fun _ h => Except.error.inj h ▸ he

theorem update {f : Debugger → Debugger} (hf : ∀ d, (f d).out = d.out) :
    Recovers (modify f : Session PUnit) :=
  .of_onto (fun _ => rfl) hf fun _ h => nomatch h

theorem liftM (x : Except Crash α) : Recovers (MonadLiftT.monadLift x : Session α) := by
  cases x with
  | ok x => exact pure x
  | error c => exact fun _ _ _ _ h => nomatch h

theorem bind {action : Session α} {next : α → Session β} (ha : Recovers action)
    (hn : ∀ x, Recovers (next x)) : Recovers (action >>= next) := by
  intro d r d' hroom h
  rcases on_bind_eq_ok h with ⟨x, d₁, hfirst, h⟩ | ⟨e, hfirst, rfl⟩
  · exact hn x (ha hroom hfirst).1 h
  · obtain ⟨hroom', he⟩ := ha hroom hfirst
    exact ⟨hroom', fun e' he' => he e' (by simpa using he')⟩

theorem observe {next : Debugger → Session β} (hn : ∀ d, Recovers (next d)) :
    Recovers (get >>= next) :=
  fun d _ _ hroom h => hn d hroom h

theorem write (text : String) : Recovers (write text) := by
  intro d r d' hroom h
  rw [on_write_of_no_limit hroom] at h
  obtain ⟨rfl, rfl⟩ := Prod.mk.inj (Except.ok.inj h)
  exact ⟨room?_of_after hroom rfl, fun e he => nomatch he⟩

end Recovers

theorem recovers_sequential : Sequential Recovers where
  pure := .pure
  throw := .throw
  liftM := .liftM
  bind := .bind
  observe := fun _ => .observe
  write := .write

def Watcher.Unhindered (w : Watcher) : Prop :=
  w.out.room? = none ∧ ∀ e, w.error? = some e → e.isFatal = false

theorem Watcher.Unhindered.watcher {w : Watcher} (hw : w.Unhindered) (echo : Bool) (s : Step)
    (h : Hart) : (watcher echo s h w).2.Unhindered := by
  rw [watcher_of_takes h (Sink.takes_of_no_limit hw.1 _)]
  refine ⟨by rw [Watcher.onto, Sink.after_of_no_limit hw.1], fun e he => ?_⟩
  change (lookAround h w).2.error? = some e at he
  unfold lookAround at he
  dsimp only at he
  split at he
  · obtain rfl := Option.some.inj he
    rfl
  · exact hw.2 e he

theorem Watcher.Unhindered.step {echo : Bool} {m m' : Machine} {w w' : Watcher}
    (hw : w.Unhindered) (hs : Stepped (Debugger.watcher echo) m w m' w') :
    w'.Unhindered := by
  cases hs with
  | completed => exact hw.watcher _ _ _
  | called => exact hw.watcher _ _ _
  | aborted => exact hw

theorem gather_recovers (budget : Budget) : Recovers (gather budget) := by
  intro d r d' hroom h
  cases hd : d.machine.status.hasEnded with
  | true =>
    obtain ⟨rfl, rfl⟩ := Prod.mk.inj (Except.ok.inj ((on_gather_of_ended hd).symm.trans h))
    exact ⟨hroom, by simp⟩
  | false =>
    rw [on_gather_of_not_ended hd, resume, if_pos rfl] at h
    obtain ⟨⟨m, w⟩, hloop, h⟩ := bind_eq_ok h
    obtain ⟨rfl, rfl⟩ := Prod.mk.inj (Except.ok.inj h)
    have hw : w.Unhindered :=
      loop_invariant (I := fun _ w => w.Unhindered) (fun hw _ hs => hw.step hs)
        ⟨hroom, by simp⟩ rfl hloop
    refine ⟨hw.1, fun e he => ?_⟩
    unfold Watcher.outcome at he
    split at he
    · next herror => exact hw.2 e (herror.trans (congrArg _ (Except.error.inj he)))
    · cases he

theorem recovers_closed : Closed Recovers where
  toSequential := recovers_sequential
  count := fun _ => .update fun _ => rfl
  watch := recovers_sequential.watch fun _ => .update fun _ => rfl
  deleteNumber := recovers_sequential.deleteNumber fun _ => .update fun _ => rfl
  run := fun budget => recovers_sequential.run (gather_recovers budget)

theorem execute_recovers (line : String) : Recovers (execute line) :=
  recovers_closed.execute line fun _ => .update fun _ => rfl

/-! ### Lines and their answers -/

structure Answer where
  result : Except Error Flow
  text : ByteArray

/-- Executes lines one after the other, each on an output of its own. -/
def answerAll : List String → Debugger → Except Crash (List Answer × Debugger)
  | [], d => .ok ([], d)
  | line :: lines, d => do
    let (result, d) ← (execute line).on (d.onto (.empty none))
    let (answers, last) ← answerAll lines d
    return (⟨result, d.out.bytes⟩ :: answers, last)

def upToLeave : List String → List String
  | [] => []
  | line :: lines => line :: if leaves line then [] else upToLeave lines

def complaint : Except Error Flow → ByteArray
  | .ok _ => .empty
  | .error e => (e.message ++ "\n").toUTF8

def transcript : List Answer → ByteArray
  | [] => .empty
  | a :: as => promptText.toUTF8 ++ a.text ++ complaint a.result ++ transcript as

def lastPrompt (lines : List String) : ByteArray :=
  if lines.any leaves then .empty else promptText.toUTF8

def decoded : List (Option String) → List String
  | some line :: lines => line :: decoded lines
  | _ => []

/-- How a conversation ends. A line that is no text ends it badly, unless it was left before. -/
def ending : List (Option String) → Except Error Unit
  | [] => .ok ()
  | none :: _ => .error (.stream .invalidText)
  | some line :: lines => if leaves line then .ok () else ending lines

theorem decoded_map_some (lines : List String) : decoded (lines.map some) = lines := by
  induction lines with
  | nil => rfl
  | cons line lines ih => rw [List.map_cons, decoded, ih]

theorem ending_map_some (lines : List String) : ending (lines.map some) = .ok () := by
  induction lines with
  | nil => rfl
  | cons line lines ih => rw [List.map_cons, ending, ih, ite_self]

def flowOf : Except Error Flow → Flow
  | .ok flow => flow
  | .error _ => .go

theorem on_of_no_limit {action : Session α} (ha : Oblivious action) (hroom : d.out.room? = none) :
    action.on d = action.on (d.onto (.empty none)) >>= fun x =>
      .ok (x.1, x.2.onto (d.out.after x.2.out.bytes)) := by
  have hstart : (d.onto (.empty none)).onto (d.out.after (d.onto (.empty none)).out.bytes) = d :=
    congrArg _ (Sink.after_empty d.out)
  have hfollows := ha.follows (d := d.onto (.empty none)) d.out rfl (Sink.takes_empty _)
  rw [hstart] at hfollows
  generalize action.on (d.onto (.empty none)) = full at hfollows ⊢
  generalize action.on d = here at hfollows ⊢
  cases hfollows with
  | crashed c => rfl
  | taken => rfl
  | refused hlimit => exact absurd hroom hlimit

theorem respond_of_no_limit (line : String) (hroom : d.out.room? = none) :
    (respond line).on d = (execute line).on (d.onto (.empty none)) >>= fun x =>
      .ok (.ok (flowOf x.1), x.2.onto (d.out.after (x.2.out.bytes ++ complaint x.1))) := by
  rw [respond, outcome, on_lift_bind, on_of_no_limit (execute_oblivious line) hroom]
  cases hexecute : (execute line).on (d.onto (.empty none)) with
  | error c => rfl
  | ok x =>
    obtain ⟨r, d₁⟩ := x
    let out := d.out.after d₁.out.bytes
    have hout : out.room? = none := Sink.room?_after hroom _
    have hafter : ∀ text, out.after text = d.out.after (d₁.out.bytes ++ text) :=
      Sink.after_after hroom _
    cases r with
    | ok flow =>
      have hend : out = d.out.after (d₁.out.bytes ++ .empty) := by rw [← hafter, Sink.after_empty]
      exact congrArg (fun out => Except.ok (Except.ok flow, d₁.onto out)) hend
    | error e =>
      have he : e.isFatal = false := (execute_recovers line rfl hexecute).2 e rfl
      have hwrite : (writeLine e.message).on (d₁.onto out) =
          .ok (.ok (), d₁.onto (out.after (e.message ++ "\n").toUTF8)) :=
        on_write_of_no_limit (d := d₁.onto out) hout _
      change Session.on (do
        if e.isFatal then throw e
        writeLine e.message
        return Flow.go) (d₁.onto out) = _
      simp only [he, Bool.false_eq_true, if_false]
      rw [on_bind_of_ok _ hwrite]
      exact congrArg (fun out => Except.ok (Except.ok Flow.go, d₁.onto out)) (hafter _)

theorem answerAll_onto (lines : List String) (d : Debugger) (out : Sink) {γ : Type}
    (close : List Answer → Debugger → γ) (hclose : ∀ as d out, close as (d.onto out) = close as d) :
    (answerAll lines (d.onto out) >>= fun x => .ok (close x.1 x.2)) =
      (answerAll lines d >>= fun x => .ok (close x.1 x.2) : Except Crash γ) := by
  cases lines with
  | nil => exact congrArg Except.ok (hclose [] d out)
  | cons line lines => rfl

theorem converse_cons_of_no_limit (line : String) (rest : List (Option String))
    (hroom : d.out.room? = none) :
    (converse (some line :: rest)).on d = (execute line).on (d.onto (.empty none)) >>= fun x =>
      (if leaves line then pure () else converse rest).on (x.2.onto
        (d.out.after (promptText.toUTF8 ++ x.2.out.bytes ++ complaint x.1))) := by
  let out := d.out.after promptText.toUTF8
  have hout : out.room? = none := Sink.room?_after hroom _
  have hprompt : prompt.on d = .ok (.ok (), d.onto out) := on_write_of_no_limit hroom _
  rw [converse, on_bind_of_ok _ hprompt, on_bind, respond_of_no_limit line hout]
  change (((execute line).on (d.onto (.empty none)) >>= _) >>= _) = _
  cases hexecute : (execute line).on (d.onto (.empty none)) with
  | error c => rfl
  | ok x =>
    obtain ⟨r, d₁⟩ := x
    have hspoken : (d.onto out).out.after (d₁.out.bytes ++ complaint r) =
        d.out.after (promptText.toUTF8 ++ d₁.out.bytes ++ complaint r) := by
      rw [ByteArray.append_assoc]
      exact Sink.after_after hroom _ _
    have hleave := execute_leave_iff hexecute
    simp only [ok_bind, hspoken]
    cases hl : leaves line with
    | true =>
      obtain rfl := hleave.mpr hl
      rfl
    | false =>
      have hgo : flowOf r = .go := by
        cases r with
        | error e => rfl
        | ok flow =>
          cases flow with
          | go => rfl
          | leave => exact absurd (hleave.mp rfl) (by simp [hl])
      rw [hgo]
      rfl

theorem converse_eq (lines : List (Option String)) (hroom : d.out.room? = none) :
    (converse lines).on d = answerAll (upToLeave (decoded lines)) d >>= fun x =>
      .ok (ending lines, x.2.onto
        (d.out.after (transcript x.1 ++ lastPrompt (decoded lines)))) := by
  induction lines generalizing d with
  | nil =>
    refine (on_write_of_no_limit hroom _).trans ?_
    change _ = Except.ok (Except.ok (), d.onto (d.out.after (.empty ++ promptText.toUTF8)))
    rw [ByteArray.empty_append]
  | cons line? lines ih =>
    cases line? with
    | none =>
      have hprompt : prompt.on d = .ok (.ok (), d.onto (d.out.after promptText.toUTF8)) :=
        on_write_of_no_limit hroom _
      rw [converse, on_bind_of_ok _ hprompt]
      change Except.ok (Except.error _, _) = Except.ok (Except.error (Error.stream .invalidText),
        d.onto (d.out.after (.empty ++ promptText.toUTF8)))
      rw [ByteArray.empty_append]
    | some line =>
      rw [converse_cons_of_no_limit line _ hroom, decoded, upToLeave, answerAll]
      cases hexecute : (execute line).on (d.onto (.empty none)) with
      | error c => rfl
      | ok x =>
        obtain ⟨r, d₁⟩ := x
        let spoken := promptText.toUTF8 ++ d₁.out.bytes ++ complaint r
        cases hl : leaves line with
        | true =>
          have hlast : lastPrompt (line :: decoded lines) = .empty := by simp [lastPrompt, hl]
          have hend : ending (some line :: lines) = .ok () := by rw [ending, hl, if_pos rfl]
          change Except.ok (Except.ok (), d₁.onto (d.out.after spoken)) =
            Except.ok (ending (some line :: lines),
              d₁.onto (d.out.after (spoken ++ .empty ++ lastPrompt (line :: decoded lines))))
          rw [hlast, hend, ByteArray.append_empty, ByteArray.append_empty]
        | false =>
          have hlast : lastPrompt (line :: decoded lines) = lastPrompt (decoded lines) := by
            simp [lastPrompt, hl]
          have hend : ending (some line :: lines) = ending lines := by simp [ending, hl]
          have hroom₁ : (d.out.after spoken).room? = none := Sink.room?_after hroom _
          -- the rest is held by the debugger that the line has left, behind what was spoken so far
          change (converse lines).on (d₁.onto (d.out.after spoken)) = _
          rw [ih hroom₁]
          refine (answerAll_onto (upToLeave (decoded lines)) d₁ (d.out.after spoken)
            (fun as last => (ending lines, last.onto ((d.out.after spoken).after (transcript as ++
              lastPrompt (decoded lines))))) fun _ _ _ => rfl).trans ?_
          rw [hlast, hend]
          change _ = (answerAll (upToLeave (decoded lines)) d₁ >>= _) >>= _
          cases answerAll (upToLeave (decoded lines)) d₁ with
          | error c => rfl
          | ok y =>
            obtain ⟨as, last⟩ := y
            have hafter : (d.out.after spoken).after (transcript as ++ lastPrompt (decoded lines)) =
                d.out.after (spoken ++ transcript as ++ lastPrompt (decoded lines)) := by
              rw [Sink.after_after hroom, ← ByteArray.append_assoc]
            exact congrArg (fun out => Except.ok (ending lines, last.onto out)) hafter

theorem converse_of_no_limit (lines : List String) (hroom : d.out.room? = none) :
    (converse (lines.map some)).on d = answerAll (upToLeave lines) d >>= fun x =>
      .ok (.ok (), x.2.onto (d.out.after (transcript x.1 ++ lastPrompt lines))) := by
  rw [converse_eq _ hroom, decoded_map_some, ending_map_some]

theorem session_eq (input : List UInt8) (hbatch : d.batch = false) (hroom : d.out.room? = none) :
    (session input).on d = do
      let (answers, last) ← answerAll (upToLeave (decoded (Text.lines input))) d
      return (ending (Text.lines input), last.onto
        (d.out.after (transcript answers ++ lastPrompt (decoded (Text.lines input))))) := by
  rw [session, on_get_bind, if_neg (by simp [hbatch]), converse_eq _ hroom]
  rfl

/-- A session that reads commands is what its lines answer one after the other. -/
theorem session_eq_answers {input : List UInt8} {lines : List String} (hbatch : d.batch = false)
    (hroom : d.out.room? = none) (hlines : Text.lines input = lines.map some) :
    (∀ line d₀ r d₁, (execute line).on d₀ = .ok (r, d₁) →
      (r = .ok .leave ↔ leaves line = true)) ∧
    (session input).on d = do
      let (answers, last) ← answerAll (upToLeave lines) d
      return (.ok (), last.onto ⟨d.out.bytes ++ transcript answers ++ lastPrompt lines, none⟩) := by
  refine ⟨fun line d₀ r d₁ h => execute_leave_iff h, ?_⟩
  rw [session, on_get_bind, if_neg (by simp [hbatch]), hlines, converse_of_no_limit lines hroom]
  simp only [Sink.after_of_no_limit hroom, ByteArray.append_assoc]
  rfl

theorem session_eq_answers_left :
    ∃ d last : Debugger, d.batch = false ∧ d.out.room? = none ∧
      Text.lines "p 1\r\nrun\n\nq 1\np 2".toUTF8.toList =
        ["p 1", "run", "", "q 1", "p 2"].map some ∧
      (session "p 1\r\nrun\n\nq 1\np 2".toUTF8.toList).on d = .ok (.ok (), last) ∧
      last.out.bytes =
        "(rvdb) $0 = 1\n(rvdb) Unknown command 'run'\n(rvdb) (rvdb) ".toUTF8 ∧
      last.machine.status = .quit := by
  let lines := ["p 1", "run", "", "q 1", "p 2"]
  have hcalls : (do
      let d ← createWith [0x00100513]
      let (answers, last) ← answerAll (upToLeave lines) d
      return (d.batch, d.out.room?, d.out.bytes ++ transcript answers ++ lastPrompt lines,
        last.machine.status) : Except Crash _).toOption =
      some (false, none,
        "(rvdb) $0 = 1\n(rvdb) Unknown command 'run'\n(rvdb) (rvdb) ".toUTF8, .quit) := by
    decide +kernel
  have hlines : Text.lines "p 1\r\nrun\n\nq 1\np 2".toUTF8.toList = lines.map some := by
    decide +kernel
  obtain ⟨d, -, h⟩ := bind_eq_ok (eq_ok_of_toOption hcalls)
  obtain ⟨⟨answers, last⟩, hanswers, h⟩ := bind_eq_ok h
  simp only [Prod.mk.injEq, Except.ok.injEq, pure, Except.pure] at h
  obtain ⟨hbatch, hroom, htext, hstatus⟩ := h
  obtain ⟨-, hsession⟩ := session_eq_answers hbatch hroom hlines
  rw [hanswers] at hsession
  exact ⟨d, _, hbatch, hroom, hlines, hsession, htext, hstatus⟩

end Hartwatch.Debugger
