import Hartwatch.Proofs.Debugger.Lockstep
import Hartwatch.Proofs.Debugger.Reach
import Hartwatch.Proofs.Debugger.Reads

/-! Sessions on an output with room for a limited number of bytes. Such a session is the one on an
output without limit, cut where the room ends: what was written is kept up to there, and no command
is executed any more. -/

namespace Hartwatch.Debugger

open Session

variable {α γ : Type} {d d' : Debugger} {s : Sink}

theorem respond_oblivious (line : String) : Oblivious (respond line) := by
  refine .proceed (execute_oblivious line) (fun r => ?_) rfl
  cases r with
  | ok flow => exact .pure flow
  | error e =>
    have hreport : Oblivious (do writeLine e.message; return Flow.go) :=
      .bind (.write _) fun _ => .pure _
    dsimp only
    split
    · exact .bind (.throw e) fun _ => hreport
    · exact hreport

theorem converse_oblivious (lines : List (Option String)) : Oblivious (converse lines) := by
  have hprompt : Oblivious prompt := .write _
  induction lines with
  | nil => exact hprompt
  | cons line? lines ih =>
    cases line? with
    | none => exact .bind hprompt fun _ => .throw _
    | some line =>
      refine .bind hprompt fun _ => .bind (respond_oblivious line) fun flow => ?_
      cases flow with
      | leave => exact .pure ()
      | go => exact ih

theorem session_oblivious (input : List UInt8) : Oblivious (session input) := by
  refine .observe (fun _ _ => rfl) fun d => ?_
  split
  · exact .bind (run_oblivious _) fun _ => .pure _
  · exact converse_oblivious _

/-! ### Executed commands -/

def whenWell (next : α → Debugger → List γ) : Except Crash (Except Error α × Debugger) → List γ
  | .ok (.ok x, d) => next x d
  | _ => []

/-- The lines that a conversation executes, each with the debugger that executes it. -/
def commands : List (Option String) → Debugger → List (String × Debugger)
  | some line :: lines, d =>
    whenWell (fun _ d => (line, d) :: whenWell (fun flow d =>
      if flow = .leave then [] else commands lines d) ((respond line).on d)) (prompt.on d)
  | _, _ => []

def sessionCommands (input : List UInt8) (d : Debugger) : List (String × Debugger) :=
  if d.batch then [] else commands (Text.lines input) d

/-- A debugger is what the last of some commands leaves, up to the output. -/
def LeftBy (cs : List (String × Debugger)) (d d' : Debugger) : Prop :=
  cs = [] ∧ d' = d.onto d'.out ∨
    ∃ line d₀ r d₁, cs.getLast? = some (line, d₀) ∧ (execute line).on d₀ = .ok (r, d₁) ∧
      d' = d₁.onto d'.out

theorem LeftBy.cons {cs : List (String × Debugger)} {line : String} {d₀ d₁ d₂ : Debugger}
    {r : Except Error Flow} (h : (execute line).on d = .ok (r, d₁)) (hout : d₂ = d₁.onto d₂.out)
    (hcs : LeftBy cs d₂ d') : LeftBy ((line, d) :: cs) d₀ d' := by
  rcases hcs with ⟨rfl, hd'⟩ | ⟨last, d₃, r₃, d₄, hlast, hexecute, hd'⟩
  · rw [hout] at hd'
    exact .inr ⟨line, d, r, d₁, rfl, h, hd'⟩
  · exact .inr ⟨last, d₃, r₃, d₄, by rw [List.getLast?_cons, hlast]; rfl, hexecute, hd'⟩

theorem respond_leaves {line : String} {r : Except Error Flow}
    (h : (respond line).on d = .ok (r, d')) :
    ∃ r₁ d₁, (execute line).on d = .ok (r₁, d₁) ∧ d' = d₁.onto d'.out := by
  rw [respond, outcome, on_lift_bind] at h
  obtain ⟨⟨r₁, d₁⟩, hexecute, h⟩ := bind_eq_ok h
  refine ⟨r₁, d₁, hexecute, ?_⟩
  cases r₁ with
  | ok flow =>
    obtain ⟨-, rfl⟩ := Prod.mk.inj (Except.ok.inj h)
    rfl
  | error e =>
    cases he : e.isFatal with
    | true =>
      simp only [he, if_true] at h
      obtain ⟨-, rfl⟩ := Prod.mk.inj (Except.ok.inj h)
      rfl
    | false =>
      simp only [he, Bool.false_eq_true, if_false] at h
      rcases on_bind_eq_ok h with ⟨u, d₂, hwrite, h⟩ | ⟨e', hwrite, -⟩
      · obtain ⟨-, rfl⟩ := Prod.mk.inj (Except.ok.inj h)
        exact Reads.write _ hwrite
      · exact Reads.write _ hwrite

theorem converse_leaves {lines : List (Option String)} {r : Except Error Unit}
    (h : (converse lines).on d = .ok (r, d')) : LeftBy (commands lines d) d d' := by
  induction lines generalizing d with
  | nil => exact .inl ⟨rfl, Reads.write _ h⟩
  | cons line? lines ih =>
    cases line? with
    | none =>
      refine .inl ⟨rfl, ?_⟩
      rcases on_bind_eq_ok h with ⟨u, d₁, hprompt, h⟩ | ⟨e, hprompt, -⟩
      · obtain ⟨-, rfl⟩ := Prod.mk.inj (Except.ok.inj h)
        exact Reads.write _ hprompt
      · exact Reads.write _ hprompt
    | some line =>
      unfold commands
      rcases on_bind_eq_ok h with ⟨u, d₁, hprompt, h⟩ | ⟨e, hprompt, -⟩
      · have hd₁ := Reads.write _ hprompt
        rcases on_bind_eq_ok h with ⟨flow, d₂, hrespond, h⟩ | ⟨e, hrespond, -⟩
        · obtain ⟨r₃, d₃, hexecute, hout⟩ := respond_leaves hrespond
          cases flow with
          | leave =>
            obtain ⟨-, rfl⟩ := Prod.mk.inj (Except.ok.inj h)
            simp only [hprompt, whenWell, hrespond]
            exact .cons hexecute hout (.inl ⟨rfl, rfl⟩)
          | go =>
            simp only [hprompt, whenWell, hrespond]
            exact .cons hexecute hout (ih h)
        · obtain ⟨r₃, d₃, hexecute, hout⟩ := respond_leaves hrespond
          simp only [hprompt, whenWell, hrespond]
          exact .cons hexecute hout (.inl ⟨rfl, rfl⟩)
      · simp only [hprompt, whenWell]
        exact .inl ⟨rfl, Reads.write _ hprompt⟩

/-- The commands that start before a given output is full, on that output. -/
def within (s : Sink) (cs : List (String × Debugger)) : List (String × Debugger) :=
  (cs.takeWhile fun c => s.takes c.2.out.bytes).map fun c => (c.1, c.2.onto (s.after c.2.out.bytes))

theorem within_cons_of_takes {c : String × Debugger} {cs : List (String × Debugger)}
    (h : s.takes c.2.out.bytes = true) :
    within s (c :: cs) = (c.1, c.2.onto (s.after c.2.out.bytes)) :: within s cs := by
  simp [within, h]

theorem within_cons_of_not {c : String × Debugger} {cs : List (String × Debugger)}
    (h : s.takes c.2.out.bytes = false) : within s (c :: cs) = [] := by
  simp [within, h]

theorem Follows.whenWell {full cut : Except Crash (Except Error α × Debugger)}
    {next : α → Debugger → List (String × Debugger)} (h : Follows s full cut)
    (htaken : ∀ x d, full = .ok (.ok x, d) → s.takes d.out.bytes = true →
      next x (d.onto (s.after d.out.bytes)) = within s (next x d))
    (hrefused : ∀ x d, full = .ok (.ok x, d) → s.takes d.out.bytes = false →
      within s (next x d) = []) :
    whenWell next cut = within s (whenWell next full) := by
  cases h with
  | crashed c => rfl
  | @taken r d htakes =>
    cases r with
    | error e => rfl
    | ok x => exact htaken x d rfl htakes
  | @refused _ d' _ hnot =>
    cases full with
    | error c => rfl
    | ok x =>
      obtain ⟨r, d⟩ := x
      cases r with
      | error e => rfl
      | ok x => exact (hrefused x d rfl (hnot _ d rfl).1).symm

theorem within_commands_of_not {lines : List (Option String)} (hroom : d.out.room? = none)
    (hnot : s.takes d.out.bytes = false) : within s (commands lines d) = [] := by
  cases lines with
  | nil => rfl
  | cons line? lines =>
    cases line? with
    | none => rfl
    | some line =>
      have hprompt : prompt.on d = .ok (.ok (), d.onto (d.out.after promptText.toUTF8)) :=
        on_write_of_no_limit hroom _
      have hbytes : (d.onto (d.out.after promptText.toUTF8)).out.bytes =
          d.out.bytes ++ promptText.toUTF8 := bytes_of_after hroom rfl
      unfold commands
      rw [hprompt]
      refine within_cons_of_not ?_
      rw [hbytes, Sink.takes_append, hnot, Bool.false_and]

theorem commands_within {lines : List (Option String)} (hroom : d.out.room? = none)
    (htakes : s.takes d.out.bytes = true) :
    commands lines (d.onto (s.after d.out.bytes)) = within s (commands lines d) := by
  have hprompt : Oblivious prompt := .write _
  induction lines generalizing d with
  | nil => rfl
  | cons line? lines ih =>
    cases line? with
    | none => rfl
    | some line =>
      unfold commands
      -- once with the prompt and once with the answer, either output may be the one to go on
      refine (hprompt.follows s hroom htakes).whenWell (fun _ d₁ h₁ htakes₁ => ?_)
        fun _ d₁ _ hnot => within_cons_of_not hnot
      obtain ⟨t, ht⟩ := hprompt.appends hroom h₁
      have hroom₁ := room?_of_after hroom ht
      rw [within_cons_of_takes htakes₁]
      refine congrArg _ (((respond_oblivious line).follows s hroom₁ htakes₁).whenWell ?_ ?_)
      · intro flow d₂ h₂ htakes₂
        obtain ⟨u, hu⟩ := (respond_oblivious line).appends hroom₁ h₂
        cases flow with
        | leave => rfl
        | go => exact ih (room?_of_after hroom₁ hu) htakes₂
      · intro flow d₂ h₂ hnot
        obtain ⟨u, hu⟩ := (respond_oblivious line).appends hroom₁ h₂
        cases flow with
        | leave => rfl
        | go => exact within_commands_of_not (room?_of_after hroom₁ hu) hnot

theorem sessionCommands_within (input : List UInt8) (hroom : d.out.room? = none)
    (htakes : s.takes d.out.bytes = true) :
    sessionCommands input (d.onto (s.after d.out.bytes)) = within s (sessionCommands input d) := by
  unfold sessionCommands
  cases hbatch : d.batch with
  | true => exact if_pos hbatch
  | false => exact (if_neg (hbatch ▸ Bool.false_ne_true)).trans (commands_within hroom htakes)

theorem session_leaves {input : List UInt8} {r : Except Error Unit} (hbatch : d.batch = false)
    (h : (session input).on d = .ok (r, d')) : LeftBy (sessionCommands input d) d d' := by
  rw [session, on_get_bind, if_neg (by simp [hbatch])] at h
  rw [sessionCommands, if_neg (by simp [hbatch])]
  exact converse_leaves h

/-- An output with a limit takes as much of a session's text as it has room for. If that is all of
it, nothing else differs. Otherwise the session ends with the error of the output, and no command
is executed that does not start before. -/
theorem session_truncated {input : List UInt8} {r : Except Error Unit} (limit : Nat)
    (h : (session input).on (d.onto (.empty none)) = .ok (r, d')) :
    ∃ r₁ d₁, (session input).on (d.onto (.empty (some limit))) = .ok (r₁, d₁) ∧
      (d'.out.bytes.size ≤ limit →
        r₁ = r ∧ d₁ = d'.onto ⟨d'.out.bytes, some (limit - d'.out.bytes.size)⟩) ∧
      (limit < d'.out.bytes.size →
        r₁ = .error (.stream .outputFull) ∧ d₁.out.bytes = d'.out.bytes.extract 0 limit) ∧
      sessionCommands input (d.onto (.empty (some limit))) =
        within (.empty (some limit)) (sessionCommands input (d.onto (.empty none))) ∧
      (d.batch = false → LeftBy (sessionCommands input (d.onto (.empty (some limit)))) d d₁) := by
  have hroom : (d.onto (.empty none)).out.room? = none := rfl
  have hstart : (d.onto (.empty none)).onto ((Sink.empty (some limit)).after
      (d.onto (.empty none)).out.bytes) = d.onto (.empty (some limit)) :=
    congrArg _ (Sink.after_empty _)
  have hcommands := sessionCommands_within input hroom (Sink.takes_empty (.empty (some limit)))
  have hfollows := (session_oblivious input).follows (.empty (some limit)) hroom
    (Sink.takes_empty _)
  rw [hstart] at hcommands hfollows
  rw [h] at hfollows
  generalize hcut : (session input).on (d.onto (.empty (some limit))) = cut at hfollows
  have hleft : ∀ {r₁ d₁}, cut = .ok (r₁, d₁) → d.batch = false →
      LeftBy (sessionCommands input (d.onto (.empty (some limit)))) d d₁ :=
    fun heq hbatch => session_leaves (d := d.onto (.empty (some limit))) hbatch (hcut.trans heq)
  cases hfollows with
  | @taken _ _ htakes =>
    have hfits : d'.out.bytes.size ≤ limit := by simpa [Sink.takes, Sink.empty] using htakes
    have hall : d'.out.bytes.extract 0 limit = d'.out.bytes := Sink.extract_of_size_le hfits
    have hout : (Sink.empty (some limit)).after d'.out.bytes =
        ⟨d'.out.bytes, some (limit - d'.out.bytes.size)⟩ := by
      simp [Sink.after, Sink.kept, Sink.empty, hall]
    refine ⟨_, _, rfl, fun _ => ⟨rfl, by rw [hout]⟩, fun hlt => ?_, hcommands, hleft rfl⟩
    omega
  | @refused _ d₁ _ hrefused =>
    obtain ⟨hnot, hout⟩ := hrefused r d' rfl
    have hlt : limit < d'.out.bytes.size := by simpa [Sink.takes, Sink.empty] using hnot
    refine ⟨_, _, rfl, fun hle => ?_, fun _ => ⟨rfl, ?_⟩, hcommands, hleft rfl⟩
    · omega
    · rw [hout]
      simp [Sink.after, Sink.kept, Sink.empty]

def stepAndPrint : List UInt8 :=
  "si\np 1\nq\n".toUTF8.toList

theorem session_truncated_while_printing :
    ∃ d d' d₁ : Debugger, (session stepAndPrint).on (d.onto (.empty none)) = .ok (.ok (), d') ∧
      d'.out.bytes.size = 54 ∧
      (session stepAndPrint).on (d.onto (.empty (some 45))) =
        .ok (.error (.stream .outputFull), d₁) ∧
      d₁.out.bytes = d'.out.bytes.extract 0 45 ∧
      (sessionCommands stepAndPrint (d.onto (.empty (some 45)))).map Prod.fst =
        ["si", "p 1"] := by
  have hcalls : (do
      let d ← createWith [0x00100513]
      let held ← (session stepAndPrint).on (d.onto (.empty none))
      return (held.1.isOk, held.2.out.bytes.size,
        (within (.empty (some 45)) (sessionCommands stepAndPrint (d.onto (.empty none)))).map
          Prod.fst) : Except Crash _).toOption =
      some (true, 54, ["si", "p 1"]) := by
    decide +kernel
  obtain ⟨d, -, h⟩ := bind_eq_ok (eq_ok_of_toOption hcalls)
  obtain ⟨⟨r, d'⟩, hfull, h⟩ := bind_eq_ok h
  simp only [Prod.mk.injEq, Except.ok.injEq, pure, Except.pure] at h
  obtain ⟨hok, hsize, hlines⟩ := h
  cases r with
  | error e => cases hok
  | ok u =>
    obtain ⟨r₁, d₁, hcut, -, hcuts, hcommands, -⟩ := session_truncated 45 hfull
    obtain ⟨rfl, htext⟩ := hcuts (by omega)
    exact ⟨d, d', d₁, hfull, hsize, hcut, htext, by rw [hcommands, hlines]⟩

end Hartwatch.Debugger
