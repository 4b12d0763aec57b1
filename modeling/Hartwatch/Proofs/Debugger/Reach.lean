import Hartwatch.Image
import Hartwatch.Proofs.Debugger.Preserve

/-! The debuggers that calls lead to. A call executes a line, runs the program or holds a session.
What fails on the way is part of the way, also an error that a session reports and forgets. -/

namespace Hartwatch.Debugger

open Session

variable {α : Type} {admits : Error → Prop} {P : Debugger → Prop} {d d' : Debugger}

def failures (action : Session α) (d : Debugger) : List Error :=
  match action.on d with
  | .ok (.error e, _) => [e]
  | _ => []

def lineFailures : List (Option String) → Debugger → List Error
  | some line :: lines, d =>
    match prompt.on d with
    | .ok (.ok _, d) =>
      failures (execute line) d ++
        match (respond line).on d with
        | .ok (.ok .go, d) => lineFailures lines d
        | _ => []
    | _ => []
  | _, _ => []

def sessionFailures (input : List UInt8) (d : Debugger) : List Error :=
  failures (session input) d ++ if d.batch then [] else lineFailures (Text.lines input) d

/-- The debuggers that calls lead to in which nothing else fails than what is admitted. -/
inductive Reachable (admits : Error → Prop) : Debugger → Prop
  | create (machine : Machine) (out : Sink) : Reachable admits (create machine out)
  | batch {d : Debugger} : Reachable admits d → Reachable admits { d with batch := true }
  | execute {d d' : Debugger} {r : Except Error Flow} (line : String) : Reachable admits d →
    (execute line).on d = .ok (r, d') → (∀ e ∈ failures (execute line) d, admits e) →
    Reachable admits d'
  | run {d d' : Debugger} {r : Except Error (List Watchpoint.Change)} (budget : Budget) :
    Reachable admits d → (run budget).on d = .ok (r, d') →
    (∀ e ∈ failures (run budget) d, admits e) → Reachable admits d'
  | session {d d' : Debugger} {r : Except Error Unit} (input : List UInt8) : Reachable admits d →
    (session input).on d = .ok (r, d') → (∀ e ∈ sessionFailures input d, admits e) →
    Reachable admits d'

def createWith (program : List Word) : Except Crash Debugger := do
  let m ← Machine.create ⟨Config.ramStart, 64, Config.ramStart⟩
  let (_, m) ← m.load (bytesOfWords program)
  return create m (.empty none)

theorem reachable_createWith {program : List Word} (h : createWith program = .ok d) :
    Reachable admits d := by
  obtain ⟨m, -, h⟩ := bind_eq_ok h
  obtain ⟨⟨r, m'⟩, -, h⟩ := bind_eq_ok h
  obtain rfl := Except.ok.inj h
  exact .create m' _

theorem mem_failures {action : Session α} {e : Error} (h : action.on d = .ok (.error e, d')) :
    e ∈ failures action d := by
  simp [failures, h]

theorem failures_of_ok {action : Session α} {x : α} (h : action.on d = .ok (.ok x, d')) :
    failures action d = [] := by
  simp [failures, h]

theorem admits_of_isOk {action : Session α} {r : Except Error α} (h : action.on d = .ok (r, d'))
    (hr : r.isOk = true) : ∀ e ∈ failures action d, admits e := by
  cases r with
  | error e => cases hr
  | ok x =>
    rw [failures_of_ok h]
    exact List.forall_mem_nil _

theorem on_outcome (line : String) (d : Debugger) :
    (outcome line).on d = (execute line).on d >>= fun x => .ok (.ok x.1, x.2) :=
  rfl

theorem Preserves.keeps {action : Session α} (ha : Preserves admits P action) (hd : P d)
    {r : Except Error α} (h : action.on d = .ok (r, d'))
    (he : ∀ e ∈ failures action d, admits e) : P d' :=
  ha hd h fun e hr => he e (mem_failures (hr ▸ h))

namespace Invariant

variable (hP : Invariant admits P)
include hP

theorem respond {line : String} {r : Except Error Flow} (hd : P d)
    (h : (respond line).on d = .ok (r, d')) (he : ∀ e, r = .error e → admits e)
    (hline : ∀ e ∈ failures (Debugger.execute line) d, admits e) : P d' := by
  rw [Debugger.respond, on_bind, on_outcome] at h
  obtain ⟨⟨r₂, d₂⟩, houtcome, h⟩ := bind_eq_ok h
  obtain ⟨⟨r₁, d₁⟩, hexecute, hr⟩ := bind_eq_ok houtcome
  obtain ⟨rfl, rfl⟩ := Prod.mk.inj (Except.ok.inj hr)
  have hd₁ := (hP.execute line).keeps hd hexecute hline
  cases r₁ with
  | ok flow =>
    obtain ⟨-, rfl⟩ := Prod.mk.inj (Except.ok.inj h)
    exact hd₁
  | error e =>
    have hreport : Preserves admits P (do
        if e.isFatal then throw e
        Debugger.writeLine e.message
        return Flow.go) := by
      split
      · exact .bind (.throw e) fun _ => .bind (hP.writeLine _) fun _ => .pure _
      · exact .bind (hP.writeLine _) fun _ => .pure _
    exact hreport hd₁ h he

theorem converse {lines : List (Option String)} {r : Except Error Unit} (hd : P d)
    (h : (converse lines).on d = .ok (r, d')) (he : ∀ e, r = .error e → admits e)
    (hlines : ∀ e ∈ lineFailures lines d, admits e) : P d' := by
  induction lines generalizing d with
  | nil => exact hP.prompt hd h he
  | cons line? lines ih =>
    cases line? with
    | none => exact Preserves.bind hP.prompt (fun _ => .throw _) hd h he
    | some line =>
      rcases on_bind_eq_ok h with ⟨u, d₁, hprompt, h⟩ | ⟨e, hprompt, rfl⟩
      · have hd₁ := hP.prompt hd hprompt fun e he => nomatch he
        simp only [lineFailures, hprompt, List.mem_append] at hlines
        rcases on_bind_eq_ok h with ⟨flow, d₂, hrespond, h⟩ | ⟨e, hrespond, rfl⟩
        · have hd₂ := hP.respond hd₁ hrespond (fun e he => nomatch he) fun e he =>
            hlines e (.inl he)
          cases flow with
          | leave =>
            obtain ⟨-, rfl⟩ := Prod.mk.inj (Except.ok.inj h)
            exact hd₂
          | go => exact ih hd₂ h fun e he => hlines e (.inr (by simpa [hrespond] using he))
        · exact hP.respond hd₁ hrespond (fun e' he' => he e' (by simpa using he')) fun e he =>
            hlines e (.inl he)
      · exact hP.prompt hd hprompt he

theorem session {input : List UInt8} {r : Except Error Unit} (hd : P d)
    (h : (session input).on d = .ok (r, d'))
    (he : ∀ e ∈ sessionFailures input d, admits e) : P d' := by
  have hr : ∀ e, r = .error e → admits e := fun e hr =>
    he e (List.mem_append_left _ (mem_failures (hr ▸ h)))
  rw [Debugger.session, on_get_bind] at h
  split at h
  · exact Preserves.bind (hP.run .unlimited) (fun _ => .pure _) hd h hr
  · next hbatch =>
    exact hP.converse hd h hr fun e he' =>
      he e (List.mem_append_right _ (by simpa [hbatch] using he'))

/-- What holds of new debuggers and is kept by their actions holds of all reachable ones. -/
theorem reachable (hnew : ∀ machine out, P (create machine out)) (hd : Reachable admits d) :
    P d := by
  induction hd with
  | create machine out => exact hnew machine out
  | @batch d _ ih => exact hP.frame (d := d) rfl rfl ih
  | execute line _ h he ih => exact (hP.execute line).keeps ih h he
  | run budget _ h he ih => exact (hP.run budget).keeps ih h he
  | session input _ h he ih => exact hP.session ih h he

end Invariant

end Hartwatch.Debugger
