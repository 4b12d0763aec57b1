import Hartwatch.Debugger.Dialogue
import Hartwatch.Proofs.Debugger.Output
import Hartwatch.Proofs.Text.Words

/-! What command lines are made of. A class of actions that holds those which write, count, watch,
delete and run, and does not lead out of itself, holds every command line. -/

namespace Hartwatch.Debugger

open Session

def onto (d : Debugger) (out : Sink) : Debugger :=
  { d with out }

def deleteNumber (number : Nat) : Session Unit := do
  let d ← get
  let (result, pool) ← d.pool.delete number
  set { d with pool }
  if let .error e := result then throw (.watchpoint e)

theorem watch_eq (args : String) :
    watch args = (do
      let d ← get
      match d.pool.watch d.machine.hart.context args with
      | .error e => throw (.watchpoint e)
      | .ok (h, pool) =>
        modify fun d => { d with pool }
        let value := Text.decimal (pool.slots.get h).value.toNat
        writeLine s!"watchpoint {Text.decimal h.val}: {args}, initial value: {value}") := by
  funext d
  change (watch args).on d = Session.on _ d
  rw [watch, on_get_bind, on_get_bind]
  cases d.pool.watch d.machine.hart.context args <;> rfl

theorem deleteNumber_eq (number : Nat) :
    deleteNumber number = (do
      let (result, pool) ← (← get).pool.delete number
      modify fun d => { d with pool }
      if let .error e := result then throw (.watchpoint e)) := by
  funext d
  change (deleteNumber number).on d = Session.on _ d
  rw [deleteNumber, on_get_bind, on_get_bind, on_liftM_bind, on_liftM_bind]
  cases d.pool.delete number <;> rfl

/-- A class of actions that sequences of its members do not lead out of. What its members look at
is never the output. -/
structure Sequential (C : {α : Type} → Session α → Prop) : Prop where
  pure : ∀ {α : Type} (x : α), C (Pure.pure x : Session α)
  throw : ∀ {α : Type} {e : Error}, e.isFatal = false → C (MonadExcept.throw e : Session α)
  liftM : ∀ {α : Type} (x : Except Crash α), C (MonadLiftT.monadLift x : Session α)
  bind : ∀ {α β : Type} {action : Session α} {next : α → Session β}, C action →
    (∀ x, C (next x)) → C (action >>= next)
  observe : ∀ {β : Type} {next : Debugger → Session β}, (∀ d out, next (d.onto out) = next d) →
    (∀ d, C (next d)) → C (get >>= next)
  write : ∀ text, C (write text)

/-- A class that also holds what changes a debugger. -/
structure Closed (C : {α : Type} → Session α → Prop) : Prop extends Sequential C where
  count : ∀ printed, C (modify fun d => { d with printed } : Session PUnit)
  watch : ∀ args, C (watch args)
  deleteNumber : ∀ number, C (deleteNumber number)
  run : ∀ budget, C (run budget)

variable {α : Type} {C : {α : Type} → Session α → Prop}

namespace Sequential

variable (hC : Sequential C)
include hC

theorem writeLine (text : String) : C (writeLine text) :=
  hC.write _

theorem fail (e : ArgumentError) : C (fail e : Session α) :=
  hC.throw rfl

theorem forM {next : α → Session PUnit} (hn : ∀ x, C (next x)) (xs : List α) :
    C (xs.forM next) := by
  induction xs with
  | nil => exact hC.pure _
  | cons x xs ih => exact hC.bind (hn x) fun _ => ih

theorem command (name : String) : C (command name) := by
  unfold Debugger.command
  split
  · exact hC.pure _
  · exact hC.throw rfl

theorem evaluate (expr : String) : C (evaluate expr) := by
  refine hC.observe (fun _ _ => rfl) fun d => ?_
  split
  · exact hC.pure _
  · exact hC.throw rfl

theorem singleWord (args : String) : C (singleWord args) := by
  unfold Debugger.singleWord
  split
  · exact hC.fail _
  · exact hC.pure _
  · exact hC.fail _

theorem help (args : String) : C (help args) := by
  unfold Debugger.help
  split
  · exact hC.forM (fun c => hC.writeLine _) _
  · exact hC.bind (hC.command args) fun c => hC.writeLine _

theorem listWatchpoints : C listWatchpoints := by
  refine hC.observe (fun _ _ => rfl) fun d => ?_
  split
  · exact hC.writeLine _
  · exact hC.bind (hC.writeLine _) fun _ => hC.forM (fun w => hC.writeLine _) _

theorem info (args : String) : C (info args) := by
  unfold Debugger.info
  split
  · exact hC.observe (fun _ _ => rfl) fun d => hC.write _
  · split
    · exact hC.listWatchpoints
    · split
      · exact hC.fail _
      · exact hC.fail _

theorem examineFrom (base : Word) (count i : Nat) : C (examineFrom base count i) := by
  induction count generalizing i with
  | zero => exact hC.pure _
  | succ count ih =>
    refine hC.bind (hC.liftM _) fun distance => ?_
    extract_lets a readOn headOn
    have hread : ∀ u : Unit, C (readOn u) := by
      intro u
      refine hC.observe (fun _ _ => rfl) fun d => ?_
      split
      · exact hC.pure _
      · exact hC.bind (hC.write _) fun _ => ih (i + 1)
    have hhead : ∀ u : Unit, C (headOn u) := fun u => hC.bind (hC.write _) hread
    split
    · split
      · exact hC.bind (hC.write _) hhead
      · exact hhead ()
    · exact hread ()

theorem examine (args : String) : C (examine args) := by
  unfold Debugger.examine
  split
  · split
    · refine hC.bind (hC.evaluate _) fun base => ?_
      refine hC.bind (hC.examineFrom _ _ _) fun unreadable? => ?_
      extract_lets answer
      have hanswer : ∀ u : Unit, C (answer u) := by
        intro u
        cases unreadable? with
        | none => exact hC.pure _
        | some a => exact hC.throw rfl
      split
      · exact hC.bind (hC.write _) hanswer
      · exact hanswer ()
    · exact hC.fail _
  · exact hC.fail _

theorem reportEnd : C reportEnd := by
  refine hC.observe (fun _ _ => rfl) fun d => ?_
  extract_lets m
  split
  · exact hC.pure _
  · exact hC.bind (hC.writeLine _) fun _ => hC.writeLine _

theorem watch (hpool : ∀ pool, C (modify fun d => { d with pool } : Session PUnit))
    (args : String) : C (watch args) := by
  rw [watch_eq]
  refine hC.observe (fun _ _ => rfl) fun d => ?_
  split
  · exact hC.throw rfl
  · exact hC.bind (hpool _) fun _ => hC.writeLine _

theorem deleteNumber (hpool : ∀ pool, C (modify fun d => { d with pool } : Session PUnit))
    (number : Nat) : C (deleteNumber number) := by
  rw [deleteNumber_eq]
  refine hC.observe (fun _ _ => rfl) fun d => hC.bind (hC.liftM _) fun ⟨result, pool⟩ => ?_
  refine hC.bind (hpool pool) fun _ => ?_
  cases result with
  | ok u => exact hC.pure _
  | error e => exact hC.throw rfl

theorem stepInstructions (hrun : ∀ budget, C (Debugger.run budget)) (args : String) :
    C (stepInstructions args) := by
  have hsteps : ∀ budget, C (Debugger.run budget >>= fun _ => Pure.pure ()) :=
    fun budget => hC.bind (hrun budget) fun _ => hC.pure _
  unfold Debugger.stepInstructions
  split
  · exact hC.bind (hC.pure _) hsteps
  · refine hC.bind (hC.singleWord args) fun word => ?_
    split
    · exact hC.bind (hC.pure _) hsteps
    · exact hC.bind (hC.fail _) hsteps

theorem delete (hdelete : ∀ number, C (Debugger.deleteNumber number)) (args : String) :
    C (delete args) := by
  unfold Debugger.delete
  refine hC.bind (hC.singleWord args) fun word => ?_
  split
  · exact hdelete _
  · exact hC.fail _

end Sequential

namespace Closed

variable (hC : Closed C)
include hC

theorem print (args : String) : C (print args) := by
  refine hC.bind (hC.evaluate args) fun v => hC.observe (fun _ _ => rfl) fun d => ?_
  exact hC.bind (hC.writeLine _) fun _ => hC.bind (hC.liftM _) hC.count

theorem perform (args : String) (c : Command) (hquit : c = .quit → C quit) :
    C (perform args c) := by
  cases c with
  | help => exact hC.bind (hC.help args) fun _ => hC.pure _
  | resume => exact hC.bind (hC.run _) fun _ => hC.pure _
  | quit => exact hC.bind (hquit rfl) fun _ => hC.pure _
  | stepInstructions => exact hC.bind (hC.stepInstructions hC.run args) fun _ => hC.pure _
  | info => exact hC.bind (hC.info args) fun _ => hC.pure _
  | examine => exact hC.bind (hC.examine args) fun _ => hC.pure _
  | print => exact hC.bind (hC.print args) fun _ => hC.pure _
  | watch => exact hC.bind (hC.watch args) fun _ => hC.pure _
  | delete => exact hC.bind (hC.delete hC.deleteNumber args) fun _ => hC.pure _

end Closed

/-! ### Command lines -/

theorem parts_fst (line : String) : (parts line).1 = .ofList (Text.upToBlank line.toList) := by
  unfold parts Text.cutAtBlank?
  cases hrest : line.toList.dropWhile (fun c => !Text.isBlank c) with
  | nil =>
    have hall : Text.upToBlank line.toList = line.toList := by
      have hsplit := List.takeWhile_append_dropWhile (p := fun c => !Text.isBlank c)
        (l := line.toList)
      rwa [hrest, List.append_nil] at hsplit
    rw [hall, String.ofList_toList]
  | cons c rest => rfl

theorem execute_eq (line : String) :
    execute line = match (Text.words line).head? with
      | none => pure .go
      | some name =>
        match Command.ofName? name with
        | none => throw (.unknownCommand name)
        | some c => perform (parts (Text.trim line)).2 c := by
  rw [Text.head?_words]
  unfold execute
  dsimp only
  generalize Text.trim line = trimmed
  by_cases hempty : trimmed = ""
  · simp [hempty]
  · rw [if_neg hempty, if_neg (by simpa using hempty), ← parts_fst]
    obtain ⟨name, args⟩ := parts trimmed
    dsimp only
    unfold command
    cases Command.ofName? name <;> rfl

def command? (line : String) : Option Command :=
  (Text.words line).head?.bind Command.ofName?

def arguments (line : String) : String :=
  Text.trim (.ofList ((line.toList.dropWhile Text.isBlank).dropWhile fun c => !Text.isBlank c))

theorem parts_snd (line : String) : (parts (Text.trim line)).2 = arguments line := by
  let kept := (line.toList.dropWhile Text.isBlank).rdropWhile Text.isBlank
  let blanks := (line.toList.dropWhile Text.isBlank).rtakeWhile Text.isBlank
  have hblanks : ∀ c ∈ blanks, Text.isBlank c = true := fun c hc => List.mem_rtakeWhile_imp hc
  have hsplit : line.toList.dropWhile Text.isBlank = kept ++ blanks :=
    List.rdropWhile_append_rtakeWhile.symm
  have hline : (Text.trim line).toList = kept := String.toList_ofList
  rw [arguments, hsplit, parts, Text.cutAtBlank?, hline, List.dropWhile_append]
  cases hrest : kept.dropWhile fun c => !Text.isBlank c with
  | nil =>
    have hnone : Text.trimChars (blanks.dropWhile fun c => !Text.isBlank c) = [] :=
      (Text.trimChars_eq_nil_iff _).mpr (List.dropWhile_eq_nil_iff.mpr fun c hc =>
        hblanks c ((List.dropWhile_suffix _).subset hc))
    simp [Text.trim, hnone]
  | cons c rest =>
    have hc : Text.isBlank c = true := by
      have hhead := List.head_dropWhile_not (fun c => !Text.isBlank c) (l := kept) (by simp [hrest])
      simpa [hrest] using hhead
    rw [if_neg (by simp)]
    simp only [Text.trim, String.toList_ofList]
    rw [Text.trimChars_append_blanks _ hblanks, Text.trimChars_cons_blank hc]

theorem execute_of_command? {line : String} {c : Command} (hc : command? line = some c) :
    execute line = perform (arguments line) c := by
  obtain ⟨name, hname, hc⟩ := Option.bind_eq_some_iff.mp hc
  rw [execute_eq]
  simp only [hname, hc, parts_snd]

def leaves (line : String) : Bool :=
  (Text.words line).head? = some Command.quit.name

theorem ofName?_name (c : Command) : Command.ofName? c.name = some c := by
  cases c <;> decide

theorem leaves_of_ofName? {line name : String} (hname : (Text.words line).head? = some name)
    (hc : Command.ofName? name = some .quit) : leaves line = true := by
  have hsome := List.find?_some hc
  have hquit : Command.quit.name = name := by simpa using hsome
  rw [leaves, hname, hquit, decide_eq_true rfl]

theorem execute_of_leaves {line : String} (hl : leaves line = true) :
    execute line = do quit; return .leave := by
  have hname : (Text.words line).head? = some Command.quit.name := by simpa [leaves] using hl
  rw [execute_eq]
  simp only [hname, ofName?_name]
  rfl

theorem Closed.execute (hC : Closed C) (line : String)
    (hquit : leaves line = true → C quit) : C (execute line) := by
  rw [execute_eq]
  cases hname : (Text.words line).head? with
  | none => exact hC.pure _
  | some name =>
    dsimp only
    cases hc : Command.ofName? name with
    | none => exact hC.throw rfl
    | some c => exact hC.perform _ c fun he => hquit (leaves_of_ofName? hname (he ▸ hc))

theorem perform_eq_ok {args : String} {c : Command} {flow : Flow} {d d' : Debugger}
    (h : (perform args c).on d = .ok (.ok flow, d')) (hc : c ≠ .quit) : flow = .go := by
  have hlast : ∀ {α : Type} {action : Session α},
      (do let _ ← action; return Flow.go).on d = .ok (.ok flow, d') → flow = .go := by
    intro α action h
    rcases on_bind_eq_ok h with ⟨x, d₁, -, h⟩ | ⟨e, -, he⟩
    · exact (Except.ok.inj (Prod.mk.inj (Except.ok.inj h)).1).symm
    · cases he
  cases c with
  | quit => exact absurd rfl hc
  | help | resume | stepInstructions | info | examine | print | watch | delete => exact hlast h

theorem execute_leave_iff {line : String} {d d' : Debugger} {r : Except Error Flow}
    (h : (execute line).on d = .ok (r, d')) : r = .ok .leave ↔ leaves line = true := by
  constructor
  · rintro rfl
    rw [execute_eq] at h
    cases hname : (Text.words line).head? with
    | none =>
      rw [hname] at h
      cases Except.ok.inj (Prod.mk.inj (Except.ok.inj h)).1
    | some name =>
      cases hc : Command.ofName? name with
      | none =>
        simp only [hname, hc] at h
        cases (Prod.mk.inj (Except.ok.inj h)).1
      | some c =>
        simp only [hname, hc] at h
        by_cases hquit : c = .quit
        · exact leaves_of_ofName? hname (hquit ▸ hc)
        · cases perform_eq_ok h hquit
  · intro hl
    rw [execute_of_leaves hl] at h
    exact (Prod.mk.inj (Except.ok.inj h)).1.symm

end Hartwatch.Debugger
