import Hartwatch.Proofs.Debugger.Reads
import Hartwatch.Proofs.Debugger.SessionErrors

/-! Lines that are turned down. An action that fails has not got beyond what it looked at and wrote,
so all that a debugger holds is as it was. -/

namespace Hartwatch.Debugger

open Session

variable {α β : Type} {d d' : Debugger}

/-- The errors that turn a line down. Those of watchpoints do where the line is about one, and not
where a look at the watchpoints fails while the program runs. -/
def TurnsDown : Error → Option Command → Prop
  | .unknownCommand _, _ | .argument _, _ | .expression _, _ => True
  | .watchpoint _, c? => c? = some .watch ∨ c? = some .delete
  | .stream _, _ => False

theorem TurnsDown.not_isFatal {e : Error} {c? : Option Command} (he : TurnsDown e c?) :
    e.isFatal = false := by
  cases e with
  | stream => exact he.elim
  | unknownCommand | argument | expression | watchpoint => rfl

/-- An action that fails with an error of a kind has changed nothing. -/
def Careful (kind : Error → Prop) (action : Session α) : Prop :=
  ∀ ⦃d e d'⦄, d.Laid → action.on d = .ok (.error e, d') → kind e → d' = d.onto d'.out

namespace Careful

variable {kind : Error → Prop} {c : Command}

theorem of_reads {action : Session α} (ha : Reads action) : Careful kind action :=
  fun _ _ _ _ h _ => ha h

theorem bind {action : Session α} {next : α → Session β} (ha : Reads action)
    (hn : ∀ x, Careful kind (next x)) : Careful kind (action >>= next) := by
  intro d e d' hd h he
  rcases on_bind_eq_ok h with ⟨x, d₁, hfirst, h⟩ | ⟨e', hfirst, -⟩
  · have hd₁ := ha hfirst
    have hd' := hn x (hd₁ ▸ hd : d₁.Laid) h he
    rw [hd₁] at hd'
    exact hd'
  · exact ha hfirst

theorem observe {next : Debugger → Session β} (hn : ∀ d, Careful kind (next d)) :
    Careful kind (get >>= next) :=
  fun d _ _ hd h he => hn d hd h he

theorem update (f : Debugger → Debugger) : Careful kind (modify f : Session PUnit) :=
  fun _ _ _ _ h _ => nomatch (Prod.mk.inj (Except.ok.inj h)).1

theorem andThen {action : Session α} (ha : Careful kind action) (f : α → β) :
    Careful kind (action >>= fun x => Pure.pure (f x)) := by
  intro d e d' hd h he
  rcases on_bind_eq_ok h with ⟨x, d₁, -, h⟩ | ⟨e', hfirst, hr⟩
  · cases (Prod.mk.inj (Except.ok.inj h)).1
  · obtain rfl := Except.error.inj hr
    exact ha hd hfirst he

theorem print (args : String) : Careful kind (print args) := by
  refine .bind (reads_sequential.evaluate args) fun v => .observe fun d => ?_
  exact .bind (.write _) fun _ => .bind (.liftM _) fun _ => .update _

/-- Once a slot is taken, nothing but the output can fail. -/
theorem watch (hkind : ∀ e, kind e → e.isFatal = false) (args : String) :
    Careful kind (watch args) := by
  intro d e d' hd h he
  rw [Debugger.watch, on_get_bind] at h
  cases hw : d.pool.watch d.machine.hart.context args with
  | error e =>
    rw [hw] at h
    exact Reads.throw _ h
  | ok taken =>
    rw [hw] at h
    have hfatal := (OnlyWrites.writeLine _).failsFatally h
    cases (hkind e he).symm.trans hfatal

theorem deleteNumber (number : Nat) : Careful kind (deleteNumber number) := by
  intro d e d' hd h _
  obtain ⟨as, fs, hl⟩ := hd
  rw [Debugger.deleteNumber, on_get_bind, on_liftM_bind] at h
  rcases hl.delete number with ⟨hnone, -⟩ | ⟨front, i, back, pool, -, -, hsome, -⟩
  · rw [hnone] at h
    exact Reads.throw _ h
  · rw [hsome] at h
    cases (Prod.mk.inj (Except.ok.inj h)).1

theorem run (hwatch : c ≠ .watch) (hdelete : c ≠ .delete) (budget : Budget) :
    Careful (TurnsDown · (some c)) (run budget) := by
  intro d e d' hd h he
  rcases run_error_cases hd h with rfl | ⟨i, -, x, -, rfl⟩
  · exact he.elim
  · exact (he.elim (fun h => hwatch (Option.some.inj h)) fun h => hdelete (Option.some.inj h)).elim

theorem stepInstructions (args : String) :
    Careful (TurnsDown · (some .stepInstructions)) (stepInstructions args) := by
  have hrun : ∀ budget, Careful (TurnsDown · (some .stepInstructions))
      (Debugger.run budget >>= fun _ => Pure.pure ()) :=
    fun budget => (run (by decide) (by decide) budget).andThen _
  unfold Debugger.stepInstructions
  split
  · exact .bind (.pure _) hrun
  · refine .bind (reads_sequential.singleWord args) fun word => ?_
    split
    · exact .bind (.pure _) hrun
    · exact .bind (reads_sequential.fail _) hrun

theorem delete (args : String) : Careful kind (delete args) := by
  unfold Debugger.delete
  refine .bind (reads_sequential.singleWord args) fun word => ?_
  split
  · exact deleteNumber _
  · exact .of_reads (reads_sequential.fail _)

theorem perform (args : String) (c : Command) :
    Careful (TurnsDown · (some c)) (perform args c) := by
  cases c with
  | help => exact .andThen (.of_reads (reads_sequential.help args)) _
  | resume => exact .andThen (.run (by decide) (by decide) _) _
  | quit => exact .andThen (.update _) _
  | stepInstructions => exact .andThen (.stepInstructions args) _
  | info => exact .andThen (.of_reads (reads_sequential.info args)) _
  | examine => exact .andThen (.of_reads (reads_sequential.examine args)) _
  | print => exact .andThen (.print args) _
  | watch => exact .andThen (.watch (fun _ => TurnsDown.not_isFatal) args) _
  | delete => exact .andThen (.delete args) _

end Careful

theorem execute_turned_down {line : String} {e : Error} (hd : d.Laid)
    (h : (execute line).on d = .ok (.error e, d')) (he : TurnsDown e (command? line)) :
    d' = d.onto d'.out := by
  cases hc : command? line with
  | none => exact execute_reads hc h
  | some c =>
    rw [execute_of_command? hc] at h
    exact Careful.perform _ c hd h (hc ▸ he)

end Hartwatch.Debugger
