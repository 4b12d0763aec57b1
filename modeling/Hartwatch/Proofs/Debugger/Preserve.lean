import Hartwatch.Proofs.Debugger.Composition

/-! What actions keep. A property of a debugger's machine and pool is kept by every command line if
it is kept by watching, deleting, running and quitting: all else only reads and writes. -/

namespace Hartwatch

namespace Debugger

open Session

variable {α β : Type} {admits : Error → Prop} {P : Debugger → Prop}

/-- An action that ends well or with an admitted error keeps a property. -/
def Preserves (admits : Error → Prop) (P : Debugger → Prop) (action : Session α) : Prop :=
  ∀ ⦃d r d'⦄, P d → action.on d = .ok (r, d') → (∀ e, r = .error e → admits e) → P d'

namespace Preserves

theorem pure (x : α) : Preserves admits P (Pure.pure x : Session α) := by
  intro d r d' hd h _
  obtain ⟨-, rfl⟩ := Prod.mk.inj (Except.ok.inj h)
  exact hd

theorem throw (e : Error) : Preserves admits P (MonadExcept.throw e : Session α) := by
  intro d r d' hd h _
  obtain ⟨-, rfl⟩ := Prod.mk.inj (Except.ok.inj h)
  exact hd

theorem liftM (x : Except Crash α) : Preserves admits P (MonadLiftT.monadLift x : Session α) := by
  intro d r d' hd h _
  cases x with
  | error c => cases h
  | ok x =>
    obtain ⟨-, rfl⟩ := Prod.mk.inj (Except.ok.inj h)
    exact hd

theorem bind {action : Session α} {next : α → Session β} (ha : Preserves admits P action)
    (hn : ∀ x, Preserves admits P (next x)) : Preserves admits P (action >>= next) := by
  intro d r d' hd h he
  rcases on_bind_eq_ok h with ⟨x, d₁, hfirst, h⟩ | ⟨e, hfirst, rfl⟩
  · exact hn x (ha hd hfirst fun e he => nomatch he) h he
  · exact ha hd hfirst fun e' he' => he e' (by simpa using he')

theorem observe {next : Debugger → Session β} (hn : ∀ d, Preserves admits P (next d)) :
    Preserves admits P (get >>= next) :=
  fun d _ _ hd h he => hn d hd h he

theorem update {f : Debugger → Debugger} (hf : ∀ d, P d → P (f d)) :
    Preserves admits P (modify f : Session PUnit) := by
  intro d r d' hd h _
  obtain ⟨-, rfl⟩ := Prod.mk.inj (Except.ok.inj h)
  exact hf d hd

theorem write (hout : ∀ d out, P d → P (d.onto out)) (text : String) :
    Preserves admits P (write text) := by
  intro d r d' hd h _
  rw [on_write] at h
  obtain ⟨-, rfl⟩ := Prod.mk.inj (Except.ok.inj h)
  exact hout d _ hd

theorem sequential (hout : ∀ d out, P d → P (d.onto out)) : Sequential (Preserves admits P) where
  pure := .pure
  throw := fun _ => .throw _
  liftM := .liftM
  bind := .bind
  observe := fun _ => .observe
  write := .write hout

/-- What holds of the machine alone is kept where runs keep it, as long as nobody leaves. -/
theorem closed_of_machine {Q : Machine → Prop}
    (hrun : ∀ budget, Preserves admits (fun d => Q d.machine) (run budget)) :
    Closed (Preserves admits fun d => Q d.machine) := by
  have hC : Sequential (Preserves admits fun d => Q d.machine) := sequential fun _ _ hd => hd
  exact
    { toSequential := hC
      count := fun _ => .update fun _ hd => hd
      watch := hC.watch fun _ => .update fun _ hd => hd
      deleteNumber := hC.deleteNumber fun _ => .update fun _ hd => hd
      run := hrun }

end Preserves

/-- A property that the actions of a debugger keep: those that change its machine or its pool do,
and nothing else matters to it. -/
structure Invariant (admits : Error → Prop) (P : Debugger → Prop) : Prop where
  frame : ∀ ⦃d d' : Debugger⦄, d'.machine = d.machine → d'.pool = d.pool → P d → P d'
  afterQuit : ∀ ⦃d : Debugger⦄, P d → P { d with machine := d.machine.quit }
  afterWatch : ∀ ⦃d : Debugger⦄ ⦃expr h pool⦄, P d →
    d.pool.watch d.machine.hart.context expr = .ok (h, pool) → P { d with pool }
  afterDelete : ∀ ⦃d : Debugger⦄ ⦃number r pool⦄, P d → d.pool.delete number = .ok (r, pool) →
    P { d with pool }
  run : ∀ budget, Preserves admits P (run budget)

namespace Invariant

variable (hP : Invariant admits P)
include hP

theorem sequential : Sequential (Preserves admits P) :=
  Preserves.sequential fun d _ hd => hP.frame (d := d) rfl rfl hd

theorem write (text : String) : Preserves admits P (write text) :=
  hP.sequential.write text

theorem writeLine (text : String) : Preserves admits P (writeLine text) :=
  hP.sequential.writeLine text

theorem quit : Preserves admits P quit :=
  .update fun _ hd => hP.afterQuit hd

theorem watch (args : String) : Preserves admits P (watch args) := by
  intro d r d' hd h he
  rw [Debugger.watch, on_get_bind] at h
  cases hw : d.pool.watch d.machine.hart.context args with
  | error e =>
    rw [hw] at h
    obtain ⟨-, rfl⟩ := Prod.mk.inj (Except.ok.inj h)
    exact hd
  | ok found =>
    obtain ⟨i, pool⟩ := found
    rw [hw] at h
    exact hP.writeLine _ (hP.afterWatch hd hw) h he

theorem deleteNumber (number : Nat) : Preserves admits P (deleteNumber number) := by
  intro d r d' hd h he
  rw [Debugger.deleteNumber, on_get_bind, on_liftM_bind] at h
  obtain ⟨⟨result, pool⟩, hdelete, h⟩ := bind_eq_ok h
  rw [on_set_bind] at h
  have hd' := hP.afterDelete hd hdelete
  cases result with
  | error e =>
    obtain ⟨-, rfl⟩ := Prod.mk.inj (Except.ok.inj h)
    exact hd'
  | ok u =>
    obtain ⟨-, rfl⟩ := Prod.mk.inj (Except.ok.inj h)
    exact hd'

theorem closed : Closed (Preserves admits P) where
  toSequential := hP.sequential
  count := fun _ => .update fun d hd => hP.frame (d := d) rfl rfl hd
  watch := hP.watch
  deleteNumber := hP.deleteNumber
  run := hP.run

theorem execute (line : String) : Preserves admits P (execute line) :=
  hP.closed.execute line fun _ => hP.quit

theorem prompt : Preserves admits P prompt :=
  hP.write _

end Invariant

end Debugger

end Hartwatch
