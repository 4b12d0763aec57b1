import Hartwatch.Proofs.Debugger.Uptake

/-! Actions that change nothing: they look at a debugger and write. -/

namespace Hartwatch.Debugger

open Session

variable {α β : Type}

/-- An action that leaves everything but the output as it is. -/
def Reads (action : Session α) : Prop :=
  ∀ ⦃d r d'⦄, action.on d = .ok (r, d') → d' = d.onto d'.out

namespace Reads

theorem of_onto {action : Session α} (r : Debugger → Except Error α) (out : Debugger → Sink)
    (hon : ∀ d, action.on d = .ok (r d, d.onto (out d))) : Reads action := by
  intro d r' d' h
  obtain ⟨-, rfl⟩ := Prod.mk.inj (Except.ok.inj ((hon d).symm.trans h))
  rfl

theorem machine_eq {action : Session α} (ha : Reads action) {d d' : Debugger}
    {r : Except Error α} (h : action.on d = .ok (r, d')) : d'.machine = d.machine := by
  rw [ha h]
  rfl

theorem pure (x : α) : Reads (Pure.pure x : Session α) :=
  .of_onto (fun _ => .ok x) Debugger.out fun _ => rfl

theorem throw (e : Error) : Reads (MonadExcept.throw e : Session α) :=
  .of_onto (fun _ => .error e) Debugger.out fun _ => rfl

theorem liftM (x : Except Crash α) : Reads (MonadLiftT.monadLift x : Session α) := by
  cases x with
  | ok x => exact pure x
  | error c => exact fun _ _ _ h => nomatch h

theorem bind {action : Session α} {next : α → Session β} (ha : Reads action)
    (hn : ∀ x, Reads (next x)) : Reads (action >>= next) := by
  intro d r d' h
  rcases on_bind_eq_ok h with ⟨x, d₁, hfirst, h⟩ | ⟨e, hfirst, -⟩
  · have hd₁ := ha hfirst
    have hd' := hn x h
    rw [hd₁] at hd'
    exact hd'
  · exact ha hfirst

theorem observe {next : Debugger → Session β} (hn : ∀ d, Reads (next d)) : Reads (get >>= next) :=
  fun d _ _ h => hn d h

theorem write (text : String) : Reads (write text) :=
  .of_onto _ _ (on_write text)

end Reads

theorem reads_sequential : Sequential Reads where
  pure := .pure
  throw := fun _ => .throw _
  liftM := .liftM
  bind := .bind
  observe := fun _ => .observe
  write := .write

/-- An action that changes nothing comes to the same on every output that takes its text. -/
theorem on_of_unlimited {action : Session α} {d : Debugger} {r : Except Error α} {text : String}
    (ho : Oblivious action) (hr : Reads action)
    (h : action.on (d.onto (.empty none)) = .ok (r, d.onto ((Sink.empty none).append text))) :
    action.on d = .ok (if d.out.takes text.toUTF8 then r else .error (.stream .outputFull),
      d.onto (d.out.after text.toUTF8)) := by
  have hbytes : ((Sink.empty none).append text).bytes = text.toUTF8 := ByteArray.empty_append
  have hfollows : Follows d.out (action.on (d.onto (.empty none)))
      (action.on (d.onto (d.out.after .empty))) :=
    ho.follows (d := d.onto (.empty none)) d.out rfl d.out.takes_empty
  rw [Sink.after_empty, h] at hfollows
  change Follows d.out _ (action.on d) at hfollows
  generalize hon : action.on d = outcome at hfollows
  cases hfollows with
  | taken htakes =>
    have htakes : d.out.takes text.toUTF8 = true := hbytes ▸ htakes
    rw [if_pos htakes, ← hbytes]
    rfl
  | refused _ hrefused =>
    obtain ⟨hnot, hout⟩ := hrefused _ _ rfl
    have hnot : d.out.takes text.toUTF8 = false := hbytes ▸ hnot
    rw [hnot, hr hon, hout, ← hbytes]
    rfl

theorem execute_reads {line : String} (hc : command? line = none) : Reads (execute line) := by
  rw [command?] at hc
  rw [execute_eq]
  cases hname : (Text.words line).head? with
  | none => exact .pure _
  | some name =>
    rw [hname, Option.bind_some] at hc
    simp only [hc]
    exact .throw _

end Hartwatch.Debugger
