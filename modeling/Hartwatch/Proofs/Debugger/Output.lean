import Hartwatch.Debugger.Session
import Hartwatch.Proofs.Outcome

/-! Actions that only write. They leave machine and pool alone and fail where the output is full;
on an output without a limit they print a text that can be told. -/

namespace Hartwatch

def Sink.append (s : Sink) (text : String) : Sink :=
  { s with bytes := s.bytes ++ text.toUTF8 }

theorem Sink.append_empty (s : Sink) : s.append "" = s := by
  simp [append]

theorem Sink.append_append (s : Sink) (t u : String) :
    (s.append t).append u = s.append (t ++ u) := by
  simp [append, ByteArray.append_assoc]

theorem Sink.append_right_inj {s : Sink} {t u : String} : s.append t = s.append u ↔ t = u := by
  simp [append, ByteArray.append_right_inj, String.toByteArray_inj]

theorem Sink.write_of_no_limit {s : Sink} (h : s.room? = none) (text : String) :
    s.write text = (true, s.append text) := by
  rw [write, h]
  simp [append, h]

namespace Session

variable {α β : Type} {d d' : Debugger}

theorem on_bind_eq_ok {action : Session α} {next : α → Session β}
    {r : Except Debugger.Error β} (h : (action >>= next).on d = .ok (r, d')) :
    (∃ x d₁, action.on d = .ok (.ok x, d₁) ∧ (next x).on d₁ = .ok (r, d')) ∨
      ∃ e, action.on d = .ok (.error e, d') ∧ r = .error e := by
  rw [on_bind] at h
  obtain ⟨⟨r₁, d₁⟩, hfirst, h⟩ := bind_eq_ok h
  cases r₁ with
  | ok x => exact .inl ⟨x, d₁, hfirst, h⟩
  | error e =>
    obtain ⟨rfl, rfl⟩ := Prod.mk.inj (Except.ok.inj h)
    exact .inr ⟨e, hfirst, rfl⟩

theorem on_bind_of_ok {action : Session α} (next : α → Session β) {x : α}
    (h : action.on d = .ok (.ok x, d')) : (action >>= next).on d = (next x).on d' := by
  rw [on_bind, h]
  rfl

theorem on_get_bind (next : Debugger → Session β) (d : Debugger) :
    ((get : Session Debugger) >>= next).on d = (next d).on d :=
  rfl

theorem on_set_bind (next : PUnit → Session β) (d d' : Debugger) :
    ((set d' : Session PUnit) >>= next).on d = (next ⟨⟩).on d' :=
  rfl

theorem on_liftM_bind (x : Except Crash α) (next : α → Session β) (d : Debugger) :
    ((liftM x : Session α) >>= next).on d = x >>= fun v => (next v).on d := by
  rw [on_bind, on_liftM]
  cases x <;> rfl

end Session

namespace Debugger

open Session

variable {α β : Type} {d : Debugger}

def OnlyWrites (action : Session α) : Prop :=
  ∀ ⦃d r d'⦄, action.on d = .ok (r, d') →
    d'.machine = d.machine ∧ d'.pool = d.pool ∧ ∀ e, r = .error e → e = .stream .outputFull

namespace OnlyWrites

theorem pure (x : α) : OnlyWrites (Pure.pure x : Session α) := by
  intro d r d' h
  obtain ⟨rfl, rfl⟩ := Prod.mk.inj (Except.ok.inj h)
  exact ⟨rfl, rfl, fun e he => nomatch he⟩

theorem get : OnlyWrites (MonadState.get : Session Debugger) := by
  intro d r d' h
  obtain ⟨rfl, rfl⟩ := Prod.mk.inj (Except.ok.inj h)
  exact ⟨rfl, rfl, fun e he => nomatch he⟩

theorem write (text : String) : OnlyWrites (write text) := by
  intro d r d' h
  rw [on_write] at h
  obtain ⟨rfl, rfl⟩ := Prod.mk.inj (Except.ok.inj h)
  refine ⟨rfl, rfl, fun e he => ?_⟩
  split at he
  · cases he
  · exact (Except.error.inj he).symm

theorem writeLine (text : String) : OnlyWrites (writeLine text) :=
  .write _

theorem bind {action : Session α} {next : α → Session β} (ha : OnlyWrites action)
    (hn : ∀ x, OnlyWrites (next x)) : OnlyWrites (action >>= next) := by
  intro d r d' h
  rcases on_bind_eq_ok h with ⟨x, d₁, hfirst, h⟩ | ⟨e, hfirst, rfl⟩
  · obtain ⟨hm₁, hp₁, -⟩ := ha hfirst
    obtain ⟨hm₂, hp₂, he⟩ := hn x h
    exact ⟨hm₂.trans hm₁, hp₂.trans hp₁, he⟩
  · obtain ⟨hm, hp, he⟩ := ha hfirst
    exact ⟨hm, hp, fun e' he' => he e' (by simpa using he')⟩

theorem forM {next : α → Session PUnit} (hn : ∀ x, OnlyWrites (next x)) (xs : List α) :
    OnlyWrites (xs.forM next) := by
  induction xs with
  | nil => exact pure _
  | cons x xs ih => exact (hn x).bind fun _ => ih

end OnlyWrites

/-- An action prints a text and comes to a value, and does nothing else. -/
def Prints (action : Session α) (d : Debugger) (x : α) (text : String) : Prop :=
  action.on d = .ok (.ok x, { d with out := d.out.append text })

namespace Prints

theorem pure (x : α) (d : Debugger) : Prints (Pure.pure x : Session α) d x "" := by
  rw [Prints, Sink.append_empty]
  rfl

theorem write (h : d.out.room? = none) (text : String) : Prints (write text) d () text := by
  rw [Prints, on_write, Sink.write_of_no_limit h]
  rfl

theorem bind {action : Session α} {next : α → Session β} {x : α} {y : β} {t u : String}
    (ha : Prints action d x t) (hn : Prints (next x) { d with out := d.out.append t } y u) :
    Prints (action >>= next) d y (t ++ u) := by
  rw [Prints, on_bind, ha]
  exact hn.trans (by rw [Sink.append_append])

theorem observe {next : Debugger → Session β} {y : β} {t : String} (h : Prints (next d) d y t) :
    Prints (MonadState.get >>= next) d y t :=
  h

theorem andThen {action : Session α} {next : α → Session β} {x : α} {y : β} {t : String}
    (ha : Prints action d x t) (hn : Prints (next x) { d with out := d.out.append t } y "") :
    Prints (action >>= next) d y t := by
  rw [← String.append_empty (s := t)]
  exact ha.bind hn

theorem forM {f : α → String} (h : d.out.room? = none) (xs : List α) :
    Prints (xs.forM fun x => Debugger.write (f x)) d ⟨⟩ (.join (xs.map f)) := by
  induction xs generalizing d with
  | nil => exact pure _ _
  | cons x xs ih =>
    rw [List.map_cons, String.join_cons]
    exact (write h _).bind (ih h)

end Prints

end Debugger

end Hartwatch
