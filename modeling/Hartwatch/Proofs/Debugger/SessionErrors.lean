import Hartwatch.Proofs.Debugger.Upkeep

/-! The errors that sessions end with. A session that reads commands reports every error but the
fatal ones and goes on. In batch mode a session is a run and ends with the error of that run. -/

namespace Hartwatch.Debugger

open Session

variable {α β : Type} {d d' : Debugger} {budget : Budget} {e : Error}

def FailsFatally (action : Session α) : Prop :=
  ∀ ⦃d e d'⦄, action.on d = .ok (.error e, d') → e.isFatal = true

theorem OnlyWrites.failsFatally {action : Session α} (ha : OnlyWrites action) :
    FailsFatally action := by
  intro d e d' h
  obtain ⟨-, -, he⟩ := ha h
  rw [he e rfl]
  rfl

namespace FailsFatally

theorem throw (he : e.isFatal = true) : FailsFatally (MonadExcept.throw e : Session α) := by
  intro d e' d' h
  obtain ⟨hr, -⟩ := Prod.mk.inj (Except.ok.inj h)
  exact Except.error.inj hr ▸ he

theorem bind {action : Session α} {next : α → Session β} (ha : FailsFatally action)
    (hn : ∀ x, FailsFatally (next x)) : FailsFatally (action >>= next) := by
  intro d e d' h
  rcases on_bind_eq_ok h with ⟨x, d₁, -, h⟩ | ⟨e', hfirst, he⟩
  · exact hn x h
  · rw [Except.error.inj he]
    exact ha hfirst

end FailsFatally

theorem outcome_failsFatally (line : String) : FailsFatally (outcome line) := by
  intro d e d' h
  rw [on_outcome] at h
  obtain ⟨x, -, h⟩ := bind_eq_ok h
  exact nomatch (Prod.mk.inj (Except.ok.inj h)).1

theorem respond_failsFatally (line : String) : FailsFatally (respond line) := by
  refine .bind (outcome_failsFatally line) fun result => ?_
  cases result with
  | ok flow => exact (OnlyWrites.pure flow).failsFatally
  | error e =>
    have hreport : FailsFatally (do writeLine e.message; return Flow.go) :=
      (OnlyWrites.bind (.writeLine _) fun _ => .pure _).failsFatally
    dsimp only
    split
    · next he => exact .bind (.throw he) fun _ => hreport
    · exact hreport

theorem converse_failsFatally (lines : List (Option String)) : FailsFatally (converse lines) := by
  have hprompt : FailsFatally prompt := (OnlyWrites.write _).failsFatally
  induction lines with
  | nil => exact hprompt
  | cons line? lines ih =>
    cases line? with
    | none => exact .bind hprompt fun _ => .throw rfl
    | some line =>
      refine .bind hprompt fun _ => .bind (respond_failsFatally line) fun flow => ?_
      cases flow with
      | leave => exact (OnlyWrites.pure ()).failsFatally
      | go => exact ih

/-- A run fails because its output is full, or because of a watchpoint that has no value where the
run has stopped. -/
theorem run_error_cases (hd : d.Laid) (h : (run budget).on d = .ok (.error e, d')) :
    e = .stream .outputFull ∨ ∃ i ∈ d.pool.active, ∃ x,
      Expr.evaluate d'.machine.hart.context (d.pool.slots.get i).expr = .error x ∧
      e = .watchpoint (.evaluation (d.pool.slots.get i).number x) := by
  obtain ⟨as, fs, hl⟩ := hd
  have hnodup := hl.nodup_active
  cases hended : d.machine.status.hasEnded with
  | true =>
    rw [run_of_ended hended] at h
    obtain ⟨-, -, he⟩ := OnlyWrites.bind (.writeLine _) (fun _ => .pure _) h
    exact .inl (he e rfl)
  | false =>
    obtain ⟨m, w, hs, -, hm, -, hend⟩ := run_settled hnodup hended h
    have hhart : d'.machine.hart = m.hart := by rw [hm]
    rw [hhart]
    rcases hend with ⟨e', he', hr, -⟩ | ⟨-, hconclude⟩
    · obtain rfl := Except.error.inj hr
      rcases hs with hw | ⟨k, -, -, ⟨hw, -⟩ | ⟨hw, -⟩⟩
      · exact .inl (Option.some.inj (he'.symm.trans hw.error?))
      · cases hw.error?.symm.trans he'
      · rw [hw.error?] at he'
        obtain ⟨found, hfound, rfl⟩ := Option.map_eq_some_iff.mp he'
        obtain ⟨i, hi, x, hx, rfl⟩ := WatchpointPool.exists_unreadable hnodup hfound
        exact .inr ⟨i, hi, x, hx, rfl⟩
    · obtain ⟨-, -, he⟩ := conclude_onlyWrites _ hconclude
      exact .inl (he e rfl)

/-- A session ends with an error that is not fatal if and only if it is in batch mode and the error
is that of a watchpoint which has no value where the program has stopped. -/
theorem session_error_nonfatal_iff {input : List UInt8} (hd : Reachable (fun _ => True) d)
    (h : (session input).on d = .ok (.error e, d')) :
    e.isFatal = false ↔ d.batch = true ∧ ∃ i ∈ d.pool.active, ∃ x,
      Expr.evaluate d'.machine.hart.context (d.pool.slots.get i).expr = .error x ∧
      e = .watchpoint (.evaluation (d.pool.slots.get i).number x) := by
  rw [session, on_get_bind] at h
  cases hbatch : d.batch with
  | false =>
    rw [if_neg (by simp [hbatch])] at h
    simp [converse_failsFatally _ h]
  | true =>
    rw [if_pos hbatch] at h
    rcases on_bind_eq_ok h with ⟨changes, d₁, -, h⟩ | ⟨e', hrun, he⟩
    · cases (Prod.mk.inj (Except.ok.inj h)).1
    · obtain rfl := Except.error.inj he
      rcases run_error_cases (laid_of_reachable hd) hrun with rfl | ⟨i, hi, x, hx, rfl⟩
      · simp [Error.isFatal]
      · exact iff_of_true rfl ⟨rfl, i, hi, x, hx, rfl⟩

theorem session_error_nonfatal_iff_invalid_text :
    ∃ d d' e, Reachable (fun _ => True) d ∧ d.batch = false ∧ d.pool.active = [0] ∧
      (session [0xff]).on d = .ok (.error e, d') ∧ e.isFatal = true := by
  have hcalls : (do
      let d₀ ← createWith [0x00100513]
      let watched ← (execute "w 1/($a0-1)").on d₀
      let held ← (session [0xff]).on watched.2
      return (watched.2.batch, watched.2.pool.active, held.1.isOk) : Except Crash _).toOption =
      some (false, [0], false) := by
    decide +kernel
  obtain ⟨d₀, hnew, h⟩ := bind_eq_ok (eq_ok_of_toOption hcalls)
  obtain ⟨⟨r₁, d₁⟩, hwatch, h⟩ := bind_eq_ok h
  obtain ⟨⟨r₂, d₂⟩, hsession, h⟩ := bind_eq_ok h
  simp only [Prod.mk.injEq, Except.ok.injEq, pure, Except.pure] at h
  obtain ⟨hbatch, hactive, hfails⟩ := h
  have hd : Reachable (fun _ => True) d₁ :=
    .execute "w 1/($a0-1)" (reachable_createWith hnew) hwatch fun _ _ => trivial
  cases r₂ with
  | ok u => cases hfails
  | error e =>
    have hfatal : e.isFatal ≠ false := by
      rw [ne_eq, session_error_nonfatal_iff hd hsession, hbatch]
      exact fun hnonfatal => nomatch hnonfatal.1
    exact ⟨d₁, d₂, e, hd, hbatch, hactive, hsession, Bool.eq_true_of_not_eq_false hfatal⟩

/-- In batch mode the error of a watchpoint that loses its value leaves the session. -/
theorem session_error_leaves_batch :
    ¬ ∀ d d' : Debugger, ∀ input e, Reachable (fun _ => True) d →
      (session input).on d = .ok (.error e, d') → e.isFatal = true := by
  intro hall
  have hcalls : (do
      let d₀ ← createWith [0x00100513]
      let watched ← (execute "w 1/($a0-1)").on d₀
      let held ← (session []).on { watched.2 with batch := true }
      return match held.1 with
        | .ok _ => none
        | .error e => some e : Except Crash _).toOption =
      some (some (.watchpoint (.evaluation 0 .divisionByZero))) := by
    decide +kernel
  obtain ⟨d₀, hnew, h⟩ := bind_eq_ok (eq_ok_of_toOption hcalls)
  obtain ⟨⟨r₁, d₁⟩, hwatch, h⟩ := bind_eq_ok h
  obtain ⟨⟨r₂, d₂⟩, hsession, h⟩ := bind_eq_ok h
  have hd : Reachable (fun _ => True) { d₁ with batch := true } :=
    .batch (.execute "w 1/($a0-1)" (reachable_createWith hnew) hwatch fun _ _ => trivial)
  cases r₂ with
  | ok u => cases Except.ok.inj h
  | error e =>
    obtain rfl := Option.some.inj (Except.ok.inj h)
    cases hall _ _ _ _ hd hsession

end Hartwatch.Debugger
