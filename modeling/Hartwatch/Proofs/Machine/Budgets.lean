import Hartwatch.Proofs.Machine.Records
import Hartwatch.Proofs.Machine.Splits

/-! Runs with and without a limit. A run that ends in a trap or at its monitor's wish comes to the
same with every budget that lets it get there. -/

namespace Hartwatch

variable {σ : Type} {monitor : Monitor σ} {x x' : σ} {budget : Budget}
variable {calls : List (Step × Hart)} {cs : List Cycle}

namespace Monitor

/-- The last of some cycles ends a run, whatever its budget is. -/
def Concludes (monitor : Monitor σ) (x : σ) (cs : List Cycle) : Prop :=
  ∃ c, cs.getLast? = some c ∧ monitor.EndsAt x cs.dropLast c

theorem Concludes.not_onward (h : monitor.Concludes x cs) : ¬ monitor.Onward x cs := by
  obtain ⟨c, hlast, hend⟩ := h
  intro honward
  have hsplit := List.dropLast_append_getLast? c hlast
  exact honward cs.dropLast c [] hsplit.symm hend

theorem recording_concludes_iff :
    monitor.recording.Concludes (x, []) cs ↔ monitor.Concludes x cs := by
  simp only [Concludes, recording_endsAt_iff]

end Monitor

def Budget.unlimitedCount : Nat :=
  1 <<< 64 - 1

theorem Budget.ofCount_of_lt {n : Nat} (hn : n < unlimitedCount) : ofCount n = .limited n :=
  if_pos hn

theorem Budget.ofCount_of_not_lt {n : Nat} (hn : ¬ n < unlimitedCount) : ofCount n = .unlimited :=
  if_neg hn

namespace Machine

variable {m m' : Machine} {n k b : Nat}

theorem loop_of_le (hm : m.status = .running) (h : loop monitor n m x = .ok (m', x'))
    (hend : m'.status ≠ .running) (hn : n ≤ b) : loop monitor b m x = .ok (m', x') := by
  obtain ⟨rest, rfl⟩ := Nat.exists_eq_add_of_le hn
  rw [loop_add hm, h]
  exact if_neg hend

theorem Over.not_underWay {m₁ : Machine} {x₁ : σ} (ho : m.Over monitor x k m' x') :
    ¬ m.UnderWay monitor x k m₁ x₁ := by
  rintro ⟨cs₁, hlen, hp₁, honward, -⟩
  obtain ⟨cs, c, rfl, hp, -, hend, -⟩ := ho
  have hprefix : cs₁ = cs ++ [c] := by
    rcases hp₁.cycles.prefix_total hp.cycles with hle | hle
    · exact hle.eq_of_length (by simpa using hlen)
    · exact (hle.eq_of_length (by simpa using hlen.symm)).symm
  exact honward cs c [] hprefix hend

theorem loop_of_over (hm : m.status = .running) (h : loop monitor n m x = .ok (m', x'))
    (ho : m.Over monitor x k m' x') (hk : k ≤ n) : loop monitor k m x = .ok (m', x') := by
  -- The loop is cut behind its `k`th step, and the first part is over by then.
  obtain ⟨rest, rfl⟩ := Nat.exists_eq_add_of_le hk
  rw [loop_add hm] at h
  obtain ⟨⟨m₁, x₁⟩, hfirst, h⟩ := bind_eq_ok h
  rcases loop_outcome hm hfirst with ⟨-, hunder⟩ | ⟨hrun, -⟩
  · exact absurd hunder ho.not_underWay
  · have hstay : Except.ok (m₁, x₁) = Except.ok (ε := Crash) (m', x') := (if_neg hrun).symm.trans h
    rw [hfirst, hstay]

theorem run_of_loop (hm : m.status.hasEnded = false)
    (h : loop monitor budget.bound { m with status := .running } x = .ok (m', x'))
    (hrun : m'.status ≠ .running) : m.run budget monitor x = .ok (m', x') := by
  rw [run_of_not_ended hm, h]
  simp only [ok_bind, if_neg hrun]

/-- A run uses up its budget, or it comes to the same with any budget for as many cycles. -/
theorem run_outcome (hm : m.status.hasEnded = false)
    (h : m.run budget monitor x = .ok (m', x')) :
    ∃ cs, m.Ran budget monitor x cs m' x' ∧ (monitor.Onward x cs ∨
      ∀ b : Budget, cs.length ≤ b.bound → m.run b monitor x = .ok (m', x')) := by
  obtain ⟨m₁, hloop, rfl⟩ := run_eq_ok hm h
  rcases loop_outcome rfl hloop with ⟨hrun, hunder⟩ | ⟨hrun, k, hk, hover⟩
  · rw [if_pos hrun]
    obtain ⟨cs, honward, hran⟩ := hunder.ran
    exact ⟨cs, hran.of_status, .inl honward⟩
  · rw [if_neg hrun]
    obtain ⟨cs, rfl, hran⟩ := hover.ran hk
    have hleast := loop_of_over rfl hloop hover hk
    exact ⟨cs, hran.of_status,
      .inr fun b hb => run_of_loop hm (loop_of_le rfl hleast hrun hb) hrun⟩

theorem Ran.concludes_of_unlimited (h : m.Ran .unlimited monitor x cs m' x') :
    monitor.Concludes x cs :=
  h.last.resolve_left fun hlimited => nomatch hlimited

theorem Ran.concludes_of_hasEnded (h : m.Ran budget monitor x cs m' x')
    (hended : m'.status.hasEnded = true) : monitor.Concludes x cs := by
  have hstatus := h.status
  cases hlast : cs.getLast? with
  | none =>
    rw [hlast] at hstatus
    rw [hstatus] at hended
    cases hended
  | some c =>
    refine ⟨c, hlast, .inl ?_⟩
    cases hresult : c.result with
    | error t => exact ⟨t, rfl⟩
    | ok s =>
      rw [hlast] at hstatus
      rw [hstatus, Option.elim_some, Cycle.status, hresult] at hended
      cases hended

theorem Ran.of_concludes {b : Budget} (h : m.Ran budget monitor x cs m' x')
    (hend : monitor.Concludes x cs) (hb : ∀ n, b = .limited n → cs.length ≤ n) :
    m.Ran b monitor x cs m' x' :=
  ⟨h.toPassed, hb, h.onward, .inr hend, h.status⟩

def recorded (m : Machine) (count : Nat) (monitor : Monitor σ) (x : σ) :
    Except Crash (Machine × σ × List (Step × Hart)) :=
  m.run (.ofCount count) monitor.recording (x, [])

theorem recorded_of_limited (hm : m.status.hasEnded = false) (hn : n < Budget.unlimitedCount)
    (h : m.recorded n monitor x = .ok (m', x', calls)) :
    ∃ cs, m.Ran (.limited n) monitor x cs m' x' ∧ (monitor.Concludes x cs →
      m.recorded Budget.unlimitedCount monitor x = .ok (m', x', calls)) := by
  rw [recorded, Budget.ofCount_of_lt hn] at h
  obtain ⟨cs, hran, hout⟩ := run_outcome hm h
  refine ⟨cs, hran.of_recording.1, fun hend => ?_⟩
  have hgo := (Monitor.recording_concludes_iff.mpr hend).not_onward
  have hlength : cs.length ≤ Budget.unlimited.bound := by
    have hwithin : cs.length ≤ n := hran.within n rfl
    have hmax : Budget.unlimitedCount ≤ Budget.unlimited.bound := by decide
    omega
  rw [recorded, Budget.ofCount_of_not_lt (Nat.lt_irrefl _)]
  exact hout.resolve_left hgo _ hlength

theorem recorded_of_unlimited (hm : m.status.hasEnded = false)
    (h : m.recorded Budget.unlimitedCount monitor x = .ok (m', x', calls)) :
    ∃ cs, m.Ran .unlimited monitor x cs m' x' ∧
      ∀ n, cs.length ≤ n → m.recorded n monitor x = .ok (m', x', calls) := by
  rw [recorded, Budget.ofCount_of_not_lt (Nat.lt_irrefl _)] at h
  obtain ⟨cs, hran, hout⟩ := run_outcome hm h
  refine ⟨cs, hran.of_recording.1, fun n hn => ?_⟩
  rw [recorded]
  by_cases hlt : n < Budget.unlimitedCount
  · rw [Budget.ofCount_of_lt hlt]
    exact hout.resolve_left hran.concludes_of_unlimited.not_onward _ hn
  · rw [Budget.ofCount_of_not_lt hlt]
    exact h

/-- A run with a limit that does not end by using it up makes the same calls of its monitor and
comes to the same as one without a limit. One without a limit that returns comes to the same with
every limit that lets it go through its cycles. -/
theorem unlimited_agrees_with_limited (m : Machine) (monitor : Monitor σ) (x : σ) :
    (∀ n, m.run (.ofCount n) monitor x =
      m.recorded n monitor x >>= fun (m', x', _) => .ok (m', x')) ∧
    (m.status.hasEnded = true → ∀ n, m.recorded n monitor x = .ok (m, x, [])) ∧
    (m.status.hasEnded = false → ∀ m' x' calls,
      (∀ n < Budget.unlimitedCount, m.recorded n monitor x = .ok (m', x', calls) →
        ∃ cs, m.Ran (.limited n) monitor x cs m' x' ∧ (monitor.Concludes x cs →
          m.recorded Budget.unlimitedCount monitor x = .ok (m', x', calls))) ∧
      (m.recorded Budget.unlimitedCount monitor x = .ok (m', x', calls) →
        ∃ cs, m.Ran .unlimited monitor x cs m' x' ∧
          ∀ n, cs.length ≤ n → m.recorded n monitor x = .ok (m', x', calls))) := by
  refine ⟨fun n => ?_, fun hm n => run_of_hasEnded hm, fun hm m' x' calls => ⟨?_, ?_⟩⟩
  · exact run_forget monitor.recording_extends m (.ofCount n) (x, [])
  · exact fun n hn h => recorded_of_limited hm hn h
  · exact recorded_of_unlimited hm

/-- The breakpoint is the last of the steps that the limit allows. -/
theorem unlimited_agrees_with_limited_ebreak :
    ∃ m m' calls, holding [0x00100513, 0x00100073] = .ok m ∧ m.status.hasEnded = false ∧
      2 < Budget.unlimitedCount ∧ m.recorded 2 .idle () = .ok (m', (), calls) ∧
      m'.status = .trapped 0x80000004 1 ∧
      m.recorded Budget.unlimitedCount .idle () = .ok (m', (), calls) ∧
      m.recorded 1000 .idle () = .ok (m', (), calls) := by
  have hcalls : (do
      let m ← holding [0x00100513, 0x00100073]
      let ran ← m.recorded 2 .idle ()
      return (m.status.hasEnded, ran.1.status) : Except Crash (Bool × Status)).toOption =
      some (false, .trapped 0x80000004 1) := by
    decide +kernel
  obtain ⟨m, hm, h⟩ := bind_eq_ok (eq_ok_of_toOption hcalls)
  obtain ⟨⟨m', u, calls⟩, hrun, h⟩ := bind_eq_ok h
  simp only [Prod.mk.injEq, Except.ok.injEq, pure, Except.pure] at h
  obtain ⟨hended, hstatus⟩ := h
  have htwo : 2 < Budget.unlimitedCount := by decide
  obtain ⟨hlimited, hunlimited⟩ :=
    (unlimited_agrees_with_limited m .idle ()).2.2 hended m' () calls
  obtain ⟨cs, hran, hsame⟩ := hlimited 2 htwo hrun
  have hconcludes := hran.concludes_of_hasEnded (by rw [hstatus]; rfl)
  have hfree := hsame hconcludes
  obtain ⟨cs', hran', hagain⟩ := hunlimited hfree
  have hlength : cs'.length ≤ 1000 := by
    rw [hran'.unique (hran.of_concludes hconcludes fun _ hb => nomatch hb)]
    have hwithin : cs.length ≤ 2 := hran.within 2 rfl
    omega
  exact ⟨m, m', calls, hm, hended, htwo, hrun, hstatus, hfree, hagain 1000 hlength⟩

end Machine

end Hartwatch
