import Hartwatch.Proofs.Machine.Standstill

/-! What the cell of register 0 holds is never seen. Harts that differ there at most do the same
with every instruction, and the first one that is fetched takes the difference away. -/

namespace Hartwatch

namespace Hart

variable {h h' h₁ : Hart} {cs : List Cycle}

/-- An instruction that is fetched leaves the same behind on either hart, as it clears the cell. One
that cannot be fetched leaves both harts as they are. -/
theorem Alike.step (ha : h.Alike h') :
    ∃ result h₁ h₁', h.step = .ok (result, h₁) ∧ h'.step = .ok (result, h₁') ∧ h₁.Alike h₁' ∧
      (h.word?.isSome → h₁' = h₁) := by
  obtain ⟨fetched, hfetch⟩ := h.ram.exists_fetch h.pc
  cases fetched with
  | ok word =>
    obtain ⟨result, h₁, hstep⟩ := h.exists_step
    exact ⟨result, h₁, h₁, hstep, (ha.step_of_fetch hfetch).trans hstep, .refl h₁, fun _ => rfl⟩
  | error t =>
    have hnone : h.word? = none := by rw [Hart.word?, hfetch]
    have hfetch' : h'.ram.fetch h'.pc = .ok (.error t) := ha.fetch.trans hfetch
    refine ⟨_, h, h', step_of_fetch_trap hfetch, step_of_fetch_trap hfetch', ha, fun hsome => ?_⟩
    rw [hnone] at hsome
    cases hsome

theorem exists_cycles (h : Hart) (n : Nat) : ∃ cs h₁, cs.length = n ∧ h.Cycles cs h₁ := by
  induction n with
  | zero => exact ⟨[], h, rfl, rfl⟩
  | succ n ih =>
    obtain ⟨cs, h₁, rfl, hcycles⟩ := ih
    obtain ⟨result, h₂, hstep⟩ := h₁.exists_step
    exact ⟨_, h₂, by simp, hcycles.concat hstep⟩

theorem Alike.cycles (ha : h.Alike h') (hc : h.Cycles cs h₁) :
    ∃ cs' h₁', h'.Cycles cs' h₁' ∧ cs'.map Cycle.result = cs.map Cycle.result ∧ h₁.Alike h₁' ∧
      (h.word?.isSome → cs ≠ [] → h₁' = h₁) := by
  induction cs generalizing h h' with
  | nil =>
    obtain rfl : h₁ = h := hc
    exact ⟨[], h', rfl, rfl, ha, fun _ hne => absurd rfl hne⟩
  | cons c cs ih =>
    obtain ⟨-, hstep, hrest⟩ := hc
    obtain ⟨result, h₂, h₂', hstep₁, hstep₁', ha₂, hsame⟩ := ha.step
    obtain ⟨rfl, rfl⟩ := Prod.mk.inj (Except.ok.inj (hstep.symm.trans hstep₁))
    by_cases hword : h.word?.isSome
    · -- from here on there is one hart only
      obtain rfl := hsame hword
      exact ⟨⟨h', c.result, c.after⟩ :: cs, h₁, ⟨rfl, hstep₁', hrest⟩, rfl, .refl h₁,
        fun _ _ => rfl⟩
    · obtain ⟨cs', h₁', hcycles', hresults, ha₁, -⟩ := ih ha₂ hrest
      refine ⟨⟨h', c.result, h₂'⟩ :: cs', h₁', ⟨rfl, hstep₁', hcycles'⟩, ?_, ha₁,
        fun hsome => absurd hsome hword⟩
      rw [List.map_cons, List.map_cons, hresults]

theorem Alike.context (ha : h.Alike h') : h'.context = h.context := by
  obtain ⟨v, rfl⟩ := alike_iff.mp ha
  exact h.context_write_zero v

theorem Alike.resolve? (ha : h.Alike h') (name : String) : h'.resolve? name = h.resolve? name := by
  rw [Hart.resolve?, Hart.resolve?, ha.1, funext ha.2.2]

theorem Alike.dump (ha : h.Alike h') : h'.dump = h.dump := by
  rw [Hart.dump, Hart.dump, ha.1, funext ha.2.2]

end Hart

namespace Machine

variable {σ : Type} {m : Machine} {hart : Hart}

/-- Two calls crash alike, or return with the same, on harts that differ in the cell of register 0
at most. -/
inductive Agree : Except Crash (Machine × σ) → Except Crash (Machine × σ) → Prop
  | crash (c : Crash) : Agree (.error c) (.error c)
  | returned {m : Machine} {hart : Hart} (x : σ) : m.hart.Alike hart →
    Agree (.ok (m, x)) (.ok ({ m with hart }, x))

namespace Agree

theorem refl (r : Except Crash (Machine × σ)) : Agree r r := by
  cases r with
  | error c => exact .crash c
  | ok r => exact .returned r.2 (.refl r.1.hart)

theorem bind {r r' : Except Crash (Machine × σ)} {f : Machine × σ → Except Crash (Machine × σ)}
    (hr : Agree r r')
    (hf : ∀ (m : Machine) (hart : Hart) (x : σ), m.hart.Alike hart →
      Agree (f (m, x)) (f ({ m with hart }, x))) : Agree (r >>= f) (r' >>= f) := by
  cases hr with
  | crash c => exact .crash c
  | returned x ha => exact hf _ _ x ha

end Agree

theorem step_of_alike (ha : m.hart.Alike hart) (hword : m.hart.word?.isSome) (monitor : Monitor σ)
    (x : σ) : { m with hart }.step monitor x = m.step monitor x := by
  obtain ⟨word, hw⟩ := Option.isSome_iff_exists.mp hword
  have hstep := ha.step_of_fetch (Hart.fetch_of_word? hw)
  simp only [step, hstep, ha.1]

theorem step_agree (ha : m.hart.Alike hart) (monitor : Monitor σ) (x : σ) :
    Agree (m.step monitor x) ({ m with hart }.step monitor x) := by
  obtain ⟨fetched, hfetch⟩ := m.hart.ram.exists_fetch m.hart.pc
  cases fetched with
  | ok word =>
    have hword : m.hart.word?.isSome := by rw [Hart.word?_of_fetch hfetch]; rfl
    rw [step_of_alike ha hword]
    exact .refl _
  | error t =>
    have hfetch' : hart.ram.fetch hart.pc = .ok (.error t) := ha.fetch.trans hfetch
    have hretires : t.retires = false := by
      rw [Ram.fetch_trap hfetch]
      rfl
    have hplain : m.step monitor x =
        .ok ({ m with status := trapStatus m.hart m.hart.pc t }, x) := by
      simp only [step, Hart.step_of_fetch_trap hfetch, ok_bind, retireTrapped, hretires]
      rfl
    have hother : { m with hart }.step monitor x =
        .ok ({ m with hart, status := trapStatus hart hart.pc t }, x) := by
      simp only [step, Hart.step_of_fetch_trap hfetch', ok_bind, retireTrapped, hretires]
      rfl
    have hstatus : trapStatus hart hart.pc t = trapStatus m.hart m.hart.pc t := by
      simp only [trapStatus, ha.1, ha.2.2]
    rw [hplain, hother, hstatus]
    exact .returned x ha

theorem loop_agree (ha : m.hart.Alike hart) (monitor : Monitor σ) (n : Nat) (x : σ) :
    Agree (loop monitor n m x) (loop monitor n { m with hart } x) := by
  induction n generalizing m hart x with
  | zero => exact .returned x ha
  | succ n ih =>
    refine (step_agree ha monitor x).bind fun m₁ hart₁ x₁ ha₁ => ?_
    show Agree (if m₁.status = .running then loop monitor n m₁ x₁ else .ok (m₁, x₁))
      (if m₁.status = .running then loop monitor n { m₁ with hart := hart₁ } x₁
        else .ok ({ m₁ with hart := hart₁ }, x₁))
    by_cases hrun : m₁.status = .running
    · rw [if_pos hrun, if_pos hrun]
      exact ih ha₁ x₁
    · rw [if_neg hrun, if_neg hrun]
      exact .returned x₁ ha₁

theorem run_agree (ha : m.hart.Alike hart) (budget : Budget) (monitor : Monitor σ) (x : σ) :
    Agree (m.run budget monitor x) ({ m with hart }.run budget monitor x) := by
  cases hm : m.status.hasEnded with
  | true =>
    rw [run_of_hasEnded hm, run_of_hasEnded (m := { m with hart }) hm]
    exact .returned x ha
  | false =>
    rw [run_of_not_ended hm, run_of_not_ended (m := { m with hart }) hm]
    have hloop := loop_agree (m := { m with status := .running }) ha monitor budget.bound x
    exact hloop.bind fun _ _ x₁ ha₁ => .returned x₁ ha₁

theorem run_of_alike {budget : Budget} (ha : m.hart.Alike hart) (hword : m.hart.word?.isSome)
    (hm : m.status.hasEnded = false) (hbudget : budget ≠ .limited 0) (monitor : Monitor σ) (x : σ) :
    { m with hart }.run budget monitor x = m.run budget monitor x := by
  obtain ⟨n, hn⟩ : ∃ n, budget.bound = n + 1 := by
    cases budget with
    | limited n => exact Nat.exists_eq_succ_of_ne_zero fun hn => hbudget (congrArg _ hn)
    | unlimited => exact ⟨_, rfl⟩
  have hfirst := step_of_alike (m := { m with status := .running }) ha hword monitor x
  rw [run_of_not_ended hm, run_of_not_ended (m := { m with hart }) hm, hn, loop, loop]
  exact congrArg (fun first => first >>= _ >>= _) hfirst

theorem request_agree (ha : m.hart.Alike hart) (r : Request σ) (x : σ) :
    Agree (m.request x r) ({ m with hart }.request x r) := by
  cases r with
  | call c =>
    cases c with
    | run budget monitor => exact run_agree ha budget monitor x
    | quit => exact .returned x ha
  | load image =>
    simp only [request, load, ha.2.1, Ram.covers_eq, ok_bind]
    split
    · exact .returned x ha
    · split
      · cases m.hart.ram.storeBytes m.config.resetVector image with
        | error c => exact .crash c
        | ok stored =>
          obtain ⟨result, ram⟩ := stored
          cases result with
          | error t => exact .returned x ⟨ha.1, rfl, ha.2.2⟩
          | ok u => exact .returned x ⟨ha.1, rfl, ha.2.2⟩
      · exact .returned x ha

theorem requestAll_agree (ha : m.hart.Alike hart) (requests : List (Request σ)) (x : σ) :
    Agree (m.requestAll requests x) ({ m with hart }.requestAll requests x) := by
  induction requests generalizing m hart x with
  | nil => exact .returned x ha
  | cons r requests ih =>
    exact (request_agree ha r x).bind fun _ _ x₁ ha₁ => ih ha₁ x₁

/-- Harts that differ in the cell of register 0 at most cannot be told apart: not by instructions,
however many, not by machines that run them, and not by looking at registers. With the first
instruction that is fetched the difference is gone. -/
theorem zero_register_inert {h h' : Hart} (ha : h.Alike h') :
    (∃ result h₁ h₁', h.step = .ok (result, h₁) ∧ h'.step = .ok (result, h₁') ∧ h₁.Alike h₁' ∧
      (h.word?.isSome → h₁' = h₁)) ∧
    (∀ n, ∃ cs h₁ cs' h₁', cs.length = n ∧ h.Cycles cs h₁ ∧ h'.Cycles cs' h₁' ∧
      cs'.map Cycle.result = cs.map Cycle.result ∧ h₁.Alike h₁' ∧
      (h.word?.isSome → n ≠ 0 → h₁' = h₁)) ∧
    (∀ (σ : Type) (m : Machine) (x : σ),
      (∀ requests : List (Request σ), Agree ({ m with hart := h }.requestAll requests x)
        ({ m with hart := h' }.requestAll requests x)) ∧
      ∀ (budget : Budget) (monitor : Monitor σ), m.status.hasEnded = false →
        budget ≠ .limited 0 → h.word?.isSome →
        { m with hart := h' }.run budget monitor x =
          { m with hart := h }.run budget monitor x) ∧
    (∀ name, h'.resolve? name = h.resolve? name) ∧ h'.dump = h.dump ∧
    ∀ input, Expr.evaluate h'.context input = Expr.evaluate h.context input := by
  refine ⟨ha.step, fun n => ?_, fun σ m x => ⟨fun requests => ?_, ?_⟩, ha.resolve?, ha.dump,
    fun input => by rw [ha.context]⟩
  · obtain ⟨cs, h₁, hlength, hcycles⟩ := h.exists_cycles n
    obtain ⟨cs', h₁', hcycles', hresults, ha₁, hsame⟩ := ha.cycles hcycles
    refine ⟨cs, h₁, cs', h₁', hlength, hcycles, hcycles', hresults, ha₁, fun hword hn => ?_⟩
    exact hsame hword (List.ne_nil_of_length_pos (hlength ▸ Nat.pos_of_ne_zero hn))
  · exact requestAll_agree (m := { m with hart := h }) ha requests x
  · intro budget monitor hm hbudget hword
    exact run_of_alike (m := { m with hart := h }) ha hword hm hbudget monitor x

/-- The program writes to register 0 and reads it into `a0`, which it hands back. -/
theorem zero_register_inert_seven :
    ∃ m m', holding [0x00500013, 0x00000533, 0x00100073] = .ok m ∧
      (m.hart.write .zero 7).regs.get Reg.zero = 7 ∧ m.hart.Alike (m.hart.write .zero 7) ∧
      m.run .unlimited .idle () = .ok (m', ()) ∧
      { m with hart := m.hart.write .zero 7 }.run .unlimited .idle () = .ok (m', ()) ∧
      m'.status = .trapped 0x80000008 0 ∧ (m.hart.write .zero 7).dump = m.hart.dump := by
  have hcalls : (do
      let m ← holding [0x00500013, 0x00000533, 0x00100073]
      let ran ← m.run .unlimited .idle ()
      return (m.status.hasEnded, m.hart.word?.isSome, ran.1.status) : Except Crash _).toOption =
      some (false, true, .trapped 0x80000008 0) := by
    decide +kernel
  obtain ⟨m, hm, h⟩ := bind_eq_ok (eq_ok_of_toOption hcalls)
  obtain ⟨⟨m', u⟩, hrun, h⟩ := bind_eq_ok h
  simp only [Prod.mk.injEq, Except.ok.injEq, pure, Except.pure] at h
  obtain ⟨hended, hword, hstatus⟩ := h
  have ha : m.hart.Alike (m.hart.write .zero 7) := m.hart.alike_write_zero 7
  obtain ⟨-, -, hruns, -, hdump, -⟩ := zero_register_inert ha
  have hsame := (hruns Unit m ()).2 .unlimited .idle hended (by decide) hword
  exact ⟨m, m', hm, Vector.getElem_set_self Reg.zero.isLt, ha, hrun, hsame.trans hrun, hstatus,
    hdump⟩

end Machine

end Hartwatch
