import Hartwatch.Proofs.Machine.Totality

/-! Harts at a standstill. A fetched instruction does the same on harts that differ in the cell of
register 0 at most, which is all that a trap may change. So a hart that has trapped traps again and
again, and its cycles complete up to some point and trap in place from there on. -/

namespace Hartwatch

namespace Hart

variable {h h' h₁ h₂ : Hart} {s : Step} {rd : Reg} {e : Effect} {t : Trap}
variable {cs cs₁ cs₂ : List Cycle}

/-- Two harts that differ in the cell of register 0 at most. -/
def Alike (h h' : Hart) : Prop :=
  h'.pc = h.pc ∧ h'.ram = h.ram ∧ ∀ r, h'.read r = h.read r

theorem alike_write_zero (h : Hart) (v : Word) : h.Alike (h.write .zero v) :=
  ⟨rfl, rfl, h.read_write_zero v⟩

theorem alike_of_trap (hs : h.step = .ok (.error t, h')) : h.Alike h' := by
  rcases step_trap hs with ⟨-, rfl⟩ | ⟨-, -, -, rfl, -⟩
  · exact ⟨rfl, rfl, fun _ => rfl⟩
  · exact h.alike_write_zero 0

theorem Alike.refl (h : Hart) : h.Alike h :=
  ⟨rfl, rfl, fun _ => rfl⟩

theorem alike_iff : h.Alike h' ↔ ∃ v, h' = h.write .zero v := by
  constructor
  · rintro ⟨hpc, hram, hread⟩
    obtain ⟨regs, pc, ram⟩ := h
    obtain ⟨regs', pc', ram'⟩ := h'
    obtain rfl : pc' = pc := hpc
    obtain rfl : ram' = ram := hram
    refine ⟨regs'.get (Reg.zero), congrArg (Hart.mk · pc' ram') (Vector.ext fun i hi => ?_)⟩
    rw [Vector.getElem_set]
    split
    · next hzero =>
      subst hzero
      rfl
    · next hne =>
      have hother : (⟨i, hi⟩ : Reg) ≠ Reg.zero := fun heq => hne (congrArg Fin.val heq).symm
      have hcell := hread ⟨i, hi⟩
      rwa [read, read, if_neg hother, if_neg hother] at hcell
  · rintro ⟨v, rfl⟩
    exact h.alike_write_zero v

theorem Alike.write_zero (ha : h.Alike h') (v : Word) : h'.write .zero v = h.write .zero v := by
  obtain ⟨u, rfl⟩ := alike_iff.mp ha
  simp [write]

theorem Alike.write (ha : h.Alike h') (r : Reg) (v : Word) :
    (h.write r v).Alike (h'.write r v) := by
  refine ⟨ha.1, ha.2.1, fun r' => ?_⟩
  by_cases hr : r' = r
  · subst hr
    by_cases hzero : r' = .zero
    · subst hzero
      rfl
    · rw [read_write_self v hzero, read_write_self v hzero]
  · rw [read_write_ne v hr, read_write_ne v hr]
    exact ha.2.2 r'

theorem Alike.operands (ha : h.Alike h') (word : Word) : h'.operands word = h.operands word := by
  rw [Hart.operands, Hart.operands, funext ha.2.2]

theorem Alike.fetch (ha : h.Alike h') : h'.ram.fetch h'.pc = h.ram.fetch h.pc := by
  rw [ha.1, ha.2.1]

theorem Alike.perform {result : Except Trap Word} (ha : h.Alike h')
    (hp : h.perform s rd e = .ok (result, h₁)) :
    ∃ h₁', h'.perform s rd e = .ok (result, h₁') ∧ h₁.Alike h₁' := by
  cases e with
  | skip | branch | illegal =>
    obtain ⟨rfl, rfl⟩ := Prod.mk.inj (Except.ok.inj hp)
    exact ⟨h', rfl, ha⟩
  | write v | jump target =>
    obtain ⟨rfl, rfl⟩ := Prod.mk.inj (Except.ok.inj hp)
    exact ⟨_, rfl, ha.write rd _⟩
  | environmentCall | breakpoint =>
    obtain ⟨rfl, rfl⟩ := Prod.mk.inj (Except.ok.inj hp)
    refine ⟨h', ?_, ha⟩
    rw [Hart.perform, ha.2.2]
  | load width signed a =>
    obtain ⟨loaded, hload, hr⟩ := bind_eq_ok hp
    rw [← ha.2.1] at hload
    rw [Hart.perform, hload]
    cases loaded with
    | error t =>
      obtain ⟨rfl, rfl⟩ := Prod.mk.inj (Except.ok.inj hr)
      exact ⟨h', rfl, ha⟩
    | ok v =>
      obtain ⟨rfl, rfl⟩ := Prod.mk.inj (Except.ok.inj hr)
      exact ⟨_, rfl, ha.write rd _⟩
  | store width a v =>
    obtain ⟨⟨stored, ram⟩, hstore, hr⟩ := bind_eq_ok hp
    obtain ⟨rfl, rfl⟩ := Prod.mk.inj (Except.ok.inj hr)
    rw [← ha.2.1] at hstore
    rw [Hart.perform, hstore]
    exact ⟨_, rfl, ha.1, rfl, ha.2.2⟩

theorem Alike.step_of_fetch {word : Word} (ha : h.Alike h')
    (hf : h.ram.fetch h.pc = .ok (.ok word)) : h'.step = h.step := by
  obtain ⟨e, heffect⟩ := (Opcode.ofWord word).exists_effect h.pc (h.operands word)
  obtain ⟨⟨result, h₁⟩, hperform⟩ := h.exists_perform (.straight h.pc word) (h.operands word).rd e
  obtain ⟨h₁', hperform', ha₁⟩ := ha.perform hperform
  have hf' : h'.ram.fetch h'.pc = .ok (.ok word) := ha.fetch.trans hf
  have heffect' := heffect
  rw [← ha.1, ← ha.operands] at heffect' hperform'
  cases result with
  | error t =>
    have hstep : h.step = .ok (.error t, h₁.write .zero 0) := step_of_perform hf heffect hperform
    have hstep' : h'.step = .ok (.error t, h₁'.write .zero 0) :=
      step_of_perform hf' heffect' hperform'
    rw [hstep, hstep', ha₁.write_zero]
  | ok next =>
    have hstep : h.step = .ok (.ok { Step.straight h.pc word with next },
        { h₁.write .zero 0 with pc := next }) := step_of_perform hf heffect hperform
    have hstep' : h'.step = .ok (.ok { Step.straight h'.pc word with next },
        { h₁'.write .zero 0 with pc := next }) := step_of_perform hf' heffect' hperform'
    rw [hstep, hstep', ha₁.write_zero, ha.1]

theorem step_again (hs : h.step = .ok (.error t, h')) : h'.step = .ok (.error t, h') := by
  rcases step_trap hs with ⟨-, rfl⟩ | ⟨word, e, hfetch, rfl, -, -⟩
  · exact hs
  · have hsame : (h.write .zero 0).step = h.step := (h.alike_write_zero 0).step_of_fetch hfetch
    rw [hsame, hs]

namespace Cycles

theorem append (hc₁ : h.Cycles cs₁ h₁) (hc₂ : h₁.Cycles cs₂ h₂) : h.Cycles (cs₁ ++ cs₂) h₂ := by
  induction cs₁ generalizing h with
  | nil =>
    obtain rfl : h₁ = h := hc₁
    exact hc₂
  | cons c cs₁ ih => exact ⟨hc₁.1, hc₁.2.1, ih hc₁.2.2⟩

theorem standstill (hs : h.step = .ok (.error t, h)) (hc : h.Cycles cs h') :
    h' = h ∧ ∀ c ∈ cs, c.result = .error t := by
  induction cs with
  | nil => exact ⟨hc, fun c hc => nomatch hc⟩
  | cons c cs ih =>
    obtain ⟨-, hstep, hrest⟩ := hc
    obtain ⟨hresult, hafter⟩ := Prod.mk.inj (Except.ok.inj (hs.symm.trans hstep))
    rw [← hafter] at hrest
    obtain ⟨hend, hall⟩ := ih hrest
    exact ⟨hend, List.forall_mem_cons.mpr ⟨hresult.symm, hall⟩⟩

/-- Cycles complete up to some point. From there on they trap, and the hart stays where it is. -/
theorem split (hc : h.Cycles cs h') :
    ∃ completed trapped h₁, cs = completed ++ trapped ∧ h.Cycles completed h₁ ∧
      (∀ c ∈ completed, ∃ s, c.result = .ok s) ∧ h₁.Cycles trapped h' ∧
      (∀ c ∈ trapped, ∃ t, c.result = .error t) ∧ h₁.Alike h' := by
  induction cs generalizing h with
  | nil =>
    obtain rfl : h' = h := hc
    have hnone : ∀ {p : Cycle → Prop}, ∀ c ∈ [], p c := List.forall_mem_nil _
    exact ⟨[], [], h', rfl, rfl, hnone, rfl, hnone, rfl, rfl, fun _ => rfl⟩
  | cons c cs ih =>
    obtain ⟨hbefore, hstep, hrest⟩ := hc
    cases hresult : c.result with
    | ok s =>
      obtain ⟨completed, trapped, h₁, rfl, hdone, hok, htraps, herror, halike⟩ := ih hrest
      exact ⟨c :: completed, trapped, h₁, rfl, ⟨hbefore, hstep, hdone⟩,
        List.forall_mem_cons.mpr ⟨⟨s, hresult⟩, hok⟩, htraps, herror, halike⟩
    | error t =>
      -- the trap has cleared the cell of register 0, and from there on nothing changes at all
      rw [hresult] at hstep
      obtain ⟨rfl, hall⟩ := standstill (step_again hstep) hrest
      refine ⟨[], c :: cs, h, rfl, rfl, List.forall_mem_nil _, ⟨hbefore, ?_, hrest⟩, ?_,
        alike_of_trap hstep⟩
      · rw [hresult]
        exact hstep
      · exact List.forall_mem_cons.mpr ⟨⟨t, hresult⟩, fun c hc => ⟨t, hall c hc⟩⟩

end Cycles

end Hart

end Hartwatch
