import Hartwatch.Expr.Eval
import Hartwatch.Proofs.Outcome

/-! Traps leave a hart as it was, but for the cell of register 0, which no one can read. -/

namespace Hartwatch

variable {t : Trap}

namespace Effect

variable {x y imm byZero : Word} {e : Effect}

theorem ofShift_eq_ok {shift : Word → Nat → Except Crash Word} (h : ofShift shift x imm = .ok e) :
    e = .skip ∨ ∃ v, e = .write v := by
  unfold ofShift at h
  split at h
  · obtain ⟨v, -, hv⟩ := bind_eq_ok h
    exact .inr ⟨v, (Except.ok.inj hv).symm⟩
  · exact .inl (Except.ok.inj h).symm

theorem ofHighHalf_eq_ok {product : Except Crash (BitVec 64)} (h : ofHighHalf product = .ok e) :
    ∃ v, e = .write v := by
  obtain ⟨v, -, hv⟩ := bind_eq_ok h
  exact ⟨_, (Except.ok.inj hv).symm⟩

theorem ofDivision_eq_ok {divide : Word → Word → Except Crash Word}
    (h : ofDivision divide byZero x y = .ok e) : ∃ v, e = .write v := by
  unfold ofDivision at h
  split at h
  · exact ⟨_, (Except.ok.inj h).symm⟩
  · obtain ⟨v, -, hv⟩ := bind_eq_ok h
    exact ⟨_, (Except.ok.inj hv).symm⟩

def trap? (h : Hart) (word : Word) : Effect → Option Trap
  | skip | write _ | jump _ | branch _ _ => none
  | load _ _ a => some ⟨.loadAccessFault, a⟩
  | store _ a _ => some ⟨.storeAccessFault, a⟩
  | illegal => some ⟨.illegalInstruction, word⟩
  | environmentCall => some ⟨.environmentCall, h.read .a7⟩
  | breakpoint => some ⟨.breakpoint, h.read .a0⟩

end Effect

namespace Ram

variable {r r' : Ram} {a : Word} {width : Nat} {v : BitVec 64}

theorem locate_error {fault : Trap.Kind} (hl : r.locate a width fault = .ok (.error t)) :
    t = ⟨fault, a⟩ := by
  rw [locate, covers_eq, ok_bind] at hl
  split at hl
  · obtain ⟨o, -, ho⟩ := bind_eq_ok hl
    cases ho
  · exact (Except.error.inj (Except.ok.inj hl)).symm

theorem fetch_trap (hf : r.fetch a = .ok (.error t)) : t = ⟨.instructionAccessFault, a⟩ := by
  obtain ⟨located, hlocate, hf⟩ := bind_eq_ok hf
  cases located with
  | error t' =>
    obtain rfl := Except.error.inj (Except.ok.inj hf)
    exact locate_error hlocate
  | ok o =>
    obtain ⟨word, -, hword⟩ := bind_eq_ok hf
    cases hword

theorem load_trap (hl : r.load a width = .ok (.error t)) : t = ⟨.loadAccessFault, a⟩ := by
  obtain ⟨located, hlocate, hl⟩ := bind_eq_ok hl
  cases located with
  | error t' =>
    obtain rfl := Except.error.inj (Except.ok.inj hl)
    exact locate_error hlocate
  | ok o =>
    dsimp only at hl
    split at hl
    case h_5 => exact (Except.error.inj (Except.ok.inj hl)).symm
    all_goals
      obtain ⟨v, -, hv⟩ := bind_eq_ok hl
      cases hv

theorem store_trap (hs : r.store a width v = .ok (.error t, r')) :
    t = ⟨.storeAccessFault, a⟩ ∧ r' = r := by
  obtain ⟨located, hlocate, hs⟩ := bind_eq_ok hs
  cases located with
  | error t' =>
    obtain ⟨ht, rfl⟩ := Prod.mk.inj (Except.ok.inj hs)
    obtain rfl := Except.error.inj ht
    exact ⟨locate_error hlocate, rfl⟩
  | ok o =>
    dsimp only at hs
    split at hs
    case h_5 =>
      obtain ⟨ht, rfl⟩ := Prod.mk.inj (Except.ok.inj hs)
      exact ⟨(Except.error.inj ht).symm, rfl⟩
    all_goals
      obtain ⟨m, -, hm⟩ := bind_eq_ok hs
      cases hm

end Ram

namespace Hart

variable {h h' : Hart}

theorem perform_trap {s : Step} {rd : Reg} {e : Effect}
    (hp : h.perform s rd e = .ok (.error t, h')) : e.trap? h s.word = some t ∧ h' = h := by
  cases e with
  | skip | write | jump | branch => cases hp
  | illegal | environmentCall | breakpoint =>
    obtain ⟨ht, rfl⟩ := Prod.mk.inj (Except.ok.inj hp)
    exact ⟨congrArg some (Except.error.inj ht), rfl⟩
  | load width signed a =>
    obtain ⟨r, hload, hr⟩ := bind_eq_ok hp
    cases r with
    | ok v => cases hr
    | error t' =>
      obtain ⟨ht, rfl⟩ := Prod.mk.inj (Except.ok.inj hr)
      obtain rfl := Except.error.inj ht
      exact ⟨congrArg some (Ram.load_trap hload).symm, rfl⟩
  | store width a v =>
    obtain ⟨⟨r, ram⟩, hstore, hr⟩ := bind_eq_ok hp
    obtain ⟨hresult, rfl⟩ := Prod.mk.inj (Except.ok.inj hr)
    cases r with
    | ok v => cases hresult
    | error t' =>
      obtain rfl := Except.error.inj hresult
      obtain ⟨ht, hram⟩ := Ram.store_trap hstore
      exact ⟨congrArg some ht.symm, by rw [hram]⟩

def word? (h : Hart) : Option Word :=
  match h.ram.fetch h.pc with
  | .ok (.ok word) => some word
  | _ => none

theorem word?_of_fetch {word : Word} (hf : h.ram.fetch h.pc = .ok (.ok word)) :
    h.word? = some word := by
  rw [word?, hf]

def operands (h : Hart) (word : Word) : Operands :=
  (Opcode.ofWord word).format.operands word h.read

/-- A trap has happened before the fetch was done, or in the course of a fetched instruction. -/
theorem step_trap (hs : h.step = .ok (.error t, h')) :
    h.ram.fetch h.pc = .ok (.error t) ∧ h' = h ∨
      ∃ word e, h.ram.fetch h.pc = .ok (.ok word) ∧ h' = h.write .zero 0 ∧
        (Opcode.ofWord word).effect h.pc (h.operands word) = .ok e ∧
        h.perform (.straight h.pc word) (h.operands word).rd e = .ok (.error t, h) := by
  obtain ⟨r, hfetch, hr⟩ := bind_eq_ok hs
  cases r with
  | error t' =>
    obtain ⟨ht, rfl⟩ := Prod.mk.inj (Except.ok.inj hr)
    obtain rfl := Except.error.inj ht
    exact .inl ⟨hfetch, rfl⟩
  | ok word =>
    obtain ⟨e, heffect, hr⟩ := bind_eq_ok hr
    obtain ⟨⟨result, h₁⟩, hperform, hr⟩ := bind_eq_ok hr
    cases result with
    | ok next => cases hr
    | error t' =>
      obtain ⟨ht, rfl⟩ := Prod.mk.inj (Except.ok.inj hr)
      obtain rfl := Except.error.inj ht
      obtain ⟨-, rfl⟩ := perform_trap hperform
      exact .inr ⟨word, e, hfetch, rfl, heffect, hperform⟩

theorem step_of_fetch_trap (hf : h.ram.fetch h.pc = .ok (.error t)) :
    h.step = .ok (.error t, h) := by
  rw [step, hf]
  rfl

theorem step_of_perform {word : Word} {e : Effect} {result : Except Trap Word}
    (hf : h.ram.fetch h.pc = .ok (.ok word))
    (he : (Opcode.ofWord word).effect h.pc (h.operands word) = .ok e)
    (hp : h.perform (.straight h.pc word) (h.operands word).rd e = .ok (result, h')) :
    h.step = .ok (match result with
      | .error t => (.error t, h'.write .zero 0)
      | .ok next =>
        (.ok { Step.straight h.pc word with next }, { h'.write .zero 0 with pc := next })) := by
  rw [operands] at he hp
  simp only [step, hf, bind, Except.bind, Step.straight, he]
  simp only [Step.straight] at hp
  rw [hp]
  cases result <;> rfl

theorem step_of_perform_trap {word : Word} {e : Effect}
    (hf : h.ram.fetch h.pc = .ok (.ok word))
    (he : (Opcode.ofWord word).effect h.pc (h.operands word) = .ok e)
    (hp : h.perform (.straight h.pc word) (h.operands word).rd e = .ok (.error t, h)) :
    h.step = .ok (.error t, h.write .zero 0) :=
  step_of_perform hf he hp

theorem step_retiring_trap (hs : h.step = .ok (.error t, h')) (ht : t.retires = true) :
    ∃ word, h.ram.fetch h.pc = .ok (.ok word) ∧ h' = h.write .zero 0 := by
  rcases step_trap hs with ⟨hfetch, -⟩ | ⟨word, -, hfetch, hhart, -⟩
  · rw [Ram.fetch_trap hfetch] at ht
    cases ht
  · exact ⟨word, hfetch, hhart⟩

theorem read_write_self (v : Word) {r : Reg} (hr : r ≠ .zero) : (h.write r v).read r = v := by
  rw [read, if_neg hr]
  exact Vector.getElem_set_self r.isLt

theorem read_write_ne (v : Word) {rd r : Reg} (hr : r ≠ rd) :
    (h.write rd v).read r = h.read r := by
  by_cases hzero : r = .zero
  · rw [read, read, if_pos hzero, if_pos hzero]
  · have hne : rd.val ≠ r.val := fun he => hr (Fin.ext he.symm)
    rw [read, read, if_neg hzero, if_neg hzero]
    exact Vector.getElem_set_ne rd.isLt r.isLt hne

theorem read_write_zero (v : Word) (r : Reg) : (h.write .zero v).read r = h.read r := by
  by_cases hr : r = .zero
  · rw [read, read, if_pos hr, if_pos hr]
  · exact read_write_ne v hr

theorem context_write_zero (v : Word) : (h.write .zero v).context = h.context := by
  have hread : (h.write .zero v).read = h.read := funext fun r => h.read_write_zero v r
  have hname : (h.write .zero v).resolve? = h.resolve? := by
    funext name
    rw [resolve?, resolve?, hread]
    rfl
  rw [context, context, hname]
  rfl

theorem context_of_trap (hs : h.step = .ok (.error t, h')) : h'.context = h.context := by
  rcases step_trap hs with ⟨-, rfl⟩ | ⟨-, -, -, rfl, -⟩
  · rfl
  · exact h.context_write_zero 0

end Hart

end Hartwatch
