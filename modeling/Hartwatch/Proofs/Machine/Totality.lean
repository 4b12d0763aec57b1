import Hartwatch.Proofs.Machine.Endings
import Hartwatch.Proofs.Memory.Range

/-! No program makes a machine crash. Every instruction is carried out or traps whatever its word
and its operands are, so runs return until more instructions have retired than can be counted. -/

namespace Hartwatch

namespace Checked

theorem mulSigned_of_words {a b : Int} (ha : a.natAbs ≤ 1 <<< 31) (hb : b.natAbs < 1 <<< 32) :
    mulSigned 64 a b = .ok (.ofInt 64 (a * b)) := by
  have hmul : (a * b).natAbs < 1 <<< 63 := by
    calc (a * b).natAbs = a.natAbs * b.natAbs := Int.natAbs_mul a b
      _ ≤ 1 <<< 31 * (1 <<< 32 - 1) := Nat.mul_le_mul ha (Nat.le_sub_one_of_lt hb)
      _ < 1 <<< 63 := by decide
  have hbounds : -((1 <<< 63 : Nat) : Int) ≤ a * b ∧ a * b < ((1 <<< 63 : Nat) : Int) := by omega
  exact if_pos hbounds

theorem mulUnsigned_of_words {a b : Nat} (ha : a < 1 <<< 32) (hb : b < 1 <<< 32) :
    mulUnsigned 64 a b = .ok (.ofNat 64 (a * b)) := by
  have hmul : a * b < 1 <<< 64 := by
    calc a * b ≤ (1 <<< 32 - 1) * (1 <<< 32 - 1) :=
          Nat.mul_le_mul (Nat.le_sub_one_of_lt ha) (Nat.le_sub_one_of_lt hb)
      _ < 1 <<< 64 := by decide
  exact if_pos hmul

theorem natAbs_toInt_le (x : Word) : x.toInt.natAbs ≤ 1 <<< 31 := by
  have hlow := BitVec.le_toInt x
  have hhigh := BitVec.toInt_lt (x := x)
  omega

end Checked

theorem toNat_and_31_lt (x : Word) : (x &&& 31).toNat < 32 := by
  have hle : (x &&& 31).toNat ≤ 31 := by
    rw [BitVec.toNat_and]
    exact Nat.and_le_right
  omega

namespace Effect

open Checked

variable {x y imm byZero : Word}

theorem exists_ofShift {shift : Word → Nat → Except Crash Word}
    (h : ∀ n < 32, ∃ v, shift x n = .ok v) : ∃ e, ofShift shift x imm = .ok e := by
  unfold ofShift
  split
  · obtain ⟨v, hv⟩ := h (imm &&& 31).toNat (toNat_and_31_lt imm)
    exact ⟨.write v, by rw [hv]; rfl⟩
  · exact ⟨.skip, rfl⟩

theorem exists_ofDivision {divide : Word → Word → Except Crash Word}
    (h : y ≠ 0 → ∃ v, divide x y = .ok v) : ∃ e, ofDivision divide byZero x y = .ok e := by
  unfold ofDivision
  split
  · exact ⟨.write byZero, rfl⟩
  · next hy =>
    obtain ⟨v, hv⟩ := h hy
    exact ⟨.write v, by rw [hv]; rfl⟩

end Effect

open Checked Effect in
theorem Opcode.exists_effect (o : Opcode) (pc : Word) (x : Operands) :
    ∃ e, o.effect pc x = .ok e := by
  have hshift := toNat_and_31_lt x.src2
  cases o
  case slli => exact exists_ofShift fun n hn => ⟨_, shiftLeft_of_lt x.src1 hn⟩
  case srli => exact exists_ofShift fun n hn => ⟨_, shiftRight_of_lt x.src1 hn⟩
  case srai => exact exists_ofShift fun n hn => ⟨_, shiftRightSigned_of_lt x.src1 hn⟩
  case sll => exact ⟨_, by rw [effect, shiftLeft_of_lt _ hshift]; rfl⟩
  case srl => exact ⟨_, by rw [effect, shiftRight_of_lt _ hshift]; rfl⟩
  case sra => exact ⟨_, by rw [effect, shiftRightSigned_of_lt _ hshift]; rfl⟩
  case mulh =>
    have hproduct := mulSigned_of_words (natAbs_toInt_le x.src1)
      (Nat.lt_of_le_of_lt (natAbs_toInt_le x.src2) (by decide))
    exact ⟨_, by rw [effect, hproduct]; rfl⟩
  case mulhsu =>
    have hproduct := mulSigned_of_words (natAbs_toInt_le x.src1)
      (b := (x.src2.toNat : Int)) x.src2.isLt
    exact ⟨_, by rw [effect, hproduct]; rfl⟩
  case mulhu =>
    have hproduct := mulUnsigned_of_words x.src1.isLt x.src2.isLt
    exact ⟨_, by rw [effect, hproduct]; rfl⟩
  case div | divu | rem | remu => exact exists_ofDivision fun hy => ⟨_, if_neg hy⟩
  all_goals exact ⟨_, rfl⟩

namespace Ram

variable {r : Ram} {a : Word}

theorem exists_fetch (r : Ram) (a : Word) : ∃ fetched, r.fetch a = .ok fetched := by
  cases hin : r.inBounds a 4 with
  | true =>
    obtain ⟨word, hword, -⟩ := fetch_of_inBounds hin
    exact ⟨_, hword⟩
  | false => exact ⟨_, fetch_of_not_inBounds hin⟩

theorem exists_load (r : Ram) (a : Word) (width : Nat) : ∃ loaded, r.load a width = .ok loaded := by
  by_cases h : width ∈ [1, 2, 4, 8] ∧ r.inBounds a width = true
  · obtain ⟨w, rfl⟩ := exists_width h.1
    obtain ⟨v, hv, -⟩ := load_of_inBounds w h.2
    exact ⟨_, hv⟩
  · exact ⟨_, load_of_not fun hw => by simpa [hw] using h⟩

theorem exists_store (r : Ram) (a : Word) (width : Nat) (v : BitVec 64) :
    ∃ stored, r.store a width v = .ok stored := by
  rcases r.store_cases a width v with ⟨-, m, hm, -⟩ | ⟨-, hstore⟩
  · exact ⟨_, hm⟩
  · exact ⟨_, hstore⟩

end Ram

namespace Hart

theorem exists_perform (h : Hart) (s : Step) (rd : Reg) (e : Effect) :
    ∃ done, h.perform s rd e = .ok done := by
  cases e with
  | load width signed a =>
    obtain ⟨loaded, hload⟩ := h.ram.exists_load a width
    cases loaded with
    | error t => exact ⟨_, by rw [perform, hload]; rfl⟩
    | ok v => exact ⟨_, by rw [perform, hload]; rfl⟩
  | store width a v =>
    obtain ⟨stored, hstore⟩ := h.ram.exists_store a width (v.setWidth 64)
    exact ⟨_, by rw [perform, hstore]; rfl⟩
  | skip | write | jump | branch | illegal | environmentCall | breakpoint => exact ⟨_, rfl⟩

theorem exists_step (h : Hart) : ∃ result h', h.step = .ok (result, h') := by
  obtain ⟨fetched, hfetch⟩ := h.ram.exists_fetch h.pc
  cases fetched with
  | error t => exact ⟨_, _, step_of_fetch_trap hfetch⟩
  | ok word =>
    obtain ⟨e, heffect⟩ := (Opcode.ofWord word).exists_effect h.pc (h.operands word)
    obtain ⟨⟨result, h₁⟩, hperform⟩ := h.exists_perform (.straight h.pc word) (h.operands word).rd e
    exact ⟨_, _, step_of_perform hfetch heffect hperform⟩

end Hart

namespace Machine

variable {σ : Type} {monitor : Monitor σ} {m m₁ m' : Machine} {x x₁ x' : σ} {n k : Nat}

theorem retire_cases (m : Machine) (monitor : Monitor σ) (s : Step) (x : σ) :
    (∃ m' x', m.retire monitor s x = .ok (m', x')) ∨
      m.retire monitor s x = .error .overflow ∧ ¬ m.retired + 1 < 1 <<< 64 := by
  by_cases hlt : m.retired + 1 < 1 <<< 64
  · have hsucc : Checked.succ m.retired = .ok (m.retired + 1) := if_pos hlt
    exact .inl ⟨_, _, by rw [retire, hsucc]; rfl⟩
  · have hsucc : Checked.succ m.retired = .error .overflow := if_neg hlt
    exact .inr ⟨by rw [retire, hsucc]; rfl, hlt⟩

/-- A step crashes only with the instruction that cannot be counted any more. -/
theorem step_total (m : Machine) (monitor : Monitor σ) (x : σ) :
    (∃ m' x', m.step monitor x = .ok (m', x')) ∨
      m.step monitor x = .error .overflow ∧ ¬ m.retired + 1 < 1 <<< 64 ∧
        ∃ result hart call, m.hart.step = .ok (result, hart) ∧
          (Cycle.mk m.hart result hart).shown? = some call := by
  obtain ⟨result, hart, hstep⟩ := m.hart.exists_step
  cases result with
  | ok s =>
    rcases retire_cases { m with hart } monitor s x with ⟨m', x', hretire⟩ | ⟨hretire, hfull⟩
    · exact .inl ⟨m', x', by rw [step, hstep]; exact hretire⟩
    · exact .inr ⟨by rw [step, hstep]; exact hretire, hfull, _, _, _, hstep, rfl⟩
  | error t =>
    cases hretires : t.retires with
    | false =>
      have hquiet : retireTrapped { m with hart } monitor m.hart.pc t x =
          .ok ({ m with hart }, x) := if_neg (by simp [hretires])
      refine .inl ⟨{ m with hart, status := trapStatus hart m.hart.pc t }, x, ?_⟩
      rw [step, hstep]
      simp only [bind, Except.bind, hquiet]
      rfl
    | true =>
      obtain ⟨word, hfetch, hhart⟩ := Hart.step_retiring_trap hstep hretires
      have hshown := Cycle.shown?_of_retires hstep hretires hfetch
      have hagain : hart.ram.fetch m.hart.pc = .ok (.ok word) := by rw [hhart]; exact hfetch
      have hretiring : m.step monitor x =
          retire { m with hart } monitor (.straight m.hart.pc word) x >>= fun after =>
            .ok ({ after.1 with status := trapStatus after.1.hart m.hart.pc t }, after.2) := by
        rw [step, hstep]
        simp only [bind, Except.bind, retireTrapped, hretires, if_true, hagain]
        rfl
      rcases retire_cases { m with hart } monitor (.straight m.hart.pc word) x with
        ⟨m', x', hretire⟩ | ⟨hretire, hfull⟩
      · exact .inl ⟨_, _, by rw [hretiring, hretire]; rfl⟩
      · exact .inr ⟨by rw [hretiring, hretire]; rfl, hfull, _, _, _, hstep, hshown⟩

/-- A run retires one instruction more than the count of them can hold. -/
structure Exhausts (m : Machine) (budget : Budget) (monitor : Monitor σ) (x : σ) (cs : List Cycle) :
    Prop where
  cycles : ∃ h, m.hart.Cycles cs h
  within : ∀ n, budget = .limited n → cs.length ≤ n
  onward : monitor.Onward x cs.dropLast
  retired : m.retired + (Cycle.shown cs).length = 1 <<< 64

theorem UnderWay.retired_lt (hu : m.UnderWay monitor x k m₁ x₁) (hm : m.retired < 1 <<< 64) :
    m₁.retired < 1 <<< 64 := by
  obtain ⟨cs, -, hp, -, rfl | hlt⟩ := hu
  · rw [hp.retired]
    exact hm
  · exact hlt

theorem loop_total (hm : m.retired < 1 <<< 64) (hu : m.UnderWay monitor x k m₁ x₁)
    (hrun : m₁.status = .running) :
    (∃ m' x', loop monitor n m₁ x₁ = .ok (m', x')) ∨
      loop monitor n m₁ x₁ = .error .overflow ∧ ∃ cs, (∃ h, m.hart.Cycles cs h) ∧
        cs.length ≤ k + n ∧ monitor.Onward x cs.dropLast ∧
        m.retired + (Cycle.shown cs).length = 1 <<< 64 := by
  induction n generalizing k m₁ x₁ with
  | zero => exact .inl ⟨m₁, x₁, rfl⟩
  | succ n ih =>
    rcases step_total m₁ monitor x₁ with
      ⟨m₂, x₂, hs⟩ | ⟨hs, hfull, result, hart, call, hstep, hshown⟩
    · have hnext := hu.step hrun (step_cases hs)
      by_cases hrun₂ : m₂.status = .running
      · rw [if_pos hrun₂] at hnext
        have hloop : loop monitor (n + 1) m₁ x₁ = loop monitor n m₂ x₂ := by
          rw [loop, hs]
          exact if_pos hrun₂
        rw [hloop, Nat.add_comm n 1, ← Nat.add_assoc]
        exact ih hnext hrun₂
      · refine .inl ⟨m₂, x₂, ?_⟩
        rw [loop, hs]
        exact if_neg hrun₂
    · have hlt := hu.retired_lt hm
      obtain ⟨cs, rfl, hp, hon, -⟩ := hu
      refine .inr ⟨by rw [loop, hs]; rfl, cs ++ [⟨m₁.hart, result, hart⟩],
        ⟨hart, hp.cycles.concat hstep⟩, by simp, by simpa using hon, ?_⟩
      have hretired := hp.retired
      rw [Cycle.shown_concat, hshown, List.length_append, Option.toList_some, List.length_singleton]
      omega

theorem run_total (hm : m.retired < 1 <<< 64) (budget : Budget) (monitor : Monitor σ) (x : σ) :
    (∃ m' x', m.run budget monitor x = .ok (m', x') ∧ m'.retired < 1 <<< 64) ∨
      m.run budget monitor x = .error .overflow ∧ ∃ cs, m.Exhausts budget monitor x cs := by
  cases hended : m.status.hasEnded with
  | true => exact .inl ⟨m, x, run_of_hasEnded hended, hm⟩
  | false =>
    have hstart : { m with status := Status.running }.UnderWay monitor x 0
        { m with status := .running } x :=
      ⟨[], rfl, ⟨rfl, rfl, rfl, rfl⟩, Monitor.onward_nil, .inl rfl⟩
    have hlt : ({ m with status := .running } : Machine).retired < 1 <<< 64 := hm
    rw [run_of_not_ended hended]
    rcases loop_total (n := budget.bound) hlt hstart rfl with
      ⟨m', x', hloop⟩ | ⟨hloop, cs, hcycles, hlength, hon, hretired⟩
    · have hlt' : m'.retired < 1 <<< 64 := by
        refine loop_invariant (I := fun m _ => m.retired < 1 <<< 64) ?_ hlt rfl hloop
        intro m x m' x' hlt _ hs
        cases hs with
        | completed _ h => exact h
        | called _ _ _ h => exact h
        | aborted => exact hlt
      exact .inl ⟨{ m' with status := if m'.status = .running then .stopped else m'.status }, x',
        by rw [hloop]; rfl, hlt'⟩
    · refine .inr ⟨by rw [hloop]; rfl, cs, hcycles, ?_, hon, hretired⟩
      rintro n rfl
      simpa [Budget.bound] using hlength

theorem call_total (hm : m.retired < 1 <<< 64) (c : Call σ) (x : σ) :
    (∃ m' x', m.call x c = .ok (m', x') ∧ m'.retired < 1 <<< 64) ∨
      m.call x c = .error .overflow ∧ ∃ budget monitor cs, c = .run budget monitor ∧
        m.Exhausts budget monitor x cs := by
  cases c with
  | quit => exact .inl ⟨m.quit, x, rfl, hm⟩
  | run budget monitor =>
    exact (run_total hm budget monitor x).imp_right fun ⟨hrun, cs, hcs⟩ =>
      ⟨hrun, budget, monitor, cs, rfl, hcs⟩

theorem callAll_total (hm : m.retired < 1 <<< 64) (calls : List (Call σ)) (x : σ) :
    (∃ m' x', m.callAll calls x = .ok (m', x') ∧ m'.retired < 1 <<< 64) ∨
      m.callAll calls x = .error .overflow ∧ ∃ front budget monitor back m₁ x₁ cs,
        calls = front ++ .run budget monitor :: back ∧ m.callAll front x = .ok (m₁, x₁) ∧
        m₁.Exhausts budget monitor x₁ cs := by
  induction calls generalizing m x with
  | nil => exact .inl ⟨m, x, rfl, hm⟩
  | cons c calls ih =>
    rcases call_total hm c x with
      ⟨m₁, x₁, hcall, hlt⟩ | ⟨hcall, budget, monitor, cs, rfl, hcs⟩
    · have hrest : ∀ calls, m.callAll (c :: calls) x = m₁.callAll calls x₁ := by
        intro calls
        rw [callAll, hcall]
        rfl
      rw [hrest]
      refine (ih hlt x₁).imp_right ?_
      rintro ⟨hcrash, front, budget, monitor, back, m₂, x₂, cs, rfl, hfront, hcs⟩
      exact ⟨hcrash, c :: front, budget, monitor, back, m₂, x₂, cs, rfl,
        (hrest front).trans hfront, hcs⟩
    · exact .inr ⟨by rw [callAll, hcall]; rfl, [], budget, monitor, calls, m, x, cs, rfl, rfl, hcs⟩

theorem load_cases (m : Machine) (image : List Byte) :
    (image = [] ∨ m.hart.ram.inBounds m.config.resetVector image.length = true) ∧
        (∃ ram, m.load image = .ok (.ok image.length, { m with hart := { m.hart with ram } }) ∧
          m.hart.ram.Copied m.config.resetVector image ram) ∨
      ¬ (image = [] ∨ m.hart.ram.inBounds m.config.resetVector image.length = true) ∧
        m.load image =
          .ok (.error (.tooLarge image.length m.config.memorySize m.config.memoryBase), m) := by
  by_cases hempty : image = []
  · subst hempty
    exact .inl ⟨.inl rfl, m.hart.ram, rfl, rfl, rfl, fun i b hb => (nomatch hb), fun i _ => rfl⟩
  · cases hin : m.hart.ram.inBounds m.config.resetVector image.length with
    | false => exact .inr ⟨by simp [hempty], Ram.load_image_of_not_inBounds hempty hin⟩
    | true =>
      obtain ⟨ram, hstore, hcopied⟩ := Ram.storeBytes_of_inBounds hin
      refine .inl ⟨.inr rfl, ram, ?_, hcopied⟩
      simp only [load, List.isEmpty_iff, hempty, Ram.covers_eq, ok_bind, hin, if_true, if_false,
        hstore]
      rfl

theorem exists_load (m : Machine) (image : List Byte) :
    ∃ loaded m', m.load image = .ok (loaded, m') ∧ m'.retired = m.retired := by
  rcases m.load_cases image with ⟨-, ram, hload, -⟩ | ⟨-, hload⟩
  · exact ⟨_, _, hload, rfl⟩
  · exact ⟨_, _, hload, rfl⟩

theorem create_cases (config : Config) :
    config.memorySize + 7 < 1 <<< 63 ∧ (∃ m, create config = .ok m ∧ m.retired = 0) ∨
      ¬ config.memorySize + 7 < 1 <<< 63 ∧ create config = .error .allocation := by
  rcases Ram.zeroed_cases config.memoryBase config.memorySize with
    ⟨hsize, ram, hram, -⟩ | ⟨hsize, hram⟩
  · exact .inl ⟨hsize, _, by rw [create, Hart.create, hram]; rfl, rfl⟩
  · exact .inr ⟨hsize, by rw [create, Hart.create, hram]; rfl⟩

/-- A machine can be made if its memory can. With whatever image it is loaded, calls on it return
until `2 ^ 64` instructions have retired, and the count of them is all that can overflow then. -/
theorem calls_return_until_exhausted (config : Config) (image : List Byte) :
    ((∃ m, create config = .ok m) ↔ config.memorySize + 7 < 1 <<< 63) ∧
      ∀ m₀, create config = .ok m₀ →
        ∃ loaded m, m₀.load image = .ok (loaded, m) ∧ m.retired = 0 ∧
          ∀ (calls : List (Call σ)) (x : σ),
            (∃ m' x', m.callAll calls x = .ok (m', x') ∧ m'.retired < 1 <<< 64) ∨
              m.callAll calls x = .error .overflow ∧ ∃ front budget monitor back m₁ x₁ cs,
                calls = front ++ .run budget monitor :: back ∧
                m.callAll front x = .ok (m₁, x₁) ∧ m₁.Exhausts budget monitor x₁ cs := by
  rcases create_cases config with ⟨hsize, m, hm, hzero⟩ | ⟨hsize, hfails⟩
  · refine ⟨iff_of_true ⟨m, hm⟩ hsize, fun m₀ hm₀ => ?_⟩
    obtain rfl := Except.ok.inj (hm.symm.trans hm₀)
    obtain ⟨loaded, m', hload, hretired⟩ := m.exists_load image
    rw [hzero] at hretired
    have hlt : m'.retired < 1 <<< 64 := by
      rw [hretired]
      decide
    exact ⟨loaded, m', hload, hretired, fun calls x => callAll_total hlt calls x⟩
  · refine ⟨iff_of_false (fun ⟨m, hm⟩ => nomatch hm.symm.trans hfails) hsize, fun m₀ hm₀ => ?_⟩
    cases hm₀.symm.trans hfails

/-- The program divides the least number by minus one, multiplies it, divides by zero and shifts by
a negative number, and it is loaded where no word is aligned. -/
theorem calls_return_until_exhausted_least_number :
    ∃ m₀ m m', create ⟨0x80000000, 61, 0x80000001⟩ = .ok m₀ ∧
      m₀.load (bytesOfWords [0x800002b7, 0xfff00313, 0x0262c3b3, 0x0262e433, 0x025294b3,
        0x0262a4b3, 0x02035533, 0x006315b3, 0x00100073]) = .ok (.ok 36, m) ∧
      m.callAll [.run (.limited 3) .idle, .quit, .run .unlimited .idle] () = .ok (m', ()) ∧
      m'.status = .trapped 0x80000021 0xffffffff := by
  have hcalls : (do
      let m₀ ← create ⟨0x80000000, 61, 0x80000001⟩
      let loaded ← m₀.load (bytesOfWords [0x800002b7, 0xfff00313, 0x0262c3b3, 0x0262e433,
        0x025294b3, 0x0262a4b3, 0x02035533, 0x006315b3, 0x00100073])
      let ran ← loaded.2.callAll [.run (.limited 3) .idle, .quit, .run .unlimited .idle] ()
      return (loaded.1.toOption, ran.1.status) : Except Crash (Option Nat × Status)).toOption =
      some (some 36, .trapped 0x80000021 0xffffffff) := by
    decide +kernel
  obtain ⟨m₀, hm₀, h⟩ := bind_eq_ok (eq_ok_of_toOption hcalls)
  obtain ⟨⟨loaded, m⟩, hload, h⟩ := bind_eq_ok h
  obtain ⟨⟨m', u⟩, hran, h⟩ := bind_eq_ok h
  simp only [Prod.mk.injEq, Except.ok.injEq, pure, Except.pure] at h
  obtain ⟨hloaded, hstatus⟩ := h
  obtain rfl := eq_ok_of_toOption hloaded
  obtain ⟨-, hcalls⟩ := calls_return_until_exhausted (σ := Unit) ⟨0x80000000, 61, 0x80000001⟩ _
  obtain ⟨loaded, m₁, hload₁, -, hreturns⟩ := hcalls m₀ hm₀
  obtain ⟨-, rfl⟩ := Prod.mk.inj (Except.ok.inj (hload.symm.trans hload₁))
  rcases hreturns [.run (.limited 3) .idle, .quit, .run .unlimited .idle] () with
    ⟨m₂, u, hcall, -⟩ | ⟨hcrash, -⟩
  · obtain ⟨rfl, -⟩ := Prod.mk.inj (Except.ok.inj (hran.symm.trans hcall))
    exact ⟨m₀, m, m', hm₀, hload, hcall, hstatus⟩
  · cases hran.symm.trans hcrash

end Machine

end Hartwatch
