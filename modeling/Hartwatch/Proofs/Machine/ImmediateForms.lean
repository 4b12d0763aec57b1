import Hartwatch.Proofs.Machine.Arithmetic
import Mathlib.Algebra.Group.Int.Defs
import Mathlib.Algebra.Group.Nat.Defs

/-! The instructions that compute with two registers, by the numbers that their operands stand for,
and those that have an immediate in the place of the second register: both forms leave the same
word. A shift takes its amount from the low bits of either operand. -/

namespace Hartwatch

namespace Word

variable {a b x : Word}

theorem toNat_sub_eq (a b : Word) : ((a - b).toNat : Int) = (a.toNat - b.toNat : Int) % 2 ^ 32 := by
  have ha := a.isLt
  have hb := b.isLt
  rw [BitVec.toNat_sub]
  omega

theorem toNat_ofBool (p : Prop) [Decidable p] : (ofBool (decide p)).toNat = if p then 1 else 0 := by
  by_cases hp : p <;> simp [ofBool, hp]

theorem toNat_and_31 (x : Word) : (x &&& 31).toNat = x.toNat % 32 := by
  rw [BitVec.toNat_and]
  exact Nat.and_two_pow_sub_one_eq_mod x.toNat 5

theorem and_32_of_lt (h : x.toNat % 64 < 32) : x &&& 32 = 0 := by
  rw [and_32_eq_zero_iff, BitVec.getLsbD, Nat.testBit_eq_decide_div_mod_eq]
  apply decide_eq_false
  omega

theorem toNat_signExtend_mod (imm : BitVec 12) :
    (imm.signExtend 32).toNat % 64 = imm.toNat % 64 := by
  rw [BitVec.toNat_signExtend, BitVec.toNat_setWidth]
  have hlt := imm.isLt
  split <;> omega

theorem toInt_sshiftRight_eq (a : Word) (n : Nat) :
    (a.sshiftRight n).toInt = a.toInt.fdiv (2 ^ n) := by
  have hpow : (0 : Int) ≤ 2 ^ n := Int.le_of_lt (Int.pow_pos (by decide))
  rw [BitVec.toInt_sshiftRight, Int.shiftRight_eq_div_pow, Int.fdiv_eq_ediv_of_nonneg _ hpow]
  norm_cast

end Word

namespace Opcode

variable {o o' : Opcode} {a b v : Word} {imm : BitVec 12}

/-- Computes with two registers by something else than a product or a quotient. -/
def combines : Opcode → Bool
  | add | sub | slt | sltu | xor | or | and | sll | srl | sra => true
  | _ => false

/-- What an instruction on two registers computes, in numbers. Shifts to the right round down. -/
def Computes (a b v : Word) : Opcode → Prop
  | add => v.toNat = (a.toNat + b.toNat) % 2 ^ 32
  | sub => (v.toNat : Int) = (a.toNat - b.toNat : Int) % 2 ^ 32
  | slt => v.toNat = if a.toInt < b.toInt then 1 else 0
  | sltu => v.toNat = if a.toNat < b.toNat then 1 else 0
  | xor => ∀ i, v.getLsbD i = (a.getLsbD i ^^ b.getLsbD i)
  | or => ∀ i, v.getLsbD i = (a.getLsbD i || b.getLsbD i)
  | and => ∀ i, v.getLsbD i = (a.getLsbD i && b.getLsbD i)
  | sll => v.toNat = a.toNat * 2 ^ (b.toNat % 32) % 2 ^ 32
  | srl => v.toNat = a.toNat / 2 ^ (b.toNat % 32)
  | sra => v.toInt = a.toInt.fdiv (2 ^ (b.toNat % 32))
  | _ => False

def registerForm? : Opcode → Option Opcode
  | addi => some add
  | slti => some slt
  | sltiu => some sltu
  | xori => some xor
  | ori => some or
  | andi => some and
  | slli => some sll
  | srli => some srl
  | srai => some sra
  | _ => none

/-- An immediate stands for a word. As a shift amount it is below 32, and stands for every word
that has it in its low bits. -/
def Matches (o : Opcode) (imm : BitVec 12) (b : Word) : Prop :=
  if o.shiftsByImmediate then imm.toNat % 64 = b.toNat % 32 else b = imm.signExtend 32

open Instruction in
/-- An instruction whose source holds a word puts a value in its destination if its word has an
immediate, whatever registers they are. -/
def YieldsImmediate (o : Opcode) (a : Word) (imm : BitVec 12) (v : Word) : Prop :=
  ∀ (h : Hart) (word : Word), h.word? = some word → ofWord word = o →
    word.extractLsb' 20 12 = imm → rd word ≠ .zero → h.read (rs1 word) = a →
    ∃ s h', h.step = .ok (.ok s, h') ∧ h'.read (rd word) = v

theorem exists_computes (h : o.combines = true) (a b : Word) :
    o.format = .R ∧ ∃ v, (∀ pc rd, o.effect pc ⟨rd, a, b, 0⟩ = .ok (.write v)) ∧
      o.Computes a b v := by
  have hlt := toNat_and_31_lt b
  have hamount := Word.toNat_and_31 b
  cases o
  case add => exact ⟨rfl, _, fun _ _ => rfl, BitVec.toNat_add a b⟩
  case sub => exact ⟨rfl, _, fun _ _ => rfl, Word.toNat_sub_eq a b⟩
  case slt =>
    refine ⟨rfl, .ofBool (a.slt b), fun _ _ => rfl, ?_⟩
    rw [BitVec.slt_eq_decide]
    exact Word.toNat_ofBool _
  case sltu => exact ⟨rfl, _, fun _ _ => rfl, Word.toNat_ofBool _⟩
  case xor => exact ⟨rfl, _, fun _ _ => rfl, fun _ => BitVec.getLsbD_xor⟩
  case or => exact ⟨rfl, _, fun _ _ => rfl, fun _ => BitVec.getLsbD_or⟩
  case and => exact ⟨rfl, _, fun _ _ => rfl, fun _ => BitVec.getLsbD_and⟩
  case sll =>
    refine ⟨rfl, a <<< (b &&& 31).toNat, fun pc rd => ?_, ?_⟩
    · rw [effect, Checked.shiftLeft_of_lt _ hlt]
      rfl
    · rw [Computes, BitVec.toNat_shiftLeft, Nat.shiftLeft_eq, hamount]
  case srl =>
    refine ⟨rfl, a >>> (b &&& 31).toNat, fun pc rd => ?_, ?_⟩
    · rw [effect, Checked.shiftRight_of_lt _ hlt]
      rfl
    · rw [Computes, BitVec.toNat_ushiftRight, Nat.shiftRight_eq_div_pow, hamount]
  case sra =>
    refine ⟨rfl, a.sshiftRight (b &&& 31).toNat, fun pc rd => ?_, ?_⟩
    · rw [effect, Checked.shiftRightSigned_of_lt _ hlt]
      rfl
    · rw [Computes, Word.toInt_sshiftRight_eq, hamount]
  all_goals cases h

theorem combines_of_registerForm (h : o.registerForm? = some o') :
    o.format = .I ∧ o'.combines = true := by
  cases o
  case addi | slti | sltiu | xori | ori | andi | slli | srli | srai =>
    obtain rfl := Option.some.inj h
    exact ⟨rfl, rfl⟩
  all_goals cases h

theorem ofShift_of_amount {shift : Word → Nat → Except Crash Word}
    (hamount : imm.toNat % 64 = b.toNat % 32) (a : Word) :
    Effect.ofShift shift a (imm.signExtend 32) =
      shift a (b &&& 31).toNat >>= fun v => .ok (.write v) := by
  have hmod := Word.toNat_signExtend_mod imm
  have hlt : (imm.signExtend 32).toNat % 64 < 32 := by omega
  have hsame : (imm.signExtend 32 &&& 31 : Word).toNat = (b &&& 31).toNat := by
    rw [Word.toNat_and_31, Word.toNat_and_31]
    omega
  rw [Effect.ofShift, if_pos (Word.and_32_of_lt hlt), hsame]
  rfl

theorem effect_of_registerForm (h : o.registerForm? = some o') (hmatch : o.Matches imm b)
    (pc : Word) (rd : Reg) :
    o.effect pc ⟨rd, a, 0, imm.signExtend 32⟩ = o'.effect pc ⟨rd, a, b, 0⟩ := by
  cases o
  case addi | slti | sltiu | xori | ori | andi =>
    obtain rfl := Option.some.inj h
    obtain rfl : b = imm.signExtend 32 := hmatch
    rfl
  case slli | srli | srai =>
    obtain rfl := Option.some.inj h
    exact ofShift_of_amount hmatch a
  all_goals cases h

theorem yieldsImmediate_of_effect (hformat : o.format = .I)
    (heffect : ∀ pc rd, o.effect pc ⟨rd, a, 0, imm.signExtend 32⟩ = .ok (.write v)) :
    o.YieldsImmediate a imm v := by
  rintro h word hword rfl rfl hrd rfl
  have hoperands : h.operands word =
      ⟨Instruction.rd word, h.read (Instruction.rs1 word), 0, Instruction.immI word⟩ := by
    rw [Hart.operands, hformat]
    rfl
  have hwrite : (ofWord word).effect h.pc (h.operands word) = .ok (.write v) := by
    rw [hoperands, Instruction.immI_eq]
    exact heffect _ _
  exact Hart.exists_step_of_write hword hwrite hrd

theorem yields_of_combines (h : o.combines = true) (a b : Word) :
    ∃ v, o.Yields a b v ∧ o.Computes a b v := by
  obtain ⟨hformat, v, heffect, hv⟩ := exists_computes h a b
  exact ⟨v, yields_of_effect hformat heffect, hv⟩

theorem yields_of_registerForm (h : o.registerForm? = some o') (hmatch : o.Matches imm b)
    (a : Word) : ∃ v, o.YieldsImmediate a imm v ∧ o'.Yields a b v ∧ o'.Computes a b v := by
  obtain ⟨hformat, hcombines⟩ := combines_of_registerForm h
  obtain ⟨hformat', v, heffect, hv⟩ := exists_computes hcombines a b
  have himmediate : o.YieldsImmediate a imm v := by
    refine yieldsImmediate_of_effect hformat fun pc rd => ?_
    rw [effect_of_registerForm h hmatch]
    exact heffect pc rd
  exact ⟨v, himmediate, yields_of_effect hformat' heffect, hv⟩

theorem step_of_reserved {h : Hart} {word : Word} (hword : h.word? = some word)
    (hshift : (ofWord word).shiftsByImmediate = true) (hbit : word.getLsbD 25 = true) :
    ∃ s h', h.step = .ok (.ok s, h') ∧ (∀ r, h'.read r = h.read r) ∧ h'.pc = h.pc + 4 ∧
      h'.ram = h.ram := by
  have heffect := Hart.effect_of_reserved (h := h) hshift hbit
  exact ⟨_, _, Hart.step_of_perform (Hart.fetch_of_word? hword) heffect rfl,
    fun r => h.read_write_zero 0 r, rfl, rfl⟩

/-- An instruction on two registers leaves what it computes in numbers, and one with an immediate
leaves the same word as it does if the immediate stands for what the second register holds. A shift
by an immediate that reaches into the sixth bit does nothing. -/
theorem immediate_register_forms (a : Word) :
    (∀ (o : Opcode) (b : Word), o.combines = true → ∃ v, o.Yields a b v ∧ o.Computes a b v) ∧
    (∀ (o o' : Opcode) (imm : BitVec 12) (b : Word), o.registerForm? = some o' → o.Matches imm b →
      ∃ v, o.YieldsImmediate a imm v ∧ o'.Yields a b v ∧ o'.Computes a b v) ∧
    ∀ (h : Hart) (word : Word), h.word? = some word → (ofWord word).shiftsByImmediate = true →
      word.getLsbD 25 = true →
      ∃ s h', h.step = .ok (.ok s, h') ∧ (∀ r, h'.read r = h.read r) ∧ h'.pc = h.pc + 4 ∧
        h'.ram = h.ram :=
  ⟨fun _ b h => yields_of_combines h a b, fun _ _ _ _ h hmatch => yields_of_registerForm h hmatch a,
    fun _ _ => step_of_reserved⟩

/-- The least number, shifted by 31 places once as an immediate and once by the low bits of a
register. -/
theorem immediate_register_forms_srai :
    ∃ (h₁ : Hart) (s₁ : Step) (h₁' h₂ : Hart) (s₂ : Step) (h₂' : Hart),
      Hart.holding [0x41f2d313] [(5, 0x80000000)] = .ok h₁ ∧ h₁.step = .ok (.ok s₁, h₁') ∧
      Hart.holding [0x4072d333] [(5, 0x80000000), (7, 0xffffffff)] = .ok h₂ ∧
      h₂.step = .ok (.ok s₂, h₂') ∧ h₁'.read 6 = h₂'.read 6 ∧ (h₁'.read 6).toInt = -1 := by
  have hcalls : (do
      let h₁ ← Hart.holding [0x41f2d313] [(5, 0x80000000)]
      let h₂ ← Hart.holding [0x4072d333] [(5, 0x80000000), (7, 0xffffffff)]
      return (h₁.word?, h₁.read 5, h₂.word?, h₂.read 5, h₂.read 7) : Except Crash _).toOption =
      some (some 0x41f2d313, 0x80000000, some 0x4072d333, 0x80000000, 0xffffffff) := by
    decide +kernel
  obtain ⟨h₁, hcreate₁, hcalls⟩ := bind_eq_ok (eq_ok_of_toOption hcalls)
  obtain ⟨h₂, hcreate₂, hcalls⟩ := bind_eq_ok hcalls
  simp only [Prod.mk.injEq, Except.ok.injEq, pure, Except.pure] at hcalls
  obtain ⟨hword₁, hsrc₁, hword₂, hsrc₂, hamount⟩ := hcalls
  obtain ⟨-, hforms, -⟩ := immediate_register_forms 0x80000000
  obtain ⟨v, himmediate, hregister, hv⟩ :=
    hforms srai sra 0x41f 0xffffffff rfl (by decide : (0x41f : BitVec 12).toNat % 64 = 31)
  obtain ⟨s₁, h₁', hstep₁, hread₁⟩ :=
    himmediate h₁ _ hword₁ (by decide +kernel) (by decide) (by decide) hsrc₁
  obtain ⟨s₂, h₂', hstep₂, hread₂⟩ :=
    hregister h₂ _ hword₂ (by decide +kernel) (by decide) hsrc₂ hamount
  have hread : h₁'.read 6 = v := hread₁
  have hread' : h₂'.read 6 = v := hread₂
  refine ⟨h₁, s₁, h₁', h₂, s₂, h₂', hcreate₁, hstep₁, hcreate₂, hstep₂, hread.trans hread'.symm, ?_⟩
  rw [hread]
  exact hv.trans (by decide)

end Opcode

end Hartwatch
