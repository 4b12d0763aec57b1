import Hartwatch.Proofs.Instruction.Immediates
import Hartwatch.Proofs.Machine.Frame

/-! Where a program goes on behind an instruction that completes, by the numbers that the pc, the
registers and the immediate of the word stand for. Addresses wrap at the end of the address space,
and a jump reads its base before it links. -/

namespace Hartwatch

namespace Word

theorem toNat_add_toInt (a x : Word) : ((a + x).toNat : Int) = (a.toNat + x.toInt) % 2 ^ 32 := by
  have hx := BitVec.toInt_eq_toNat_cond x
  have hlt := x.isLt
  rw [BitVec.toNat_add]
  split at hx <;> omega

theorem toNat_clearLast (a : Word) : (a &&& ~~~1 : Word).toNat = a.toNat - a.toNat % 2 := by
  have hmask : (~~~1 : Word) = Pattern.span 1 31 := by decide
  have hshift : (a &&& ~~~1 : Word) = a >>> 1 <<< 1 := by
    rw [hmask]
    ext i hi
    rw [BitVec.getElem_and, Pattern.getElem_span hi, BitVec.getElem_shiftLeft]
    cases i with
    | zero => simp
    | succ i =>
      have hplace : 1 + i = i + 1 := Nat.add_comm 1 i
      have hin : i + 1 < 1 + 31 := hi
      simp [hplace, hin]
  have hlt := a.isLt
  rw [hshift, BitVec.toNat_shiftLeft, BitVec.toNat_ushiftRight, Nat.shiftLeft_eq,
    Nat.shiftRight_eq_div_pow]
  omega

end Word

/-- Where an effect goes on that ends without a trap. -/
def Effect.next (pc : Word) : Effect → Word
  | jump target => target
  | branch taken target => if taken then target else pc + 4
  | _ => pc + 4

namespace Opcode

variable {o o' : Opcode} {pc a b : Word} {x : Operands} {e : Effect}

def jumps : Opcode → Bool
  | jal | jalr => true
  | _ => false

def Takes (a b : Word) : Opcode → Prop
  | beq => a.toInt = b.toInt
  | bne => a.toInt ≠ b.toInt
  | blt => a.toInt < b.toInt
  | bge => b.toInt ≤ a.toInt
  | bltu => a.toNat < b.toNat
  | bgeu => b.toNat ≤ a.toNat
  | _ => False

def opposite? : Opcode → Option Opcode
  | beq => some bne
  | bne => some beq
  | blt => some bge
  | bge => some blt
  | bltu => some bgeu
  | bgeu => some bltu
  | _ => none

theorem takes_opposite (h : o.opposite? = some o') (a b : Word) :
    o'.Takes a b ↔ ¬ o.Takes a b := by
  cases o
  case beq | bne | blt | bge | bltu | bgeu =>
    obtain rfl := Option.some.inj h
    simp [Takes]
  all_goals cases h

theorem branches_of_opposite (h : o.opposite? = some o') :
    o.branches = true ∧ o'.branches = true := by
  cases o
  case beq | bne | blt | bge | bltu | bgeu =>
    obtain rfl := Option.some.inj h
    exact ⟨rfl, rfl⟩
  all_goals cases h

theorem effect_taken_iff (h : o.branches = true) (pc : Word) (x : Operands) :
    o.format = .B ∧ ∃ taken, o.effect pc x = .ok (.branch taken (pc + x.imm)) ∧
      (taken = true ↔ o.Takes x.src1 x.src2) := by
  cases o
  case beq => exact ⟨rfl, _, rfl, by simp [Takes, BitVec.toInt_inj]⟩
  case bne => exact ⟨rfl, _, rfl, by simp [Takes, BitVec.toInt_inj]⟩
  case blt => exact ⟨rfl, _, rfl, BitVec.slt_iff_toInt_lt⟩
  case bge => exact ⟨rfl, _, rfl, BitVec.sle_iff_toInt_le⟩
  case bltu => exact ⟨rfl, _, rfl, BitVec.ult_iff_toNat_lt⟩
  case bgeu => exact ⟨rfl, _, rfl, BitVec.ule_iff_toNat_le⟩
  all_goals cases h

theorem effect_of_jump (h : o.jumps = true) (pc : Word) (x : Operands) :
    ∃ target, o.effect pc x = .ok (.jump target) := by
  cases o
  case jal | jalr => exact ⟨_, rfl⟩
  all_goals cases h

theorem next_of_effect (hbranch : o.branches = false) (hjump : o.jumps = false)
    (he : o.effect pc x = .ok e) : e.next pc = pc + 4 := by
  cases o
  case beq | bne | blt | bge | bltu | bgeu => cases hbranch
  case jal | jalr => cases hjump
  case slli | srli | srai =>
    rcases Effect.ofShift_eq_ok he with rfl | ⟨v, rfl⟩ <;> rfl
  case sll | srl | sra =>
    obtain ⟨v, -, hv⟩ := bind_eq_ok he
    obtain rfl := Except.ok.inj hv
    rfl
  case mulh | mulhsu | mulhu =>
    obtain ⟨v, rfl⟩ := Effect.ofHighHalf_eq_ok he
    rfl
  case div | divu | rem | remu =>
    obtain ⟨v, rfl⟩ := Effect.ofDivision_eq_ok he
    rfl
  all_goals
    obtain rfl := Except.ok.inj he
    rfl

end Opcode

namespace Hart

open Instruction

variable {h h' h₂ h₂' : Hart} {s s₂ : Step} {r : Reg} {word next : Word} {e : Effect}

/-- A hart stands at a distance behind another one, in an address space that wraps. -/
def Moves (h : Hart) (distance : Int) (h' : Hart) : Prop :=
  (h'.pc.toNat : Int) = (h.pc.toNat + distance) % 2 ^ 32

structure Transfers (h : Hart) (word : Word) (h' : Hart) : Prop where
  taken : (Opcode.ofWord word).branches = true →
    (Opcode.ofWord word).Takes (h.read (rs1 word)) (h.read (rs2 word)) →
    h.Moves (Format.B.offset word) h'
  untaken : (Opcode.ofWord word).branches = true →
    ¬ (Opcode.ofWord word).Takes (h.read (rs1 word)) (h.read (rs2 word)) → h.Moves 4 h'
  jal : Opcode.ofWord word = .jal → h.Moves (Format.J.offset word) h'
  jalr : Opcode.ofWord word = .jalr → ∃ target : Nat,
    (target : Int) = ((h.read (rs1 word)).toNat + Format.I.offset word) % 2 ^ 32 ∧
      h'.pc.toNat = target - target % 2
  straight : (Opcode.ofWord word).branches = false → (Opcode.ofWord word).jumps = false →
    h.Moves 4 h'
  link : (Opcode.ofWord word).jumps = true → h'.read .zero = 0 ∧
    ∀ r, r ≠ .zero → h'.read r = if r = rd word then h.pc + 4 else h.read r

theorem Leaves.next_eq (hl : h.Leaves (.straight h.pc word) r e next h') : next = e.next h.pc := by
  cases hl <;> rfl

theorem pc_of_effect (hs : h.step = .ok (.ok s, h'))
    (he : (Opcode.ofWord s.word).effect h.pc (h.operands s.word) = .ok e) :
    h'.pc = e.next h.pc := by
  obtain ⟨e', h₁, -, heffect, hleaves, -, rfl⟩ := step_completed hs
  obtain rfl := Except.ok.inj (heffect.symm.trans he)
  exact hleaves.next_eq

theorem moves_of_pc {x : Word} {distance : Int} (hx : x.toInt = distance)
    (hpc : h'.pc = h.pc + x) : h.Moves distance h' := by
  rw [Moves, hpc, Word.toNat_add_toInt, hx]

theorem moves_of_branch (hs : h.step = .ok (.ok s, h'))
    (ho : (Opcode.ofWord s.word).branches = true) :
    ((Opcode.ofWord s.word).Takes (h.read (rs1 s.word)) (h.read (rs2 s.word)) →
        h.Moves (Format.B.offset s.word) h') ∧
      (¬ (Opcode.ofWord s.word).Takes (h.read (rs1 s.word)) (h.read (rs2 s.word)) →
        h.Moves 4 h') := by
  obtain ⟨hformat, taken, heffect, htaken⟩ :=
    Opcode.effect_taken_iff ho h.pc (h.operands s.word)
  have hoperands : h.operands s.word =
      ⟨rd s.word, h.read (rs1 s.word), h.read (rs2 s.word), immB s.word⟩ := by
    rw [operands, hformat]
    rfl
  have hpc := pc_of_effect hs heffect
  rw [hoperands] at hpc htaken
  refine ⟨fun htakes => ?_, fun hnot => ?_⟩
  · obtain rfl := htaken.mpr htakes
    exact moves_of_pc (toInt_immediate .B s.word) hpc
  · obtain rfl : taken = false := Bool.eq_false_iff.mpr fun ht => hnot (htaken.mp ht)
    exact moves_of_pc (x := 4) rfl hpc

theorem moves_of_jal (hs : h.step = .ok (.ok s, h')) (ho : Opcode.ofWord s.word = .jal) :
    h.Moves (Format.J.offset s.word) h' := by
  have heffect : (Opcode.ofWord s.word).effect h.pc (h.operands s.word) =
      .ok (.jump (h.pc + immJ s.word)) := by
    rw [operands, ho]
    rfl
  exact moves_of_pc (toInt_immediate .J s.word) (pc_of_effect hs heffect)

theorem pc_of_jalr (hs : h.step = .ok (.ok s, h')) (ho : Opcode.ofWord s.word = .jalr) :
    ∃ target : Nat,
      (target : Int) = ((h.read (rs1 s.word)).toNat + Format.I.offset s.word) % 2 ^ 32 ∧
        h'.pc.toNat = target - target % 2 := by
  have heffect : (Opcode.ofWord s.word).effect h.pc (h.operands s.word) =
      .ok (.jump ((h.read (rs1 s.word) + immI s.word) &&& ~~~1)) := by
    rw [operands, ho]
    rfl
  have hpc : h'.pc = (h.read (rs1 s.word) + immI s.word) &&& ~~~1 := pc_of_effect hs heffect
  have himm : (immI s.word).toInt = Format.I.offset s.word := toInt_immediate .I s.word
  refine ⟨(h.read (rs1 s.word) + immI s.word).toNat, ?_, ?_⟩
  · rw [Word.toNat_add_toInt, himm]
  · rw [hpc, Word.toNat_clearLast]

theorem link_of_jump (hs : h.step = .ok (.ok s, h')) (ho : (Opcode.ofWord s.word).jumps = true)
    (hr : r ≠ .zero) :
    h'.read r = if r = rd s.word then h.pc + 4 else h.read r := by
  obtain ⟨e, h₁, -, heffect, hleaves, -, rfl⟩ := step_completed hs
  obtain ⟨target, hjump⟩ := Opcode.effect_of_jump ho h.pc (h.operands s.word)
  obtain rfl := Except.ok.inj (hjump.symm.trans heffect)
  have hkept : (h₁.write .zero 0).read r = h₁.read r := h₁.read_write_zero 0 r
  refine Eq.trans hkept ?_
  cases hleaves with
  | jump =>
    split
    · next hrd =>
      subst hrd
      exact read_write_self _ hr
    · next hrd => exact read_write_ne _ hrd

theorem transfers_of_step (hs : h.step = .ok (.ok s, h')) : h.Transfers s.word h' where
  taken ho := (moves_of_branch hs ho).1
  untaken ho := (moves_of_branch hs ho).2
  jal := moves_of_jal hs
  jalr := pc_of_jalr hs
  straight hbranch hjump := by
    obtain ⟨e, h₁, -, heffect, -⟩ := step_completed hs
    have hpc := pc_of_effect hs heffect
    rw [Opcode.next_of_effect hbranch hjump heffect] at hpc
    exact moves_of_pc (x := 4) rfl hpc
  link ho := ⟨rfl, fun _ hr => link_of_jump hs ho hr⟩

theorem exists_step_of_transfer (hword : h.word? = some word)
    (ho : (Opcode.ofWord word).branches = true ∨ (Opcode.ofWord word).jumps = true) :
    ∃ s h', h.step = .ok (.ok s, h') ∧ s.word = word := by
  have hfetch := fetch_of_word? hword
  rcases ho with hbranch | hjump
  · obtain ⟨taken, target, heffect⟩ := Opcode.effect_of_branches hbranch h.pc (h.operands word)
    exact ⟨_, _, step_of_perform hfetch heffect rfl, rfl⟩
  · obtain ⟨target, heffect⟩ := Opcode.effect_of_jump hjump h.pc (h.operands word)
    exact ⟨_, _, step_of_perform hfetch heffect rfl, rfl⟩

theorem moves_of_opposite (ho : (Opcode.ofWord s.word).opposite? = some (.ofWord s₂.word))
    (hsrc1 : h₂.read (rs1 s₂.word) = h.read (rs1 s.word))
    (hsrc2 : h₂.read (rs2 s₂.word) = h.read (rs2 s.word))
    (hs : h.step = .ok (.ok s, h')) (hs₂ : h₂.step = .ok (.ok s₂, h₂')) :
    h.Moves (Format.B.offset s.word) h' ∧ h₂.Moves 4 h₂' ∨
      h.Moves 4 h' ∧ h₂.Moves (Format.B.offset s₂.word) h₂' := by
  obtain ⟨hbranch, hbranch₂⟩ := Opcode.branches_of_opposite ho
  obtain ⟨htaken, huntaken⟩ := moves_of_branch hs hbranch
  obtain ⟨htaken₂, huntaken₂⟩ := moves_of_branch hs₂ hbranch₂
  have hopposite := Opcode.takes_opposite ho (h.read (rs1 s.word)) (h.read (rs2 s.word))
  rw [hsrc1, hsrc2] at htaken₂ huntaken₂
  by_cases htakes : (Opcode.ofWord s.word).Takes (h.read (rs1 s.word)) (h.read (rs2 s.word))
  · exact .inl ⟨htaken htakes, huntaken₂ fun htakes₂ => hopposite.mp htakes₂ htakes⟩
  · exact .inr ⟨huntaken htakes, htaken₂ (hopposite.mpr htakes)⟩

/-- Every instruction that completes goes on where its word says, and a jump links. Branches and
jumps always complete, and opposite branches on the same operands take opposite ways. -/
theorem control_transfer (h : Hart) :
    (∀ s h', h.step = .ok (.ok s, h') → h.word? = some s.word ∧ h.Transfers s.word h') ∧
    ∀ word, h.word? = some word →
      ((Opcode.ofWord word).branches = true ∨ (Opcode.ofWord word).jumps = true →
        ∃ s h', h.step = .ok (.ok s, h') ∧ s.word = word) ∧
      ∀ (h₂ : Hart) (word₂ : Word), h₂.word? = some word₂ →
        (Opcode.ofWord word).opposite? = some (.ofWord word₂) →
        h₂.read (rs1 word₂) = h.read (rs1 word) → h₂.read (rs2 word₂) = h.read (rs2 word) →
        ∃ s h' s₂ h₂', h.step = .ok (.ok s, h') ∧ h₂.step = .ok (.ok s₂, h₂') ∧
          (h.Moves (Format.B.offset word) h' ∧ h₂.Moves 4 h₂' ∨
            h.Moves 4 h' ∧ h₂.Moves (Format.B.offset word₂) h₂') := by
  refine ⟨fun s h' hs => ?_, fun word hword => ⟨exists_step_of_transfer hword, ?_⟩⟩
  · obtain ⟨e, h₁, hfetch, -⟩ := step_completed hs
    exact ⟨word?_of_fetch hfetch, transfers_of_step hs⟩
  · intro h₂ word₂ hword₂ ho hsrc1 hsrc2
    obtain ⟨hbranch, hbranch₂⟩ := Opcode.branches_of_opposite ho
    obtain ⟨s, h', hs, rfl⟩ := exists_step_of_transfer hword (.inl hbranch)
    obtain ⟨s₂, h₂', hs₂, rfl⟩ := exists_step_of_transfer hword₂ (.inl hbranch₂)
    exact ⟨s, h', s₂, h₂', hs, hs₂, moves_of_opposite ho hsrc1 hsrc2 hs hs₂⟩

/-- The jump goes to an odd address below zero, from the register that it links. -/
theorem control_transfer_linking_base :
    ∃ h s h', holding [0xfff282e7] [(5, 0)] = .ok h ∧ h.step = .ok (.ok s, h') ∧
      h'.pc = 0xfffffffe ∧ h'.read 5 = 0x80000004 := by
  have hcalls : (do
      let h ← holding [0xfff282e7] [(5, 0)]
      return (h.word?, h.pc, h.read 5) : Except Crash _).toOption =
      some (some 0xfff282e7, 0x80000000, 0) := by
    decide +kernel
  obtain ⟨h, hcreate, hcalls⟩ := bind_eq_ok (eq_ok_of_toOption hcalls)
  simp only [Prod.mk.injEq, Except.ok.injEq, pure, Except.pure] at hcalls
  obtain ⟨hword, hpc, hbase⟩ := hcalls
  have hopcode : Opcode.ofWord 0xfff282e7 = .jalr := by decide +kernel
  have hoffset : Format.I.offset 0xfff282e7 = -1 := by decide +kernel
  obtain ⟨htransfers, hcompletes⟩ := control_transfer h
  obtain ⟨s, h', hs, hrecord⟩ := (hcompletes _ hword).1 (.inr (by rw [hopcode]; rfl))
  obtain ⟨-, hgoes⟩ := htransfers s h' hs
  rw [hrecord] at hgoes
  obtain ⟨target, htarget, htransfer⟩ := hgoes.jalr hopcode
  rw [show rs1 0xfff282e7 = 5 from rfl, hbase, hoffset] at htarget
  refine ⟨h, s, h', hcreate, hs, BitVec.eq_of_toNat_eq ?_, ?_⟩
  · have hvalue : target = 0xffffffff := by
      have hinteger : (target : Int) = 0xffffffff := htarget
      omega
    rw [htransfer, hvalue]
    rfl
  · have hlink := (hgoes.link (by rw [hopcode]; rfl)).2 5 (by decide)
    rw [hpc] at hlink
    exact hlink

end Hart

end Hartwatch
