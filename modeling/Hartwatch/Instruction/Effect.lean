import Hartwatch.Crash
import Hartwatch.Instruction.Immediate
import Hartwatch.Instruction.Opcode
import Hartwatch.Trap

/-! What an instruction does, as a function of its operands and its address. The meaning of
each opcode is one of a few effects, and the hart only knows how to carry those out. -/

namespace Hartwatch

/-- Fields that a format does not have are zero. -/
structure Operands where
  rd : Reg
  src1 : Word
  src2 : Word
  imm : Word
  deriving DecidableEq, Repr

def Format.operands (f : Format) (w : Word) (read : Reg → Word) : Operands :=
  let rd := Instruction.rd w
  let src1 := read (Instruction.rs1 w)
  let src2 := read (Instruction.rs2 w)
  match f with
  | I => ⟨rd, src1, 0, Instruction.immI w⟩
  | U => ⟨rd, 0, 0, Instruction.immU w⟩
  | S => ⟨rd, src1, src2, Instruction.immS w⟩
  | J => ⟨rd, 0, 0, Instruction.immJ w⟩
  | R => ⟨rd, src1, src2, 0⟩
  | B => ⟨rd, src1, src2, Instruction.immB w⟩
  | N => ⟨rd, 0, 0, 0⟩

inductive Effect where
  /-- Leaves everything but the pc as it is. -/
  | skip
  /-- Puts a value into the destination register. -/
  | write (value : Word)
  /-- Goes on at the target and puts the fall-through address into the destination register. -/
  | jump (target : Word)
  /-- Goes on at the target if the branch is taken. -/
  | branch (taken : Bool) (target : Word)
  /-- Puts `width` bytes of memory, extended by sign or by zeros, into the destination register. -/
  | load (width : Nat) (signed : Bool) (address : Word)
  /-- Writes the low `width` bytes of a value to memory. -/
  | store (width : Nat) (address : Word) (value : Word)
  | illegal
  | environmentCall
  | breakpoint
  deriving DecidableEq, Repr

namespace Effect

/-- A shift amount is five bits wide; an immediate one with a sixth bit is reserved and does
nothing. -/
def ofShift (shift : Word → Nat → Except Crash Word) (x imm : Word) : Except Crash Effect :=
  if imm &&& 32 = 0 then do return write (← shift x (imm &&& 31).toNat) else return skip

def ofHighHalf (product : Except Crash (BitVec 64)) : Except Crash Effect := do
  return write (((← product) >>> 32).setWidth 32)

/-- A quotient or remainder, with a fixed value where the divisor is zero. -/
def ofDivision (divide : Word → Word → Except Crash Word) (byZero x y : Word) :
    Except Crash Effect :=
  if y = 0 then return write byZero else do return write (← divide x y)

end Effect

open Checked Effect in
def Opcode.effect (pc : Word) (x : Operands) : Opcode → Except Crash Effect
  | lui => return write x.imm
  | auipc => return write (pc + x.imm)
  | jal => return jump (pc + x.imm)
  | jalr => return jump ((x.src1 + x.imm) &&& ~~~1)
  | beq => return branch (x.src1 == x.src2) (pc + x.imm)
  | bne => return branch (x.src1 != x.src2) (pc + x.imm)
  | blt => return branch (x.src1.slt x.src2) (pc + x.imm)
  | bge => return branch (x.src2.sle x.src1) (pc + x.imm)
  | bltu => return branch (x.src1.ult x.src2) (pc + x.imm)
  | bgeu => return branch (x.src2.ule x.src1) (pc + x.imm)
  | lb => return load 1 true (x.src1 + x.imm)
  | lh => return load 2 true (x.src1 + x.imm)
  | lw => return load 4 true (x.src1 + x.imm)
  | lbu => return load 1 false (x.src1 + x.imm)
  | lhu => return load 2 false (x.src1 + x.imm)
  | sb => return store 1 (x.src1 + x.imm) x.src2
  | sh => return store 2 (x.src1 + x.imm) x.src2
  | sw => return store 4 (x.src1 + x.imm) x.src2
  | addi => return write (x.src1 + x.imm)
  | slti => return write (Word.ofBool (x.src1.slt x.imm))
  | sltiu => return write (Word.ofBool (x.src1.ult x.imm))
  | xori => return write (x.src1 ^^^ x.imm)
  | ori => return write (x.src1 ||| x.imm)
  | andi => return write (x.src1 &&& x.imm)
  | slli => ofShift shiftLeft x.src1 x.imm
  | srli => ofShift shiftRight x.src1 x.imm
  | srai => ofShift shiftRightSigned x.src1 x.imm
  | add => return write (x.src1 + x.src2)
  | sub => return write (x.src1 - x.src2)
  | sll => return write (← shiftLeft x.src1 (x.src2 &&& 31).toNat)
  | slt => return write (Word.ofBool (x.src1.slt x.src2))
  | sltu => return write (Word.ofBool (x.src1.ult x.src2))
  | xor => return write (x.src1 ^^^ x.src2)
  | srl => return write (← shiftRight x.src1 (x.src2 &&& 31).toNat)
  | sra => return write (← shiftRightSigned x.src1 (x.src2 &&& 31).toNat)
  | or => return write (x.src1 ||| x.src2)
  | and => return write (x.src1 &&& x.src2)
  | mul => return write (x.src1 * x.src2)
  | mulh => ofHighHalf (mulSigned 64 x.src1.toInt x.src2.toInt)
  | mulhsu => ofHighHalf (mulSigned 64 x.src1.toInt x.src2.toNat)
  | mulhu => ofHighHalf (mulUnsigned 64 x.src1.toNat x.src2.toNat)
  | div => ofDivision divSigned (.allOnes 32) x.src1 x.src2
  | divu => ofDivision divUnsigned (.allOnes 32) x.src1 x.src2
  | rem => ofDivision remSigned x.src1 x.src1 x.src2
  | remu => ofDivision remUnsigned x.src1 x.src1 x.src2
  | ecall => return environmentCall
  | ebreak => return breakpoint
  | inv => return illegal

end Hartwatch
