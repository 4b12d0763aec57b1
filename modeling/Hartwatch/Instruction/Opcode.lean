import Hartwatch.Instruction.Pattern

/-! The instructions of RV32IM, each with its name, its encoding format and the pattern of its
words. A word belongs to the first instruction of the list that recognizes it; the last one is
the invalid instruction, which recognizes every word. -/

namespace Hartwatch

inductive Opcode where
  | lui | auipc | jal | jalr | beq | bne | blt | bge | bltu | bgeu | lb | lh | lw | lbu | lhu | sb
  | sh | sw | addi | slti | sltiu | xori | ori | andi | slli | srli | srai | add | sub | sll | slt
  | sltu | xor | srl | sra | or | and | mul | mulh | mulhsu | mulhu | div | divu | rem | remu
  | ecall | ebreak | inv
  deriving DecidableEq, Repr

inductive Format where
  | I | U | S | J | R | B | N
  deriving DecidableEq, Repr

namespace Format

def name : Format → String
  | I => "I"
  | U => "U"
  | S => "S"
  | J => "J"
  | R => "R"
  | B => "B"
  | N => "N"

end Format

namespace Opcode

def name : Opcode → String
  | lui => "lui"
  | auipc => "auipc"
  | jal => "jal"
  | jalr => "jalr"
  | beq => "beq"
  | bne => "bne"
  | blt => "blt"
  | bge => "bge"
  | bltu => "bltu"
  | bgeu => "bgeu"
  | lb => "lb"
  | lh => "lh"
  | lw => "lw"
  | lbu => "lbu"
  | lhu => "lhu"
  | sb => "sb"
  | sh => "sh"
  | sw => "sw"
  | addi => "addi"
  | slti => "slti"
  | sltiu => "sltiu"
  | xori => "xori"
  | ori => "ori"
  | andi => "andi"
  | slli => "slli"
  | srli => "srli"
  | srai => "srai"
  | add => "add"
  | sub => "sub"
  | sll => "sll"
  | slt => "slt"
  | sltu => "sltu"
  | xor => "xor"
  | srl => "srl"
  | sra => "sra"
  | or => "or"
  | and => "and"
  | mul => "mul"
  | mulh => "mulh"
  | mulhsu => "mulhsu"
  | mulhu => "mulhu"
  | div => "div"
  | divu => "divu"
  | rem => "rem"
  | remu => "remu"
  | ecall => "ecall"
  | ebreak => "ebreak"
  | inv => "inv"

def format : Opcode → Format
  | lui | auipc => .U
  | jal => .J
  | jalr => .I
  | beq | bne | blt | bge | bltu | bgeu => .B
  | lb | lh | lw | lbu | lhu => .I
  | sb | sh | sw => .S
  | addi | slti | sltiu | xori | ori | andi | slli | srli | srai => .I
  | add | sub | sll | slt | sltu | xor | srl | sra | or | and | mul | mulh | mulhsu | mulhu
  | div | divu | rem | remu => .R
  | ecall | ebreak | inv => .N

def template : Opcode → String
  | lui => "??????? ????? ????? ??? ????? 01101 11"
  | auipc => "??????? ????? ????? ??? ????? 00101 11"
  | jal => "??????? ????? ????? ??? ????? 11011 11"
  | jalr => "??????? ????? ????? 000 ????? 11001 11"
  | beq => "??????? ????? ????? 000 ????? 11000 11"
  | bne => "??????? ????? ????? 001 ????? 11000 11"
  | blt => "??????? ????? ????? 100 ????? 11000 11"
  | bge => "??????? ????? ????? 101 ????? 11000 11"
  | bltu => "??????? ????? ????? 110 ????? 11000 11"
  | bgeu => "??????? ????? ????? 111 ????? 11000 11"
  | lb => "??????? ????? ????? 000 ????? 00000 11"
  | lh => "??????? ????? ????? 001 ????? 00000 11"
  | lw => "??????? ????? ????? 010 ????? 00000 11"
  | lbu => "??????? ????? ????? 100 ????? 00000 11"
  | lhu => "??????? ????? ????? 101 ????? 00000 11"
  | sb => "??????? ????? ????? 000 ????? 01000 11"
  | sh => "??????? ????? ????? 001 ????? 01000 11"
  | sw => "??????? ????? ????? 010 ????? 01000 11"
  | addi => "??????? ????? ????? 000 ????? 00100 11"
  | slti => "??????? ????? ????? 010 ????? 00100 11"
  | sltiu => "??????? ????? ????? 011 ????? 00100 11"
  | xori => "??????? ????? ????? 100 ????? 00100 11"
  | ori => "??????? ????? ????? 110 ????? 00100 11"
  | andi => "??????? ????? ????? 111 ????? 00100 11"
  | slli => "000000? ????? ????? 001 ????? 00100 11"
  | srli => "000000? ????? ????? 101 ????? 00100 11"
  | srai => "010000? ????? ????? 101 ????? 00100 11"
  | add => "0000000 ????? ????? 000 ????? 01100 11"
  | sub => "0100000 ????? ????? 000 ????? 01100 11"
  | sll => "0000000 ????? ????? 001 ????? 01100 11"
  | slt => "0000000 ????? ????? 010 ????? 01100 11"
  | sltu => "0000000 ????? ????? 011 ????? 01100 11"
  | xor => "0000000 ????? ????? 100 ????? 01100 11"
  | srl => "0000000 ????? ????? 101 ????? 01100 11"
  | sra => "0100000 ????? ????? 101 ????? 01100 11"
  | or => "0000000 ????? ????? 110 ????? 01100 11"
  | and => "0000000 ????? ????? 111 ????? 01100 11"
  | mul => "0000001 ????? ????? 000 ????? 01100 11"
  | mulh => "0000001 ????? ????? 001 ????? 01100 11"
  | mulhsu => "0000001 ????? ????? 010 ????? 01100 11"
  | mulhu => "0000001 ????? ????? 011 ????? 01100 11"
  | div => "0000001 ????? ????? 100 ????? 01100 11"
  | divu => "0000001 ????? ????? 101 ????? 01100 11"
  | rem => "0000001 ????? ????? 110 ????? 01100 11"
  | remu => "0000001 ????? ????? 111 ????? 01100 11"
  | ecall => "0000000 00000 00000 000 00000 11100 11"
  | ebreak => "0000000 00001 00000 000 00000 11100 11"
  | inv => "??????? ????? ????? ??? ????? ????? ??"

def pattern : Opcode → Pattern
  | lui => ⟨0x0000007f, 0x00000037⟩
  | auipc => ⟨0x0000007f, 0x00000017⟩
  | jal => ⟨0x0000007f, 0x0000006f⟩
  | jalr => ⟨0x0000707f, 0x00000067⟩
  | beq => ⟨0x0000707f, 0x00000063⟩
  | bne => ⟨0x0000707f, 0x00001063⟩
  | blt => ⟨0x0000707f, 0x00004063⟩
  | bge => ⟨0x0000707f, 0x00005063⟩
  | bltu => ⟨0x0000707f, 0x00006063⟩
  | bgeu => ⟨0x0000707f, 0x00007063⟩
  | lb => ⟨0x0000707f, 0x00000003⟩
  | lh => ⟨0x0000707f, 0x00001003⟩
  | lw => ⟨0x0000707f, 0x00002003⟩
  | lbu => ⟨0x0000707f, 0x00004003⟩
  | lhu => ⟨0x0000707f, 0x00005003⟩
  | sb => ⟨0x0000707f, 0x00000023⟩
  | sh => ⟨0x0000707f, 0x00001023⟩
  | sw => ⟨0x0000707f, 0x00002023⟩
  | addi => ⟨0x0000707f, 0x00000013⟩
  | slti => ⟨0x0000707f, 0x00002013⟩
  | sltiu => ⟨0x0000707f, 0x00003013⟩
  | xori => ⟨0x0000707f, 0x00004013⟩
  | ori => ⟨0x0000707f, 0x00006013⟩
  | andi => ⟨0x0000707f, 0x00007013⟩
  | slli => ⟨0xfc00707f, 0x00001013⟩
  | srli => ⟨0xfc00707f, 0x00005013⟩
  | srai => ⟨0xfc00707f, 0x40005013⟩
  | add => ⟨0xfe00707f, 0x00000033⟩
  | sub => ⟨0xfe00707f, 0x40000033⟩
  | sll => ⟨0xfe00707f, 0x00001033⟩
  | slt => ⟨0xfe00707f, 0x00002033⟩
  | sltu => ⟨0xfe00707f, 0x00003033⟩
  | xor => ⟨0xfe00707f, 0x00004033⟩
  | srl => ⟨0xfe00707f, 0x00005033⟩
  | sra => ⟨0xfe00707f, 0x40005033⟩
  | or => ⟨0xfe00707f, 0x00006033⟩
  | and => ⟨0xfe00707f, 0x00007033⟩
  | mul => ⟨0xfe00707f, 0x02000033⟩
  | mulh => ⟨0xfe00707f, 0x02001033⟩
  | mulhsu => ⟨0xfe00707f, 0x02002033⟩
  | mulhu => ⟨0xfe00707f, 0x02003033⟩
  | div => ⟨0xfe00707f, 0x02004033⟩
  | divu => ⟨0xfe00707f, 0x02005033⟩
  | rem => ⟨0xfe00707f, 0x02006033⟩
  | remu => ⟨0xfe00707f, 0x02007033⟩
  | ecall => ⟨0xffffffff, 0x00000073⟩
  | ebreak => ⟨0xffffffff, 0x00100073⟩
  | inv => ⟨0x00000000, 0x00000000⟩

set_option maxRecDepth 2000 in
theorem ofTemplate_template (o : Opcode) : Pattern.ofTemplate o.template = .ok o.pattern := by
  cases o <;> exact (Pattern.ofTemplate_ofList _).trans rfl

/-- The instructions in the order in which words are matched against them. -/
def all : List Opcode :=
  [lui, auipc, jal, jalr, beq, bne, blt, bge, bltu, bgeu, lb, lh, lw, lbu, lhu, sb, sh, sw, addi,
    slti, sltiu, xori, ori, andi, slli, srli, srai, add, sub, sll, slt, sltu, xor, srl, sra, or,
    and, mul, mulh, mulhsu, mulhu, div, divu, rem, remu, ecall, ebreak, inv]

def ofWord (w : Word) : Opcode :=
  (all.find? fun o => o.pattern.recognizes w).getD inv

end Opcode

end Hartwatch
