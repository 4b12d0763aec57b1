import Hartwatch.Instruction.Effect
import Hartwatch.Ram

/-! A hart is the register file, the pc and the memory behind them. One step fetches a word,
decodes it and carries out its effect. Register 0 reads as zero whatever its cell holds; the
cell is cleared after every fetched instruction, trapping or not. -/

namespace Hartwatch

structure Hart where
  regs : Vector Word 32
  pc : Word
  ram : Ram

/-- What one instruction did: where it stood, where straight-line code goes on, where the
program goes on, and the word with its decoding. -/
structure Step where
  pc : Word
  fallThrough : Word
  next : Word
  word : Word
  opcode : Opcode
  deriving DecidableEq, Repr

def instructionBytes : Word := 4

def Step.straight (pc word : Word) : Step :=
  ⟨pc, pc + instructionBytes, pc + instructionBytes, word, .ofWord word⟩

namespace Hart

def create (base : Word) (memorySize : Nat) : Except Crash Hart := do
  return ⟨.replicate 32 0, base, ← Ram.zeroed base memorySize⟩

def read (h : Hart) (r : Reg) : Word :=
  if r = .zero then 0 else h.regs.get r

/-- Fills the cell of a register, that of register 0 too. -/
def write (h : Hart) (r : Reg) (v : Word) : Hart :=
  { h with regs := h.regs.set r v }

def readAt (h : Hart) (i : Nat) : Except Crash Word :=
  if lt : i < 32 then .ok (h.read ⟨i, lt⟩) else .error .outOfRange

def writeAt (h : Hart) (i : Nat) (v : Word) : Except Crash Hart :=
  if lt : i < 32 then .ok (h.write ⟨i, lt⟩ v) else .error .outOfRange

def extend (width : Nat) (signed : Bool) (v : BitVec 64) : Word :=
  if signed then (v.setWidth (8 * width)).signExtend 32 else v.setWidth 32

/-- Carries out an effect and answers where the program goes on. -/
def perform (h : Hart) (s : Step) (rd : Reg) : Effect → Except Crash (Except Trap Word × Hart)
  | .skip => .ok (.ok s.fallThrough, h)
  | .write v => .ok (.ok s.fallThrough, h.write rd v)
  | .jump target => .ok (.ok target, h.write rd s.fallThrough)
  | .branch taken target => .ok (.ok (if taken then target else s.fallThrough), h)
  | .load width signed a => do
    match ← h.ram.load a width with
    | .error t => return (.error t, h)
    | .ok v => return (.ok s.fallThrough, h.write rd (extend width signed v))
  | .store width a v => do
    let (result, ram) ← h.ram.store a width (v.setWidth 64)
    return (result.map fun _ => s.fallThrough, { h with ram })
  | .illegal => .ok (.error ⟨.illegalInstruction, s.word⟩, h)
  | .environmentCall => .ok (.error ⟨.environmentCall, h.read .a7⟩, h)
  | .breakpoint => .ok (.error ⟨.breakpoint, h.read .a0⟩, h)

/-- Executes the instruction at the pc. After a trap the pc is still there. -/
def step (h : Hart) : Except Crash (Except Trap Step × Hart) := do
  match ← h.ram.fetch h.pc with
  | .error t => return (.error t, h)
  | .ok word =>
    let s := Step.straight h.pc word
    let operands := s.opcode.format.operands word h.read
    let (result, h) ← h.perform s operands.rd (← s.opcode.effect h.pc operands)
    let h := h.write .zero 0
    match result with
    | .error t => return (.error t, h)
    | .ok next => return (.ok { s with next }, { h with pc := next })

def resolve? (h : Hart) (name : String) : Option Word :=
  if name = "pc" then some h.pc else (Reg.ofName? name).map h.read

def dumpLine (name : String) (v : Word) : String :=
  Text.padRight 15 name ++ " " ++ Text.padRight 15 (Text.hex v.toNat) ++ " " ++
    Text.padRight 15 (Text.decimal v.toNat) ++ "\n"

def dump (h : Hart) : String :=
  .join (dumpLine "pc" h.pc :: Reg.all.map fun r => dumpLine r.name (h.read r))

end Hart

end Hartwatch
