import Hartwatch.Memory
import Hartwatch.Trap

/-! The guest's view of memory: it starts at a base address, accesses are little-endian and
need no alignment, and one that leaves memory traps with its own kind of fault. An access
that writes answers with the memory it leaves behind, also when it traps. -/

namespace Hartwatch

structure Ram where
  base : Word
  memory : Memory

namespace Ram

def zeroed (base : Word) (capacity : Nat) : Except Crash Ram := do
  return ⟨base, ← Memory.zeroed capacity⟩

def inBounds (r : Ram) (a : Word) (width : Nat) : Bool :=
  decide (r.base ≤ a) && r.memory.validRange ((a - r.base).setWidth 64) width

def offset (r : Ram) (a : Word) : Except Crash Offset := do
  return (← Checked.sub a r.base).setWidth 64

/-- The test for bounds as an access makes it: the subtraction is a checked one, and it is only
made from the base on. -/
def covers (r : Ram) (a : Word) (width : Nat) : Except Crash Bool :=
  if r.base ≤ a then do return r.memory.validRange (← r.offset a) width else .ok false

theorem offset_of_le {r : Ram} {a : Word} (h : r.base ≤ a) :
    r.offset a = .ok ((a - r.base).setWidth 64) := by
  rw [offset, Checked.sub_of_le h]
  rfl

theorem covers_eq (r : Ram) (a : Word) (width : Nat) :
    r.covers a width = .ok (r.inBounds a width) := by
  by_cases h : r.base ≤ a
  · rw [covers, if_pos h, offset_of_le h, inBounds, decide_eq_true h]
    rfl
  · rw [covers, if_neg h, inBounds, decide_eq_false h]
    rfl

def locate (r : Ram) (a : Word) (width : Nat) (fault : Trap.Kind) :
    Except Crash (Except Trap Offset) := do
  if ← r.covers a width then return .ok (← r.offset a) else return .error ⟨fault, a⟩

def fetch (r : Ram) (a : Word) : Except Crash (Except Trap Word) := do
  match ← r.locate a 4 .instructionAccessFault with
  | .error t => return .error t
  | .ok o => return .ok (← r.memory.readWord o)

/-- Reads 1, 2, 4 or 8 bytes, zero-extended; any other width is a fault. -/
def load (r : Ram) (a : Word) (width : Nat) : Except Crash (Except Trap (BitVec 64)) := do
  match ← r.locate a width .loadAccessFault with
  | .error t => return .error t
  | .ok o =>
    match width with
    | 1 => return .ok ((← r.memory.readByte o).setWidth 64)
    | 2 => return .ok ((← r.memory.readHalf o).setWidth 64)
    | 4 => return .ok ((← r.memory.readWord o).setWidth 64)
    | 8 => return .ok (← r.memory.readDouble o)
    | _ => return .error ⟨.loadAccessFault, a⟩

/-- Writes the low 1, 2, 4 or 8 bytes of a value; any other width is a fault. -/
def store (r : Ram) (a : Word) (width : Nat) (v : BitVec 64) :
    Except Crash (Except Trap Unit × Ram) := do
  match ← r.locate a width .storeAccessFault with
  | .error t => return (.error t, r)
  | .ok o =>
    match width with
    | 1 => return (.ok (), { r with memory := ← r.memory.writeByte o (v.setWidth 8) })
    | 2 => return (.ok (), { r with memory := ← r.memory.writeHalf o (v.setWidth 16) })
    | 4 => return (.ok (), { r with memory := ← r.memory.writeWord o (v.setWidth 32) })
    | 8 => return (.ok (), { r with memory := ← r.memory.writeDouble o v })
    | _ => return (.error ⟨.storeAccessFault, a⟩, r)

def loadWord (r : Ram) (a : Word) : Except Crash (Except Trap Word) := do
  return (← r.load a 4).map (·.setWidth 32)

def storeWord (r : Ram) (a : Word) (v : Word) : Except Crash (Except Trap Unit × Ram) :=
  r.store a 4 (v.setWidth 64)

/-- Writes bytes one by one, the first of them `i` bytes behind an offset. -/
def writeAll (m : Memory) (o : Offset) (i : Nat) : List Byte → Except Crash Memory
  | [] => .ok m
  | b :: bs => do writeAll (← m.writeByte (← Checked.add o i) b) o (i + 1) bs

/-- Copies all bytes, or none if one of them would leave memory. -/
def storeBytes (r : Ram) (a : Word) (bytes : List Byte) :
    Except Crash (Except Trap Unit × Ram) := do
  match ← r.locate a bytes.length .storeAccessFault with
  | .error t => return (.error t, r)
  | .ok o => return (.ok (), { r with memory := ← writeAll r.memory o 0 bytes })

end Ram

end Hartwatch
