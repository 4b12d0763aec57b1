import Hartwatch.Register

/-! Fields of an instruction word. Each format spreads its immediate over the word in its own
way: the pieces are masked, moved to their places and put together, and a negative immediate has
all bits from its sign on. -/

namespace Hartwatch

namespace Instruction

def rd (w : Word) : Reg := (w.extractLsb' 7 5).toFin

def rs1 (w : Word) : Reg := (w.extractLsb' 15 5).toFin

def rs2 (w : Word) : Reg := (w.extractLsb' 20 5).toFin

/-- Stands in for the bits above a negative immediate's sign, which is a word's first bit. -/
def signBits (w bits : Word) : Word :=
  if w &&& 0x80000000#32 = 0x80000000#32 then bits else 0

def immI (w : Word) : Word :=
  signBits w 0xfffff800#32 ||| ((w >>> 20) &&& 0x7ff#32)

def immU (w : Word) : Word :=
  w &&& 0xfffff000#32

def immS (w : Word) : Word :=
  signBits w 0xfffff000#32 ||| ((w >>> 20) &&& 0xfe0#32) ||| ((w >>> 7) &&& 0x1f#32)

def immJ (w : Word) : Word :=
  signBits w 0xfff00000#32 ||| (w &&& 0xff000#32) ||| ((w &&& 0x100000#32) >>> 9) |||
    ((w &&& 0x7fe00000#32) >>> 20)

def immB (w : Word) : Word :=
  signBits w 0xfffff000#32 ||| ((w <<< 4) &&& 0x800#32) ||| ((w >>> 20) &&& 0x7e0#32) |||
    ((w >>> 7) &&& 0x1e#32)

end Instruction

end Hartwatch
