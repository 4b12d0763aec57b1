import Hartwatch.Machine

/-! Images are raw bytes that are copied to the reset vector, all of them or none. -/

namespace Hartwatch

namespace Image

/-- Runs when no image is given, and ends in a good trap. -/
def builtin : List Word :=
  [0x00000297, -- auipc t0, 0
    0x00028823, -- sb zero, 16(t0)
    0x0102c503, -- lbu a0, 16(t0)
    0x00100073, -- ebreak
    0xdeadbeef]

inductive Error where
  | unreadable (path : String) (reason : String)
  | tooLarge (size : Nat) (capacity : Nat) (base : Word)
  deriving DecidableEq, Repr

def Error.message : Error → String
  | unreadable path reason => s!"cannot read image {path}: {reason}"
  | tooLarge size capacity base =>
    s!"image of {Text.decimal size} bytes does not fit in {Text.decimal capacity} bytes " ++
      s!"of memory at {Text.wordHex base}"

end Image

namespace Machine

/-- Answers with the number of bytes copied. An empty image fits anywhere. -/
def load (m : Machine) (image : List Byte) : Except Crash (Except Image.Error Nat × Machine) := do
  let tooLarge : Image.Error := .tooLarge image.length m.config.memorySize m.config.memoryBase
  if image.isEmpty then return (.ok 0, m)
  else if ← m.hart.ram.covers m.config.resetVector image.length then
    let (result, ram) ← m.hart.ram.storeBytes m.config.resetVector image
    let m := { m with hart := { m.hart with ram } }
    match result with
    | .ok () => return (.ok image.length, m)
    | .error _ => return (.error tooLarge, m)
  else return (.error tooLarge, m)

def loadBuiltin (m : Machine) : Except Crash (Except Image.Error Nat × Machine) :=
  m.load (bytesOfWords Image.builtin)

end Machine

end Hartwatch
