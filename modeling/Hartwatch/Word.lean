/-! The machine's units of data: a word is a register's content, an instruction or a guest
address, and an offset addresses the bytes of a memory that may outgrow the guest's reach. -/

namespace Hartwatch

abbrev Byte := BitVec 8
abbrev Word := BitVec 32
abbrev Offset := BitVec 64

def Word.bytes (w : Word) : List Byte :=
  [w.extractLsb' 0 8, w.extractLsb' 8 8, w.extractLsb' 16 8, w.extractLsb' 24 8]

def bytesOfWords (ws : List Word) : List Byte :=
  ws.flatMap Word.bytes

def Word.ofBool (b : Bool) : Word :=
  if b then 1 else 0

theorem length_bytesOfWords (ws : List Word) : (bytesOfWords ws).length = 4 * ws.length := by
  induction ws with
  | nil => rfl
  | cons w ws ih =>
    simp only [bytesOfWords, List.flatMap_cons, List.length_append] at ih ⊢
    rw [ih, List.length_cons]
    simp only [Word.bytes, List.length_cons, List.length_nil]
    omega

end Hartwatch
