import Hartwatch.Word

/-! A pattern fixes some bits of a word. It is written as a template of 32 symbols, most
significant bit first: `0` and `1` are fixed bits, `?` is a free one, and spaces between
symbols group the fields. -/

namespace Hartwatch

/-- A set bit of the mask is a fixed one, with its value in `value`. -/
structure Pattern where
  mask : Word
  value : Word
  deriving DecidableEq, Repr

namespace Pattern

inductive TemplateError where
  | badSymbol
  | tooLong
  | tooShort
  deriving DecidableEq, Repr

def TemplateError.message : TemplateError → String
  | badSymbol => "pattern template may only contain '0', '1', '?' and spaces"
  | tooLong => "pattern template has more than 32 bits"
  | tooShort => "pattern template has fewer than 32 bits"

/-- Whether the bit is fixed, and its value. -/
def symbol? : Char → Option (Bool × Bool)
  | '0' => some (true, false)
  | '1' => some (true, true)
  | '?' => some (false, false)
  | _ => none

def push (p : Pattern) (fixed bit : Bool) : Pattern :=
  ⟨p.mask <<< 1 ||| Word.ofBool fixed, p.value <<< 1 ||| Word.ofBool bit⟩

/-- Reads the rest of a template whose first `bits` symbols make up `p`. -/
def readFrom (bits : Nat) (p : Pattern) : List Char → Except TemplateError Pattern
  | [] => if bits = 32 then .ok p else .error .tooShort
  | ' ' :: cs => readFrom bits p cs
  | c :: cs =>
    match symbol? c with
    | none => .error .badSymbol
    | some (fixed, bit) =>
      if bits = 32 then .error .tooLong else readFrom (bits + 1) (p.push fixed bit) cs

def ofTemplate (template : String) : Except TemplateError Pattern :=
  readFrom 0 ⟨0, 0⟩ template.toList

theorem ofTemplate_ofList (cs : List Char) : ofTemplate (.ofList cs) = readFrom 0 ⟨0, 0⟩ cs := by
  simp only [ofTemplate, String.toList_ofList]

def recognizes (p : Pattern) (w : Word) : Bool :=
  w &&& p.mask == p.value

end Pattern

end Hartwatch
