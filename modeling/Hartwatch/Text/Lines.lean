/-! Lines of a byte stream. A newline ends a line and takes one carriage return before it with
it; what stands behind the last newline is a line if it is not empty. Each line is decoded by
itself. -/

namespace Hartwatch.Text

def closeLine : List UInt8 → List UInt8
  | 13 :: bs => bs.reverse
  | bs => bs.reverse

/-- `pending` holds the line under way, last byte first. -/
def lineBytesFrom (pending : List UInt8) : List UInt8 → List (List UInt8)
  | [] => if pending.isEmpty then [] else [pending.reverse]
  | b :: bs =>
    if b = 10 then closeLine pending :: lineBytesFrom [] bs else lineBytesFrom (b :: pending) bs

def decode? (bytes : List UInt8) : Option String :=
  String.fromUTF8? ⟨bytes.toArray⟩

def lines (input : List UInt8) : List (Option String) :=
  (lineBytesFrom [] input).map decode?

end Hartwatch.Text
