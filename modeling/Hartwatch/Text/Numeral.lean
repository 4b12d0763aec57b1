import Hartwatch.Word

/-! Numbers as text: hexadecimal with lower-case digits behind `0x`, decimal without leading
zeros, and the decimal numbers that commands take. -/

namespace Hartwatch.Text

def padLeft (fill : Char) (width : Nat) (s : String) : String :=
  .ofList (List.replicate (width - s.length) fill) ++ s

def padRight (width : Nat) (s : String) : String :=
  s ++ .ofList (List.replicate (width - s.length) ' ')

def hexDigits (n : Nat) : String :=
  .ofList (Nat.toDigits 16 n)

def hex (n : Nat) : String :=
  "0x" ++ hexDigits n

def wordDigits (w : Word) : String :=
  padLeft '0' 8 (hexDigits w.toNat)

def wordHex (w : Word) : String :=
  "0x" ++ wordDigits w

def decimal (n : Nat) : String :=
  .ofList (Nat.toDigits 10 n)

def decimalDigit? (c : Char) : Option Nat :=
  if '0' ≤ c ∧ c ≤ '9' then some (c.toNat - '0'.toNat) else none

def hexDigit? (c : Char) : Option Nat :=
  if '0' ≤ c ∧ c ≤ '9' then some (c.toNat - '0'.toNat)
  else if 'a' ≤ c ∧ c ≤ 'f' then some (c.toNat - 'a'.toNat + 10)
  else if 'A' ≤ c ∧ c ≤ 'F' then some (c.toNat - 'A'.toNat + 10)
  else none

def valueFrom? (base : Nat) (digit? : Char → Option Nat) : Nat → List Char → Option Nat
  | n, [] => some n
  | n, c :: cs => do valueFrom? base digit? (base * n + (← digit? c)) cs

def decimalValue? : List Char → Option Nat
  | [] => none
  | cs => valueFrom? 10 decimalDigit? 0 cs

def hexValue? : List Char → Option Nat
  | [] => none
  | cs => valueFrom? 16 hexDigit? 0 cs

/-- A decimal number below `bound`, with or without a plus sign. -/
def natBelow? (bound : Nat) (s : String) : Option Nat :=
  let digits := match s.toList with
    | '+' :: cs => cs
    | cs => cs
  (decimalValue? digits).filter (· < bound)

/-- A decimal number with an optional sign that is a signed number of `bits` bits. -/
def signed? (bits : Nat) (s : String) : Option Int :=
  let n? : Option Int := match s.toList with
    | '-' :: cs => (decimalValue? cs).map fun n => -(n : Int)
    | '+' :: cs => (decimalValue? cs).map Int.ofNat
    | cs => (decimalValue? cs).map Int.ofNat
  let bound : Int := (1 <<< (bits - 1) : Nat)
  n?.filter fun n => -bound ≤ n && n < bound

end Hartwatch.Text
