import Hartwatch.Expr.Token
import Hartwatch.Text.Blank

/-! Cutting an expression into tokens. At each place the first lexical rule that matches wins,
and it takes as much as it can. A second pass tells unary operators from binary ones by the
token before them. -/

namespace Hartwatch.Expr

def runLength (p : Char → Bool) (cs : List Char) : Nat :=
  (cs.takeWhile p).length

def isDecimalDigit (c : Char) : Bool :=
  (Text.decimalDigit? c).isSome

def isHexDigit (c : Char) : Bool :=
  (Text.hexDigit? c).isSome

def isRegisterChar (c : Char) : Bool :=
  isDecimalDigit c || ('a' ≤ c && c ≤ 'z')

def fixedLength (text : List Char) (cs : List Char) : Nat :=
  if text.isPrefixOf cs then text.length else 0

/-- The length of a lead followed by characters of a class, at least one. -/
def ledLength (p : Char → Bool) (lead : Nat) (cs : List Char) : Nat :=
  if runLength p cs = 0 then 0 else lead + runLength p cs

def registerLength : List Char → Nat
  | '$' :: cs => ledLength isRegisterChar 1 cs
  | _ => 0

def hexLength : List Char → Nat
  | '0' :: 'x' :: cs | '0' :: 'X' :: cs => ledLength isHexDigit 2 cs
  | _ => 0

/-- Each rule measures its match, zero for none. Blanks make no token. -/
def lexicalRules : List (Option Token.Kind × (List Char → Nat)) :=
  [(none, runLength Text.isBlank),
    (some .plus, fixedLength ['+']),
    (some .equal, fixedLength ['=', '=']),
    (some .notEqual, fixedLength ['!', '=']),
    (some .and, fixedLength ['&', '&']),
    (some .register, registerLength),
    (some .hex, hexLength),
    (some .decimal, runLength isDecimalDigit),
    (some .minus, fixedLength ['-']),
    (some .slash, fixedLength ['/']),
    (some .star, fixedLength ['*']),
    (some .leftParen, fixedLength ['(']),
    (some .rightParen, fixedLength [')'])]

def lexeme? (cs : List Char) : Option (Option Token.Kind × Nat) :=
  lexicalRules.findSome? fun (kind, length) =>
    if length cs = 0 then none else some (kind, length cs)

/-- Scans an input that starts at byte `position`; the first `skip` characters belong to a
lexeme that is already taken. -/
def scan : Nat → Nat → List Char → Except Error (List Token)
  | _, _, [] => .ok []
  | position, skip + 1, c :: cs => scan (position + c.utf8Size) skip cs
  | position, 0, c :: cs =>
    match lexeme? (c :: cs) with
    | none => .error (.unexpected position)
    | some (none, length) => scan (position + c.utf8Size) (length - 1) cs
    | some (some kind, length) => do
      let rest ← scan (position + c.utf8Size) (length - 1) cs
      return ⟨kind, .ofList ((c :: cs).take length), position⟩ :: rest

/-- Makes the operators unary that do not stand behind an operand. -/
def markUnary (afterOperand : Bool) : List Token → List Token
  | [] => []
  | t :: ts =>
    (if afterOperand then t else { t with kind := t.kind.unary }) :: markUnary t.kind.endsOperand ts

def tokenize (input : String) : Except Error (List Token) := do
  return markUnary false (← scan 0 0 input.toList)

end Hartwatch.Expr
