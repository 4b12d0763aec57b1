import Hartwatch.Expr.Lexer
import Hartwatch.Hart

/-! The value of an expression. A list of tokens is cut at the operator to apply last, the
rightmost one outside of parentheses among the loosest; what has no such operator is one
operand, a parenthesized list or a unary operator in front of its operand. Arithmetic is that
of unsigned words. -/

namespace Hartwatch.Expr

structure Context where
  /-- A register by its name, without the dollar sign. -/
  register : String → Option Word
  readWord : Word → Option Word

def wordOfLiteral (text : String) (value? : Option Nat) : Except Error Word :=
  match value? with
  | some n => if n < 1 <<< 32 then .ok (.ofNat 32 n) else .error (.invalidLiteral text)
  | none => .error (.invalidLiteral text)

def operand (ctx : Context) (t : Token) : Except Error Word :=
  match t.kind with
  | .decimal => wordOfLiteral t.text (Text.decimalValue? t.text.toList)
  | .hex => wordOfLiteral t.text (Text.hexValue? (t.text.toList.drop 2))
  | .register =>
    let name : String := .ofList (t.text.toList.drop 1)
    match ctx.register name with
    | some v => .ok v
    | none => .error (.unknownRegister name)
  | _ => .error .missingOperand

def apply (operator : Token.Kind) (x y : Word) : Except Error Word :=
  match operator with
  | .plus => .ok (x + y)
  | .minus => .ok (x - y)
  | .star => .ok (x * y)
  | .slash => if y = 0 then .error .divisionByZero else .ok (x / y)
  | .equal => .ok (Word.ofBool (x == y))
  | .notEqual => .ok (Word.ofBool (x != y))
  | .and => .ok (Word.ofBool (x != 0 && y != 0))
  | _ => .error .missingOperand

/-- The tokens before the last one, if that closes the parenthesis open before them; `depth`
counts the parentheses opened since. -/
def closing? (depth : Nat) : List Token → Option (List Token)
  | [] => none
  | t :: ts =>
    match t.kind, depth with
    | .leftParen, d => (closing? (d + 1) ts).map (t :: ·)
    | .rightParen, 0 => if ts.isEmpty then some [] else none
    | .rightParen, d + 1 => (closing? d ts).map (t :: ·)
    | _, d => (closing? d ts).map (t :: ·)

/-- What stands between a parenthesis and its partner, if these are the first and the last
token. -/
def enclosed? : List Token → Option (List Token)
  | [] => none
  | t :: ts => if t.kind = .leftParen then closing? 0 ts else none

structure Split where
  left : List Token
  operator : Token
  precedence : Nat
  right : List Token
  deriving DecidableEq, Repr

/-- What a scan from the right knows: how many closing parentheses wait for their partner, and
the best place so far to cut what was scanned. -/
structure SplitScan where
  depth : Nat
  split? : Option Split
  deriving DecidableEq, Repr

namespace SplitScan

def shift (t : Token) (s : SplitScan) : SplitScan :=
  { s with split? := s.split?.map fun split => { split with left := t :: split.left } }

/-- Cuts at `t` if it is a looser operator than the one of the cut so far. -/
def offer (t : Token) (right : List Token) (s : SplitScan) : SplitScan :=
  match t.kind.precedence?, s.split? with
  | some p, none => { s with split? := some ⟨[], t, p, right⟩ }
  | some p, some split =>
    if p < split.precedence then { s with split? := some ⟨[], t, p, right⟩ } else s.shift t
  | none, _ => s.shift t

end SplitScan

def scanSplit : List Token → Except Error SplitScan
  | [] => .ok ⟨0, none⟩
  | t :: ts => do
    let s ← scanSplit ts
    match t.kind, s.depth with
    | .rightParen, d => return { s.shift t with depth := d + 1 }
    | .leftParen, 0 => .error .unmatchedParenthesis
    | .leftParen, d + 1 => return { s.shift t with depth := d }
    | _, 0 => return s.offer t ts
    | _, _ + 1 => return s.shift t

/-- The operator to apply last, with its two sides. -/
def split? (tokens : List Token) : Except Error (Option Split) := do
  let s ← scanSplit tokens
  if s.depth = 0 then return s.split? else .error .unmatchedParenthesis

/-- The token behind the first operand, a parenthesized one taken as a whole. -/
def secondOperand? (depth : Nat) : List Token → Option Token
  | [] => none
  | t :: ts =>
    let depth := match t.kind with
      | .leftParen => depth + 1
      | .rightParen => depth - 1
      | _ => depth
    if depth = 0 ∧ ts ≠ [] then ts.head? else secondOperand? depth ts

/-- Evaluates tokens that may nest `levels` deep. -/
def evalTokens (ctx : Context) : Nat → List Token → Except Error Word
  | 0, _ => .error .tooDeep
  | _ + 1, [] => .error .missingOperand
  | _ + 1, [t] => operand ctx t
  | levels + 1, t :: ts =>
    match enclosed? (t :: ts) with
    | some inner => evalTokens ctx levels inner
    | none => do
      match ← split? (t :: ts) with
      | some split =>
        let x ← evalTokens ctx levels split.left
        let y ← evalTokens ctx levels split.right
        apply split.operator.kind x y
      | none =>
        match t.kind with
        | .negate => return -(← evalTokens ctx levels ts)
        | .deref =>
          let a ← evalTokens ctx levels ts
          match ctx.readWord a with
          | some v => .ok v
          | none => .error (.memory a)
        | _ => .error (.unexpected ((secondOperand? 0 (t :: ts)).getD t).position)

def evaluate (ctx : Context) (input : String) : Except Error Word := do
  let tokens ← tokenize input
  if tokens.isEmpty then .error .empty else evalTokens ctx maxDepth tokens

end Hartwatch.Expr

namespace Hartwatch

def Hart.readWord? (h : Hart) (a : Word) : Option Word :=
  match h.ram.loadWord a with
  | .ok (.ok v) => some v
  | _ => none

def Hart.context (h : Hart) : Expr.Context :=
  ⟨h.resolve?, h.readWord?⟩

end Hartwatch
