import Hartwatch.Text.Numeral

/-! Tokens of expressions, and what can be wrong with an expression. -/

namespace Hartwatch.Expr

inductive Token.Kind where
  | plus | minus | star | slash | equal | notEqual | and | leftParen | rightParen
  | register | hex | decimal
  /-- A minus sign in front of an operand. -/
  | negate
  /-- A star in front of an operand. -/
  | deref
  deriving DecidableEq, Repr

structure Token where
  kind : Token.Kind
  text : String
  /-- Counts the bytes of the expression before the token. -/
  position : Nat
  deriving DecidableEq, Repr

namespace Token

def Kind.name : Kind → String
  | plus => "Plus"
  | minus => "Minus"
  | star => "Star"
  | slash => "Slash"
  | equal => "Equal"
  | notEqual => "NotEqual"
  | and => "And"
  | leftParen => "LeftParen"
  | rightParen => "RightParen"
  | register => "Register"
  | hex => "Hex"
  | decimal => "Decimal"
  | negate => "Negate"
  | deref => "Deref"

/-- Behind such a token an operator is binary. -/
def Kind.endsOperand : Kind → Bool
  | decimal | hex | register | rightParen => true
  | _ => false

/-- How tight a binary operator binds, the loosest first. -/
def Kind.precedence? : Kind → Option Nat
  | and => some 0
  | equal | notEqual => some 1
  | plus | minus => some 2
  | star | slash => some 3
  | _ => none

def Kind.unary : Kind → Kind
  | minus => negate
  | star => deref
  | kind => kind

end Token

inductive Error where
  /-- No token starts here, or the second of two operands with nothing between them does. -/
  | unexpected (position : Nat)
  | empty
  | unmatchedParenthesis
  | missingOperand
  | invalidLiteral (text : String)
  | unknownRegister (name : String)
  | divisionByZero
  | memory (address : Word)
  | tooDeep
  deriving DecidableEq, Repr

def maxDepth : Nat := 256

def Error.message : Error → String
  | unexpected position => s!"syntax error at position {Text.decimal position}"
  | empty => "empty expression"
  | unmatchedParenthesis => "unmatched parenthesis"
  | missingOperand => "missing operand"
  | invalidLiteral text => "invalid number `" ++ text ++ "`"
  | unknownRegister name => "unknown register `$" ++ name ++ "`"
  | divisionByZero => "division by zero"
  | memory address => s!"cannot access memory at address {Text.wordHex address}"
  | tooDeep => s!"expression is nested deeper than {Text.decimal maxDepth} levels"

end Hartwatch.Expr
