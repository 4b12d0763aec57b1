import Hartwatch.Expr.Eval
import Mathlib.Data.Nat.Digits.Defs

/-! The grammar of expressions and the meaning of its trees, without tokens or cuts. Each line
binds tighter than the one before, and binary operators associate to the left:

    and   := and `&&` eq | eq
    eq    := eq (`==` | `!=`) sum | sum
    sum   := sum (`+` | `-`) prod | prod
    prod  := prod (`*` | `/`) unary | unary
    unary := `-` unary | `*` unary | `(` and `)` | decimal | hex | register -/

namespace Hartwatch.Expr

/-- What a token is and how it is written, wherever it stands. -/
structure Lexeme where
  kind : Token.Kind
  text : List Char
  deriving DecidableEq, Repr

def Token.lexeme (t : Token) : Lexeme :=
  ⟨t.kind, t.text.toList⟩

inductive Operator where
  | and | equal | notEqual | plus | minus | star | slash
  deriving DecidableEq, Repr

namespace Operator

def level : Operator → Nat
  | and => 0
  | equal | notEqual => 1
  | plus | minus => 2
  | star | slash => 3

def lexeme : Operator → Lexeme
  | and => ⟨.and, ['&', '&']⟩
  | equal => ⟨.equal, ['=', '=']⟩
  | notEqual => ⟨.notEqual, ['!', '=']⟩
  | plus => ⟨.plus, ['+']⟩
  | minus => ⟨.minus, ['-']⟩
  | star => ⟨.star, ['*']⟩
  | slash => ⟨.slash, ['/']⟩

/-- Arithmetic of numbers modulo `2 ^ 32`, and truth values. -/
def value (x y : Word) : Operator → Except Error Word
  | and => .ok (if x ≠ 0 ∧ y ≠ 0 then 1 else 0)
  | equal => .ok (if x = y then 1 else 0)
  | notEqual => .ok (if x = y then 0 else 1)
  | plus => .ok (.ofNat 32 (x.toNat + y.toNat))
  | minus => .ok (.ofInt 32 (x.toNat - y.toNat))
  | star => .ok (.ofNat 32 (x.toNat * y.toNat))
  | slash => if y.toNat = 0 then .error .divisionByZero else .ok (.ofNat 32 (x.toNat / y.toNat))

end Operator

def isHexLetter (c : Char) : Bool :=
  ('a' ≤ c && c ≤ 'f') || ('A' ≤ c && c ≤ 'F')

def digitValue (c : Char) : Nat :=
  if c.isDigit then c.toNat - '0'.toNat
  else if c.isLower then c.toNat - 'a'.toNat + 10
  else c.toNat - 'A'.toNat + 10

def numeral (base : Nat) (digits : List Char) : Nat :=
  Nat.ofDigits base (digits.reverse.map digitValue)

inductive Tree where
  | decimal (digits : List Char)
  /-- Digits behind `0x` or `0X`. -/
  | hex (mark : Char) (digits : List Char)
  | register (name : List Char)
  | parens (t : Tree)
  | negate (t : Tree)
  | deref (t : Tree)
  | binary (o : Operator) (l r : Tree)
  deriving DecidableEq, Repr

namespace Tree

/-- The tightest line of the grammar that derives a tree with this root. -/
def level : Tree → Nat
  | binary o _ _ => o.level
  | _ => 4

/-- Leaves are written in their alphabets, and each operand is derived by the line that its
operator takes it from. -/
def Grammatical : Tree → Prop
  | decimal ds => ds ≠ [] ∧ ∀ c ∈ ds, c.isDigit
  | hex x ds => (x = 'x' ∨ x = 'X') ∧ ds ≠ [] ∧ ∀ c ∈ ds, c.isDigit || isHexLetter c
  | register cs => cs ≠ [] ∧ ∀ c ∈ cs, c.isDigit || c.isLower
  | parens t => t.Grammatical
  | negate t | deref t => t.level = 4 ∧ t.Grammatical
  | binary o l r => o.level ≤ l.level ∧ o.level < r.level ∧ l.Grammatical ∧ r.Grammatical

-- The letters of a leaf are looked through one by one: found by type, the instance could be the
-- one that tries every character there is.
instance decidableGrammatical : (t : Tree) → Decidable t.Grammatical
  | decimal ds =>
    have : Decidable (∀ c ∈ ds, c.isDigit) := List.decidableBAll _ ds
    inferInstanceAs (Decidable (ds ≠ [] ∧ ∀ c ∈ ds, c.isDigit))
  | hex x ds =>
    have : Decidable (∀ c ∈ ds, c.isDigit || isHexLetter c) := List.decidableBAll _ ds
    inferInstanceAs
      (Decidable ((x = 'x' ∨ x = 'X') ∧ ds ≠ [] ∧ ∀ c ∈ ds, c.isDigit || isHexLetter c))
  | register cs =>
    have : Decidable (∀ c ∈ cs, c.isDigit || c.isLower) := List.decidableBAll _ cs
    inferInstanceAs (Decidable (cs ≠ [] ∧ ∀ c ∈ cs, c.isDigit || c.isLower))
  | parens t => decidableGrammatical t
  | negate t | deref t =>
    have := decidableGrammatical t
    inferInstanceAs (Decidable (t.level = 4 ∧ t.Grammatical))
  | binary o l r =>
    have := decidableGrammatical l
    have := decidableGrammatical r
    inferInstanceAs
      (Decidable (o.level ≤ l.level ∧ o.level < r.level ∧ l.Grammatical ∧ r.Grammatical))

def height : Tree → Nat
  | decimal _ | hex _ _ | register _ => 1
  | parens t | negate t | deref t => t.height + 1
  | binary _ l r => max l.height r.height + 1

def yield : Tree → List Lexeme
  | decimal ds => [⟨.decimal, ds⟩]
  | hex x ds => [⟨.hex, '0' :: x :: ds⟩]
  | register cs => [⟨.register, '$' :: cs⟩]
  | parens t => ⟨.leftParen, ['(']⟩ :: t.yield ++ [⟨.rightParen, [')']⟩]
  | negate t => ⟨.negate, ['-']⟩ :: t.yield
  | deref t => ⟨.deref, ['*']⟩ :: t.yield
  | binary o l r => l.yield ++ o.lexeme :: r.yield

theorem yield_ne_nil (t : Tree) : t.yield ≠ [] := by
  cases t <;> simp [yield]

theorem height_pos (t : Tree) : 0 < t.height := by
  cases t <;> simp [height]

theorem height_eq_one {t : Tree} {m : Lexeme} (h : t.yield = [m]) : t.height = 1 := by
  cases t with
  | decimal | hex | register => rfl
  | parens t => simp [yield] at h
  | negate t | deref t => simp [yield, t.yield_ne_nil] at h
  | binary o l r =>
    have hlen := congrArg List.length h
    have hl := List.length_pos_iff.mpr l.yield_ne_nil
    simp only [yield, List.length_append, List.length_cons, List.length_nil] at hlen
    omega

/-- A literal has to be a number of 32 bits. -/
def literalValue (text : List Char) (n : Nat) : Except Error Word :=
  if n < 2 ^ 32 then .ok (.ofNat 32 n) else .error (.invalidLiteral (.ofList text))

/-- The left operand comes first, and the right one is evaluated whatever the left one is. -/
def value (ctx : Context) : Tree → Except Error Word
  | decimal ds => literalValue ds (numeral 10 ds)
  | hex x ds => literalValue ('0' :: x :: ds) (numeral 16 ds)
  | register cs => (ctx.register (.ofList cs)).elim (.error (.unknownRegister (.ofList cs))) .ok
  | parens t => t.value ctx
  | negate t => do return .ofInt 32 (-(← t.value ctx).toNat)
  | deref t => do
    let a ← t.value ctx
    (ctx.readWord a).elim (.error (.memory a)) .ok
  | binary o l r => do
    let x ← l.value ctx
    let y ← r.value ctx
    o.value x y

end Tree

/-- The texts in which some pieces stand in order, with blanks or nothing around them. -/
inductive Spaced : List (List Char) → List Char → Prop
  | nil {gap : List Char} : (∀ c ∈ gap, Text.isBlank c) → Spaced [] gap
  | cons {gap piece cs : List Char} {pieces : List (List Char)} :
    (∀ c ∈ gap, Text.isBlank c) → Spaced pieces cs → Spaced (piece :: pieces) (gap ++ piece ++ cs)

namespace Tree

/-- A text is a rendering of a tree if it spells the tree's leaves and signs. -/
def Renders (t : Tree) (text : String) : Prop :=
  Spaced (t.yield.map Lexeme.text) text.toList

/-- A text is derived by a tree if its tokens are the tree's leaves and signs. -/
def Derives (t : Tree) (text : String) : Prop :=
  t.Grammatical ∧ ∃ ts, tokenize text = .ok ts ∧ ts.map Token.lexeme = t.yield

end Tree

end Hartwatch.Expr
