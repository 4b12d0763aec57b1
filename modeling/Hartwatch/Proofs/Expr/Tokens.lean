import Hartwatch.Proofs.Expr.Lexing

/-! Cutting a rendering of lexemes gives tokens for exactly these lexemes, as long as operands
and signs take turns in them. -/

namespace Hartwatch.Expr

namespace Token.Kind

def startsOperand : Token.Kind → Bool
  | leftParen | register | hex | decimal | negate | deref => true
  | _ => false

theorem fits_of_startsOperand {k : Token.Kind} {afterOperand : Bool}
    (h : k.startsOperand = !afterOperand) : k.fits afterOperand := by
  cases afterOperand <;> cases k <;> first | rfl | cases h

theorem endsOperand_of_isLeaf {k : Token.Kind} (h : k.isLeaf) : k.endsOperand = true := by
  cases k <;> first | rfl | cases h

end Token.Kind

/-- A token starts an operand exactly where none has just ended. -/
def Alternates (afterOperand : Bool) : List Lexeme → Prop
  | [] => True
  | l :: ls => l.kind.startsOperand = !afterOperand ∧ Alternates l.kind.endsOperand ls

theorem closes_of_alternates {ls : List Lexeme} {cs : List Char}
    (h : Spaced (ls.map Lexeme.text) cs) (hls : ∀ l ∈ ls, l.WellFormed) (ha : Alternates true ls) :
    Closes cs := by
  cases ls with
  | nil =>
    cases h with
    | nil hgap =>
      cases cs with
      | nil => simp [Closes]
      | cons c cs => exact .of_blank (hgap c (by simp))
  | cons l ls =>
    cases h with
    | @cons gap _ cs _ hgap =>
      cases gap with
      | cons c gap => exact .of_blank (hgap c (by simp))
      | nil =>
        have hstart : l.kind.startsOperand = false := ha.1
        cases hls l (by simp) with
        | @sign k hk =>
          cases k <;> simp [Token.Kind.sign, Token.Kind.startsOperand, Closes] at hstart ⊢
        | register => simp [Token.Kind.startsOperand] at hstart
        | hex => simp [Token.Kind.startsOperand] at hstart
        | decimal => simp [Token.Kind.startsOperand] at hstart

/-- Lexemes in which operands and signs take turns are what a rendering of them falls apart into. -/
theorem spells_of_spaced {ls : List Lexeme} {cs : List Char} {afterOperand : Bool}
    (h : Spaced (ls.map Lexeme.text) cs) (hls : ∀ l ∈ ls, l.WellFormed)
    (ha : Alternates afterOperand ls) : Spells afterOperand ls cs := by
  induction ls generalizing cs afterOperand with
  | nil =>
    cases h with
    | nil hgap => exact .nil hgap
  | cons l ls ih =>
    cases h with
    | @cons gap _ cs _ hgap hrest =>
      have hls' : ∀ l' ∈ ls, l'.WellFormed := fun l' hl' => hls l' (by simp [hl'])
      refine .cons hgap (hls l (by simp)) (Token.Kind.fits_of_startsOperand ha.1) (fun hleaf => ?_)
        (ih hrest hls' ha.2)
      exact closes_of_alternates hrest hls' (Token.Kind.endsOperand_of_isLeaf hleaf ▸ ha.2)

theorem tokenize_of_spaced {ls : List Lexeme} {text : String}
    (h : Spaced (ls.map Lexeme.text) text.toList) (hls : ∀ l ∈ ls, l.WellFormed)
    (ha : Alternates false ls) : ∃ ts, tokenize text = .ok ts ∧ ts.map Token.lexeme = ls :=
  (spells_of_spaced h hls ha).tokenize

theorem tokenize_wellFormed {text : String} {ts : List Token} (h : tokenize text = .ok ts) :
    ∀ t ∈ ts, t.lexeme.WellFormed :=
  (tokenize_eq_ok_iff.mp h).wellFormed

end Hartwatch.Expr
