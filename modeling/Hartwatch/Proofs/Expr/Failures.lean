import Hartwatch.Proofs.Expr.Derivation
import Hartwatch.Proofs.Expr.Spacing
import Mathlib.Logic.Relation

/-! How an evaluation fails. Each error is raised by one of the lists of tokens that the evaluation
comes to, and these are cut out of one another. -/

namespace Hartwatch.Expr

variable {ctx : Context} {ts us : List Token} {x : Token}

/-- Evaluating the first of two lists of tokens can come to evaluating the second. -/
inductive Part : List Token → List Token → Prop
  | inner {ts us : List Token} : enclosed? ts = some us → Part ts us
  | left {ts : List Token} {p : Split} : 2 ≤ ts.length → enclosed? ts = none →
    split? ts = .ok (some p) → Part ts p.left
  | right {ts : List Token} {p : Split} : 2 ≤ ts.length → enclosed? ts = none →
    split? ts = .ok (some p) → Part ts p.right
  | operand {x : Token} {ts : List Token} : ts ≠ [] → enclosed? (x :: ts) = none →
    split? (x :: ts) = .ok none → x.kind = .negate ∨ x.kind = .deref → Part (x :: ts) ts

def Reaches : List Token → List Token → Prop :=
  Relation.ReflTransGen Part

theorem wordOfLiteral_eq_error {text : String} {value? : Option Nat} {e : Error}
    (h : wordOfLiteral text value? = .error e) : e = .invalidLiteral text := by
  unfold wordOfLiteral at h
  split at h
  · split at h
    · cases h
    · exact (Except.error.inj h).symm
  · exact (Except.error.inj h).symm

theorem operand_eq_error {e : Error} (h : operand ctx x = .error e) :
    e = .missingOperand ∨ e = .invalidLiteral x.text ∨
      e = .unknownRegister (.ofList (x.text.toList.drop 1)) := by
  unfold operand at h
  split at h
  · exact .inr (.inl (wordOfLiteral_eq_error h))
  · exact .inr (.inl (wordOfLiteral_eq_error h))
  · dsimp only at h
    split at h
    · cases h
    · exact .inr (.inr (Except.error.inj h).symm)
  · exact .inl (Except.error.inj h).symm

theorem apply_eq_error {operator : Token.Kind} {a b : Word} {e : Error}
    (h : apply operator a b = .error e) :
    e = .divisionByZero ∨ e = .missingOperand ∧ operator.precedence? = none := by
  cases operator with
  | plus | minus | star | equal | notEqual | and => cases h
  | slash =>
    rw [apply] at h
    split at h
    · exact .inl (Except.error.inj h).symm
    · cases h
  | _ => exact .inr ⟨(Except.error.inj h).symm, rfl⟩

/-- More than one token, with nothing to take off and nowhere to cut. -/
structure Juxtaposed (ts : List Token) : Prop where
  two_le : 2 ≤ ts.length
  enclosed? : enclosed? ts = none
  split? : split? ts = .ok none
  unsigned : ∀ x ∈ ts.head?, x.kind ≠ .negate ∧ x.kind ≠ .deref

/-- How the evaluation of tokens can fail by itself, when none of its parts fails. -/
inductive Raises (ctx : Context) : List Token → Error → Prop
  | nothing : Raises ctx [] .missingOperand
  | operand {x : Token} {e : Error} : Expr.operand ctx x = .error e → Raises ctx [x] e
  | parenthesis {ts : List Token} {e : Error} : 2 ≤ ts.length → enclosed? ts = none →
    split? ts = .error e → Raises ctx ts e
  | operator {ts : List Token} {p : Split} {a b : Word} {e : Error} : 2 ≤ ts.length →
    enclosed? ts = none → split? ts = .ok (some p) → apply p.operator.kind a b = .error e →
    Raises ctx ts e
  | memory {x : Token} {ts : List Token} {a : Word} : x.kind = .deref → ctx.readWord a = none →
    Raises ctx (x :: ts) (.memory a)
  | juxtaposed {x : Token} {ts : List Token} : Juxtaposed (x :: ts) →
    Raises ctx (x :: ts) (.unexpected ((secondOperand? 0 (x :: ts)).getD x).position)

/-- An evaluation that fails has nested too deep or has come to tokens that fail by themselves. -/
theorem exists_raises {n : Nat} {e : Error} (h : evalTokens ctx n ts = .error e) :
    e = .tooDeep ∨ ∃ us, Reaches ts us ∧ Raises ctx us e := by
  induction n generalizing ts e with
  | zero => exact .inl (Except.error.inj h).symm
  | succ n ih =>
    have hpart : ∀ {us}, Part ts us → evalTokens ctx n us = .error e →
        e = .tooDeep ∨ ∃ us, Reaches ts us ∧ Raises ctx us e := by
      intro us hpart hus
      rcases ih hus with he | ⟨vs, hreach, hraise⟩
      · exact .inl he
      · exact .inr ⟨vs, .head hpart hreach, hraise⟩
    have hhere : Raises ctx ts e → e = .tooDeep ∨ ∃ us, Reaches ts us ∧ Raises ctx us e :=
      fun hraise => .inr ⟨ts, .refl, hraise⟩
    obtain _ | ⟨x, _ | ⟨y, ts⟩⟩ := ts
    · obtain rfl := Except.error.inj h
      exact hhere .nothing
    · exact hhere (.operand h)
    · have hlen : 2 ≤ (x :: y :: ts).length := by simp
      cases henc : enclosed? (x :: y :: ts) with
      | some us =>
        rw [evalTokens_enclosed henc] at h
        exact hpart (.inner henc) h
      | none =>
        cases hp : split? (x :: y :: ts) with
        | error e' =>
          obtain rfl := Except.error.inj ((evalTokens_unmatched hlen henc hp).symm.trans h)
          exact hhere (.parenthesis hlen henc hp)
        | ok p? =>
          cases p? with
          | some p =>
            rw [evalTokens_split hlen henc hp] at h
            rcases bind_eq_error h with hleft | ⟨a, -, h⟩
            · exact hpart (.left hlen henc hp) hleft
            · rcases bind_eq_error h with hright | ⟨b, -, h⟩
              · exact hpart (.right hlen henc hp) hright
              · exact hhere (.operator hlen henc hp h)
          | none =>
            rw [evalTokens_sign (by simp) henc hp] at h
            split at h
            · next hx =>
              rcases bind_eq_error h with hsign | ⟨a, -, h⟩
              · exact hpart (.operand (by simp) henc hp (.inl hx)) hsign
              · cases h
            · next hx =>
              rcases bind_eq_error h with hsign | ⟨a, -, h⟩
              · exact hpart (.operand (by simp) henc hp (.inr hx)) hsign
              · split at h
                · cases h
                · next ha =>
                  obtain rfl := Except.error.inj h
                  exact hhere (.memory hx ha)
            · next hnegate hderef =>
              obtain rfl := Except.error.inj h
              refine hhere (.juxtaposed ⟨hlen, henc, hp, fun z hz => ?_⟩)
              obtain rfl := Option.some.inj hz
              exact ⟨hnegate, hderef⟩

end Hartwatch.Expr
