import Hartwatch.Proofs.Expr.Cuts
import Hartwatch.Proofs.Expr.Tokens

/-! The value of a text is the value of the tree that derives it: cutting a list of tokens finds
the tree's parts again, one level of nesting for each level of the tree, and a list that has a
value falls apart into a tree. -/

namespace Hartwatch.Expr

variable {t u : Tree} {ts : List Token} {ctx : Context}

/-! ### Literals and operators -/

theorem decimalDigit?_eq {c : Char} (h : c.isDigit) :
    Text.decimalDigit? c = some (digitValue c) := by
  have hrange : '0' ≤ c ∧ c ≤ '9' := by simpa [Char.isDigit, Char.le_def] using h
  simp [Text.decimalDigit?, digitValue, hrange, h]

theorem hexDigit?_eq {c : Char} (h : c.isDigit || isHexLetter c) :
    Text.hexDigit? c = some (digitValue c) := by
  by_cases hd : c.isDigit
  · have hrange : '0' ≤ c ∧ c ≤ '9' := by simpa [Char.isDigit, Char.le_def] using hd
    simp [Text.hexDigit?, digitValue, hrange, hd]
  · have hrange : ¬ ('0' ≤ c ∧ c ≤ '9') := by simpa [Char.isDigit, Char.le_def] using hd
    have hletter : isHexLetter c := by simpa [hd] using h
    by_cases hlower : 'a' ≤ c ∧ c ≤ 'f'
    · have hl : c.isLower := by
        simp only [isLower_eq, Char.le_def, UInt32.le_iff_toNat_le, Bool.and_eq_true,
          decide_eq_true_eq] at hlower ⊢
        exact ⟨hlower.1, hlower.2.trans (by decide)⟩
      simp [Text.hexDigit?, digitValue, hrange, hd, hlower, hl]
    · have hupper : 'A' ≤ c ∧ c ≤ 'F' := by simpa [isHexLetter, hlower] using hletter
      have hl : c.isLower = false := by
        simp only [isLower_eq, Char.le_def, UInt32.le_iff_toNat_le, Bool.and_eq_false_iff,
          decide_eq_false_iff_not, not_le] at hupper ⊢
        exact .inl (hupper.2.trans_lt (by decide))
      simp [Text.hexDigit?, digitValue, hrange, hd, hlower, hupper, hl]

theorem valueFrom?_eq (base : Nat) {digit? : Char → Option Nat} {cs : List Char}
    (h : ∀ c ∈ cs, digit? c = some (digitValue c)) (n : Nat) :
    Text.valueFrom? base digit? n cs = some (base ^ cs.length * n + numeral base cs) := by
  induction cs generalizing n with
  | nil => simp [Text.valueFrom?, numeral]
  | cons c cs ih =>
    rw [Text.valueFrom?, h c (by simp)]
    simp only [Option.bind_eq_bind, Option.bind_some, ih fun d hd => h d (by simp [hd])]
    simp only [numeral, List.reverse_cons, List.map_append, Nat.ofDigits_append, List.length_map,
      List.length_reverse, List.map_cons, List.map_nil, Nat.ofDigits_singleton, List.length_cons]
    ring_nf

theorem decimalValue?_eq {ds : List Char} (hne : ds ≠ []) (hds : ∀ c ∈ ds, c.isDigit) :
    Text.decimalValue? ds = some (numeral 10 ds) := by
  obtain ⟨d, ds, rfl⟩ := List.exists_cons_of_ne_nil hne
  have hread := valueFrom?_eq 10 (fun c hc => decimalDigit?_eq (hds c hc)) 0
  rwa [Nat.mul_zero, Nat.zero_add] at hread

theorem hexValue?_eq {ds : List Char} (hne : ds ≠ [])
    (hds : ∀ c ∈ ds, c.isDigit || isHexLetter c) :
    Text.hexValue? ds = some (numeral 16 ds) := by
  obtain ⟨d, ds, rfl⟩ := List.exists_cons_of_ne_nil hne
  have hread := valueFrom?_eq 16 (fun c hc => hexDigit?_eq (hds c hc)) 0
  rwa [Nat.mul_zero, Nat.zero_add] at hread

theorem operand_eq_value {x : Token} (ht : t.Grammatical) (h : t.yield = [x.lexeme]) :
    operand ctx x = t.value ctx := by
  obtain ⟨k, text, position⟩ := x
  obtain ⟨cs, rfl⟩ : ∃ cs, text = .ofList cs := ⟨text.toList, by simp⟩
  simp only [Token.lexeme, String.toList_ofList] at h
  cases t with
  | decimal ds =>
    obtain ⟨rfl, rfl⟩ : .decimal = k ∧ ds = cs := by simpa [Tree.yield] using h
    simp only [operand, String.toList_ofList, decimalValue?_eq ht.1 ht.2]
    rfl
  | hex mark ds =>
    obtain ⟨rfl, rfl⟩ : .hex = k ∧ '0' :: mark :: ds = cs := by simpa [Tree.yield] using h
    simp only [operand, String.toList_ofList, List.drop_succ_cons, List.drop_zero,
      hexValue?_eq ht.2.1 ht.2.2]
    rfl
  | register name =>
    obtain ⟨rfl, rfl⟩ : .register = k ∧ '$' :: name = cs := by simpa [Tree.yield] using h
    simp only [operand, String.toList_ofList, List.drop_succ_cons, List.drop_zero, Tree.value]
    cases ctx.register (.ofList name) <;> rfl
  | parens t | negate t | deref t | binary o l r =>
    have hleaf := Tree.height_eq_one h
    simp [Tree.height, (Tree.height_pos _).ne'] at hleaf

theorem apply_eq_value (o : Operator) (x y : Word) : apply o.lexeme.kind x y = o.value x y := by
  cases o with
  | and => simp [apply, Operator.lexeme, Operator.value, Word.ofBool]
  | equal => simp [apply, Operator.lexeme, Operator.value, Word.ofBool]
  | notEqual => simp [apply, Operator.lexeme, Operator.value, Word.ofBool]
  | plus => simp [apply, Operator.lexeme, Operator.value, BitVec.ofNat_add]
  | minus =>
    have hsub : x - y = BitVec.ofInt 32 (x.toNat - y.toNat) := by
      apply BitVec.eq_of_toNat_eq
      simp only [BitVec.toNat_sub, BitVec.toNat_ofInt]
      omega
    simp [apply, Operator.lexeme, Operator.value, hsub]
  | star => simp [apply, Operator.lexeme, Operator.value, BitVec.ofNat_mul]
  | slash =>
    have hdiv : x / y = BitVec.ofNat 32 (x.toNat / y.toNat) := by
      apply BitVec.eq_of_toNat_eq
      have := Nat.div_le_self x.toNat y.toNat
      rw [BitVec.toNat_udiv, BitVec.toNat_ofNat, Nat.mod_eq_of_lt (by omega)]
    simp [apply, Operator.lexeme, Operator.value, hdiv, BitVec.toNat_eq]

theorem neg_eq_ofInt (x : Word) : -x = BitVec.ofInt 32 (-x.toNat) := by
  simp [BitVec.ofInt_neg]

/-! ### From trees to values -/

theorem evalTokens_enclosed {us : List Token} {n : Nat} (h : enclosed? ts = some us) :
    evalTokens ctx (n + 1) ts = evalTokens ctx n us := by
  obtain ⟨x, y, rfl, -, -⟩ := enclosed?_eq_some h
  obtain ⟨z, zs, hz⟩ := List.exists_cons_of_ne_nil (show us ++ [y] ≠ [] by simp)
  rw [List.cons_append, hz] at h ⊢
  simp only [evalTokens, h]

theorem evalTokens_split {p : Split} {n : Nat} (hlen : 2 ≤ ts.length) (h : enclosed? ts = none)
    (hp : split? ts = .ok (some p)) :
    evalTokens ctx (n + 1) ts =
      (do let x ← evalTokens ctx n p.left
          let y ← evalTokens ctx n p.right
          apply p.operator.kind x y) := by
  obtain _ | ⟨a, _ | ⟨b, ts⟩⟩ := ts
  · simp at hlen
  · simp at hlen
  · simp only [evalTokens, h, hp]
    rfl

theorem evalTokens_sign {x : Token} {n : Nat} (hne : ts ≠ []) (h : enclosed? (x :: ts) = none)
    (hp : split? (x :: ts) = .ok none) :
    evalTokens ctx (n + 1) (x :: ts) =
      match x.kind with
      | .negate => do return -(← evalTokens ctx n ts)
      | .deref => do
        let a ← evalTokens ctx n ts
        match ctx.readWord a with
        | some v => .ok v
        | none => .error (.memory a)
      | _ => .error (.unexpected ((secondOperand? 0 (x :: ts)).getD x).position) := by
  obtain ⟨y, ys, rfl⟩ := List.exists_cons_of_ne_nil hne
  simp only [evalTokens, h, hp]
  rfl

/-- Tokens that spell a tree have the tree's value, if they may nest as deep as it is high. -/
theorem evalTokens_eq_value {n : Nat} (ht : t.Grammatical) (h : Yields t ts) (hn : t.height ≤ n) :
    evalTokens ctx n ts = t.value ctx := by
  induction t generalizing ts n with
  | decimal | hex | register =>
    obtain ⟨x, rfl, -, -⟩ := Yields.leaf h
    obtain ⟨n, rfl⟩ : ∃ m, n = m + 1 := ⟨n - 1, by simp only [Tree.height] at hn; omega⟩
    exact operand_eq_value ht h.symm
  | parens t ih =>
    obtain ⟨x, us, y, rfl, hx, hus, hy⟩ := h.parens_inv
    obtain ⟨n, rfl⟩ : ∃ m, n = m + 1 := ⟨n - 1, by simp only [Tree.height] at hn; omega⟩
    rw [evalTokens_enclosed (enclosed?_parens hx hus hy)]
    exact ih ht hus (by simpa [Tree.height] using hn)
  | negate t ih =>
    obtain ⟨x, us, rfl, hx, hus⟩ := Yields.cons_inv h
    obtain ⟨n, rfl⟩ : ∃ m, n = m + 1 := ⟨n - 1, by simp only [Tree.height] at hn; omega⟩
    have henc : enclosed? (x :: us) = none := by simp [enclosed?, hx]
    rw [evalTokens_sign hus.ne_nil henc (split?_unary ht h rfl), hx]
    simp only [ih ht.2 hus (by simpa [Tree.height] using hn), Tree.value, neg_eq_ofInt]
  | deref t ih =>
    obtain ⟨x, us, rfl, hx, hus⟩ := Yields.cons_inv h
    obtain ⟨n, rfl⟩ : ∃ m, n = m + 1 := ⟨n - 1, by simp only [Tree.height] at hn; omega⟩
    have henc : enclosed? (x :: us) = none := by simp [enclosed?, hx]
    rw [evalTokens_sign hus.ne_nil henc (split?_unary ht h rfl), hx]
    simp only [ih ht.2 hus (by simpa [Tree.height] using hn), Tree.value]
    congr 1
    funext a
    cases ctx.readWord a <;> rfl
  | binary o l r ihl ihr =>
    obtain ⟨ls, x, rs, rfl, hls, hx, hrs⟩ := h.binary_inv
    obtain ⟨n, rfl⟩ : ∃ m, n = m + 1 := ⟨n - 1, by simp only [Tree.height] at hn; omega⟩
    have hhl : l.height ≤ n ∧ r.height ≤ n := by simpa [Tree.height] using hn
    have hlen : 2 ≤ (ls ++ x :: rs).length := by
      have := List.length_pos_iff.mpr hls.ne_nil
      simp only [List.length_append, List.length_cons]
      omega
    have henc : enclosed? (ls ++ x :: rs) = none := enclosed?_append hls (by simp)
    rw [evalTokens_split hlen henc (split?_binary ht hls hx hrs)]
    simp only [ihl ht.2.2.1 hls hhl.1, ihr ht.2.2.2 hrs hhl.2, hx, apply_eq_value, Tree.value]

end Hartwatch.Expr
