import Hartwatch.Proofs.Expr.Derivation
import Hartwatch.Proofs.Expr.Tokens

/-! The language of expressions. A text has at most one tree, an expression that nests no deeper
than 256 levels evaluates to the value of its tree, and no other text has a value at all. -/

namespace Hartwatch.Expr

variable {t u : Tree} {ts : List Token}

/-! ### Unambiguity -/

theorem not_yields_binary {o : Operator} {l r : Tree} (ht : t.Grammatical) (h : Yields t ts)
    (hlevel : t.level = 4) (hu : (Tree.binary o l r).Grammatical) :
    ¬ Yields (.binary o l r) ts := by
  intro hy
  have hnone := split?_unary ht h hlevel
  obtain ⟨ls, x, rs, rfl, hls, hx, hrs⟩ := hy.binary_inv
  simp [split?_binary hu hls hx hrs] at hnone

theorem Operator.lexeme_kind_injective {o o' : Operator} (h : o.lexeme.kind = o'.lexeme.kind) :
    o = o' := by
  cases o <;> cases o' <;> simp [Operator.lexeme] at h ⊢

theorem Tree.eq_of_yields (ht : t.Grammatical) (hu : u.Grammatical) (h : Yields t ts)
    (h' : Yields u ts) : t = u := by
  induction t generalizing u ts with
  | decimal ds =>
    have hy : (Tree.decimal ds).yield = u.yield := h.symm.trans h'
    cases u with
    | binary => exact absurd h' (not_yields_binary ht h rfl hu)
    | decimal => simpa [Tree.yield] using hy
    | _ => simp [Tree.yield] at hy
  | hex x ds =>
    have hy : (Tree.hex x ds).yield = u.yield := h.symm.trans h'
    cases u with
    | binary => exact absurd h' (not_yields_binary ht h rfl hu)
    | hex => simpa [Tree.yield] using hy
    | _ => simp [Tree.yield] at hy
  | register cs =>
    have hy : (Tree.register cs).yield = u.yield := h.symm.trans h'
    cases u with
    | binary => exact absurd h' (not_yields_binary ht h rfl hu)
    | register => simpa [Tree.yield] using hy
    | _ => simp [Tree.yield] at hy
  | parens t ih =>
    have hy : (Tree.parens t).yield = u.yield := h.symm.trans h'
    cases u with
    | binary => exact absurd h' (not_yields_binary ht h rfl hu)
    | parens u =>
      obtain ⟨x, us, y, rfl, -, hus, -⟩ := h.parens_inv
      obtain ⟨x', us', y', heq, -, hus', -⟩ := h'.parens_inv
      obtain rfl : us = us' := (List.append_inj' (List.cons.inj heq).2 rfl).1
      exact congrArg _ (ih ht hu hus hus')
    | _ => simp [Tree.yield] at hy
  | negate t ih =>
    have hy : (Tree.negate t).yield = u.yield := h.symm.trans h'
    cases u with
    | binary => exact absurd h' (not_yields_binary ht h rfl hu)
    | negate u =>
      obtain ⟨x, us, rfl, -, hus⟩ := Yields.cons_inv h
      obtain ⟨x', us', heq, -, hus'⟩ := Yields.cons_inv h'
      obtain ⟨-, rfl⟩ := List.cons.inj heq
      exact congrArg _ (ih ht.2 hu.2 hus hus')
    | _ => simp [Tree.yield] at hy
  | deref t ih =>
    have hy : (Tree.deref t).yield = u.yield := h.symm.trans h'
    cases u with
    | binary => exact absurd h' (not_yields_binary ht h rfl hu)
    | deref u =>
      obtain ⟨x, us, rfl, -, hus⟩ := Yields.cons_inv h
      obtain ⟨x', us', heq, -, hus'⟩ := Yields.cons_inv h'
      obtain ⟨-, rfl⟩ := List.cons.inj heq
      exact congrArg _ (ih ht.2 hu.2 hus hus')
    | _ => simp [Tree.yield] at hy
  | binary o l r ihl ihr =>
    cases u with
    | binary o' l' r' =>
      obtain ⟨ls, x, rs, rfl, hls, hx, hrs⟩ := h.binary_inv
      obtain ⟨ls', x', rs', heq, hls', hx', hrs'⟩ := h'.binary_inv
      have hcut := split?_binary ht hls hx hrs
      rw [heq, split?_binary hu hls' hx' hrs'] at hcut
      obtain ⟨rfl, rfl, -, rfl⟩ := Split.mk.inj (Option.some.inj (Except.ok.inj hcut))
      obtain rfl := Operator.lexeme_kind_injective (hx.symm.trans hx')
      obtain rfl := ihl ht.2.2.1 hu.2.2.1 hls hls'
      obtain rfl := ihr ht.2.2.2 hu.2.2.2 hrs hrs'
      rfl
    | _ => exact absurd h (not_yields_binary hu h' rfl ht)

theorem Tree.Derives.unique {text : String} (h : t.Derives text) (h' : u.Derives text) :
    t = u := by
  obtain ⟨ht, ts, hts, hy⟩ := h
  obtain ⟨hu, ts', hts', hy'⟩ := h'
  obtain rfl := Except.ok.inj (hts.symm.trans hts')
  exact Tree.eq_of_yields ht hu hy hy'

/-! ### Values -/

theorem Tree.Derives.evaluate_eq {text : String} (h : t.Derives text) (hh : t.height ≤ maxDepth)
    (ctx : Context) : evaluate ctx text = t.value ctx := by
  obtain ⟨ht, ts, hts, hy⟩ := h
  have hne : ts.isEmpty = false := by simpa using Yields.ne_nil hy
  rw [← evalTokens_eq_value ht hy hh]
  simp [evaluate, hts, hne, bind, Except.bind]

theorem exists_derives {ctx : Context} {text : String} {v : Word}
    (h : evaluate ctx text = .ok v) : ∃ t : Tree, t.Derives text ∧ t.height ≤ maxDepth := by
  obtain ⟨ts, hts, h⟩ := bind_eq_ok h
  split at h
  · cases h
  · obtain ⟨t, ht, hy, hh⟩ := exists_tree (tokenize_wellFormed hts) h
    exact ⟨t, ⟨ht, ts, hts, hy⟩, hh⟩

/-- An expression that nests at most 256 levels has the value of its tree, wherever blanks stand
between its tokens and whatever its names and addresses mean. -/
theorem evaluate_eq_value {text : String} (ht : t.Grammatical) (hh : t.height ≤ 256)
    (hr : t.Renders text) (ctx : Context) : evaluate ctx text = t.value ctx :=
  (hr.derives ht).evaluate_eq hh ctx

theorem evaluate_eq_value_negated_register :
    let t : Tree := .binary .equal (.negate (.parens (.register ['a', '0']))) (.hex 'x' ['F'])
    let ctx : Context := ⟨fun name => if name = "a0" then some (-15) else none, fun _ => none⟩
    t.Grammatical ∧ t.height ≤ 256 ∧ t.Renders " -( $a0)==\t0xF " ∧
      evaluate ctx " -( $a0)==\t0xF " = .ok 1 := by
  intro t ctx
  have ht : t.Grammatical := by decide
  have none : ∀ c ∈ ([] : List Char), Text.isBlank c := List.all_eq_true.1 rfl
  have space : ∀ c ∈ [' '], Text.isBlank c := List.all_eq_true.1 rfl
  have tab : ∀ c ∈ ['\t'], Text.isBlank c := List.all_eq_true.1 rfl
  have hr : t.Renders " -( $a0)==\t0xF " :=
    @Spaced.cons [' '] ['-'] _ _ space <| @Spaced.cons [] ['('] _ _ none <|
      @Spaced.cons [' '] ['$', 'a', '0'] _ _ space <| @Spaced.cons [] [')'] _ _ none <|
      @Spaced.cons [] ['=', '='] _ _ none <| @Spaced.cons ['\t'] ['0', 'x', 'F'] _ _ tab <|
      .nil space
  exact ⟨ht, by decide, hr, (evaluate_eq_value ht (by decide) hr ctx).trans rfl⟩

/-- A text has a value only through a tree of the grammar, the only one it has. -/
theorem evaluate_only_derived (text : String) :
    (∀ ctx v, evaluate ctx text = .ok v →
      ∃ t : Tree, t.Derives text ∧ t.height ≤ 256 ∧ t.value ctx = .ok v ∧
        ∀ u : Tree, u.Derives text → u = t) ∧
    ((∀ t : Tree, t.Derives text → 256 < t.height) →
      ∀ ctx, ∃ e, evaluate ctx text = .error e) := by
  constructor
  · intro ctx v h
    obtain ⟨t, ht, hh⟩ := exists_derives h
    exact ⟨t, ht, hh, (ht.evaluate_eq hh ctx).symm.trans h, fun u hu => hu.unique ht⟩
  · intro hdeep ctx
    cases h : evaluate ctx text with
    | error e => exact ⟨e, rfl⟩
    | ok v =>
      obtain ⟨t, ht, hh⟩ := exists_derives h
      exact absurd hh (hdeep t ht).not_ge

theorem evaluate_only_derived_juxtaposed :
    let ctx : Context := ⟨fun _ => none, fun _ => none⟩
    (∃ t : Tree, t.Derives "7-2-1" ∧ t.height ≤ 256 ∧ t.value ctx = .ok 4 ∧
      ∀ u : Tree, u.Derives "7-2-1" → u = t) ∧
    ∃ e, evaluate ctx "1 2" = .error e := by
  intro ctx
  refine ⟨(evaluate_only_derived "7-2-1").1 ctx 4 rfl, (evaluate_only_derived "1 2").2 ?_ ctx⟩
  rintro t ⟨-, ts, hts, hy⟩
  have ha : Alternates false t.yield := by
    simpa [Alternates] using (t.alternates_yield_append []).mpr trivial
  obtain rfl : [⟨.decimal, "1", 0⟩, ⟨.decimal, "2", 2⟩] = ts := Except.ok.inj (.trans rfl hts)
  simp [← hy, Alternates, Token.lexeme, Token.Kind.endsOperand, Token.Kind.startsOperand] at ha

end Hartwatch.Expr
