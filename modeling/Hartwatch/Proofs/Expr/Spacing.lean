import Hartwatch.Proofs.Expr.Evaluation

/-! Spacing does not matter. Tokens may be moved about as long as their order stays: they are cut
in the same way and come to the same value, and an error that points at a token still does. -/

namespace Hartwatch.Expr

variable {ctx : Context} {f : Nat → Nat}

/-! ### Tokens in other places -/

def Token.move (f : Nat → Nat) (t : Token) : Token :=
  { t with position := f t.position }

def Error.move (f : Nat → Nat) : Error → Error
  | .unexpected position => .unexpected (f position)
  | e => e

@[simp]
theorem Token.kind_move (t : Token) : (t.move f).kind = t.kind :=
  rfl

def Split.move (f : Nat → Nat) (p : Split) : Split :=
  ⟨p.left.map (Token.move f), p.operator.move f, p.precedence, p.right.map (Token.move f)⟩

def SplitScan.move (f : Nat → Nat) (s : SplitScan) : SplitScan :=
  { s with split? := s.split?.map (Split.move f) }

@[simp]
theorem SplitScan.depth_move (s : SplitScan) : (s.move f).depth = s.depth :=
  rfl

theorem closing?_move (depth : Nat) (ts : List Token) :
    closing? depth (ts.map (Token.move f)) =
      (closing? depth ts).map (List.map (Token.move f)) := by
  induction ts generalizing depth with
  | nil => rfl
  | cons t ts ih =>
    rw [List.map_cons, closing?.eq_def, closing?.eq_def depth (t :: ts)]
    simp only [Token.kind_move]
    split
    · simp [ih, Function.comp_def]
    · cases ts <;> rfl
    · simp [ih, Function.comp_def]
    · simp [ih, Function.comp_def]

theorem enclosed?_move (ts : List Token) :
    enclosed? (ts.map (Token.move f)) = (enclosed? ts).map (List.map (Token.move f)) := by
  cases ts with
  | nil => rfl
  | cons t ts =>
    rw [List.map_cons, enclosed?, enclosed?, Token.kind_move, closing?_move]
    split <;> rfl

theorem SplitScan.shift_move (t : Token) (s : SplitScan) :
    (s.move f).shift (t.move f) = (s.shift t).move f := by
  simp [SplitScan.shift, SplitScan.move, Split.move, Function.comp_def]

theorem SplitScan.offer_move (t : Token) (ts : List Token) (s : SplitScan) :
    (s.move f).offer (t.move f) (ts.map (Token.move f)) = (s.offer t ts).move f := by
  obtain ⟨d, _ | p⟩ := s
  · rw [offer, offer, Token.kind_move]
    cases t.kind.precedence? <;> rfl
  · rw [offer, offer, Token.kind_move, SplitScan.shift_move]
    cases t.kind.precedence? with
    | none => rfl
    | some q =>
      by_cases hq : q < p.precedence <;> simp [SplitScan.move, Split.move, hq]

theorem scanSplit_move (ts : List Token) :
    scanSplit (ts.map (Token.move f)) = (scanSplit ts).map (SplitScan.move f) := by
  induction ts with
  | nil => rfl
  | cons t ts ih =>
    rw [List.map_cons]
    cases hts : scanSplit ts with
    | error e =>
      rw [hts] at ih
      rw [scanSplit, ih, scanSplit, hts]
      rfl
    | ok s =>
      rw [hts] at ih
      rw [scanSplit_cons ih, scanSplit_cons hts, Token.kind_move, SplitScan.shift_move,
        SplitScan.offer_move, SplitScan.depth_move]
      split <;> rfl

theorem scanSplit_eq_error {ts : List Token} {e : Error} (h : scanSplit ts = .error e) :
    e = .unmatchedParenthesis := by
  induction ts with
  | nil => cases h
  | cons t ts ih =>
    cases hts : scanSplit ts with
    | error e' =>
      rw [scanSplit, hts] at h
      obtain rfl := Except.error.inj h
      exact ih hts
    | ok s =>
      rw [scanSplit_cons hts] at h
      split at h <;> first | cases h; rfl | cases h

theorem split?_move (ts : List Token) :
    split? (ts.map (Token.move f)) = (split? ts).map (Option.map (Split.move f)) := by
  rw [split?, split?, scanSplit_move]
  cases scanSplit ts with
  | error e => rfl
  | ok s =>
    obtain ⟨_ | d, p?⟩ := s <;> rfl

theorem split?_eq_error {ts : List Token} {e : Error} (h : split? ts = .error e) :
    e = .unmatchedParenthesis := by
  rw [split?] at h
  cases hts : scanSplit ts with
  | error e' =>
    rw [hts] at h
    obtain rfl := Except.error.inj h
    exact scanSplit_eq_error hts
  | ok s =>
    rw [hts] at h
    simp only [bind, Except.bind] at h
    split at h
    · cases h
    · exact (Except.error.inj h).symm

theorem secondOperand?_move (depth : Nat) (ts : List Token) :
    secondOperand? depth (ts.map (Token.move f)) = (secondOperand? depth ts).map (Token.move f) := by
  induction ts generalizing depth with
  | nil => rfl
  | cons t ts ih =>
    rw [List.map_cons, secondOperand?, secondOperand?, Token.kind_move]
    simp only [ih, List.head?_map, ne_eq, List.map_eq_nil_iff,
      apply_ite (Option.map (Token.move f))]

theorem wordOfLiteral_move (text : String) (value? : Option Nat) :
    (wordOfLiteral text value?).mapError (Error.move f) = wordOfLiteral text value? := by
  cases value? with
  | none => rfl
  | some n =>
    unfold wordOfLiteral
    dsimp only
    split <;> rfl

theorem operand_move (t : Token) :
    operand ctx (t.move f) = (operand ctx t).mapError (Error.move f) := by
  change operand ctx t = _
  unfold operand
  split
  · rw [wordOfLiteral_move]
  · rw [wordOfLiteral_move]
  · dsimp only
    split <;> rfl
  · rfl

theorem apply_move (operator : Token.Kind) (x y : Word) :
    (apply operator x y).mapError (Error.move f) = apply operator x y := by
  cases operator with
  | slash =>
    unfold apply
    dsimp only
    split <;> rfl
  | _ => rfl

theorem mapError_bind {α β : Type} {g : Error → Error} {r : Except Error α}
    {k k' : α → Except Error β} (h : ∀ a, k' a = (k a).mapError g) :
    r.mapError g >>= k' = (r >>= k).mapError g := by
  cases r with
  | error e => rfl
  | ok a => exact h a

theorem evalTokens_unmatched {ts : List Token} {n : Nat} {e : Error} (hlen : 2 ≤ ts.length)
    (h : enclosed? ts = none) (hp : split? ts = .error e) : evalTokens ctx (n + 1) ts = .error e := by
  obtain _ | ⟨a, _ | ⟨b, ts⟩⟩ := ts
  · simp at hlen
  · simp at hlen
  · simp only [evalTokens, h, hp]
    rfl

/-- Evaluation looks at positions in its errors only. -/
theorem evalTokens_move (ctx : Context) (f : Nat → Nat) (n : Nat) (ts : List Token) :
    evalTokens ctx n (ts.map (Token.move f)) = (evalTokens ctx n ts).mapError (Error.move f) := by
  induction n generalizing ts with
  | zero => rfl
  | succ n ih =>
    obtain _ | ⟨t, _ | ⟨u, ts⟩⟩ := ts
    · rfl
    · exact operand_move t
    -- the moved list is cut where the list is, so the same equation unfolds both sides
    have henc := enclosed?_move (f := f) (t :: u :: ts)
    have hsplit := split?_move (f := f) (t :: u :: ts)
    cases he : enclosed? (t :: u :: ts) with
    | some inner =>
      rw [he] at henc
      rw [evalTokens_enclosed henc, evalTokens_enclosed he, ih]
    | none =>
      rw [he] at henc
      cases hs : split? (t :: u :: ts) with
      | error e =>
        rw [hs] at hsplit
        rw [evalTokens_unmatched (by simp) henc hsplit, evalTokens_unmatched (by simp) he hs,
          split?_eq_error hs]
        rfl
      | ok p? =>
        rw [hs] at hsplit
        cases p? with
        | some p =>
          rw [evalTokens_split (by simp) henc hsplit, evalTokens_split (by simp) he hs]
          simp only [Split.move, ih]
          exact mapError_bind fun x => mapError_bind fun y => (apply_move _ x y).symm
        | none =>
          have hsecond := secondOperand?_move (f := f) 0 (t :: u :: ts)
          rw [List.map_cons] at henc hsplit hsecond ⊢
          rw [evalTokens_sign (by simp) henc hsplit, evalTokens_sign (by simp) he hs, hsecond, ih,
            Token.kind_move]
          split
          · exact mapError_bind fun a => rfl
          · exact mapError_bind fun a => by cases ctx.readWord a <;> rfl
          · cases secondOperand? 0 (t :: u :: ts) <;> rfl

theorem unexpected_mem {n : Nat} {ts : List Token} {p : Nat}
    (h : evalTokens ctx n ts = .error (.unexpected p)) : ∃ t ∈ ts, t.position = p := by
  -- moving everything but the tokens moves nothing
  let f (q : Nat) : Nat := if ∃ t ∈ ts, t.position = q then q else q + 1
  have hts : ts.map (Token.move f) = ts := by
    conv_rhs => rw [← List.map_id ts]
    refine List.map_congr_left fun t ht => ?_
    have : f t.position = t.position := if_pos ⟨t, ht, rfl⟩
    simp [Token.move, this]
  have hmove := evalTokens_move ctx f n ts
  rw [hts, h] at hmove
  have hp : p = f p := by simpa [Except.mapError, Error.move] using hmove
  by_contra hnot
  have : f p = p + 1 := if_neg hnot
  omega

/-! ### Texts with the same tokens in other places -/

/-- Pieces in their order with blanks around them, and at least one between any two. -/
inductive Separated : List (List Char) → List Char → Prop
  | nil {gap : List Char} : (∀ c ∈ gap, Text.isBlank c) → Separated [] gap
  | cons {gap piece cs : List Char} {pieces : List (List Char)} :
    (∀ c ∈ gap, Text.isBlank c) → (pieces ≠ [] → ∃ c ∈ cs.head?, Text.isBlank c) →
    Separated pieces cs → Separated (piece :: pieces) (gap ++ piece ++ cs)

/-- Two expressions come to the same, except for an error that points at a token of each. -/
inductive Corresponds (ts us : List Token) : Except Error Word → Except Error Word → Prop
  | same {r : Except Error Word} : (∀ p, r ≠ .error (.unexpected p)) → Corresponds ts us r r
  | token {i : Nat} {t u : Token} : ts[i]? = some t → us[i]? = some u →
    Corresponds ts us (.error (.unexpected t.position)) (.error (.unexpected u.position))

theorem Separated.closes {pieces : List (List Char)} {cs : List Char} (h : Separated pieces cs)
    (hnext : pieces ≠ [] → ∃ c ∈ cs.head?, Text.isBlank c) : Closes cs := by
  cases cs with
  | nil => simp [Closes]
  | cons c cs =>
    refine .of_blank ?_
    cases pieces with
    | nil =>
      cases h with
      | nil hgap => exact hgap c (by simp)
    | cons piece pieces => simpa using hnext (by simp)

theorem spells_of_separated {ls : List Lexeme} {cs : List Char} {afterOperand : Bool}
    (h : Separated (ls.map Lexeme.text) cs) (hls : ∀ l ∈ ls, l.WellFormed)
    (hm : Marked afterOperand ls) : Spells afterOperand ls cs := by
  induction ls generalizing cs afterOperand with
  | nil =>
    cases h with
    | nil hgap => exact .nil hgap
  | cons l ls ih =>
    cases h with
    | cons hgap hnext hrest =>
      have hls' : ∀ l' ∈ ls, l'.WellFormed := fun l' hl' => hls l' (by simp [hl'])
      exact .cons hgap (hls l (by simp)) hm.1 (fun _ => hrest.closes hnext) (ih hrest hls' hm.2)

def numbered (ls : List Lexeme) : List Token :=
  ls.zipIdx.map fun (l, i) => ⟨l.kind, .ofList l.text, i⟩

def placeOf (ts : List Token) (i : Nat) : Nat :=
  (ts[i]?.map Token.position).getD 0

theorem numbered_move (ts : List Token) :
    (numbered (ts.map Token.lexeme)).map (Token.move (placeOf ts)) = ts := by
  apply List.ext_getElem?
  intro i
  cases h : ts[i]? <;> simp [numbered, List.getElem?_zipIdx, Token.move, Token.lexeme, placeOf, h]

theorem position_of_mem_numbered {ls : List Lexeme} {t : Token} (h : t ∈ numbered ls) :
    t.position < ls.length := by
  obtain ⟨⟨l, i⟩, hmem, rfl⟩ := List.mem_map.mp h
  have := List.mem_zipIdx hmem
  simpa using this.2.1

theorem corresponds_of_lexemes {ts us : List Token} (h : us.map Token.lexeme = ts.map Token.lexeme)
    (n : Nat) : Corresponds ts us (evalTokens ctx n ts) (evalTokens ctx n us) := by
  -- both lists are the same numbered lexemes, moved to their own places
  have hts := evalTokens_move ctx (placeOf ts) n (numbered (ts.map Token.lexeme))
  have hus := evalTokens_move ctx (placeOf us) n (numbered (us.map Token.lexeme))
  rw [numbered_move] at hts hus
  rw [hts, hus, h]
  cases hr : evalTokens ctx n (numbered (ts.map Token.lexeme)) with
  | ok v => exact .same (by simp [Except.mapError])
  | error e =>
    cases e with
    | unexpected i =>
      obtain ⟨t, ht, rfl⟩ := unexpected_mem hr
      have hlen : t.position < ts.length := by simpa using position_of_mem_numbered ht
      have hlen' : t.position < us.length := by
        have := congrArg List.length h
        simp only [List.length_map] at this
        omega
      have := Corresponds.token (List.getElem?_eq_getElem hlen) (List.getElem?_eq_getElem hlen')
      simpa [Except.mapError, Error.move, placeOf, hlen, hlen'] using this
    | _ => exact .same (by simp [Except.mapError, Error.move])

theorem evaluate_of_tokenize {text : String} {ts : List Token} (h : tokenize text = .ok ts) :
    evaluate ctx text = if ts.isEmpty then .error .empty else evalTokens ctx maxDepth ts := by
  rw [evaluate, h]
  rfl

/-- Where blanks stand, and which, matters only to the positions of errors. -/
theorem evaluate_spacing {text spaced : String} {ts : List Token} (h : tokenize text = .ok ts)
    (hspaced : Separated (ts.map fun t => t.text.toList) spaced.toList) :
    ∃ us, tokenize spaced = .ok us ∧ us.map Token.lexeme = ts.map Token.lexeme ∧
      ∀ ctx, Corresponds ts us (evaluate ctx text) (evaluate ctx spaced) := by
  have hts := tokenize_eq_ok_iff.mp h
  have hwf : ∀ l ∈ ts.map Token.lexeme, l.WellFormed := by simpa using hts.wellFormed
  have htexts : (ts.map Token.lexeme).map Lexeme.text = ts.map fun t => t.text.toList := by
    simp [Token.lexeme]
  obtain ⟨us, hus, hmap⟩ := (spells_of_separated (htexts ▸ hspaced) hwf hts.marked).tokenize
  refine ⟨us, hus, hmap, fun ctx => ?_⟩
  rw [evaluate_of_tokenize h, evaluate_of_tokenize hus]
  have hempty : us.isEmpty = ts.isEmpty := by simpa using congrArg List.isEmpty hmap
  rw [hempty]
  split
  · exact .same (by simp)
  · exact corresponds_of_lexemes hmap maxDepth

theorem evaluate_spacing_juxtaposed :
    let ts : List Token := [⟨.leftParen, "(", 0⟩, ⟨.decimal, "3", 1⟩, ⟨.rightParen, ")", 2⟩,
      ⟨.decimal, "4", 3⟩]
    let spaced := "( 3\t)\u20034 "
    tokenize "(3)4" = .ok ts ∧ Separated (ts.map fun t => t.text.toList) spaced.toList ∧
      (∃ us, tokenize spaced = .ok us ∧ us.map Token.lexeme = ts.map Token.lexeme ∧
        ∀ ctx, Corresponds ts us (evaluate ctx "(3)4") (evaluate ctx spaced)) ∧
      ∀ ctx, evaluate ctx "(3)4" = .error (.unexpected 3) ∧
        evaluate ctx spaced = .error (.unexpected 8) := by
  intro ts spaced
  have hts : tokenize "(3)4" = .ok ts := by decide
  have hchars : spaced.toList = ['(', ' ', '3', '\t', ')', '\u2003', '4', ' '] := by decide
  have space : ∀ c ∈ [' '], Text.isBlank c := List.all_eq_true.1 rfl
  have tab : ∀ c ∈ ['\t'], Text.isBlank c := List.all_eq_true.1 rfl
  have wide : ∀ c ∈ ['\u2003'], Text.isBlank c := List.all_eq_true.1 rfl
  have hspaced : Separated (ts.map fun t => t.text.toList) spaced.toList := by
    rw [hchars]
    exact @Separated.cons [] ['('] _ _ (by simp) (fun _ => ⟨' ', rfl, rfl⟩) <|
      @Separated.cons [' '] ['3'] _ _ space (fun _ => ⟨'\t', rfl, rfl⟩) <|
      @Separated.cons ['\t'] [')'] _ _ tab (fun _ => ⟨'\u2003', rfl, rfl⟩) <|
      @Separated.cons ['\u2003'] ['4'] _ _ wide (by simp) <| .nil space
  have hus : tokenize spaced = .ok [⟨.leftParen, "(", 0⟩, ⟨.decimal, "3", 2⟩, ⟨.rightParen, ")", 4⟩,
    ⟨.decimal, "4", 8⟩] := by decide
  exact ⟨hts, hspaced, evaluate_spacing hts hspaced, fun ctx =>
    ⟨rfl, (evaluate_of_tokenize hus).trans rfl⟩⟩

end Hartwatch.Expr
