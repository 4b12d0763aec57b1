import Hartwatch.Instruction.Pattern
import Mathlib.Data.List.Induction

/-! Which templates stand for a pattern, which words their patterns recognize, and what is wrong
with any other template. A template is read from the left, and the first character that is wrong
decides. -/

namespace Hartwatch.Pattern

variable {cs pre post : List Char} {c : Char} {w : Word} {p : Pattern} {bits : Nat}
  {t : String}

def symbols (cs : List Char) : List Char :=
  cs.filter fun c => c ≠ ' '

structure Fine (cs : List Char) : Prop where
  legal : ∀ c ∈ cs, c ∈ ['0', '1', '?', ' ']
  fits : (symbols cs).length ≤ 32

def rejection? (t : String) : Option String :=
  match ofTemplate t with
  | .ok _ => none
  | .error e => some e.message

def spell (p : Pattern) (symbols : List Char) : Pattern :=
  symbols.foldl (fun p c => p.push (c ≠ '?') (c = '1')) p

theorem symbols_append (pre post : List Char) :
    symbols (pre ++ post) = symbols pre ++ symbols post :=
  List.filter_append ..

theorem symbols_nil : symbols [] = [] :=
  rfl

theorem symbols_cons_space (cs : List Char) : symbols (' ' :: cs) = symbols cs :=
  rfl

theorem symbols_cons (hc : c ∈ ['0', '1', '?']) (cs : List Char) :
    symbols (c :: cs) = c :: symbols cs := by
  have hne : c ≠ ' ' := by
    rintro rfl
    simp at hc
  exact List.filter_cons_of_pos (decide_eq_true hne)

theorem symbol_or_space (hc : c ∈ ['0', '1', '?', ' ']) : c ∈ ['0', '1', '?'] ∨ c = ' ' := by
  simpa [or_assoc] using hc

/-! ### Reading a template -/

theorem readFrom_space (bits : Nat) (p : Pattern) (cs : List Char) :
    readFrom bits p (' ' :: cs) = readFrom bits p cs :=
  rfl

theorem readFrom_symbol (hc : c ∈ ['0', '1', '?']) (bits : Nat) (p : Pattern) (cs : List Char) :
    readFrom bits p (c :: cs) =
      if bits = 32 then .error .tooLong
      else readFrom (bits + 1) (p.push (c ≠ '?') (c = '1')) cs := by
  simp only [List.mem_cons, List.not_mem_nil, or_false] at hc
  obtain rfl | rfl | rfl := hc <;> rfl

theorem readFrom_illegal (hc : c ∉ ['0', '1', '?', ' ']) (bits : Nat) (p : Pattern)
    (cs : List Char) : readFrom bits p (c :: cs) = .error .badSymbol := by
  simp only [List.mem_cons, List.not_mem_nil, or_false, not_or] at hc
  obtain ⟨h0, h1, hfree, hspace⟩ := hc
  have hnone : symbol? c = none := by
    unfold symbol?
    split <;> first | contradiction | rfl
  rw [readFrom, hnone]
  exact hspace

theorem readFrom_append (hlegal : ∀ c ∈ pre, c ∈ ['0', '1', '?', ' '])
    (hfits : bits + (symbols pre).length ≤ 32) (post : List Char) :
    readFrom bits p (pre ++ post) =
      readFrom (bits + (symbols pre).length) (p.spell (symbols pre)) post := by
  induction pre generalizing bits p with
  | nil => rfl
  | cons c pre ih =>
    have hrest : ∀ b ∈ pre, b ∈ ['0', '1', '?', ' '] :=
      fun b hb => hlegal b (List.mem_cons_of_mem _ hb)
    obtain hc | rfl := symbol_or_space (hlegal c List.mem_cons_self)
    · rw [symbols_cons hc, List.length_cons] at hfits ⊢
      have hroom : bits ≠ 32 := by omega
      rw [List.cons_append, readFrom_symbol hc, if_neg hroom, ih hrest (by omega)]
      rw [Nat.add_assoc, Nat.add_comm 1]
      rfl
    · rw [symbols_cons_space] at hfits ⊢
      rw [List.cons_append, readFrom_space, ih hrest hfits]

theorem Fine.readFrom_append (hfine : Fine pre) (post : List Char) :
    readFrom 0 ⟨0, 0⟩ (pre ++ post) =
      readFrom (symbols pre).length (spell ⟨0, 0⟩ (symbols pre)) post := by
  have hfits : 0 + (symbols pre).length ≤ 32 := by
    rw [Nat.zero_add]
    exact hfine.fits
  rw [Pattern.readFrom_append hfine.legal hfits, Nat.zero_add]

theorem Fine.readFrom (hfine : Fine cs) :
    readFrom 0 ⟨0, 0⟩ cs =
      if (symbols cs).length = 32 then .ok (spell ⟨0, 0⟩ (symbols cs)) else .error .tooShort := by
  have hread := hfine.readFrom_append []
  rw [List.append_nil] at hread
  exact hread

theorem Fine.concat (hfine : Fine pre) (hc : c ∈ ['0', '1', '?', ' '])
    (hroom : c ∈ ['0', '1', '?'] → (symbols pre).length ≠ 32) : Fine (pre ++ [c]) := by
  refine ⟨fun b hb => ?_, ?_⟩
  · rcases List.mem_append.mp hb with hb | hb
    · exact hfine.legal b hb
    · rw [List.mem_singleton.mp hb]
      exact hc
  · have hfits := hfine.fits
    rw [symbols_append, List.length_append]
    obtain hc | rfl := symbol_or_space hc
    · have hne := hroom hc
      rw [symbols_cons hc, symbols_nil, List.length_singleton]
      omega
    · exact hfits

/-- A template in which something is wrong has a first character that is: one that is illegal, or
a symbol behind 32 others. -/
theorem fine_or_exists_wrong (cs : List Char) :
    Fine cs ∨ ∃ pre c post, cs = pre ++ c :: post ∧ Fine pre ∧
      (c ∉ ['0', '1', '?', ' '] ∨ (symbols pre).length = 32 ∧ c ∈ ['0', '1', '?']) := by
  induction cs using List.reverseRecOn with
  | nil => exact .inl ⟨by simp, by simp [symbols]⟩
  | append_singleton cs c ih =>
    rcases ih with hfine | ⟨pre, b, post, rfl, hpre, hb⟩
    · by_cases hc : c ∈ ['0', '1', '?', ' ']
      · by_cases hfull : (symbols cs).length = 32 ∧ c ∈ ['0', '1', '?']
        · exact .inr ⟨cs, c, [], rfl, hfine, .inr hfull⟩
        · exact .inl (hfine.concat hc fun hsymbol hlength => hfull ⟨hlength, hsymbol⟩)
      · exact .inr ⟨cs, c, [], rfl, hfine, .inl hc⟩
    · exact .inr ⟨pre, b, post ++ [c], by simp, hpre, hb⟩

/-! ### The bits of a pattern -/

theorem getLsbD_push (w : Word) (b : Bool) {j : Nat} (hj : j < 32) :
    (w <<< 1 ||| Word.ofBool b).getLsbD j = if j = 0 then b else w.getLsbD (j - 1) := by
  have hbit : (Word.ofBool b).getLsbD j = (decide (j = 0) && b) := by
    cases b with
    | false => simp [Word.ofBool]
    | true => simp [Word.ofBool, hj]
  rw [BitVec.getLsbD_or, BitVec.getLsbD_shiftLeft, hbit]
  by_cases hzero : j = 0
  · simp [hzero]
  · have hpos : ¬ j < 1 := by omega
    simp [hzero, hj, hpos]

theorem spell_concat (p : Pattern) (cs : List Char) (c : Char) :
    p.spell (cs ++ [c]) = (p.spell cs).push (c ≠ '?') (c = '1') :=
  List.foldl_append

/-- A bit is fixed if its symbol is no question mark, and set if that is a one. The last symbol
stands for the lowest bit. -/
theorem getLsbD_spell (cs : List Char) {j : Nat} (hj : j < 32) :
    (spell ⟨0, 0⟩ cs).mask.getLsbD j = cs.reverse[j]?.any (· ≠ '?') ∧
      (spell ⟨0, 0⟩ cs).value.getLsbD j = cs.reverse[j]?.any (· = '1') := by
  induction cs using List.reverseRecOn generalizing j with
  | nil => simp [spell]
  | append_singleton cs c ih =>
    rw [spell_concat, push, getLsbD_push _ _ hj, getLsbD_push _ _ hj, List.reverse_append]
    cases j with
    | zero => simp
    | succ j =>
      rw [if_neg (Nat.succ_ne_zero j), if_neg (Nat.succ_ne_zero j)]
      exact ih (Nat.lt_of_succ_lt hj)

theorem value_spell_and (cs : List Char) :
    (spell ⟨0, 0⟩ cs).value &&& ~~~(spell ⟨0, 0⟩ cs).mask = 0 := by
  apply BitVec.eq_of_getLsbD_eq
  intro j hj
  obtain ⟨hmask, hvalue⟩ := getLsbD_spell cs hj
  rw [BitVec.getLsbD_and, BitVec.getLsbD_not, hmask, hvalue]
  cases cs.reverse[j]? with
  | none => simp
  | some c =>
    by_cases hc : c = '1'
    · simp [hc]
    · simp [hc]

theorem recognizes_iff_bits (p : Pattern) (w : Word) :
    p.recognizes w = true ↔
      ∀ j < 32, (w.getLsbD j && p.mask.getLsbD j) = p.value.getLsbD j := by
  rw [recognizes, beq_iff_eq]
  constructor
  · intro h j _
    rw [← h, BitVec.getLsbD_and]
  · intro h
    apply BitVec.eq_of_getLsbD_eq
    intro j hj
    rw [BitVec.getLsbD_and, h j hj]

theorem symbol_matches_iff (hc : c ∈ ['0', '1', '?']) (b : Bool) :
    (b && decide (c ≠ '?')) = decide (c = '1') ↔ c = '?' ∨ c = if b then '1' else '0' := by
  simp only [List.mem_cons, List.not_mem_nil, or_false] at hc
  obtain rfl | rfl | rfl := hc <;> cases b <;> decide

/-- The pattern of 32 symbols recognizes the words that have a bit like each symbol, the first
symbol standing for the highest bit. -/
theorem recognizes_spell_iff (hsymbols : ∀ c ∈ cs, c ∈ ['0', '1', '?']) (hlength : cs.length = 32)
    (w : Word) :
    (spell ⟨0, 0⟩ cs).recognizes w = true ↔
      ∀ i < 32, cs[i]? = some '?' ∨ cs[i]? = some (if w.getLsbD (31 - i) then '1' else '0') := by
  have hbit : ∀ i < 32, ((w.getLsbD (31 - i) && (spell ⟨0, 0⟩ cs).mask.getLsbD (31 - i)) =
      (spell ⟨0, 0⟩ cs).value.getLsbD (31 - i) ↔
        (cs[i]? = some '?' ∨ cs[i]? = some (if w.getLsbD (31 - i) then '1' else '0'))) := by
    intro i hi
    have hj : 31 - i < 32 := by omega
    have hin : i < cs.length := by omega
    have hindex : 32 - 1 - (31 - i) = i := by omega
    have hplace : cs.reverse[31 - i]? = some cs[i] := by
      rw [List.getElem?_reverse (by omega), hlength, hindex, List.getElem?_eq_getElem hin]
    obtain ⟨hmask, hvalue⟩ := getLsbD_spell cs hj
    rw [hmask, hvalue, hplace, List.getElem?_eq_getElem hin]
    simpa using symbol_matches_iff (hsymbols _ (List.getElem_mem hin)) (w.getLsbD (31 - i))
  rw [recognizes_iff_bits]
  constructor
  · intro h i hi
    exact (hbit i hi).mp (h (31 - i) (by omega))
  · intro h j hj
    have hj' := (hbit (31 - j) (by omega)).mpr (h (31 - j) (by omega))
    have hback : 31 - (31 - j) = j := by omega
    rwa [hback] at hj'

/-! ### What a template comes to -/

theorem Fine.symbol_of_mem (hfine : Fine cs) : ∀ c ∈ symbols cs, c ∈ ['0', '1', '?'] := by
  intro c hc
  obtain ⟨hmem, hne⟩ := List.mem_filter.mp hc
  exact (symbol_or_space (hfine.legal c hmem)).resolve_right (of_decide_eq_true hne)

/-- An illegal character is the first thing that is wrong with a template. -/
def HasBadSymbol (cs : List Char) : Prop :=
  ∃ pre c post, cs = pre ++ c :: post ∧ Fine pre ∧ c ∉ ['0', '1', '?', ' ']

/-- A symbol behind 32 others is the first thing that is wrong with a template. -/
def IsTooLong (cs : List Char) : Prop :=
  ∃ pre c post, cs = pre ++ c :: post ∧ Fine pre ∧ (symbols pre).length = 32 ∧
    c ∈ ['0', '1', '?']

theorem ofTemplate_of_hasBadSymbol (h : HasBadSymbol t.toList) :
    ofTemplate t = .error .badSymbol := by
  obtain ⟨pre, c, post, hsplit, hfine, hc⟩ := h
  rw [ofTemplate, hsplit, hfine.readFrom_append, readFrom_illegal hc]

theorem ofTemplate_of_isTooLong (h : IsTooLong t.toList) : ofTemplate t = .error .tooLong := by
  obtain ⟨pre, c, post, hsplit, hfine, hfull, hc⟩ := h
  rw [ofTemplate, hsplit, hfine.readFrom_append, readFrom_symbol hc, if_pos hfull]

theorem ofTemplate_of_fine (h : Fine t.toList) :
    ofTemplate t = if (symbols t.toList).length = 32 then .ok (spell ⟨0, 0⟩ (symbols t.toList))
      else .error .tooShort :=
  h.readFrom

theorem template_cases (cs : List Char) : Fine cs ∨ HasBadSymbol cs ∨ IsTooLong cs := by
  rcases fine_or_exists_wrong cs with hfine | ⟨pre, c, post, hsplit, hpre, hc | ⟨hfull, hc⟩⟩
  · exact .inl hfine
  · exact .inr (.inl ⟨pre, c, post, hsplit, hpre, hc⟩)
  · exact .inr (.inr ⟨pre, c, post, hsplit, hpre, hfull, hc⟩)

theorem ofTemplate_badSymbol_iff :
    ofTemplate t = .error .badSymbol ↔ HasBadSymbol t.toList := by
  refine ⟨fun h => ?_, ofTemplate_of_hasBadSymbol⟩
  rcases template_cases t.toList with hfine | hbad | hlong
  · rw [ofTemplate_of_fine hfine] at h
    split at h <;> cases h
  · exact hbad
  · cases (ofTemplate_of_isTooLong hlong).symm.trans h

theorem ofTemplate_tooLong_iff : ofTemplate t = .error .tooLong ↔ IsTooLong t.toList := by
  refine ⟨fun h => ?_, ofTemplate_of_isTooLong⟩
  rcases template_cases t.toList with hfine | hbad | hlong
  · rw [ofTemplate_of_fine hfine] at h
    split at h <;> cases h
  · cases (ofTemplate_of_hasBadSymbol hbad).symm.trans h
  · exact hlong

theorem ofTemplate_eq_ok (h : ofTemplate t = .ok p) :
    Fine t.toList ∧ (symbols t.toList).length = 32 ∧ p = spell ⟨0, 0⟩ (symbols t.toList) := by
  rcases template_cases t.toList with hfine | hbad | hlong
  · rw [ofTemplate_of_fine hfine] at h
    split at h
    · next hlength => exact ⟨hfine, hlength, (Except.ok.inj h).symm⟩
    · cases h
  · cases (ofTemplate_of_hasBadSymbol hbad).symm.trans h
  · cases (ofTemplate_of_isTooLong hlong).symm.trans h

theorem exists_ofTemplate_iff (t : String) :
    (∃ p, ofTemplate t = .ok p) ↔
      (∀ c ∈ t.toList, c ∈ ['0', '1', '?', ' ']) ∧ (symbols t.toList).length = 32 := by
  constructor
  · rintro ⟨p, hp⟩
    obtain ⟨hfine, hlength, -⟩ := ofTemplate_eq_ok hp
    exact ⟨hfine.legal, hlength⟩
  · rintro ⟨hlegal, hlength⟩
    have hfine : Fine t.toList := ⟨hlegal, Nat.le_of_eq hlength⟩
    exact ⟨_, (ofTemplate_of_fine hfine).trans (if_pos hlength)⟩

theorem ofTemplate_tooShort_iff :
    ofTemplate t = .error .tooShort ↔
      (¬ ∃ p, ofTemplate t = .ok p) ∧ ¬ HasBadSymbol t.toList ∧ ¬ IsTooLong t.toList := by
  constructor
  · intro h
    refine ⟨fun ⟨p, hp⟩ => ?_, fun hbad => ?_, fun hlong => ?_⟩
    · cases hp.symm.trans h
    · cases (ofTemplate_of_hasBadSymbol hbad).symm.trans h
    · cases (ofTemplate_of_isTooLong hlong).symm.trans h
  · rintro ⟨hnone, hbad, hlong⟩
    have hfine : Fine t.toList :=
      (template_cases t.toList).resolve_right fun h => h.elim hbad hlong
    have hlength : (symbols t.toList).length ≠ 32 :=
      fun h => hnone ((exists_ofTemplate_iff t).mpr ⟨hfine.legal, h⟩)
    rw [ofTemplate_of_fine hfine, if_neg hlength]

theorem TemplateError.message_inj {e e' : TemplateError} (h : e.message = e'.message) : e = e' := by
  cases e <;> cases e' <;> first | rfl | exact absurd h (by decide)

theorem rejection?_eq_some_iff (e : TemplateError) :
    rejection? t = some e.message ↔ ofTemplate t = .error e := by
  unfold rejection?
  cases ofTemplate t with
  | ok p => simp
  | error e' =>
    constructor
    · intro h
      rw [TemplateError.message_inj (Option.some.inj h)]
    · intro h
      rw [Except.error.inj h]

/-- A template stands for a pattern exactly if it has 32 symbols and nothing else but spaces, and
the pattern recognizes the words whose bits, from the highest one on, are those of the symbols. Any
other template is turned down for the first thing that is wrong with it, and for being too short if
there is none. -/
theorem template_meaning (t : String) :
    ((∃ p, ofTemplate t = .ok p) ↔
      (∀ c ∈ t.toList, c ∈ ['0', '1', '?', ' ']) ∧ (symbols t.toList).length = 32) ∧
    (∀ p, ofTemplate t = .ok p →
      (∀ w : Word, p.recognizes w = true ↔ ∀ i < 32, (symbols t.toList)[i]? = some '?' ∨
        (symbols t.toList)[i]? = some (if w.getLsbD (31 - i) then '1' else '0')) ∧
      p.value &&& ~~~p.mask = 0) ∧
    (rejection? t = some "pattern template may only contain '0', '1', '?' and spaces" ↔
      HasBadSymbol t.toList) ∧
    (rejection? t = some "pattern template has more than 32 bits" ↔ IsTooLong t.toList) ∧
    (rejection? t = some "pattern template has fewer than 32 bits" ↔
      (¬ ∃ p, ofTemplate t = .ok p) ∧ ¬ HasBadSymbol t.toList ∧ ¬ IsTooLong t.toList) := by
  refine ⟨exists_ofTemplate_iff t, fun p hp => ?_,
    (rejection?_eq_some_iff .badSymbol).trans ofTemplate_badSymbol_iff,
    (rejection?_eq_some_iff .tooLong).trans ofTemplate_tooLong_iff,
    (rejection?_eq_some_iff .tooShort).trans ofTemplate_tooShort_iff⟩
  obtain ⟨hfine, hlength, rfl⟩ := ofTemplate_eq_ok hp
  exact ⟨recognizes_spell_iff hfine.symbol_of_mem hlength, value_spell_and _⟩

/-- The illegal character of the second template stands behind 32 symbols and before a 33rd one. -/
theorem template_meaning_marked :
    (∃ p, ofTemplate "0000000 ????? ????? 000 ????? 01100 11" = .ok p ∧
      p.recognizes 0x002081b3 = true ∧ p.recognizes 0x402081b3 = false) ∧
    rejection? "0000000 ????? ????? 000 ????? 01100 11#0" =
      some "pattern template may only contain '0', '1', '?' and spaces" := by
  obtain ⟨haccepted, hrecognizes, -⟩ := template_meaning "0000000 ????? ????? 000 ????? 01100 11"
  -- Checked as a `Bool`: the quantifier may be decided by going through every character there is.
  have hall : ("0000000 ????? ????? 000 ????? 01100 11".toList.all fun c =>
      c ∈ ['0', '1', '?', ' ']) = true := by
    decide +kernel
  have hfine : Fine "0000000 ????? ????? 000 ????? 01100 11".toList :=
    ⟨fun c hc => of_decide_eq_true (List.all_eq_true.mp hall c hc), by decide +kernel⟩
  obtain ⟨p, hp⟩ := haccepted.mpr ⟨hfine.legal, by decide +kernel⟩
  have hword := (hrecognizes p hp).1
  have hbad : HasBadSymbol "0000000 ????? ????? 000 ????? 01100 11#0".toList :=
    ⟨_, '#', ['0'], by decide +kernel, hfine, by decide⟩
  refine ⟨⟨p, hp, (hword _).mpr (by decide +kernel), Bool.eq_false_iff.mpr fun h => ?_⟩,
    (template_meaning _).2.2.1.mpr hbad⟩
  exact absurd ((hword _).mp h) (by decide +kernel)

end Hartwatch.Pattern
