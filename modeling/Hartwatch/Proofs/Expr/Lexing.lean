import Hartwatch.Proofs.Expr.Lexemes
import Mathlib.Data.String.Basic

/-! How a text falls apart into tokens, said without a scan: lexemes stand in it with nothing but
blanks around them, none could be longer, and a sign is unary where no operand ends before it.
The scan finds these tokens, or it stops at the first place where no lexical rule matches. -/

namespace Hartwatch.Expr

open String (utf8Len)

namespace Token.Kind

/-- Whether a token of this kind may stand where an operand has just ended, or where none has. -/
def fits (afterOperand : Bool) : Token.Kind → Bool
  | minus | star => afterOperand
  | negate | deref => !afterOperand
  | _ => true

def marked (afterOperand : Bool) (k : Token.Kind) : Token.Kind :=
  if afterOperand then k else k.unary

theorem marked_bare {k : Token.Kind} {afterOperand : Bool} (h : k.fits afterOperand) :
    k.bare.marked afterOperand = k := by
  cases afterOperand <;> cases k <;> first | rfl | cases h

theorem fits_marked {k : Token.Kind} (h : k.bare = k) (afterOperand : Bool) :
    (k.marked afterOperand).fits afterOperand := by
  cases afterOperand <;> cases k <;> first | rfl | cases h

theorem endsOperand_bare (k : Token.Kind) : k.bare.endsOperand = k.endsOperand := by
  cases k <;> rfl

theorem endsOperand_marked (k : Token.Kind) (afterOperand : Bool) :
    (k.marked afterOperand).endsOperand = k.endsOperand := by
  cases afterOperand <;> cases k <;> rfl

theorem continues_marked (k : Token.Kind) (afterOperand : Bool) (c : Char) :
    (k.marked afterOperand).continues c = k.continues c := by
  cases afterOperand <;> cases k <;> rfl

end Token.Kind

theorem Lexeme.WellFormed.marked {k : Token.Kind} {text : List Char}
    (h : WellFormed ⟨k, text⟩) (afterOperand : Bool) : WellFormed ⟨k.marked afterOperand, text⟩ := by
  cases afterOperand with
  | true => exact h
  | false =>
    cases h with
    | sign hk => cases k <;> first | exact .sign rfl | cases hk
    | register hne hcs => exact .register hne hcs
    | hex hx hne hds => exact .hex hx hne hds
    | decimal hne hds => exact .decimal hne hds

theorem Lexeme.WellFormed.text_ne_nil {l : Lexeme} (h : l.WellFormed) : l.text ≠ [] := by
  cases h with
  | @sign k hk => cases k <;> simp [Token.Kind.sign, Token.Kind.isLeaf] at hk ⊢
  | register => simp
  | hex => simp
  | decimal hne => exact hne

theorem Lexeme.WellFormed.head_not_blank {l : Lexeme} (h : l.WellFormed) (cs : List Char) :
    ∀ c ∈ (l.text ++ cs).head?, Text.isBlank c = false := by
  cases h with
  | @sign k hk => cases k <;> simp [Token.Kind.sign, Token.Kind.isLeaf] at hk ⊢ <;> decide
  | register => simp; decide
  | hex => simp; decide
  | @decimal ds hne hds =>
    obtain ⟨d, ds, rfl⟩ := List.exists_cons_of_ne_nil hne
    have hd : d.isDigit := by rw [← isDecimalDigit_eq]; exact hds d (by simp)
    simpa using not_isBlank_of_isAlphanum (isAlphanum_of_isDigit hd)

/-! ### Tokens in a text -/

/-- A text that starts at some byte falls apart into these tokens. -/
inductive Lexes : Bool → Nat → List Char → List Token → Prop
  | gap {afterOperand : Bool} {position : Nat} {gap : List Char} :
    (∀ c ∈ gap, Text.isBlank c) → Lexes afterOperand position gap []
  | token {afterOperand : Bool} {position : Nat} {gap cs : List Char} {l : Lexeme}
    {ts : List Token} :
    (∀ c ∈ gap, Text.isBlank c) → l.WellFormed → l.kind.fits afterOperand →
    (∀ c ∈ cs.head?, ¬ l.ExtendedBy c) →
    Lexes l.kind.endsOperand (position + utf8Len gap + utf8Len l.text) cs ts →
    Lexes afterOperand position (gap ++ l.text ++ cs)
      (⟨l.kind, .ofList l.text, position + utf8Len gap⟩ :: ts)

variable {afterOperand : Bool} {position : Nat} {cs rest : List Char} {ts : List Token}

theorem Lexes.eq_nil (h : Lexes afterOperand position [] ts) : ts = [] := by
  generalize hcs : ([] : List Char) = cs at h
  cases h with
  | gap => rfl
  | token _ hl => simp [hl.text_ne_nil] at hcs

theorem Lexes.opens (h : Lexes afterOperand position cs ts) (hne : cs ≠ []) : Opens cs := by
  refine opens_iff.mpr ?_
  have hblank : ∀ (gap : List Char), gap ≠ [] → (∀ c ∈ gap, Text.isBlank c) → ∀ rest,
      ∃ c ∈ (gap ++ rest).head?, Text.isBlank c := by
    intro gap hne hgap rest
    obtain ⟨c, gap, rfl⟩ := List.exists_cons_of_ne_nil hne
    exact ⟨c, rfl, hgap c (by simp)⟩
  cases h with
  | gap hgap => exact .inl (by simpa using hblank cs hne hgap [])
  | @token _ _ gap cs l ts hgap hl =>
    by_cases hg : gap = []
    · exact .inr ⟨l, hl, cs, by rw [hg, List.nil_append]⟩
    · rw [List.append_assoc]
      exact .inl (hblank gap hg hgap _)

theorem not_opens_mark {c : Char} (h : c = 'x' ∨ c = 'X') (cs : List Char) : ¬ Opens (c :: cs) := by
  rcases h with rfl | rfl <;> exact lexeme?_eq_none_iff.mp rfl

theorem Lexes.not_extendedBy {l : Lexeme} (h : Lexes afterOperand position cs ts)
    (hstop : ∀ c ∈ cs.head?, l.kind.continues c = false) : ∀ c ∈ cs.head?, ¬ l.ExtendedBy c := by
  rintro c hc (hk | ⟨-, hx⟩)
  · simp [hstop c hc] at hk
  · cases cs with
    | nil => cases hc
    | cons d cs =>
      obtain rfl : d = c := by simpa using hc
      exact not_opens_mark hx cs (h.opens (by simp))

/-- Signs are unary exactly where no operand has just ended. -/
def Marked (afterOperand : Bool) : List Lexeme → Prop
  | [] => True
  | l :: ls => l.kind.fits afterOperand ∧ Marked l.kind.endsOperand ls

theorem Lexes.marked (h : Lexes afterOperand position cs ts) :
    Marked afterOperand (ts.map Token.lexeme) := by
  induction h with
  | gap => trivial
  | token _ _ hk _ _ ih => exact ⟨hk, ih⟩

theorem Lexes.wellFormed (h : Lexes afterOperand position cs ts) :
    ∀ t ∈ ts, t.lexeme.WellFormed := by
  induction h with
  | gap => simp
  | token _ hl _ _ _ ih =>
    intro t ht
    rcases List.mem_cons.mp ht with rfl | ht
    · simpa [Token.lexeme] using hl
    · exact ih t ht

/-! ### The scan, one lexeme after the other -/

theorem scan_skip (position : Nat) (xs cs : List Char) :
    scan position xs.length (xs ++ cs) = scan (position + utf8Len xs) 0 cs := by
  induction xs generalizing position with
  | nil => rfl
  | cons x xs ih =>
    simp only [List.length_cons, List.cons_append, scan, ih, String.utf8Len_cons]
    congr 1
    omega

theorem scan_gap (position : Nat) {gap cs : List Char} (hgap : ∀ c ∈ gap, Text.isBlank c)
    (hcs : ∀ c ∈ cs.head?, Text.isBlank c = false) :
    scan position 0 (gap ++ cs) = scan (position + utf8Len gap) 0 cs := by
  cases gap with
  | nil => rfl
  | cons c gap =>
    have hlen := runLength_append hgap hcs
    rw [List.cons_append] at hlen ⊢
    rw [scan, lexeme?_blank (hgap c (by simp)), hlen]
    simp only [List.length_cons, Nat.add_sub_cancel, scan_skip, String.utf8Len_cons]
    congr 1
    omega

theorem scan_taken (position : Nat) {xs cs : List Char} {k : Token.Kind} (hne : xs ≠ [])
    (h : lexeme? (xs ++ cs) = some (some k, xs.length)) :
    scan position 0 (xs ++ cs) =
      (scan (position + utf8Len xs) 0 cs).map (⟨k, .ofList xs, position⟩ :: ·) := by
  obtain ⟨x, xs, rfl⟩ := List.exists_cons_of_ne_nil hne
  rw [List.cons_append] at h ⊢
  rw [scan, h]
  simp only [List.length_cons, Nat.add_sub_cancel, scan_skip, String.utf8Len_cons]
  rw [← List.length_cons (a := x), ← List.cons_append, List.take_left' rfl, Nat.add_assoc,
    Nat.add_comm x.utf8Size]
  cases scan (position + (utf8Len xs + x.utf8Size)) 0 cs <;> rfl

/-- Cuts a text that starts at some byte into tokens, with or without an operand before it. -/
def tokenizeFrom (afterOperand : Bool) (position : Nat) (cs : List Char) :
    Except Error (List Token) :=
  (scan position 0 cs).map (markUnary afterOperand)

theorem tokenize_eq (text : String) : tokenize text = tokenizeFrom false 0 text.toList := by
  rw [tokenize, tokenizeFrom]
  cases scan 0 0 text.toList <;> rfl

theorem tokenizeFrom_nil : tokenizeFrom afterOperand position [] = .ok [] :=
  rfl

theorem tokenizeFrom_gap {gap : List Char} (hgap : ∀ c ∈ gap, Text.isBlank c)
    (hcs : ∀ c ∈ cs.head?, Text.isBlank c = false) :
    tokenizeFrom afterOperand position (gap ++ cs) =
      tokenizeFrom afterOperand (position + utf8Len gap) cs := by
  rw [tokenizeFrom, scan_gap position hgap hcs, tokenizeFrom]

theorem tokenizeFrom_taken {xs : List Char} {k : Token.Kind} (hne : xs ≠ [])
    (h : lexeme? (xs ++ cs) = some (some k, xs.length)) :
    tokenizeFrom afterOperand position (xs ++ cs) =
      (tokenizeFrom k.endsOperand (position + utf8Len xs) cs).map
        (⟨k.marked afterOperand, .ofList xs, position⟩ :: ·) := by
  rw [tokenizeFrom, scan_taken position hne h, tokenizeFrom]
  cases scan (position + utf8Len xs) 0 cs with
  | error e => rfl
  | ok ts =>
    cases afterOperand <;> rfl

theorem tokenizeFrom_lexeme {l : Lexeme} (hl : l.WellFormed) (hk : l.kind.fits afterOperand)
    (hcs : ∀ c ∈ cs.head?, ¬ l.ExtendedBy c) :
    tokenizeFrom afterOperand position (l.text ++ cs) =
      (tokenizeFrom l.kind.endsOperand (position + utf8Len l.text) cs).map
        (⟨l.kind, .ofList l.text, position⟩ :: ·) := by
  rw [tokenizeFrom_taken hl.text_ne_nil (hl.lexeme?_append hcs), Token.Kind.marked_bare hk,
    Token.Kind.endsOperand_bare]

theorem tokenizeFrom_stuck (hne : cs ≠ []) (h : ¬ Opens cs) :
    tokenizeFrom afterOperand position cs = .error (.unexpected position) := by
  obtain ⟨c, cs, rfl⟩ := List.exists_cons_of_ne_nil hne
  rw [tokenizeFrom, scan, lexeme?_eq_none_iff.mpr h]
  rfl

/-! ### The scan against the relation -/

/-- The last of some tokens ends at this byte, where it may be read on into what follows. -/
def ReadsOn (ts : List Token) (stop : Nat) (rest : List Char) : Prop :=
  ∃ t ∈ ts.getLast?, t.position + t.text.utf8ByteSize = stop ∧
    ∃ c ∈ rest.head?, t.lexeme.ExtendedBy c

instance (ts : List Token) (stop : Nat) (rest : List Char) : Decidable (ReadsOn ts stop rest) :=
  inferInstanceAs (Decidable (∃ t ∈ ts.getLast?, _ ∧ ∃ c ∈ rest.head?, _))

theorem Lexes.tokenizeFrom_append (h : Lexes afterOperand position cs ts)
    (hrest : ∀ c ∈ rest.head?, Text.isBlank c = false)
    (hlast : ¬ ReadsOn ts (position + utf8Len cs) rest) :
    ∃ after, tokenizeFrom afterOperand position (cs ++ rest) =
      (tokenizeFrom after (position + utf8Len cs) rest).map (ts ++ ·) := by
  induction h with
  | @gap afterOperand position gap hgap =>
    refine ⟨afterOperand, ?_⟩
    rw [tokenizeFrom_gap hgap hrest]
    cases tokenizeFrom afterOperand (position + utf8Len gap) rest <;> rfl
  | @token afterOperand position gap cs l ts hgap hl hk hcs hts ih =>
    have hend : position + utf8Len gap + utf8Len l.text + utf8Len cs =
        position + utf8Len (gap ++ l.text ++ cs) := by
      simp only [String.utf8Len_append]
      omega
    -- a lexeme with text of its own behind it is closed by that text, the last one by `hlast`
    have hnext : ∀ c ∈ (cs ++ rest).head?, ¬ l.ExtendedBy c := by
      cases cs with
      | nil =>
        obtain rfl := hts.eq_nil
        have hlen : (String.ofList l.text).utf8ByteSize = utf8Len l.text :=
          String.utf8ByteSize_ofList _
        intro c hc hl
        refine hlast ⟨⟨l.kind, .ofList l.text, position + utf8Len gap⟩, rfl, ?_, c, hc, ?_⟩
        · rw [hlen]
          exact hend
        · simpa [Token.lexeme] using hl
      | cons c cs => exact hcs
    obtain ⟨after, hafter⟩ := ih fun ⟨t, ht, hstop, hc⟩ => by
      refine hlast ⟨t, ?_, hstop.trans hend, hc⟩
      cases ts with
      | nil => cases ht
      | cons u ts => exact ht
    refine ⟨after, ?_⟩
    rw [List.append_assoc, List.append_assoc,
      tokenizeFrom_gap hgap (hl.head_not_blank _), tokenizeFrom_lexeme hl hk hnext, hafter, hend]
    cases tokenizeFrom after (position + utf8Len (gap ++ l.text ++ cs)) rest <;> rfl

theorem Lexes.prepend {gap : List Char} (hgap : ∀ c ∈ gap, Text.isBlank c)
    (h : Lexes afterOperand (position + utf8Len gap) cs ts) :
    Lexes afterOperand position (gap ++ cs) ts := by
  generalize hp : position + utf8Len gap = start at h
  cases h with
  | gap hcs => exact .gap fun c hc => (List.mem_append.mp hc).elim (hgap c) (hcs c)
  | @token _ _ gap' cs l ts hgap' hl hk hcs hts =>
    have hboth : ∀ c ∈ gap ++ gap', Text.isBlank c := fun c hc =>
      (List.mem_append.mp hc).elim (hgap c) (hgap' c)
    have hstart : start + utf8Len gap' = position + utf8Len (gap ++ gap') := by
      rw [String.utf8Len_append]
      omega
    rw [hstart] at hts ⊢
    have := Lexes.token hboth hl hk hcs hts
    rwa [List.append_assoc, List.append_assoc, ← List.append_assoc gap'] at this

/-- What a scan comes to: tokens that the text falls apart into, or a part of the text that does
and a place behind it where no lexical rule matches. -/
def Scanned (afterOperand : Bool) (position : Nat) (cs : List Char) : Prop :=
  (∃ ts, tokenizeFrom afterOperand position cs = .ok ts ∧ Lexes afterOperand position cs ts) ∨
    ∃ front rest ts, cs = front ++ rest ∧ rest ≠ [] ∧ ¬ Opens rest ∧
      Lexes afterOperand position front ts ∧
      tokenizeFrom afterOperand position cs = .error (.unexpected (position + utf8Len front))

theorem Scanned.gap {gap : List Char} (hgap : ∀ c ∈ gap, Text.isBlank c)
    (hcs : ∀ c ∈ cs.head?, Text.isBlank c = false)
    (h : Scanned afterOperand (position + utf8Len gap) cs) :
    Scanned afterOperand position (gap ++ cs) := by
  have hscan : tokenizeFrom afterOperand position (gap ++ cs) = _ := tokenizeFrom_gap hgap hcs
  rcases h with ⟨ts, hok, hts⟩ | ⟨front, rest, ts, rfl, hne, hnot, hts, herr⟩
  · exact .inl ⟨ts, hscan.trans hok, hts.prepend hgap⟩
  · refine .inr ⟨gap ++ front, rest, ts, by rw [List.append_assoc], hne, hnot, hts.prepend hgap, ?_⟩
    rw [hscan, herr, String.utf8Len_append, Nat.add_assoc]

theorem Scanned.taken {xs : List Char} {k : Token.Kind} (hxs : Lexeme.WellFormed ⟨k, xs⟩)
    (hk : k.bare = k) (hstop : ∀ c ∈ cs.head?, k.continues c = false)
    (htaken : lexeme? (xs ++ cs) = some (some k, xs.length))
    (h : Scanned k.endsOperand (position + utf8Len xs) cs) :
    Scanned afterOperand position (xs ++ cs) := by
  let l : Lexeme := ⟨k.marked afterOperand, xs⟩
  have hl : l.WellFormed := hxs.marked afterOperand
  have hfits : l.kind.fits afterOperand := Token.Kind.fits_marked hk afterOperand
  have hends : l.kind.endsOperand = k.endsOperand := k.endsOperand_marked afterOperand
  -- the text behind the lexeme may end early, but where it goes on it does as the whole text
  have hlexes : ∀ {front ts}, front <+: cs → Lexes k.endsOperand (position + utf8Len xs) front ts →
      Lexes afterOperand position (xs ++ front) (⟨l.kind, .ofList xs, position⟩ :: ts) := by
    intro front ts hfront hts
    have hnext : ∀ c ∈ front.head?, ¬ l.ExtendedBy c := by
      refine hts.not_extendedBy fun c hc => ?_
      obtain ⟨rest, rfl⟩ := hfront
      rw [Token.Kind.continues_marked]
      cases front with
      | nil => cases hc
      | cons d front => exact hstop c hc
    rw [← hends] at hts
    exact @Lexes.token _ _ [] _ l _ (by simp) hl hfits hnext hts
  have hscan : tokenizeFrom afterOperand position (xs ++ cs) = _ :=
    tokenizeFrom_taken hxs.text_ne_nil htaken
  rcases h with ⟨ts, hok, hts⟩ | ⟨front, rest, ts, rfl, hne, hnot, hts, herr⟩
  · exact .inl ⟨_, hscan.trans (by rw [hok]; rfl), hlexes (List.prefix_refl cs) hts⟩
  · refine .inr ⟨xs ++ front, rest, _, by rw [List.append_assoc], hne, hnot,
      hlexes (List.prefix_append front rest) hts, ?_⟩
    rw [hscan, herr, String.utf8Len_append, Nat.add_assoc]
    rfl

theorem scanned (afterOperand : Bool) (position : Nat) (cs : List Char) :
    Scanned afterOperand position cs := by
  -- on the length of the text, for a step takes a gap and a whole lexeme
  induction hn : cs.length using Nat.strong_induction_on
    generalizing afterOperand position cs with
  | _ n ih =>
  have hsplit : cs.takeWhile Text.isBlank ++ cs.dropWhile Text.isBlank = cs :=
    List.takeWhile_append_dropWhile
  have hshort : (cs.dropWhile Text.isBlank).length ≤ n :=
    hn ▸ (List.dropWhile_sublist _).length_le
  have hhead : ∀ c ∈ (cs.dropWhile Text.isBlank).head?, Text.isBlank c = false := by
    intro c hc
    have hstop := List.head?_dropWhile_not Text.isBlank cs
    rw [Option.mem_def.mp hc] at hstop
    exact hstop
  rw [← hsplit]
  refine .gap (fun c hc => List.mem_takeWhile_imp hc) hhead ?_
  generalize cs.dropWhile Text.isBlank = cs at hshort hhead
  generalize position + utf8Len _ = position
  by_cases hne : cs = []
  · subst hne
    exact .inl ⟨[], tokenizeFrom_nil, .gap (by simp)⟩
  cases hlex : lexeme? cs with
  | none =>
    have hnot := lexeme?_eq_none_iff.mp hlex
    exact .inr ⟨[], cs, [], rfl, hne, hnot, .gap (by simp), tokenizeFrom_stuck hne hnot⟩
  | some found =>
    obtain ⟨_ | k, len⟩ := found
    · obtain ⟨c, hc, hb⟩ := blank_of_lexeme? hlex
      simp [hhead c hc] at hb
    · obtain ⟨⟨xs, rest, rfl, rfl, hxs, hstop⟩, hk⟩ := takes_of_lexeme? hlex
      have hpos : 0 < xs.length := List.length_pos_iff.mpr hxs.text_ne_nil
      rw [List.length_append] at hshort
      exact .taken hxs hk hstop hlex (ih rest.length (by omega) _ _ rest rfl)

theorem tokenizeFrom_eq_ok_iff :
    tokenizeFrom afterOperand position cs = .ok ts ↔ Lexes afterOperand position cs ts := by
  constructor
  · intro h
    rcases scanned afterOperand position cs with ⟨ts', hok, hts⟩ | ⟨_, _, _, -, -, -, -, herr⟩
    · obtain rfl := Except.ok.inj (hok.symm.trans h)
      exact hts
    · cases herr.symm.trans h
  · intro h
    have hlast : ¬ ReadsOn ts (position + utf8Len cs) [] := by simp [ReadsOn]
    obtain ⟨after, happend⟩ := h.tokenizeFrom_append (by simp) hlast
    simpa [tokenizeFrom_nil, Except.map] using happend

theorem tokenize_eq_ok_iff {text : String} :
    tokenize text = .ok ts ↔ Lexes false 0 text.toList ts := by
  rw [tokenize_eq, tokenizeFrom_eq_ok_iff]

def Spells (afterOperand : Bool) (ls : List Lexeme) (cs : List Char) : Prop :=
  ∀ position, ∃ ts, Lexes afterOperand position cs ts ∧ ts.map Token.lexeme = ls

theorem Spells.nil {gap : List Char} (hgap : ∀ c ∈ gap, Text.isBlank c) :
    Spells afterOperand [] gap :=
  fun _ => ⟨[], .gap hgap, rfl⟩

theorem Spells.cons {gap : List Char} {l : Lexeme} {ls : List Lexeme}
    (hgap : ∀ c ∈ gap, Text.isBlank c) (hl : l.WellFormed) (hk : l.kind.fits afterOperand)
    (hcs : l.kind.isLeaf → Closes cs) (h : Spells l.kind.endsOperand ls cs) :
    Spells afterOperand (l :: ls) (gap ++ l.text ++ cs) := by
  intro position
  obtain ⟨ts, hts, hmap⟩ := h (position + utf8Len gap + utf8Len l.text)
  refine ⟨_, .token hgap hl hk (Lexeme.not_extendedBy hcs) hts, ?_⟩
  simp [Token.lexeme, ← hmap]

theorem Spells.tokenize {ls : List Lexeme} {text : String} (h : Spells false ls text.toList) :
    ∃ ts, tokenize text = .ok ts ∧ ts.map Token.lexeme = ls := by
  obtain ⟨ts, hts, hmap⟩ := h 0
  exact ⟨ts, tokenize_eq_ok_iff.mpr hts, hmap⟩

end Hartwatch.Expr
