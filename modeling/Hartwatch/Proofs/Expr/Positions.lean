import Hartwatch.Proofs.Expr.Lexing

/-! Where the tokens of a text stand, in bytes. Each is a slice of the text between characters,
they do not overlap, and what is outside of them is blank. Where a text is no tokens, the error
points behind the longest part of it that is. -/

namespace Hartwatch.Expr

open String (utf8Len)

def Token.Covers (t : Token) (i : Nat) : Prop :=
  t.position ≤ i ∧ i < t.position + t.text.utf8ByteSize

/-- A token as it stands in a text, between what is before it and what is behind it. -/
structure Token.Stands (t : Token) (front behind : String) : Prop where
  position : t.position = front.utf8ByteSize
  nonempty : t.text ≠ ""
  wellFormed : t.lexeme.WellFormed
  /-- A register's name, or digits, could not be longer. -/
  longest : ∀ c ∈ behind.toList.head?, t.kind.continues c = false
  /-- A zero with an `x` behind it starts a hexadecimal number. -/
  hex : ∀ x rest, t.text.toList ++ behind.toList = '0' :: x :: rest → x = 'x' ∨ x = 'X' →
    t.kind = .hex

def EndsOperand (ts : List Token) : Prop :=
  ∃ t ∈ ts.getLast?, t.kind ∈ [.decimal, .hex, .register, .rightParen]

/-- A sign is binary behind an operand, and unary anywhere else. -/
def ReadsSign (sign : String) (binary unary : Token.Kind) (ts : List Token) : Prop :=
  ∀ front t behind, ts = front ++ t :: behind → t.text = sign →
    (t.kind = unary ↔ ¬ EndsOperand front) ∧ (t.kind = binary ↔ EndsOperand front)

/-- Tokens of a text in which nothing but blanks is lost. -/
structure Lossless (text : String) (ts : List Token) : Prop where
  apart : ts.Pairwise fun t u => t.position + t.text.utf8ByteSize ≤ u.position
  slice : ∀ t ∈ ts, ∃ front behind, text = front ++ t.text ++ behind ∧ t.Stands front behind
  blank : ∀ front c behind, text.toList = front ++ c :: behind →
    (∀ t ∈ ts, ¬ t.Covers (utf8Len front)) → Text.isBlank c
  minus : ReadsSign "-" .minus .negate ts
  star : ReadsSign "*" .star .deref ts

variable {afterOperand : Bool} {position : Nat} {cs : List Char} {ts : List Token}

theorem Lexes.position_le (h : Lexes afterOperand position cs ts) :
    ∀ t ∈ ts, position ≤ t.position := by
  induction h with
  | gap => simp
  | token _ _ _ _ _ ih =>
    intro t ht
    rcases List.mem_cons.mp ht with rfl | ht
    · exact Nat.le_add_right _ _
    · have := ih t ht
      omega

theorem Lexes.apart (h : Lexes afterOperand position cs ts) :
    ts.Pairwise fun t u => t.position + t.text.utf8ByteSize ≤ u.position := by
  induction h with
  | gap => exact .nil
  | token _ _ _ _ hts ih =>
    refine List.pairwise_cons.mpr ⟨fun u hu => ?_, ih⟩
    have := hts.position_le u hu
    rwa [String.utf8ByteSize_ofList]

theorem Lexes.slice (h : Lexes afterOperand position cs ts) :
    ∀ t ∈ ts, ∃ front behind, cs = front ++ t.text.toList ++ behind ∧
      t.position = position + utf8Len front ∧ ∀ c ∈ behind.head?, ¬ t.lexeme.ExtendedBy c := by
  induction h with
  | gap => simp
  | @token _ _ gap cs l ts hgap hl hk hcs hts ih =>
    intro t ht
    rcases List.mem_cons.mp ht with rfl | ht
    · refine ⟨gap, cs, by rw [String.toList_ofList], rfl, ?_⟩
      simpa [Token.lexeme] using hcs
    · obtain ⟨front, behind, rfl, hpos, hstop⟩ := ih t ht
      refine ⟨gap ++ l.text ++ front, behind, by simp, ?_, hstop⟩
      rw [hpos, String.utf8Len_append, String.utf8Len_append]
      omega

theorem append_eq_append_cons {xs ys front behind : List Char} {c : Char}
    (h : xs ++ ys = front ++ c :: behind) :
    (∃ mid, xs = front ++ c :: mid) ∨ ∃ mid, front = xs ++ mid ∧ ys = mid ++ c :: behind := by
  rcases List.append_eq_append_iff.mp h with ⟨mid, rfl, hys⟩ | ⟨mid, rfl, hmid⟩
  · exact .inr ⟨mid, rfl, hys⟩
  · cases mid with
    | nil => exact .inr ⟨[], by simp, by simpa using hmid.symm⟩
    | cons d mid =>
      obtain ⟨rfl, -⟩ := List.cons.inj hmid
      exact .inl ⟨mid, rfl⟩

theorem Lexes.blank (h : Lexes afterOperand position cs ts) {front behind : List Char} {c : Char}
    (hcs : cs = front ++ c :: behind)
    (hout : ∀ t ∈ ts, ¬ t.Covers (position + utf8Len front)) : Text.isBlank c := by
  induction h generalizing front behind with
  | gap hgap => exact hgap c (by simp [hcs])
  | @token _ position gap cs l ts hgap hl hk hnext hts ih =>
    rcases append_eq_append_cons hcs with ⟨mid, hmid⟩ | ⟨mid, rfl, rfl⟩
    · rcases append_eq_append_cons hmid with ⟨mid', rfl⟩ | ⟨mid', rfl, hl'⟩
      · exact hgap c (by simp)
      · -- the place is inside of the lexeme, which the token covers
        refine absurd ⟨?_, ?_⟩ (hout _ (List.mem_cons_self ..))
        · simp
        · have := c.utf8Size_pos
          simp only [String.utf8ByteSize_ofList, hl', String.utf8Len_append, String.utf8Len_cons]
          omega
    · refine ih rfl fun t ht => ?_
      have := hout t (List.mem_cons_of_mem _ ht)
      simpa [String.utf8Len_append, Nat.add_assoc] using this

theorem Marked.fits_append {front behind : List Lexeme} {l : Lexeme}
    (h : Marked afterOperand (front ++ l :: behind)) :
    l.kind.fits (front.getLast?.elim afterOperand fun u => u.kind.endsOperand) := by
  induction front generalizing afterOperand with
  | nil => exact h.1
  | cons u front ih =>
    have hl := ih h.2
    cases front with
    | nil => exact hl
    | cons v front =>
      rw [List.getLast?_cons_cons]
      obtain ⟨w, hw⟩ : ∃ w, (v :: front).getLast? = some w := by
        simp [← Option.isSome_iff_exists]
      rwa [hw] at hl ⊢

theorem Token.Kind.endsOperand_iff (k : Token.Kind) :
    k.endsOperand = true ↔ k ∈ [.decimal, .hex, .register, .rightParen] := by
  cases k <;> decide

theorem Lexes.fits {front behind : List Token} {t : Token}
    (h : Lexes false position cs (front ++ t :: behind)) :
    ∃ afterOperand, (afterOperand = true ↔ EndsOperand front) ∧ t.kind.fits afterOperand := by
  have hmarked := h.marked
  rw [List.map_append, List.map_cons] at hmarked
  refine ⟨_, ?_, hmarked.fits_append⟩
  rw [List.getLast?_map, EndsOperand]
  cases front.getLast? with
  | none => simp
  | some u => simpa [Token.lexeme] using u.kind.endsOperand_iff

theorem Lexeme.WellFormed.hex_of_mark {l : Lexeme} {behind rest : List Char} {x : Char}
    (hl : l.WellFormed) (hstop : ∀ c ∈ behind.head?, ¬ l.ExtendedBy c)
    (htext : l.text ++ behind = '0' :: x :: rest) (hx : x = 'x' ∨ x = 'X') : l.kind = .hex := by
  cases hl with
  | @sign k hk => cases k <;> simp [Token.Kind.sign, Token.Kind.isLeaf] at hk htext
  | register => simp at htext
  | hex => rfl
  | @decimal ds hne hds =>
    rcases ds with _ | ⟨z, _ | ⟨y, ds⟩⟩
    · exact absurd rfl hne
    · obtain ⟨rfl, rfl⟩ := List.cons.inj htext
      exact absurd (.inr ⟨rfl, hx⟩) (hstop x rfl)
    · simp only [List.cons_append, List.cons.injEq] at htext
      obtain ⟨-, rfl, -⟩ := htext
      have hy : isDecimalDigit y := hds y (by simp)
      rcases hx with rfl | rfl <;> exact absurd hy (by decide)

theorem Lexes.stands {text : String} (h : Lexes false 0 text.toList ts) {t : Token} (ht : t ∈ ts) :
    ∃ front behind, text = front ++ t.text ++ behind ∧ t.Stands front behind := by
  obtain ⟨front, behind, htext, hpos, hstop⟩ := h.slice t ht
  have hl : t.lexeme.WellFormed := h.wellFormed t ht
  refine ⟨.ofList front, .ofList behind, ?_, ?_, fun he => ?_, hl, fun c hc => ?_, ?_⟩
  · rw [← String.toList_inj, htext]
    simp
  · rw [hpos, String.utf8ByteSize_ofList, Nat.zero_add]
  · exact hl.text_ne_nil (by simp [Token.lexeme, he])
  · rw [String.toList_ofList] at hc
    exact Bool.eq_false_iff.mpr fun hk => hstop c hc (.inl hk)
  · intro x rest hxs hx
    rw [String.toList_ofList] at hxs
    exact hl.hex_of_mark hstop hxs hx

theorem Lexeme.WellFormed.bare_of_sign {k sign : Token.Kind} (hl : WellFormed ⟨k, sign.sign⟩)
    (hsign : sign.isLeaf = false) : k.bare = sign.bare := by
  have htaken : lexeme? (sign.sign ++ []) = some (some k.bare, sign.sign.length) :=
    hl.lexeme?_append (by simp)
  have hsigned : lexeme? (sign.sign ++ []) = some (some sign.bare, sign.sign.length) :=
    (WellFormed.sign hsign).lexeme?_append (by simp)
  simpa using htaken.symm.trans hsigned

theorem Token.Kind.of_fits {k binary : Token.Kind} {afterOperand : Bool}
    (hbinary : binary.unary ≠ binary) (hk : k.bare = binary.bare) (hfits : k.fits afterOperand) :
    (k = binary.unary ↔ ¬ afterOperand = true) ∧ (k = binary ↔ afterOperand = true) := by
  have hsign : binary = .minus ∨ binary = .star := by
    cases binary <;> first | exact .inl rfl | exact .inr rfl | exact absurd rfl hbinary
  rcases hsign with rfl | rfl <;> cases k <;> simp [bare] at hk <;>
    cases afterOperand <;> simp [fits, unary] at hfits ⊢

theorem Lexes.readsSign (h : Lexes false position cs ts) (binary : Token.Kind)
    (hbinary : binary.unary ≠ binary) :
    ReadsSign (.ofList binary.sign) binary binary.unary ts := by
  intro front t behind hts htext
  subst hts
  obtain ⟨afterOperand, hafter, hfits⟩ := h.fits
  have hl : Lexeme.WellFormed ⟨t.kind, binary.sign⟩ := by
    simpa [Token.lexeme, htext] using h.wellFormed t (by simp)
  have hbare := hl.bare_of_sign (by cases binary <;> first | rfl | exact absurd rfl hbinary)
  rw [← hafter]
  exact Token.Kind.of_fits hbinary hbare hfits

theorem Lexes.lossless {text : String} (h : Lexes false 0 text.toList ts) : Lossless text ts where
  apart := h.apart
  slice _ := h.stands
  blank front c behind htext hout := h.blank htext (by simpa using hout)
  minus := h.readsSign .minus (by decide)
  star := h.readsSign .star (by decide)

/-- What the tokenizer comes to: tokens of the text, or a place between characters where no lexical
rule matches, with tokens of the text before it. -/
theorem scanned_text (text : String) :
    (∃ ts, tokenize text = .ok ts ∧ Lexes false 0 text.toList ts) ∨
      ∃ front behind ts, text = front ++ behind ∧ behind ≠ "" ∧ ¬ Opens behind.toList ∧
        Lexes false 0 front.toList ts ∧ tokenize text = .error (.unexpected front.utf8ByteSize) := by
  rw [tokenize_eq]
  rcases scanned false 0 text.toList with h | ⟨front, behind, ts, htext, hne, hnot, hts, herr⟩
  · exact .inl h
  · refine .inr ⟨.ofList front, .ofList behind, ts, ?_, fun he => hne ?_, ?_, ?_, ?_⟩
    · rw [← String.toList_inj, htext]
      simp
    · simpa using congrArg String.toList he
    · rwa [String.toList_ofList]
    · rwa [String.toList_ofList]
    · rw [herr, Nat.zero_add, String.utf8ByteSize_ofList]

/-- Whatever the text, the tokenizer cuts it between characters only. Where it succeeds nothing is
lost, and where it fails nothing is lost of what is before the error. -/
theorem tokenize_lossless (text : String) :
    match tokenize text with
    | .ok ts => Lossless text ts
    | .error e => ∃ front behind ts, text = front ++ behind ∧ e = .unexpected front.utf8ByteSize ∧
        tokenize front = .ok ts ∧ Lossless front ts := by
  rcases scanned_text text with ⟨ts, hok, hts⟩ | ⟨front, behind, ts, htext, -, -, hts, herr⟩
  · rw [hok]
    exact hts.lossless
  · rw [herr]
    exact ⟨front, behind, ts, htext, rfl, tokenize_eq_ok_iff.mpr hts, hts.lossless⟩

/-- The tokenizer fails with the first place where no lexical rule matches, and at no other. -/
theorem tokenize_error_position (text : String) :
    (∀ e, tokenize text = .error e → ∃ front behind, text = front ++ behind ∧
      e = .unexpected front.utf8ByteSize ∧ front.utf8ByteSize < text.utf8ByteSize ∧
      ¬ Opens behind.toList ∧ ∃ ts, tokenize front = .ok ts) ∧
    ∀ ts behind, tokenize text = .ok ts → behind ≠ "" → ¬ Opens behind.toList →
      ¬ ReadsOn ts text.utf8ByteSize behind.toList →
      tokenize (text ++ behind) = .error (.unexpected text.utf8ByteSize) := by
  constructor
  · intro e he
    rcases scanned_text text with ⟨ts, hok, -⟩ | ⟨front, behind, ts, rfl, hne, hnot, hts, herr⟩
    · cases hok.symm.trans he
    · obtain rfl := Except.error.inj (herr.symm.trans he)
      refine ⟨front, behind, rfl, rfl, ?_, hnot, ts, tokenize_eq_ok_iff.mpr hts⟩
      have hpos : behind.utf8ByteSize ≠ 0 := by simpa using hne
      rw [String.utf8ByteSize_append]
      omega
  · intro ts behind hok hne hnot hlast
    have hts : Lexes false 0 text.toList ts := tokenize_eq_ok_iff.mp hok
    have hend : 0 + utf8Len text.toList = text.utf8ByteSize := by
      rw [Nat.zero_add, String.utf8Len_toList]
    rw [← hend] at hlast
    have hblank : ∀ c ∈ behind.toList.head?, Text.isBlank c = false := fun c hc =>
      Bool.eq_false_iff.mpr fun hb => hnot (opens_iff.mpr (.inl ⟨c, hc, hb⟩))
    obtain ⟨after, happend⟩ := hts.tokenizeFrom_append hblank hlast
    rw [tokenize_eq, String.toList_append, happend,
      tokenizeFrom_stuck (by simpa using hne) hnot, hend]
    rfl

theorem tokenize_error_position_capital :
    tokenize "$a0\u2003" = .ok [⟨.register, "$a0", 0⟩] ∧
      tokenize ("$a0\u2003" ++ "B") = .error (.unexpected 6) ∧
      ∃ front behind, "$a0\u2003B" = front ++ behind ∧
        Error.unexpected 6 = .unexpected front.utf8ByteSize ∧
        front.utf8ByteSize < "$a0\u2003B".utf8ByteSize ∧ ¬ Opens behind.toList ∧
        ∃ ts, tokenize front = .ok ts := by
  have hok : tokenize "$a0\u2003" = .ok [⟨.register, "$a0", 0⟩] := by decide
  have herr : tokenize "$a0\u2003B" = .error (.unexpected 6) := by decide
  refine ⟨hok, ?_, (tokenize_error_position "$a0\u2003B").1 _ herr⟩
  exact (tokenize_error_position "$a0\u2003").2 _ "B" hok (by decide) (by decide) (by decide)

end Hartwatch.Expr
