import Hartwatch.Proofs.Expr.Grammar
import Mathlib.Data.List.TakeWhile

/-! Reading a text back into lexemes. A lexeme is recovered from any text in which what follows
cannot extend it, and every token of a text is written in the alphabet of its kind. -/

namespace Hartwatch.Expr

/-! ### Classes of characters -/

theorem isLower_eq (c : Char) : c.isLower = (decide ('a' ≤ c) && decide (c ≤ 'z')) :=
  rfl

theorem isAlphanum_eq (c : Char) :
    c.isAlphanum = (decide ('A' ≤ c ∧ c ≤ 'Z') || c.isLower || c.isDigit) :=
  rfl

theorem isDecimalDigit_eq (c : Char) : isDecimalDigit c = c.isDigit := by
  simp only [isDecimalDigit, Text.decimalDigit?, Char.isDigit]
  split
  all_goals simp_all [Char.le_def]

theorem isRegisterChar_eq (c : Char) : isRegisterChar c = (c.isDigit || c.isLower) := by
  rw [isRegisterChar, isDecimalDigit_eq]
  rfl

theorem isHexDigit_eq (c : Char) : isHexDigit c = (c.isDigit || isHexLetter c) := by
  simp only [isHexDigit, Text.hexDigit?, Char.isDigit, isHexLetter]
  repeat' split
  all_goals simp_all [Char.le_def]

theorem not_isBlank_of_isAlphanum {c : Char} (h : c.isAlphanum) : Text.isBlank c = false := by
  simp [Text.isBlank, Text.blankRanges, isAlphanum_eq, isLower_eq, Char.isDigit, Char.le_def,
    UInt32.le_iff_toNat_le] at h ⊢
  omega

theorem isAlphanum_of_isDigit {c : Char} (h : c.isDigit) : c.isAlphanum := by
  simp [isAlphanum_eq, h]

theorem isAlphanum_of_isRegisterChar {c : Char} (h : isRegisterChar c) : c.isAlphanum := by
  rw [isRegisterChar_eq, Bool.or_eq_true] at h
  rcases h with h | h <;> simp [isAlphanum_eq, h]

theorem isAlphanum_of_isHexDigit {c : Char} (h : isHexDigit c) : c.isAlphanum := by
  rw [isHexDigit_eq] at h
  simp [isHexLetter, isAlphanum_eq, isLower_eq, Char.isDigit, Char.le_def,
    UInt32.le_iff_toNat_le] at h ⊢
  omega

/-- Nothing at the start of a text can extend a literal or a register's name. -/
def Closes (cs : List Char) : Prop :=
  ∀ c ∈ cs.head?, c.isAlphanum = false

theorem Closes.of_blank {c : Char} {cs : List Char} (h : Text.isBlank c) : Closes (c :: cs) := by
  intro d hd
  obtain rfl : c = d := by simpa using hd
  cases ha : c.isAlphanum with
  | false => rfl
  | true => simp [not_isBlank_of_isAlphanum ha] at h

theorem runLength_append {p : Char → Bool} {run cs : List Char} (hrun : ∀ c ∈ run, p c)
    (hcs : ∀ c ∈ cs.head?, p c = false) : runLength p (run ++ cs) = run.length := by
  rw [runLength, List.takeWhile_append_of_pos hrun]
  cases cs with
  | nil => simp
  | cons c cs => simp [hcs c rfl]

/-! ### Lexemes as they are written -/

namespace Token.Kind

/-- The kind of a token before unary operators are told from binary ones. -/
def bare : Token.Kind → Token.Kind
  | negate => minus
  | deref => star
  | kind => kind

def isLeaf : Token.Kind → Bool
  | register | hex | decimal => true
  | _ => false

def sign : Token.Kind → List Char
  | plus => ['+']
  | minus | negate => ['-']
  | star | deref => ['*']
  | slash => ['/']
  | equal => ['=', '=']
  | notEqual => ['!', '=']
  | and => ['&', '&']
  | leftParen => ['(']
  | rightParen => [')']
  | register | hex | decimal => []

end Token.Kind

inductive Lexeme.WellFormed : Lexeme → Prop
  | sign {k : Token.Kind} : k.isLeaf = false → WellFormed ⟨k, k.sign⟩
  | register {cs : List Char} :
    cs ≠ [] → (∀ c ∈ cs, isRegisterChar c) → WellFormed ⟨.register, '$' :: cs⟩
  | hex {x : Char} {ds : List Char} : (x = 'x' ∨ x = 'X') → ds ≠ [] →
    (∀ c ∈ ds, isHexDigit c) → WellFormed ⟨.hex, '0' :: x :: ds⟩
  | decimal {ds : List Char} :
    ds ≠ [] → (∀ c ∈ ds, isDecimalDigit c) → WellFormed ⟨.decimal, ds⟩

def Token.Kind.continues (k : Token.Kind) (c : Char) : Bool :=
  match k with
  | register => isRegisterChar c
  | hex => isHexDigit c
  | decimal => isDecimalDigit c
  | _ => false

/-- A character behind a lexeme may belong to it. Behind a lone zero, so may the mark of
hexadecimal digits. -/
def Lexeme.ExtendedBy (l : Lexeme) (c : Char) : Prop :=
  l.kind.continues c ∨ l = ⟨.decimal, ['0']⟩ ∧ (c = 'x' ∨ c = 'X')

instance (l : Lexeme) (c : Char) : Decidable (l.ExtendedBy c) :=
  inferInstanceAs (Decidable (_ ∨ _))

theorem Token.Kind.isAlphanum_of_continues {k : Token.Kind} {c : Char} (h : k.continues c) :
    c.isAlphanum := by
  cases k with
  | register => exact isAlphanum_of_isRegisterChar h
  | hex => exact isAlphanum_of_isHexDigit h
  | decimal => exact isAlphanum_of_isDigit (isDecimalDigit_eq c ▸ h)
  | _ => cases h

theorem Lexeme.isLeaf_of_extendedBy {l : Lexeme} {c : Char} (h : l.ExtendedBy c) :
    l.kind.isLeaf := by
  rcases h with hk | ⟨rfl, -⟩
  · cases hl : l.kind <;> simp [hl, Token.Kind.continues, Token.Kind.isLeaf] at hk ⊢
  · rfl

theorem Lexeme.not_extendedBy {l : Lexeme} {cs : List Char} (h : l.kind.isLeaf → Closes cs) :
    ∀ c ∈ cs.head?, ¬ l.ExtendedBy c := by
  intro c hc he
  have hend : c.isAlphanum = false := h (isLeaf_of_extendedBy he) c hc
  rcases he with hk | ⟨-, rfl | rfl⟩
  · simp [Token.Kind.isAlphanum_of_continues hk] at hend
  · cases hend
  · cases hend

theorem lexeme?_blank {c : Char} {cs : List Char} (h : Text.isBlank c) :
    lexeme? (c :: cs) = some (none, runLength Text.isBlank (c :: cs)) := by
  simp [lexeme?, lexicalRules, runLength, h]

theorem runLength_cons {p : Char → Bool} {c : Char} {cs : List Char} (h : p c = false) :
    runLength p (c :: cs) = 0 := by
  simp [runLength, h]

theorem lexeme?_dollar (cs : List Char) :
    lexeme? ('$' :: cs) =
      if runLength isRegisterChar cs = 0 then none
      else some (some .register, 1 + runLength isRegisterChar cs) := by
  have hb : runLength Text.isBlank ('$' :: cs) = 0 := runLength_cons (by decide)
  have hd : runLength isDecimalDigit ('$' :: cs) = 0 := runLength_cons (by decide)
  have hh : hexLength ('$' :: cs) = 0 := rfl
  by_cases h : runLength isRegisterChar cs = 0 <;>
    simp [lexeme?, lexicalRules, fixedLength, registerLength, ledLength, hb, hd, hh, h]

theorem lexeme?_digit {c : Char} {cs : List Char} (h : isDecimalDigit c) :
    lexeme? (c :: cs) =
      if hexLength (c :: cs) = 0 then some (some .decimal, runLength isDecimalDigit (c :: cs))
      else some (some .hex, hexLength (c :: cs)) := by
  have hd : c.isDigit := by rwa [← isDecimalDigit_eq]
  have hne : ∀ a : Char, a.isDigit = false → c ≠ a := by
    rintro a ha rfl
    simp [hd] at ha
  have hb : runLength Text.isBlank (c :: cs) = 0 :=
    runLength_cons (not_isBlank_of_isAlphanum (isAlphanum_of_isDigit hd))
  have hf : ∀ (a : Char) (as : List Char), a.isDigit = false →
      fixedLength (a :: as) (c :: cs) = 0 := by
    intro a as ha
    simp [fixedLength, (hne a ha).symm]
  have hr : registerLength (c :: cs) = 0 := by
    simp [registerLength, hne '$' (by decide)]
  have hrun : runLength isDecimalDigit (c :: cs) ≠ 0 := by simp [runLength, h]
  by_cases hx : hexLength (c :: cs) = 0 <;>
    simp [lexeme?, lexicalRules, hf, hr, hb, hrun, hx]

theorem hexLength_digits {ds cs : List Char} (hds : ∀ c ∈ ds, isDecimalDigit c) (hne : ds ≠ [])
    (hcs : ∀ c ∈ cs.head?, ¬ Lexeme.ExtendedBy ⟨.decimal, ds⟩ c) : hexLength (ds ++ cs) = 0 := by
  have hsecond : ∀ x rest, ds ++ cs = '0' :: x :: rest → x ≠ 'x' ∧ x ≠ 'X' := by
    intro x rest h
    rcases ds with _ | ⟨d, _ | ⟨e, ds⟩⟩
    · exact absurd rfl hne
    · obtain ⟨rfl, rfl⟩ := List.cons.inj h
      exact ⟨fun hx => hcs x rfl (.inr ⟨rfl, .inl hx⟩), fun hx => hcs x rfl (.inr ⟨rfl, .inr hx⟩)⟩
    · obtain ⟨-, h⟩ := List.cons.inj h
      obtain ⟨rfl, -⟩ := List.cons.inj h
      have he : isDecimalDigit e := hds e (by simp)
      constructor <;> rintro rfl <;> exact absurd he (by decide)
  unfold hexLength
  split
  · exact absurd rfl (hsecond _ _ ‹_›).1
  · exact absurd rfl (hsecond _ _ ‹_›).2
  · rfl

theorem hexLength_hex {x : Char} {ds cs : List Char} (hx : x = 'x' ∨ x = 'X')
    (hds : ∀ c ∈ ds, isHexDigit c) (hne : ds ≠ []) (hcs : ∀ c ∈ cs.head?, isHexDigit c = false) :
    hexLength ('0' :: x :: (ds ++ cs)) = ds.length + 2 := by
  have hrun : runLength isHexDigit (ds ++ cs) = ds.length := runLength_append hds hcs
  have hpos : ds.length ≠ 0 := by simpa using hne
  rcases hx with rfl | rfl <;> simp [hexLength, ledLength, hrun, hne, Nat.add_comm]

/-- The scan takes a lexeme back whole, if what stands behind it cannot extend it. -/
theorem Lexeme.WellFormed.lexeme?_append {l : Lexeme} {cs : List Char} (h : l.WellFormed)
    (hcs : ∀ c ∈ cs.head?, ¬ l.ExtendedBy c) :
    lexeme? (l.text ++ cs) = some (some l.kind.bare, l.text.length) := by
  have hstop : ∀ c ∈ cs.head?, l.kind.continues c = false := fun c hc =>
    Bool.eq_false_iff.mpr fun hk => hcs c hc (.inl hk)
  cases h with
  | @sign k hk => cases k <;> first | rfl | simp [Token.Kind.isLeaf] at hk
  | @register ns hne hns =>
    have hrun : runLength isRegisterChar (ns ++ cs) = ns.length := runLength_append hns hstop
    simp [lexeme?_dollar, hrun, hne, Nat.add_comm, Token.Kind.bare]
  | @hex x ds hx hne hds =>
    have hlen := hexLength_hex hx hds hne hstop
    simp only [List.cons_append]
    rw [lexeme?_digit (by decide), hlen]
    rfl
  | @decimal ds hne hds =>
    have hrun : runLength isDecimalDigit (ds ++ cs) = ds.length := runLength_append hds hstop
    have hlen := hexLength_digits hds hne hcs
    obtain ⟨d, ds, rfl⟩ := List.exists_cons_of_ne_nil hne
    rw [List.cons_append, lexeme?_digit (hds d (by simp)), ← List.cons_append, hlen, hrun]
    rfl

/-! ### Lexemes that the scan takes -/

theorem take_fixedLength {text cs : List Char} (h : fixedLength text cs ≠ 0) :
    ∃ rest, cs = text ++ rest ∧ fixedLength text cs = text.length := by
  unfold fixedLength at h ⊢
  split at h
  · next hp =>
    obtain ⟨rest, rfl⟩ := List.isPrefixOf_iff_prefix.mp hp
    exact ⟨rest, rfl, if_pos hp⟩
  · exact absurd rfl h

theorem take_run {p : Char → Bool} {cs : List Char} (h : runLength p cs ≠ 0) :
    ∃ run rest, cs = run ++ rest ∧ runLength p cs = run.length ∧ run ≠ [] ∧ (∀ c ∈ run, p c) ∧
      ∀ c ∈ rest.head?, p c = false := by
  refine ⟨cs.takeWhile p, cs.dropWhile p, List.takeWhile_append_dropWhile.symm, rfl,
    fun he => h (by simp [runLength, he]), fun _ => List.mem_takeWhile_imp, fun c hc => ?_⟩
  have hstop := List.head?_dropWhile_not p cs
  rw [Option.mem_def.mp hc] at hstop
  exact hstop

theorem take_ledLength {p : Char → Bool} {lead : Nat} {cs : List Char}
    (h : ledLength p lead cs ≠ 0) :
    ∃ run rest, cs = run ++ rest ∧ ledLength p lead cs = lead + run.length ∧ run ≠ [] ∧
      (∀ c ∈ run, p c) ∧ ∀ c ∈ rest.head?, p c = false := by
  unfold ledLength at h ⊢
  split at h
  · exact absurd rfl h
  · next hrun =>
    obtain ⟨run, rest, rfl, hlen, hrest⟩ := take_run hrun
    exact ⟨run, rest, rfl, by rw [if_neg hrun, hlen], hrest⟩

/-- A lexeme of so many characters stands in front of something that does not go on with it. -/
def Token.Kind.Takes (k : Token.Kind) (n : Nat) (cs : List Char) : Prop :=
  ∃ xs rest, cs = xs ++ rest ∧ xs.length = n ∧ Lexeme.WellFormed ⟨k, xs⟩ ∧
    ∀ c ∈ rest.head?, k.continues c = false

theorem takes_sign {k : Token.Kind} {cs : List Char} (hk : k.isLeaf = false)
    (h : fixedLength k.sign cs ≠ 0) : k.Takes (fixedLength k.sign cs) cs := by
  obtain ⟨rest, rfl, hlen⟩ := take_fixedLength h
  refine ⟨k.sign, rest, rfl, hlen.symm, .sign hk, fun c _ => ?_⟩
  cases k <;> first | rfl | cases hk

theorem takes_register {cs : List Char} (h : registerLength cs ≠ 0) :
    Token.Kind.register.Takes (registerLength cs) cs := by
  unfold registerLength at h ⊢
  split at h
  · obtain ⟨run, rest, rfl, hlen, hne, hrun, hstop⟩ := take_ledLength h
    exact ⟨'$' :: run, rest, rfl, by rw [hlen, List.length_cons]; omega, .register hne hrun, hstop⟩
  · exact absurd rfl h

theorem takes_hex {cs : List Char} (h : hexLength cs ≠ 0) :
    Token.Kind.hex.Takes (hexLength cs) cs := by
  unfold hexLength at h ⊢
  split at h
  · obtain ⟨run, rest, rfl, hlen, hne, hrun, hstop⟩ := take_ledLength h
    exact ⟨'0' :: 'x' :: run, rest, rfl, by rw [hlen, List.length_cons, List.length_cons]; omega,
      .hex (.inl rfl) hne hrun, hstop⟩
  · obtain ⟨run, rest, rfl, hlen, hne, hrun, hstop⟩ := take_ledLength h
    exact ⟨'0' :: 'X' :: run, rest, rfl, by rw [hlen, List.length_cons, List.length_cons]; omega,
      .hex (.inr rfl) hne hrun, hstop⟩
  · exact absurd rfl h

theorem takes_decimal {cs : List Char} (h : runLength isDecimalDigit cs ≠ 0) :
    Token.Kind.decimal.Takes (runLength isDecimalDigit cs) cs := by
  obtain ⟨run, rest, rfl, hlen, hne, hrun, hstop⟩ := take_run h
  exact ⟨run, rest, rfl, hlen.symm, .decimal hne hrun, hstop⟩

theorem takes_of_lexeme? {cs : List Char} {k : Token.Kind} {n : Nat}
    (h : lexeme? cs = some (some k, n)) : k.Takes n cs ∧ k.bare = k := by
  obtain ⟨⟨k?, length⟩, hmem, hrule⟩ := List.exists_of_findSome?_eq_some h
  dsimp only at hrule
  split at hrule
  · simp at hrule
  next hlen =>
  obtain ⟨rfl, rfl⟩ : k? = some k ∧ length cs = n := by simpa using hrule
  simp only [lexicalRules, List.mem_cons, Prod.mk.injEq, List.not_mem_nil, reduceCtorEq,
    Option.some.injEq, false_and, or_false, false_or] at hmem
  rcases hmem with ⟨rfl, rfl⟩ | ⟨rfl, rfl⟩ | ⟨rfl, rfl⟩ | ⟨rfl, rfl⟩ | ⟨rfl, rfl⟩ | ⟨rfl, rfl⟩ |
    ⟨rfl, rfl⟩ | ⟨rfl, rfl⟩ | ⟨rfl, rfl⟩ | ⟨rfl, rfl⟩ | ⟨rfl, rfl⟩ | ⟨rfl, rfl⟩
  case inr.inr.inr.inr.inl => exact ⟨takes_register hlen, rfl⟩
  case inr.inr.inr.inr.inr.inl => exact ⟨takes_hex hlen, rfl⟩
  case inr.inr.inr.inr.inr.inr.inl => exact ⟨takes_decimal hlen, rfl⟩
  all_goals exact ⟨takes_sign rfl hlen, rfl⟩

theorem blank_of_lexeme? {cs : List Char} {n : Nat} (h : lexeme? cs = some (none, n)) :
    ∃ c ∈ cs.head?, Text.isBlank c := by
  obtain ⟨⟨k?, length⟩, hmem, hrule⟩ := List.exists_of_findSome?_eq_some h
  dsimp only at hrule
  split at hrule
  · simp at hrule
  next hlen =>
  obtain ⟨rfl, -⟩ : k? = none ∧ length cs = n := by simpa using hrule
  obtain rfl : length = runLength Text.isBlank := by simpa [lexicalRules] using hmem
  obtain ⟨run, rest, rfl, -, hne, hrun, -⟩ := take_run hlen
  obtain ⟨c, run, rfl⟩ := List.exists_cons_of_ne_nil hne
  exact ⟨c, rfl, hrun c (by simp)⟩

def Opens (cs : List Char) : Prop :=
  ∃ rule ∈ lexicalRules, rule.2 cs ≠ 0

instance (cs : List Char) : Decidable (Opens cs) :=
  inferInstanceAs (Decidable (∃ rule ∈ lexicalRules, rule.2 cs ≠ 0))

theorem lexeme?_eq_none_iff {cs : List Char} : lexeme? cs = none ↔ ¬ Opens cs := by
  simp [lexeme?, Opens]

theorem Lexeme.WellFormed.opens {l : Lexeme} (h : l.WellFormed) (rest : List Char) :
    Opens (l.text ++ rest) := by
  cases h with
  | @sign k hk =>
    have hlen : fixedLength k.sign (k.sign ++ rest) ≠ 0 := by
      cases k <;> first | cases hk; done | simp [fixedLength, Token.Kind.sign]
    have hmem : (some k.bare, fixedLength k.sign) ∈ lexicalRules := by
      cases k <;> first | cases hk; done | simp [lexicalRules, Token.Kind.bare, Token.Kind.sign]
    exact ⟨_, hmem, hlen⟩
  | @register ns hne hns =>
    obtain ⟨n, ns, rfl⟩ := List.exists_cons_of_ne_nil hne
    refine ⟨(some .register, registerLength), by simp [lexicalRules], ?_⟩
    simp [registerLength, ledLength, runLength, hns n (by simp)]
  | @hex x ds hx hne hds =>
    obtain ⟨d, ds, rfl⟩ := List.exists_cons_of_ne_nil hne
    refine ⟨(some .hex, hexLength), by simp [lexicalRules], ?_⟩
    rcases hx with rfl | rfl <;> simp [hexLength, ledLength, runLength, hds d (by simp)]
  | @decimal ds hne hds =>
    obtain ⟨d, ds, rfl⟩ := List.exists_cons_of_ne_nil hne
    refine ⟨(some .decimal, runLength isDecimalDigit), by simp [lexicalRules], ?_⟩
    simp [runLength, hds d (by simp)]

theorem opens_iff {cs : List Char} :
    Opens cs ↔ (∃ c ∈ cs.head?, Text.isBlank c) ∨ ∃ l : Lexeme, l.WellFormed ∧ l.text <+: cs := by
  constructor
  · intro hopens
    cases h : lexeme? cs with
    | none => exact absurd hopens (lexeme?_eq_none_iff.mp h)
    | some found =>
      obtain ⟨_ | k, n⟩ := found
      · exact .inl (blank_of_lexeme? h)
      · obtain ⟨⟨xs, rest, rfl, -, hxs, -⟩, -⟩ := takes_of_lexeme? h
        exact .inr ⟨_, hxs, rest, rfl⟩
  · rintro (⟨c, hc, hb⟩ | ⟨l, hl, rest, rfl⟩)
    · obtain ⟨cs, rfl⟩ := List.head?_eq_some_iff.mp hc
      exact ⟨(none, runLength Text.isBlank), by simp [lexicalRules], by simp [runLength, hb]⟩
    · exact hl.opens rest

end Hartwatch.Expr
