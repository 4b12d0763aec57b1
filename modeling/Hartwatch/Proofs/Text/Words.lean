import Hartwatch.Text.Blank
import Mathlib.Data.List.DropRight

/-! The first word of a text. Trimming does not change it, and it reaches to the first blank behind
those at the start. -/

namespace Hartwatch.Text

def upToBlank (cs : List Char) : List Char :=
  cs.takeWhile fun c => !isBlank c

theorem upToBlank_append_blanks (cs : List Char) {bs : List Char}
    (hbs : ∀ c ∈ bs, isBlank c = true) : upToBlank (cs ++ bs) = upToBlank cs := by
  induction cs with
  | nil =>
    cases bs with
    | nil => rfl
    | cons b bs => simp [upToBlank, hbs b (by simp)]
  | cons c cs ih =>
    by_cases hc : isBlank c = true
    · simp [upToBlank, hc]
    · simpa [upToBlank, hc] using ih

theorem upToBlank_trimChars (cs : List Char) :
    upToBlank (trimChars cs) = upToBlank (cs.dropWhile isBlank) := by
  let kept := (cs.dropWhile isBlank).rdropWhile isBlank
  let blanks := (cs.dropWhile isBlank).rtakeWhile isBlank
  have hblanks : ∀ c ∈ blanks, isBlank c = true := fun c hc => List.mem_rtakeWhile_imp hc
  have hsplit : kept ++ blanks = cs.dropWhile isBlank := List.rdropWhile_append_rtakeWhile
  calc upToBlank (trimChars cs) = upToBlank kept := rfl
    _ = upToBlank (kept ++ blanks) := (upToBlank_append_blanks kept hblanks).symm
    _ = upToBlank (cs.dropWhile isBlank) := by rw [hsplit]

theorem trimChars_eq_nil_iff (cs : List Char) : trimChars cs = [] ↔ cs.dropWhile isBlank = [] := by
  constructor
  · intro htrim
    have hall := List.rdropWhile_eq_nil_iff.mp htrim
    by_contra hne
    have hhead := List.head_dropWhile_not isBlank hne
    rw [hall _ (List.head_mem hne)] at hhead
    cases hhead
  · intro hdrop
    simp [trimChars, hdrop]

theorem trimChars_append_blanks (cs : List Char) {bs : List Char}
    (hbs : ∀ c ∈ bs, isBlank c = true) : trimChars (cs ++ bs) = trimChars cs := by
  have hback : ∀ kept : List Char,
      (kept ++ bs).reverse.dropWhile isBlank = kept.reverse.dropWhile isBlank := by
    intro kept
    have hrev : ∀ c ∈ bs.reverse, isBlank c = true := fun c hc => hbs c (List.mem_reverse.mp hc)
    rw [List.reverse_append, List.dropWhile_append_of_pos hrev]
  have hfront : bs.dropWhile isBlank = [] := List.dropWhile_eq_nil_iff.mpr hbs
  rw [trimChars, trimChars, List.dropWhile_append]
  cases hcs : cs.dropWhile isBlank with
  | nil => simp [hfront]
  | cons c kept => rw [if_neg (by simp), hback]

theorem trimChars_cons_blank {c : Char} (hc : isBlank c = true) (cs : List Char) :
    trimChars (c :: cs) = trimChars cs := by
  rw [trimChars, trimChars, List.dropWhile_cons_of_pos hc]

theorem head?_wordsFrom_pending {pending : List Char} (hp : pending ≠ []) (cs : List Char) :
    (wordsFrom pending cs).head? = some (pending.reverse ++ upToBlank cs) := by
  induction cs generalizing pending with
  | nil => simp [wordsFrom, hp, upToBlank]
  | cons c cs ih =>
    by_cases hc : isBlank c = true
    · simp [wordsFrom, hp, hc, upToBlank]
    · have hrest := ih (List.cons_ne_nil c pending)
      simpa [wordsFrom, hc, upToBlank] using hrest

theorem head?_wordsFrom (cs : List Char) :
    (wordsFrom [] cs).head? =
      if cs.dropWhile isBlank = [] then none else some (upToBlank (cs.dropWhile isBlank)) := by
  induction cs with
  | nil => rfl
  | cons c cs ih =>
    by_cases hc : isBlank c = true
    · simpa [wordsFrom, hc] using ih
    · have hrest := head?_wordsFrom_pending (List.cons_ne_nil c []) cs
      simpa [wordsFrom, hc, upToBlank] using hrest

theorem head?_words (s : String) :
    (words s).head? =
      if trim s = "" then none else some (.ofList (upToBlank (trim s).toList)) := by
  have hempty : trim s = "" ↔ s.toList.dropWhile isBlank = [] := by
    rw [← trimChars_eq_nil_iff, trim, String.ofList_eq_empty_iff]
  rw [words, List.head?_map, head?_wordsFrom]
  by_cases hdrop : s.toList.dropWhile isBlank = []
  · rw [if_pos hdrop, if_pos (hempty.mpr hdrop)]
    rfl
  · rw [if_neg hdrop, if_neg fun h => hdrop (hempty.mp h), Option.map_some, trim,
      String.toList_ofList, upToBlank_trimChars]

end Hartwatch.Text
