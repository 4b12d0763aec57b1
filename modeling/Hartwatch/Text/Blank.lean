/-! Blanks are the characters of the Unicode property White_Space. Lines are trimmed and cut
into words at blanks, and an expression may have them between its tokens. -/

namespace Hartwatch.Text

/-- First and last code point of each range of the property. -/
def blankRanges : List (Nat × Nat) :=
  [(0x09, 0x0d), (0x20, 0x20), (0x85, 0x85), (0xa0, 0xa0), (0x1680, 0x1680), (0x2000, 0x200a),
    (0x2028, 0x2029), (0x202f, 0x202f), (0x205f, 0x205f), (0x3000, 0x3000)]

def isBlank (c : Char) : Bool :=
  blankRanges.any fun (first, last) => first ≤ c.toNat && c.toNat ≤ last

def trimChars (cs : List Char) : List Char :=
  ((cs.dropWhile isBlank).reverse.dropWhile isBlank).reverse

def trim (s : String) : String :=
  .ofList (trimChars s.toList)

def cutAtBlank? (s : String) : Option (String × String) :=
  match s.toList.dropWhile (fun c => !isBlank c) with
  | [] => none
  | _ :: rest => some (.ofList (s.toList.takeWhile fun c => !isBlank c), .ofList rest)

/-- The maximal blank-free pieces of a text; `pending` holds the piece under way, last
character first. -/
def wordsFrom (pending : List Char) : List Char → List (List Char)
  | [] => if pending.isEmpty then [] else [pending.reverse]
  | c :: cs =>
    if isBlank c then
      if pending.isEmpty then wordsFrom [] cs else pending.reverse :: wordsFrom [] cs
    else wordsFrom (c :: pending) cs

def words (s : String) : List String :=
  (wordsFrom [] s.toList).map .ofList

end Hartwatch.Text
