import Hartwatch.Proofs.Debugger.Composition
import Hartwatch.Proofs.Memory.Readable

/-! What an examination of memory prints: four words on a line, behind the address of the first
one. The loop starts a line at each fourth word, before it knows whether the word can be read. -/

namespace Hartwatch.Debugger

open Session Text

variable {d : Debugger} {base a : Word} {count i : Nat} {ws us vs : List Word} {stops : Bool}

/-! ### The loop -/

def startLine (a : Word) (i : Nat) : Session Unit := do
  if i % wordsPerLine = 0 then
    if 0 < i then write "\n"
    write (wordHex a ++ ":")

def startWord (base : Word) (i : Nat) : Session Word := do
  let distance ← Checked.mulUnsigned 64 i 4
  let a := base + distance.setWidth 32
  startLine a i
  return a

theorem examineFrom_succ (base : Word) (count i : Nat) :
    examineFrom base (count + 1) i = (do
      let a ← startWord base i
      match (← get).machine.hart.readWord? a with
      | none => return some a
      | some v =>
        write ("\t" ++ wordHex v)
        examineFrom base count (i + 1)) := by
  rw [examineFrom, startWord, bind_assoc]
  refine congrArg _ (funext fun distance => ?_)
  dsimp only [startLine]
  split
  · split
    · rw [bind_assoc, bind_assoc]
      rfl
    · rw [bind_assoc]
      rfl
  · rfl

def heading (a : Word) (i : Nat) : String :=
  if i % wordsPerLine = 0 then (if 0 < i then "\n" else "") ++ (wordHex a ++ ":") else ""

/-- What is printed of the `i`-th word and those behind it, at an address that can be read no more
if the loop stops there. -/
def examined (stops : Bool) (a : Word) (i : Nat) : List Word → String
  | [] => if stops then heading a i else ""
  | w :: ws => heading a i ++ ("\t" ++ wordHex w ++ examined stops (wordAddress a 1) (i + 1) ws)

theorem prints_startLine (hroom : d.out.room? = none) (a : Word) (i : Nat) :
    Prints (startLine a i) d () (heading a i) := by
  unfold startLine heading
  by_cases hline : i % wordsPerLine = 0
  · by_cases hi : 0 < i
    · rw [if_pos hline, if_pos hline, if_pos hi, if_pos hi]
      refine (Prints.write hroom "\n").bind (Prints.write ?_ _)
      exact hroom
    · rw [if_pos hline, if_pos hline, if_neg hi, if_neg hi, String.empty_append]
      exact Prints.write hroom _
  · rw [if_neg hline, if_neg hline]
    exact .pure _ _

theorem startWord_eq (hi : i ≤ 1 <<< 29) :
    startWord base i = do startLine (wordAddress base i) i; return wordAddress base i := by
  have hmul : Checked.mulUnsigned 64 i 4 = .ok (BitVec.ofNat 64 (i * 4)) := if_pos (by omega)
  have haddress : base + (BitVec.ofNat 64 (i * 4)).setWidth 32 = wordAddress base i := by
    rw [BitVec.setWidth_ofNat_of_le (by decide), Nat.mul_comm, wordAddress]
  rw [startWord, hmul, ← haddress]
  rfl

theorem prints_startWord (hroom : d.out.room? = none) (hi : i ≤ 1 <<< 29) :
    Prints (startWord base i) d (wordAddress base i) (heading (wordAddress base i) i) := by
  rw [startWord_eq hi]
  exact (prints_startLine hroom _ _).andThen (.pure _ _)

theorem prints_examineFrom (hroom : d.out.room? = none) (hi : i + ws.length ≤ 1 <<< 29)
    (hws : d.machine.hart.Readable (wordAddress base i) count ws) :
    Prints (examineFrom base count i) d
      (if ws.length < count then some (wordAddress base (i + ws.length)) else none)
      (examined (decide (ws.length < count)) (wordAddress base i) i ws) := by
  induction count generalizing i d ws with
  | zero =>
    obtain rfl : ws = [] := List.eq_nil_of_length_eq_zero (Nat.le_zero.mp hws.length_le)
    exact .pure _ _
  | succ count ih =>
    have hstart : Prints (startWord base i) d (wordAddress base i)
      (heading (wordAddress base i) i) := prints_startWord hroom (by omega)
    rw [examineFrom_succ]
    cases ws with
    | nil =>
      refine hstart.andThen (.observe ?_)
      dsimp only
      rw [hws.readWord?_eq_none]
      exact .pure _ _
    | cons w ws =>
      have hnext := hws.tail
      rw [wordAddress_wordAddress] at hnext
      have hlen : (w :: ws).length = ws.length + 1 := rfl
      have hrest := @ih (d.onto ((d.out.append (heading (wordAddress base i) i)).append
        ("\t" ++ wordHex w))) (i + 1) ws hroom (by omega) hnext
      have hstops : ws.length + 1 < count + 1 ↔ ws.length < count := Nat.succ_lt_succ_iff
      have hplace : i + (ws.length + 1) = i + 1 + ws.length := by omega
      simp only [hlen, hstops, hplace, examined, wordAddress_wordAddress]
      refine hstart.bind (.observe ?_)
      dsimp only
      rw [hws.readWord?_eq_some]
      refine (Prints.write ?_ _).bind hrest
      exact hroom

/-! ### Lines -/

def cells (ws : List Word) : String :=
  .join (ws.map fun w => "\t" ++ wordHex w)

/-- The `j`-th line: the address of its first word, and four words or as many as there are left. -/
def memoryLine (a : Word) (ws : List Word) (j : Nat) : String :=
  wordHex (wordAddress a (4 * j)) ++ ":" ++ cells ((ws.drop (4 * j)).take 4) ++ "\n"

/-- As many lines as some words need, of which all or all but the last could be read. -/
def memoryText (a : Word) (ws : List Word) (reads : Nat) : String :=
  .join ((List.range ((reads + 3) / 4)).map (memoryLine a ws))

theorem cells_cons (w : Word) (ws : List Word) :
    cells (w :: ws) = "\t" ++ wordHex w ++ cells ws := by
  rw [cells, List.map_cons, String.join_cons, cells]

theorem memoryLine_succ (a : Word) (ws : List Word) (j : Nat) :
    memoryLine a ws (j + 1) = memoryLine (wordAddress a 4) (ws.drop 4) j := by
  have hplace : 4 + 4 * j = 4 * (j + 1) := by omega
  rw [memoryLine, memoryLine, wordAddress_wordAddress, List.drop_drop, hplace]

theorem memoryText_add (a : Word) (ws : List Word) (reads : Nat) :
    memoryText a ws (reads + 4) =
      memoryLine a ws 0 ++ memoryText (wordAddress a 4) (ws.drop 4) reads := by
  have hlines : (reads + 4 + 3) / 4 = (reads + 3) / 4 + 1 := by omega
  rw [memoryText, hlines, List.range_succ_eq_map, List.map_cons, String.join_cons, List.map_map,
    memoryText]
  simp only [Function.comp_def, Nat.succ_eq_add_one, memoryLine_succ]

theorem memoryText_line {reads : Nat} (hpos : 0 < reads) (hle : reads ≤ 4) (a : Word)
    (ws : List Word) : memoryText a ws reads = memoryLine a ws 0 := by
  have hlines : (reads + 3) / 4 = 1 := by omega
  rw [memoryText, hlines]
  simp

theorem heading_inside (hi : i % 4 ≠ 0) (a : Word) : heading a i = "" :=
  if_neg hi

theorem heading_start (hi : i % 4 = 0) (a : Word) :
    heading a i = (if 0 < i then "\n" else "") ++ (wordHex a ++ ":") :=
  if_pos hi

theorem examined_inside (h : ∀ k < us.length, (i + k) % 4 ≠ 0) :
    examined stops a i (us ++ vs) =
      cells us ++ examined stops (wordAddress a us.length) (i + us.length) vs := by
  induction us generalizing a i with
  | nil => simp [cells]
  | cons u us ih =>
    have hrest := ih (a := wordAddress a 1) (i := i + 1) fun k hk => by
      rw [Nat.add_right_comm]
      exact h (k + 1) (Nat.succ_lt_succ hk)
    have hplace : i + 1 + us.length = i + (us.length + 1) := by omega
    have hfirst : heading a i = "" := heading_inside (h 0 (Nat.succ_pos _)) a
    rw [List.cons_append, examined, hfirst, hrest, wordAddress_succ, hplace, cells_cons,
      String.empty_append]
    exact String.append_assoc.symm

theorem examined_line (hi : i % 4 = 0) (hne : us ≠ []) (hle : us.length ≤ 4) (stops : Bool)
    (a : Word) (vs : List Word) :
    examined stops a i (us ++ vs) = heading a i ++
      (cells us ++ examined stops (wordAddress a us.length) (i + us.length) vs) := by
  cases us with
  | nil => exact absurd rfl hne
  | cons u us =>
    have hlen : (u :: us).length = us.length + 1 := rfl
    have hplace : i + 1 + us.length = i + (us.length + 1) := by omega
    rw [List.cons_append, examined, examined_inside (fun k hk => by omega), wordAddress_succ,
      hplace, cells_cons, hlen]
    exact congrArg _ String.append_assoc.symm

theorem examined_last (hi : i % 4 = 0) (hpos : 0 < ws.length + stops.toNat)
    (hle : ws.length + stops.toNat ≤ 4) : examined stops a i ws = heading a i ++ cells ws := by
  cases ws with
  | nil =>
    cases stops with
    | false => cases hpos
    | true => exact String.append_empty.symm
  | cons w ws =>
    have hlen : (w :: ws).length = ws.length + 1 := rfl
    have hline := examined_line hi (List.cons_ne_nil w ws) (by omega) stops a []
    have hend : examined stops (wordAddress a (w :: ws).length) (i + (w :: ws).length) [] = "" := by
      cases stops with
      | false => rfl
      | true =>
        rw [Bool.toNat_true] at hle
        exact heading_inside (by omega) _
    rwa [hend, List.append_nil, String.append_empty] at hline

/-- With a new line behind it, what the loop prints is lines of four words. -/
theorem examined_eq {reads : Nat} (hi : i % 4 = 0) (hreads : reads = ws.length + stops.toNat)
    (hpos : 0 < reads) :
    examined stops a i ws ++ "\n" = (if 0 < i then "\n" else "") ++ memoryText a ws reads := by
  induction reads using Nat.strongRecOn generalizing a i ws with
  | ind reads ih =>
    by_cases hle : reads ≤ 4
    · have hall : (ws.drop (4 * 0)).take 4 = ws := List.take_of_length_le (by
        rw [Nat.mul_zero, List.drop_zero]
        omega)
      have hlast : examined stops a i ws = heading a i ++ cells ws :=
        examined_last hi (hreads ▸ hpos) (hreads ▸ hle)
      rw [hlast, heading_start hi, memoryText_line hpos hle, memoryLine, hall, wordAddress_zero]
      simp only [String.append_assoc]
    · obtain ⟨rest, rfl⟩ : ∃ rest, reads = rest + 4 := ⟨reads - 4, by omega⟩
      have hstops : stops.toNat ≤ 1 := Bool.toNat_le _
      have hlen : (ws.take 4).length = 4 := by
        rw [List.length_take]
        omega
      have hline := examined_line hi (List.ne_nil_of_length_pos (by omega)) hlen.le stops a
        (ws.drop 4)
      have hrest := @ih rest (by omega) (wordAddress a 4) (i + 4) (ws.drop 4) (by omega)
        (by rw [List.length_drop]; omega) (by omega)
      rw [if_pos (by omega)] at hrest
      rw [List.take_append_drop, hlen] at hline
      rw [hline, heading_start hi, memoryText_add, memoryLine, List.drop_zero, wordAddress_zero]
      simp only [String.append_assoc, hrest]

end Hartwatch.Debugger
