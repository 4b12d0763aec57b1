import Hartwatch.Instruction.Opcode
import Mathlib.Data.List.Nodup

/-! How the fields of a word name its instruction. Apart from the invalid instruction, at most one
recognizes a word, so the order in which they are tried makes no difference. -/

namespace Hartwatch

namespace Instruction

def group (w : Word) : BitVec 7 := w.extractLsb' 0 7

def funct3 (w : Word) : BitVec 3 := w.extractLsb' 12 3

def funct6 (w : Word) : BitVec 6 := w.extractLsb' 26 6

def funct7 (w : Word) : BitVec 7 := w.extractLsb' 25 7

end Instruction

open Instruction

/-- The instruction that a word's fields name, which is the invalid one for a `fence` as for any
other group. Shifts by an immediate are told apart by the six bits of `funct6`, as bit 25 is part
of the immediate. -/
def Opcode.ofFields (w : Word) : Opcode :=
  match group w with
  | 0b0110111 => lui
  | 0b0010111 => auipc
  | 0b1101111 => jal
  | 0b1100111 =>
    match funct3 w with
    | 0b000 => jalr
    | _ => inv
  | 0b1100011 =>
    match funct3 w with
    | 0b000 => beq
    | 0b001 => bne
    | 0b100 => blt
    | 0b101 => bge
    | 0b110 => bltu
    | 0b111 => bgeu
    | _ => inv
  | 0b0000011 =>
    match funct3 w with
    | 0b000 => lb
    | 0b001 => lh
    | 0b010 => lw
    | 0b100 => lbu
    | 0b101 => lhu
    | _ => inv
  | 0b0100011 =>
    match funct3 w with
    | 0b000 => sb
    | 0b001 => sh
    | 0b010 => sw
    | _ => inv
  | 0b0010011 =>
    match funct3 w with
    | 0b000 => addi
    | 0b010 => slti
    | 0b011 => sltiu
    | 0b100 => xori
    | 0b110 => ori
    | 0b111 => andi
    | 0b001 =>
      match funct6 w with
      | 0b000000 => slli
      | _ => inv
    | 0b101 =>
      match funct6 w with
      | 0b000000 => srli
      | 0b010000 => srai
      | _ => inv
  | 0b0110011 =>
    match funct7 w, funct3 w with
    | 0b0000000, 0b000 => add
    | 0b0000000, 0b001 => sll
    | 0b0000000, 0b010 => slt
    | 0b0000000, 0b011 => sltu
    | 0b0000000, 0b100 => xor
    | 0b0000000, 0b101 => srl
    | 0b0000000, 0b110 => or
    | 0b0000000, 0b111 => and
    | 0b0100000, 0b000 => sub
    | 0b0100000, 0b101 => sra
    | 0b0000001, 0b000 => mul
    | 0b0000001, 0b001 => mulh
    | 0b0000001, 0b010 => mulhsu
    | 0b0000001, 0b011 => mulhu
    | 0b0000001, 0b100 => div
    | 0b0000001, 0b101 => divu
    | 0b0000001, 0b110 => rem
    | 0b0000001, 0b111 => remu
    | _, _ => inv
  | 0b1110011 => if w = 0x00000073 then ecall else if w = 0x00100073 then ebreak else inv
  | _ => inv

/-! ### Patterns as fields -/

namespace Pattern

variable {w v mask : Word} {start length : Nat}

def span (start length : Nat) : Word :=
  (BitVec.allOnes length).setWidth 32 <<< start

theorem getElem_span {i : Nat} (hi : i < 32) :
    (span start length)[i] = decide (start ≤ i ∧ i < start + length) := by
  rw [span, BitVec.getElem_shiftLeft]
  by_cases h : start ≤ i
  · have hiff : i - start < length ↔ i < start + length := by omega
    simp [h, hiff]
  · simp [h, Nat.lt_of_not_ge h]

theorem and_span_eq_iff (hl : start + length ≤ 32) :
    w &&& span start length = v &&& span start length ↔
      w.extractLsb' start length = v.extractLsb' start length := by
  constructor
  · intro h
    ext i hi
    have hlt : start + i < 32 := by omega
    have hbit := congrArg (fun x : Word => x.getLsbD (start + i)) h
    simpa [BitVec.getLsbD_eq_getElem hlt, getElem_span, hi] using hbit
  · intro h
    ext i hi
    rw [BitVec.getElem_and, BitVec.getElem_and, getElem_span hi]
    by_cases hin : start ≤ i ∧ i < start + length
    · have hlt : i - start < length := by omega
      have hsum : start + (i - start) = i := by omega
      have hbit := congrArg (fun x : BitVec length => x.getLsbD (i - start)) h
      simpa [hin, hlt, hsum, BitVec.getLsbD_eq_getElem hi] using hbit
    · simp [hin]

theorem and_or_eq_iff (m m' : Word) :
    w &&& (m ||| m') = v &&& (m ||| m') ↔ w &&& m = v &&& m ∧ w &&& m' = v &&& m' := by
  constructor
  · intro h
    have hm : ∀ x : Word, x &&& m = x &&& (m ||| m') &&& m := by
      intro x
      ext i hi
      cases hx : x[i] <;> cases hm : m[i] <;> simp [hx, hm]
    have hm' : ∀ x : Word, x &&& m' = x &&& (m ||| m') &&& m' := by
      intro x
      ext i hi
      cases hx : x[i] <;> cases hm : m'[i] <;> simp [hx, hm]
    exact ⟨by rw [hm, h, ← hm], by rw [hm', h, ← hm']⟩
  · rintro ⟨h, h'⟩
    rw [BitVec.and_or_distrib_left, BitVec.and_or_distrib_left, h, h']

theorem recognizes_iff_and (hv : v &&& mask = v) :
    recognizes ⟨mask, v⟩ w = true ↔ w &&& mask = v &&& mask := by
  rw [hv]
  exact beq_iff_eq

theorem recognizes_group_iff (hv : v &&& 0x7f = v) :
    recognizes ⟨0x7f, v⟩ w = true ↔ group w = group v := by
  have hmask : (0x7f : Word) = span 0 7 := by decide
  rw [recognizes_iff_and hv, hmask, and_span_eq_iff (by decide)]
  rfl

theorem recognizes_funct3_iff (hv : v &&& 0x707f = v) :
    recognizes ⟨0x707f, v⟩ w = true ↔ group w = group v ∧ funct3 w = funct3 v := by
  have hmask : (0x707f : Word) = span 0 7 ||| span 12 3 := by decide
  rw [recognizes_iff_and hv, hmask, and_or_eq_iff, and_span_eq_iff (by decide),
    and_span_eq_iff (by decide)]
  rfl

theorem recognizes_funct6_iff (hv : v &&& 0xfc00707f = v) :
    recognizes ⟨0xfc00707f, v⟩ w = true ↔
      group w = group v ∧ funct3 w = funct3 v ∧ funct6 w = funct6 v := by
  have hmask : (0xfc00707f : Word) = span 0 7 ||| (span 12 3 ||| span 26 6) := by decide
  rw [recognizes_iff_and hv, hmask, and_or_eq_iff, and_or_eq_iff, and_span_eq_iff (by decide),
    and_span_eq_iff (by decide), and_span_eq_iff (by decide)]
  rfl

theorem recognizes_funct7_iff (hv : v &&& 0xfe00707f = v) :
    recognizes ⟨0xfe00707f, v⟩ w = true ↔
      group w = group v ∧ funct3 w = funct3 v ∧ funct7 w = funct7 v := by
  have hmask : (0xfe00707f : Word) = span 0 7 ||| (span 12 3 ||| span 25 7) := by decide
  rw [recognizes_iff_and hv, hmask, and_or_eq_iff, and_or_eq_iff, and_span_eq_iff (by decide),
    and_span_eq_iff (by decide), and_span_eq_iff (by decide)]
  rfl

theorem recognizes_exactly_iff : recognizes ⟨0xffffffff, v⟩ w = true ↔ w = v := by
  have hall : (0xffffffff : Word) = .allOnes 32 := rfl
  rw [hall, recognizes_iff_and BitVec.and_allOnes, BitVec.and_allOnes, BitVec.and_allOnes]

end Pattern

/-! ### The instruction of a word -/

namespace Opcode

open Pattern

variable {w : Word} {o : Opcode}

theorem recognizes_inv (w : Word) : inv.pattern.recognizes w = true := by
  simp [recognizes, pattern]

theorem recognizes_ofFields (w : Word) : (ofFields w).pattern.recognizes w = true := by
  have hinv := recognizes_inv w
  unfold ofFields
  split
  case h_1 hg | h_2 hg | h_3 hg => exact (recognizes_group_iff rfl).mpr hg
  case h_4 hg | h_5 hg | h_6 hg | h_7 hg =>
    split
    all_goals first
      | exact hinv
      | next h3 => exact (recognizes_funct3_iff rfl).mpr ⟨hg, h3⟩
  case h_8 hg =>
    split
    -- the two shifts have a third field, the other instructions of the group do not
    case h_7 h3 | h_8 h3 =>
      split
      all_goals first
        | exact hinv
        | next h6 => exact (recognizes_funct6_iff rfl).mpr ⟨hg, h3, h6⟩
    all_goals next h3 => exact (recognizes_funct3_iff rfl).mpr ⟨hg, h3⟩
  case h_9 hg =>
    split
    all_goals first
      | exact hinv
      | next h7 h3 => exact (recognizes_funct7_iff rfl).mpr ⟨hg, h3, h7⟩
  case h_10 =>
    split
    · next hw => exact recognizes_exactly_iff.mpr hw
    · split
      · next hw => exact recognizes_exactly_iff.mpr hw
      · exact hinv
  case h_11 => exact hinv

theorem ofFields_of_recognizes (ho : o ≠ inv) (hw : o.pattern.recognizes w = true) :
    ofFields w = o := by
  cases o
  case inv => exact absurd rfl ho
  case lui | auipc | jal =>
    have hg := (recognizes_group_iff rfl).mp hw
    rw [ofFields, hg]
    rfl
  case slli | srli | srai =>
    obtain ⟨hg, h3, h6⟩ := (recognizes_funct6_iff rfl).mp hw
    rw [ofFields, hg, h3, h6]
    rfl
  case add | sub | sll | slt | sltu | xor | srl | sra | or | and | mul | mulh | mulhsu | mulhu | div
      | divu | rem | remu =>
    obtain ⟨hg, h3, h7⟩ := (recognizes_funct7_iff rfl).mp hw
    rw [ofFields, hg, h3, h7]
    rfl
  case ecall | ebreak =>
    rw [recognizes_exactly_iff.mp hw]
    rfl
  all_goals
    obtain ⟨hg, h3⟩ := (recognizes_funct3_iff rfl).mp hw
    rw [ofFields, hg, h3]
    rfl

theorem mem_dropLast_all (ho : o ≠ inv) : o ∈ all.dropLast := by
  cases o
  case inv => exact absurd rfl ho
  all_goals decide

theorem inv_notMem_dropLast_all : inv ∉ all.dropLast := by
  decide

theorem nodup_dropLast_all : all.dropLast.Nodup := by
  decide

theorem filter_recognizes {os : List Opcode} (hos : os.Perm all.dropLast) (w : Word) :
    os.filter (fun o => o.pattern.recognizes w) =
      if ofFields w = inv then [] else [ofFields w] := by
  have hne : ∀ o ∈ os, o ≠ inv := fun o ho he =>
    inv_notMem_dropLast_all (hos.subset (he ▸ ho))
  by_cases hinv : ofFields w = inv
  · rw [if_pos hinv, List.filter_eq_nil_iff]
    intro o ho hw
    exact hne o ho ((ofFields_of_recognizes (hne o ho) hw).symm.trans hinv)
  · have hsame : ∀ o ∈ os, o.pattern.recognizes w = (o == ofFields w) := by
      intro o ho
      by_cases he : o = ofFields w
      · rw [he, recognizes_ofFields, beq_self_eq_true]
      · have hw : o.pattern.recognizes w ≠ true := fun hw =>
          he (ofFields_of_recognizes (hne o ho) hw).symm
        rw [Bool.eq_false_iff.mpr hw, beq_eq_false_iff_ne.mpr he]
    have hmem : ofFields w ∈ os := hos.symm.subset (mem_dropLast_all hinv)
    have hcount : os.count (ofFields w) = 1 :=
      List.count_eq_one_of_mem (hos.nodup_iff.mpr nodup_dropLast_all) hmem
    rw [if_neg hinv, List.filter_congr hsame, List.filter_beq, hcount]
    rfl

theorem find?_recognizes {os : List Opcode} (hos : os.Perm all.dropLast) (w : Word) :
    (os ++ [inv]).find? (fun o => o.pattern.recognizes w) = some (ofFields w) := by
  have hlast : [inv].filter (fun o => o.pattern.recognizes w) = [inv] := by
    simp [recognizes_inv]
  rw [← List.head?_filter, List.filter_append, filter_recognizes hos, hlast]
  split
  · next hinv => rw [hinv]; rfl
  · rfl

theorem all_eq : all = all.dropLast ++ [inv] :=
  rfl

theorem ofWord_eq_ofFields (w : Word) : ofWord w = ofFields w := by
  rw [ofWord, all_eq, find?_recognizes (.refl _), Option.getD_some]

theorem ofWord_eq_inv_iff (word : Word) :
    ofWord word = .inv ↔ ∀ o : Opcode, o.pattern.recognizes word = true → o = .inv := by
  rw [ofWord_eq_ofFields]
  constructor
  · intro hinv o ho
    by_contra hne
    exact hne ((ofFields_of_recognizes hne ho).symm.trans hinv)
  · intro honly
    exact honly _ (recognizes_ofFields word)

/-- Of the instructions before the invalid one, only the one that a word's fields name recognizes
the word, and it is found in whatever order they are tried. -/
theorem decoding_unambiguous {os : List Opcode} (hos : os.Perm all.dropLast) (w : Word) :
    (∀ o : Opcode, Pattern.ofTemplate o.template = .ok o.pattern) ∧
      all.filter (fun o => o.pattern.recognizes w) =
        (if ofFields w = inv then [inv] else [ofFields w, inv]) ∧
      all.find? (fun o => o.pattern.recognizes w) = some (ofWord w) ∧ ofWord w = ofFields w ∧
      (os ++ [inv]).find? (fun o => o.pattern.recognizes w) = some (ofWord w) := by
  refine ⟨ofTemplate_template, ?_, ?_, ofWord_eq_ofFields w, ?_⟩
  · rw [all_eq, List.filter_append, filter_recognizes (.refl _)]
    split <;> simp [recognizes_inv]
  · rw [ofWord_eq_ofFields, all_eq]
    exact find?_recognizes (.refl _) w
  · rw [ofWord_eq_ofFields]
    exact find?_recognizes hos w

theorem decoding_unambiguous_reversed :
    all.dropLast.reverse.Perm all.dropLast ∧
      (all.dropLast.reverse ++ [inv]).find? (fun o => o.pattern.recognizes 0x42455513) =
        some srai := by
  have hos : all.dropLast.reverse.Perm all.dropLast := List.reverse_perm _
  obtain ⟨-, -, -, hfields, hfind⟩ := decoding_unambiguous hos 0x42455513
  have hsrai : ofFields 0x42455513 = srai := rfl
  exact ⟨hos, by rw [hfind, hfields, hsrai]⟩

end Opcode

end Hartwatch
