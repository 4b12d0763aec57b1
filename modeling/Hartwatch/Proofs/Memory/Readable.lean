import Hartwatch.Expr.Eval
import Hartwatch.Proofs.Memory.Range

/-! The words behind an address, up to the first one that cannot be read. A memory that is not
larger than half of the address space has one, and it is not far from the address. -/

namespace Hartwatch

/-- The address of the `i`-th word from `a` on; addresses wrap around. -/
def wordAddress (a : Word) (i : Nat) : Word :=
  a + BitVec.ofNat 32 (4 * i)

@[simp]
theorem wordAddress_zero (a : Word) : wordAddress a 0 = a := by
  simp [wordAddress]

theorem wordAddress_wordAddress (a : Word) (i k : Nat) :
    wordAddress (wordAddress a i) k = wordAddress a (i + k) := by
  rw [wordAddress, wordAddress, wordAddress, BitVec.add_assoc, ← BitVec.ofNat_add, Nat.mul_add]

theorem wordAddress_succ (a : Word) (i : Nat) :
    wordAddress (wordAddress a 1) i = wordAddress a (i + 1) := by
  rw [wordAddress_wordAddress, Nat.add_comm]

theorem toNat_wordAddress (a : Word) (i : Nat) :
    (wordAddress a i).toNat = (a.toNat + 4 * i) % 1 <<< 32 := by
  rw [wordAddress, BitVec.toNat_add, BitVec.toNat_ofNat, Nat.add_mod_mod]
  rfl

namespace Hart

variable {h : Hart} {a w : Word} {count : Nat} {ws us : List Word}

/-- The words from an address on, up to a number of them or to the first that cannot be read. -/
structure Readable (h : Hart) (a : Word) (count : Nat) (ws : List Word) : Prop where
  length_le : ws.length ≤ count
  read : ∀ i w, ws[i]? = some w → h.readWord? (wordAddress a i) = some w
  stop : ws.length < count → h.readWord? (wordAddress a ws.length) = none

theorem Readable.cons (hw : h.readWord? a = some w)
    (hws : h.Readable (wordAddress a 1) count ws) : h.Readable a (count + 1) (w :: ws) := by
  refine ⟨Nat.succ_le_succ hws.length_le, fun i v hv => ?_, fun hlt => ?_⟩
  · cases i with
    | zero =>
      obtain rfl := Option.some.inj hv
      rwa [wordAddress_zero]
    | succ i =>
      rw [← wordAddress_succ]
      exact hws.read i v hv
  · rw [List.length_cons, ← wordAddress_succ]
    exact hws.stop (Nat.lt_of_succ_lt_succ hlt)

theorem Readable.tail (h' : h.Readable a (count + 1) (w :: ws)) :
    h.Readable (wordAddress a 1) count ws := by
  refine ⟨Nat.le_of_succ_le_succ h'.length_le, fun i v hv => ?_, fun hlt => ?_⟩
  · rw [wordAddress_succ]
    exact h'.read (i + 1) v hv
  · rw [wordAddress_succ]
    exact h'.stop (Nat.succ_lt_succ hlt)

theorem Readable.readWord?_eq_some (hws : h.Readable a count (w :: ws)) :
    h.readWord? a = some w := by
  have hw := hws.read 0 w rfl
  rwa [wordAddress_zero] at hw

theorem Readable.readWord?_eq_none (hws : h.Readable a (count + 1) []) :
    h.readWord? a = none := by
  have hnone := hws.stop (Nat.succ_pos count)
  rwa [List.length_nil, wordAddress_zero] at hnone

theorem exists_readable (h : Hart) (a : Word) (count : Nat) : ∃ ws, h.Readable a count ws := by
  induction count generalizing a with
  | zero => exact ⟨[], Nat.le_refl _, fun i w hw => (nomatch hw), fun hlt => (nomatch hlt)⟩
  | succ count ih =>
    cases hw : h.readWord? a with
    | none =>
      refine ⟨[], Nat.zero_le _, fun i w hw => (nomatch hw), fun _ => ?_⟩
      rwa [List.length_nil, wordAddress_zero]
    | some w =>
      obtain ⟨ws, hws⟩ := ih (wordAddress a 1)
      exact ⟨w :: ws, hws.cons hw⟩

theorem Readable.unique (hws : h.Readable a count ws) (hus : h.Readable a count us) : ws = us := by
  have hnot : ∀ {ws us : List Word}, h.Readable a count ws → h.Readable a count us →
      ¬ ws.length < us.length := by
    intro ws us hws hus hlt
    have hread := hus.read ws.length _ (List.getElem?_eq_getElem hlt)
    cases hread.symm.trans (hws.stop (Nat.lt_of_lt_of_le hlt hus.length_le))
  have hlen : ws.length = us.length :=
    Nat.le_antisymm (Nat.not_lt.mp (hnot hus hws)) (Nat.not_lt.mp (hnot hws hus))
  refine List.ext_getElem hlen fun i hi hi' => Option.some.inj ?_
  rw [← hws.read i _ (List.getElem?_eq_getElem hi), hus.read i _ (List.getElem?_eq_getElem hi')]

theorem readWord?_of_not_inBounds (hout : h.ram.inBounds a 4 = false) : h.readWord? a = none := by
  have hload : h.ram.load a 4 = .ok (.error ⟨.loadAccessFault, a⟩) := Ram.load_of_not fun _ => hout
  rw [readWord?, Ram.loadWord, hload]
  rfl

/-- Half of the address space holds `2 ^ 29` words, so the one behind so many is out of memory;
where addresses wrap around on the way there, they come out below its base. -/
theorem exists_unreadable (hsize : h.ram.memory.capacity ≤ 1 <<< 31) (a : Word) :
    ∃ i, i ≤ 1 <<< 29 ∧ h.readWord? (wordAddress a i) = none := by
  have ha := a.isLt
  have hbase := h.ram.base.isLt
  by_cases hin : h.ram.inBounds a 4 = true
  · obtain ⟨hle, hend⟩ := Ram.inBounds_iff_range.mp hin
    refine ⟨(h.ram.base.toNat + h.ram.memory.capacity - a.toNat) / 4, by omega,
      readWord?_of_not_inBounds ?_⟩
    rw [← Bool.not_eq_true, Ram.inBounds_iff_range, toNat_wordAddress]
    simp only [Nat.reduceShiftLeft] at hsize ⊢
    omega
  · refine ⟨0, Nat.zero_le _, ?_⟩
    rw [wordAddress_zero]
    exact readWord?_of_not_inBounds (by simpa using hin)

theorem Readable.length_le_of_size (hws : h.Readable a count ws)
    (hsize : h.ram.memory.capacity ≤ 1 <<< 31) : ws.length ≤ 1 <<< 29 := by
  obtain ⟨i, hi, hnone⟩ := exists_unreadable hsize a
  refine Nat.not_lt.mp fun hlong => ?_
  have hlt : i < ws.length := Nat.lt_of_le_of_lt hi hlong
  cases (hws.read i _ (List.getElem?_eq_getElem hlt)).symm.trans hnone

end Hart

end Hartwatch
