import Hartwatch.Instruction.Effect
import Hartwatch.Proofs.Instruction.Masks
import Mathlib.Algebra.Group.Int.Defs
import Mathlib.Algebra.Group.Nat.Defs
import Mathlib.Data.List.GetD

/-! Where a word keeps the bits of its immediate, format by format. Reading the bits at these
places in two's complement gives the immediate back that was put there, whatever the other bits
are. -/

namespace Hartwatch

namespace Instruction

/-- Places in a word, that of the most significant bit first. A bit without a place is zero. -/
abbrev Places := List (Option Nat)

def down (high low : Nat) : Places :=
  (List.range (high + 1 - low)).map fun i => some (high - i)

def bitAt (w : Word) (place? : Option Nat) : Bool :=
  place?.elim false w.getLsbD

/-- The bits that a word has at some places. -/
def gather (w : Word) : (places : Places) → BitVec places.length
  | [] => .nil
  | place? :: places => .cons (bitAt w place?) (gather w places)

def setBit (w : Word) (i : Nat) (b : Bool) : Word :=
  if b then w ||| .twoPow 32 i else w &&& ~~~.twoPow 32 i

def scatter (w : Word) : (places : Places) → BitVec places.length → Word
  | [], _ => w
  | none :: places, v => scatter w places (v.setWidth places.length)
  | some i :: places, v => setBit (scatter w places (v.setWidth places.length)) i v.msb

end Instruction

open Instruction

namespace Format

def places : Format → Places
  | I => down 31 20
  | U => down 31 12 ++ .replicate 12 none
  | S => down 31 25 ++ down 11 7
  | J => down 31 31 ++ down 19 12 ++ down 20 20 ++ down 30 21 ++ [none]
  | B => down 31 31 ++ down 7 7 ++ down 30 25 ++ down 11 8 ++ [none]
  | R | N => []

def hasSrc1 : Format → Bool
  | I | S | R | B => true
  | U | J | N => false

def hasSrc2 : Format → Bool
  | S | R | B => true
  | I | U | J | N => false

def operandPlaces (f : Format) : Places :=
  f.places ++ down 11 7 ++ (if f.hasSrc1 then down 19 15 else []) ++
    if f.hasSrc2 then down 24 20 else []

def immediate (f : Format) (w : Word) : Word :=
  match f with
  | I => immI w
  | U => immU w
  | S => immS w
  | J => immJ w
  | B => immB w
  | R | N => 0

def offset (f : Format) (w : Word) : Int :=
  (gather w f.places).toInt

/-- Puts a number in two's complement at the places of the immediate. -/
def encode (f : Format) (v : Int) (w : Word) : Word :=
  scatter w f.places (.ofInt f.places.length v)

end Format

namespace Instruction

variable {w w' : Word} {places places' : Places} {n m : Nat}

/-! ### Reading bits -/

theorem getMsbD_gather (w : Word) (places : Places) (i : Nat) :
    (gather w places).getMsbD i = bitAt w (places.getD i none) := by
  induction places generalizing i with
  | nil => rfl
  | cons place? places ih =>
    cases i with
    | zero => exact BitVec.getMsbD_cons_zero
    | succ i => exact BitVec.getMsbD_cons_succ.trans (ih i)

theorem gather_congr (h : ∀ i, some i ∈ places → w'.getLsbD i = w.getLsbD i) :
    gather w' places = gather w places := by
  induction places with
  | nil => rfl
  | cons place? places ih =>
    have hrest := ih fun i hi => h i (List.mem_cons_of_mem _ hi)
    have hfirst : bitAt w' place? = bitAt w place? := by
      cases place? with
      | none => rfl
      | some i => exact h i List.mem_cons_self
    rw [gather, gather, hrest, hfirst]

/-- A vector has the bits that a word has at some places. -/
structure Reads (w : Word) (x : BitVec n) (places : Places) : Prop where
  length : places.length = n
  bit : ∀ i < n, x.getMsbD i = bitAt w (places.getD i none)

theorem Reads.append {x : BitVec n} {y : BitVec m} (hx : Reads w x places)
    (hy : Reads w y places') : Reads w (x ++ y) (places ++ places') := by
  obtain ⟨rfl, hx⟩ := hx
  obtain ⟨rfl, hy⟩ := hy
  refine ⟨List.length_append, fun i hi => ?_⟩
  rw [BitVec.getMsbD_append]
  by_cases hin : places.length ≤ i
  · rw [if_pos hin, hy _ (by omega), List.getD_append_right _ _ _ _ hin]
  · rw [if_neg hin, hx i (by omega), List.getD_append _ _ _ _ (by omega)]

theorem reads_down (w : Word) (high low n : Nat) (hn : low + n = high + 1) :
    Reads w (w.extractLsb' low n) (down high low) := by
  have hlength : high + 1 - low = n := by omega
  refine ⟨by simp [down, hlength], fun i hi => ?_⟩
  have hplace : low + (n - 1 - i) = high - i := by omega
  have hat : (down high low).getD i none = some (high - i) := by
    simp [down, hlength, hi]
  rw [hat, BitVec.getMsbD_eq_getLsbD, BitVec.getLsbD_extractLsb', hplace]
  have hin : n - 1 - i < n := by omega
  simp [bitAt, hi, hin]

theorem reads_zero (w : Word) (n : Nat) : Reads w 0#n (.replicate n none) := by
  refine ⟨List.length_replicate, fun i hi => ?_⟩
  simp [bitAt, hi]

theorem Reads.eq_gather {x : BitVec places.length} (h : Reads w x places) :
    x = gather w places := by
  apply BitVec.eq_of_getMsbD_eq
  intro i hi
  rw [h.bit i hi, getMsbD_gather]

theorem Reads.toInt {x : BitVec n} (h : Reads w x places) : x.toInt = (gather w places).toInt := by
  obtain rfl := h.length
  rw [h.eq_gather]

theorem Reads.toNat {x : BitVec n} (h : Reads w x places) : x.toNat = (gather w places).toNat := by
  obtain rfl := h.length
  rw [h.eq_gather]

theorem reads_immediate (f : Format) (w : Word) :
    ∃ (n : Nat) (x : BitVec n), n ≤ 32 ∧ Reads w x f.places ∧ f.immediate w = x.signExtend 32 := by
  cases f with
  | I => exact ⟨12, _, by decide, reads_down w 31 20 12 rfl, immI_eq w⟩
  | U =>
    have hreads := (reads_down w 31 12 20 rfl).append (reads_zero w 12)
    exact ⟨32, _, by decide, hreads, (immU_eq w).trans (BitVec.signExtend_eq _).symm⟩
  | S =>
    have hreads := (reads_down w 31 25 7 rfl).append (reads_down w 11 7 5 rfl)
    exact ⟨12, _, by decide, hreads, immS_eq w⟩
  | J =>
    have hreads := ((((reads_down w 31 31 1 rfl).append (reads_down w 19 12 8 rfl)).append
      (reads_down w 20 20 1 rfl)).append (reads_down w 30 21 10 rfl)).append (reads_zero w 1)
    exact ⟨21, _, by decide, hreads, immJ_eq w⟩
  | B =>
    have hreads := ((((reads_down w 31 31 1 rfl).append (reads_down w 7 7 1 rfl)).append
      (reads_down w 30 25 6 rfl)).append (reads_down w 11 8 4 rfl)).append (reads_zero w 1)
    exact ⟨13, _, by decide, hreads, immB_eq w⟩
  | R | N => exact ⟨0, _, by decide, reads_zero w 0, rfl⟩

theorem toInt_immediate (f : Format) (w : Word) : (f.immediate w).toInt = f.offset w := by
  obtain ⟨n, x, hn, hreads, himm⟩ := reads_immediate f w
  rw [himm, BitVec.toInt_signExtend_of_le hn, hreads.toInt]
  rfl

/-! ### Writing bits -/

theorem getLsbD_setBit (w : Word) {i : Nat} (hi : i < 32) (b : Bool) (j : Nat) :
    (setBit w i b).getLsbD j = if j = i then b else w.getLsbD j := by
  unfold setBit
  by_cases hj : j < 32
  · by_cases hji : j = i
    · subst hji
      cases b <;> simp [hj]
    · cases b <;> simp [hj, hji]
  · have hji : j ≠ i := by omega
    cases b <;> simp [BitVec.getLsbD_of_ge _ j (Nat.le_of_not_lt hj), hji]

structure Distinct (places : Places) : Prop where
  pairwise : places.Pairwise fun p q => p = q → p = none
  lt : ∀ p ∈ places, p.getD 0 < 32

theorem Distinct.tail {place? : Option Nat} (h : Distinct (place? :: places)) : Distinct places :=
  ⟨(List.pairwise_cons.mp h.pairwise).2, fun p hp => h.lt p (List.mem_cons_of_mem _ hp)⟩

theorem Distinct.notMem {i : Nat} (h : Distinct (some i :: places)) : some i ∉ places :=
  fun hi => nomatch (List.pairwise_cons.mp h.pairwise).1 (some i) hi rfl

theorem getLsbD_scatter {i : Nat} (hplaces : Distinct places) (hi : some i ∉ places)
    (v : BitVec places.length) : (scatter w places v).getLsbD i = w.getLsbD i := by
  induction places with
  | nil => rfl
  | cons place? places ih =>
    have hrest := ih hplaces.tail (fun hmem => hi (List.mem_cons_of_mem _ hmem))
      (v.setWidth places.length)
    cases place? with
    | none => exact hrest
    | some j =>
      have hlt : j < 32 := hplaces.lt (some j) List.mem_cons_self
      have hne : i ≠ j := by
        rintro rfl
        exact hi List.mem_cons_self
      rw [scatter, getLsbD_setBit _ hlt, if_neg hne, hrest]

theorem gather_scatter (hplaces : Distinct places) (w : Word) (v : BitVec places.length)
    (hzero : ∀ i < places.length, places.getD i none = none → v.getMsbD i = false) :
    gather (scatter w places v) places = v := by
  induction places with
  | nil => exact BitVec.eq_of_zero_length rfl
  | cons place? places ih =>
    let low := v.setWidth places.length
    have hlow : gather (scatter w places low) places = low := by
      refine ih hplaces.tail low fun i hi hnone => ?_
      have hbit := hzero (i + 1) (Nat.succ_lt_succ hi) hnone
      rw [← BitVec.cons_msb_setWidth v, BitVec.getMsbD_cons_succ] at hbit
      exact hbit
    cases place? with
    | none =>
      have hmsb : v.msb = false := by
        rw [BitVec.msb_eq_getMsbD_zero]
        exact hzero 0 (Nat.zero_lt_succ _) rfl
      calc gather (scatter w (none :: places) v) (none :: places)
          = .cons false (gather (scatter w places low) places) := rfl
        _ = .cons v.msb low := by rw [hlow, hmsb]
        _ = v := BitVec.cons_msb_setWidth v
    | some i =>
      have hlt : i < 32 := hplaces.lt (some i) List.mem_cons_self
      let w' := scatter w places low
      have hfirst : (setBit w' i v.msb).getLsbD i = v.msb := by
        rw [getLsbD_setBit _ hlt, if_pos rfl]
      have hothers : gather (setBit w' i v.msb) places = gather w' places := by
        refine gather_congr fun j hj => ?_
        have hne : j ≠ i := fun he => hplaces.notMem (he ▸ hj)
        rw [getLsbD_setBit _ hlt, if_neg hne]
      calc gather (scatter w (some i :: places) v) (some i :: places)
          = .cons ((setBit w' i v.msb).getLsbD i) (gather (setBit w' i v.msb) places) := rfl
        _ = .cons v.msb low := by rw [hfirst, hothers, hlow]
        _ = v := BitVec.cons_msb_setWidth v

theorem distinct_places (f : Format) : Distinct f.places := by
  cases f <;> exact ⟨by decide, by decide⟩

theorem getMsbD_last_of_even {v : Int} (hv : 2 ∣ v) (n : Nat) :
    (BitVec.ofInt (n + 1) v).getMsbD n = false := by
  have hmodulus : (2 : Int) ∣ (2 ^ (n + 1) : Nat) := ⟨(2 ^ n : Nat), by omega⟩
  have heven : v % (2 ^ (n + 1) : Nat) % 2 = 0 := by
    rw [Int.emod_emod_of_dvd v hmodulus]
    exact Int.emod_eq_zero_of_dvd hv
  have hnat : (BitVec.ofInt (n + 1) v).toNat % 2 = 0 := by
    rw [BitVec.toNat_ofInt]
    omega
  have hplace : n + 1 - 1 - n = 0 := by omega
  rw [BitVec.getMsbD_eq_getLsbD, hplace, BitVec.getLsbD, Nat.testBit_zero, hnat]
  simp

/-- A number that fits at the places of an immediate is the one that is read there. A last bit
without a place keeps nothing of an odd number. -/
theorem toInt_immediate_encode {f : Format} {v : Int} (hlength : f.places.length = n + 1)
    (hleast : -2 ^ n ≤ v) (hmost : v < 2 ^ n)
    (hlast : ∀ i < n + 1, f.places.getD i none = none → i = n ∧ 2 ∣ v) (w : Word) :
    (f.immediate (f.encode v w)).toInt = v := by
  have hgather : gather (f.encode v w) f.places = .ofInt f.places.length v := by
    refine gather_scatter (distinct_places f) w _ fun i hi hnone => ?_
    obtain ⟨rfl, heven⟩ := hlast i (hlength ▸ hi) hnone
    rw [hlength]
    exact getMsbD_last_of_even heven i
  rw [toInt_immediate, Format.offset, hgather, hlength]
  exact BitVec.toInt_ofInt_eq_self n.succ_pos hleast hmost

theorem rd_val (w : Word) : (rd w).val = (gather w (down 11 7)).toNat :=
  (reads_down w 11 7 5 rfl).toNat

theorem rs1_val (w : Word) : (rs1 w).val = (gather w (down 19 15)).toNat :=
  (reads_down w 19 15 5 rfl).toNat

theorem rs2_val (w : Word) : (rs2 w).val = (gather w (down 24 20)).toNat :=
  (reads_down w 24 20 5 rfl).toNat

theorem operands_eq (f : Format) (w : Word) (read : Reg → Word) :
    f.operands w read = ⟨rd w, if f.hasSrc1 then read (rs1 w) else 0,
      if f.hasSrc2 then read (rs2 w) else 0, f.immediate w⟩ := by
  cases f <;> rfl

theorem operands_congr {f : Format} (h : ∀ i, some i ∈ f.operandPlaces → w'.getLsbD i = w.getLsbD i)
    (read : Reg → Word) : f.operands w' read = f.operands w read := by
  have hfield : ∀ places : Places, (∀ i, some i ∈ places → some i ∈ f.operandPlaces) →
      gather w' places = gather w places :=
    fun places hsub => gather_congr fun i hi => h i (hsub i hi)
  have hrd : rd w' = rd w := by
    apply Fin.ext
    rw [rd_val, rd_val, hfield _ fun i hi => by simp [Format.operandPlaces, hi]]
  have himm : f.immediate w' = f.immediate w := by
    apply BitVec.eq_of_toInt_eq
    rw [toInt_immediate, toInt_immediate, Format.offset, Format.offset,
      hfield _ fun i hi => by simp [Format.operandPlaces, hi]]
  have hrs1 : f.hasSrc1 = true → rs1 w' = rs1 w := by
    intro hsrc
    apply Fin.ext
    rw [rs1_val, rs1_val, hfield _ fun i hi => by simp [Format.operandPlaces, hsrc, hi]]
  have hrs2 : f.hasSrc2 = true → rs2 w' = rs2 w := by
    intro hsrc
    apply Fin.ext
    rw [rs2_val, rs2_val, hfield _ fun i hi => by simp [Format.operandPlaces, hsrc, hi]]
  rw [operands_eq, operands_eq, hrd, himm]
  congr 1
  · split
    · next hsrc => rw [hrs1 hsrc]
    · rfl
  · split
    · next hsrc => rw [hrs2 hsrc]
    · rfl

/-- The immediates of a word are the numbers that stand in two's complement at the places of their
formats, and a number put there is read back from it. Operands are the destination of a word, for
every format, and the sources and the immediate that its format has; they depend on no other bits
of the word, and what the format does not have is zero. -/
theorem decode_inverts_encode (w : Word) :
    ((immI w).toInt = (gather w (down 31 20)).toInt ∧
      (immS w).toInt = (gather w (down 31 25 ++ down 11 7)).toInt ∧
      (immB w).toInt =
        (gather w (down 31 31 ++ down 7 7 ++ down 30 25 ++ down 11 8 ++ [none])).toInt ∧
      (immJ w).toInt =
        (gather w (down 31 31 ++ down 19 12 ++ down 20 20 ++ down 30 21 ++ [none])).toInt ∧
      immU w = w &&& 0xfffff000 ∧
      (immU w).toInt = (gather w (down 31 12 ++ .replicate 12 none)).toInt) ∧
    (∀ v : Int, -2 ^ 11 ≤ v → v < 2 ^ 11 →
      (immI (Format.I.encode v w)).toInt = v ∧ (immS (Format.S.encode v w)).toInt = v) ∧
    (∀ v : Int, 2 ∣ v →
      (-2 ^ 12 ≤ v → v < 2 ^ 12 → (immB (Format.B.encode v w)).toInt = v) ∧
      (-2 ^ 20 ≤ v → v < 2 ^ 20 → (immJ (Format.J.encode v w)).toInt = v)) ∧
    (∀ (f : Format) (v : Int) (i : Nat), some i ∉ f.places →
      (f.encode v w).getLsbD i = w.getLsbD i) ∧
    ((rd w).val = (gather w (down 11 7)).toNat ∧ (rs1 w).val = (gather w (down 19 15)).toNat ∧
      (rs2 w).val = (gather w (down 24 20)).toNat) ∧
    ∀ (f : Format) (read : Reg → Word),
      f.operands w read = ⟨rd w, if f.hasSrc1 then read (rs1 w) else 0,
        if f.hasSrc2 then read (rs2 w) else 0, f.immediate w⟩ ∧
      ∀ w' : Word, (∀ i, some i ∈ f.operandPlaces → w'.getLsbD i = w.getLsbD i) →
        f.operands w' read = f.operands w read := by
  refine ⟨⟨toInt_immediate .I w, toInt_immediate .S w, toInt_immediate .B w, toInt_immediate .J w,
    rfl, toInt_immediate .U w⟩, fun v hleast hmost => ⟨?_, ?_⟩,
    fun v heven => ⟨fun hleast hmost => ?_, fun hleast hmost => ?_⟩,
    fun f v i hi => getLsbD_scatter (distinct_places f) hi _, ⟨rd_val w, rs1_val w, rs2_val w⟩, fun f read => ⟨operands_eq f w read, fun w' h =>
      operands_congr h read⟩⟩
  · have hfull : ∀ i < 12, Format.I.places.getD i none ≠ none := by decide
    exact toInt_immediate_encode (f := .I) rfl hleast hmost
      (fun i hi hnone => absurd hnone (hfull i hi)) w
  · have hfull : ∀ i < 12, Format.S.places.getD i none ≠ none := by decide
    exact toInt_immediate_encode (f := .S) rfl hleast hmost
      (fun i hi hnone => absurd hnone (hfull i hi)) w
  · have hlast : ∀ i < 13, Format.B.places.getD i none = none → i = 12 := by decide
    exact toInt_immediate_encode (f := .B) rfl hleast hmost
      (fun i hi hnone => ⟨hlast i hi hnone, heven⟩) w
  · have hlast : ∀ i < 21, Format.J.places.getD i none = none → i = 20 := by decide
    exact toInt_immediate_encode (f := .J) rfl hleast hmost
      (fun i hi hnone => ⟨hlast i hi hnone, heven⟩) w

/-- A branch by 16 bytes becomes one by 8 bytes back, and no other field of its word changes. -/
theorem decode_inverts_encode_branch :
    2 ∣ (-8 : Int) ∧ Format.B.encode (-8) 0x00b51863 = 0xfeb51ce3 ∧ (immB 0x00b51863).toInt = 16 ∧
      (immB 0xfeb51ce3).toInt = -8 ∧ Format.B.operands 0xfeb51ce3 (fun r => .ofNat 32 r.val) =
        ⟨25, 10, 11, .ofInt 32 (-8)⟩ := by
  have heven : 2 ∣ (-8 : Int) := by decide
  have hword : Format.B.encode (-8) 0x00b51863 = 0xfeb51ce3 := by decide +kernel
  obtain ⟨⟨-, -, himm, -⟩, -, hencode, -⟩ := decode_inverts_encode 0x00b51863
  have hdecode := (hencode (-8) heven).1 (by decide) (by decide)
  rw [hword] at hdecode
  obtain ⟨-, -, -, -, -, hoperands⟩ := decode_inverts_encode 0xfeb51ce3
  refine ⟨heven, hword, himm.trans (by decide +kernel), hdecode, ?_⟩
  rw [(hoperands .B _).1]
  decide +kernel

end Instruction

end Hartwatch
