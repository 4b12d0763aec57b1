import Hartwatch.Proofs.Machine.Frame
import Hartwatch.Proofs.Machine.Totality

/-! The instructions that multiply and divide, by the laws of the integers that their operands
stand for. Each one reads its operands before it fills its destination, so the laws hold whatever
registers its word names. -/

namespace Hartwatch

namespace Word

variable {a b : Word} {p : BitVec 64}

theorem halves_append (p : BitVec 64) : (p >>> 32).setWidth 32 ++ p.setWidth 32 = p := by
  apply BitVec.eq_of_getLsbD_eq
  intro i hi
  rw [BitVec.getLsbD_append]
  by_cases hlow : i < 32
  · simp [hlow]
  · have hindex : 32 + (i - 32) = i := by omega
    have hhigh : i - 32 < 32 := by omega
    simp [hlow, hhigh, hindex]

theorem setWidth_ofInt (n : Int) : (BitVec.ofInt 64 n).setWidth 32 = BitVec.ofInt 32 n := by
  apply BitVec.eq_of_toNat_eq
  rw [BitVec.toNat_setWidth, BitVec.toNat_ofInt, BitVec.toNat_ofInt]
  omega

theorem append_mul {n : Int} (h : BitVec.ofInt 32 n = a * b) :
    ((BitVec.ofInt 64 n >>> 32).setWidth 32 ++ a * b : BitVec 64) = .ofInt 64 n := by
  rw [← h, ← setWidth_ofInt, halves_append]

/-- The products of two words that are both read as signed, the first one as signed or none of
them, each by its own upper half and the lower half that they share. -/
structure Products (a b low highS highSU highU : Word) : Prop where
  signed : (highS ++ low : BitVec 64).toInt = a.toInt * b.toInt
  mixed : (highSU ++ low : BitVec 64).toInt = a.toInt * b.toNat
  unsigned : (highU ++ low : BitVec 64).toNat = a.toNat * b.toNat

structure DividesUnsigned (a b q r : Word) : Prop where
  exact : b ≠ 0 → a.toNat = q.toNat * b.toNat + r.toNat ∧ r.toNat < b.toNat
  byZero : b = 0 → q = .allOnes 32 ∧ r = a

/-- A quotient and a remainder of signed words. The quotient of the least number by minus one is
too great for a word. -/
structure DividesSigned (a b q r : Word) : Prop where
  wraps : b ≠ 0 → a = q * b + r
  exact : b ≠ 0 → ¬ (a = .intMin 32 ∧ b = -1) →
    a.toInt = q.toInt * b.toInt + r.toInt ∧ r.toInt.natAbs < b.toInt.natAbs ∧
      (r.toInt = 0 ∨ r.toInt.sign = a.toInt.sign)
  overflow : a = .intMin 32 → b = -1 → q = .intMin 32 ∧ r = 0
  byZero : b = 0 → q = .allOnes 32 ∧ r = a

end Word

namespace Checked

variable {p : BitVec 64}

theorem toInt_of_mulSigned {m n : Int} (h : mulSigned 64 m n = .ok p) : p.toInt = m * n := by
  by_cases hbounds : -(1 <<< 63 : Nat) ≤ m * n ∧ m * n < (1 <<< 63 : Nat)
  · obtain rfl := Except.ok.inj ((if_pos hbounds).symm.trans h)
    exact BitVec.toInt_ofInt_eq_self (by decide) hbounds.1 hbounds.2
  · cases (if_neg hbounds).symm.trans h

theorem toNat_of_mulUnsigned {m n : Nat} (h : mulUnsigned 64 m n = .ok p) : p.toNat = m * n := by
  by_cases hbound : m * n < 1 <<< 64
  · obtain rfl := Except.ok.inj ((if_pos hbound).symm.trans h)
    exact Nat.mod_eq_of_lt hbound
  · cases (if_neg hbound).symm.trans h

end Checked

namespace Effect

open Checked

variable {a b byZero : Word} {m n : Int} {p : BitVec 64}

theorem exists_high {product : Except Crash (BitVec 64)} (hproduct : product = .ok (.ofInt 64 n))
    (hlow : BitVec.ofInt 32 n = a * b) :
    ∃ high, ofHighHalf product = .ok (.write high) ∧ product = .ok (high ++ a * b) := by
  refine ⟨_, by rw [hproduct]; rfl, ?_⟩
  rw [Word.append_mul hlow]
  exact hproduct

theorem exists_high_signed (hm : m.natAbs ≤ 1 <<< 31) (hn : n.natAbs < 1 <<< 32)
    (hlow : BitVec.ofInt 32 (m * n) = a * b) :
    ∃ high, ofHighHalf (mulSigned 64 m n) = .ok (.write high) ∧
      (high ++ a * b : BitVec 64).toInt = m * n := by
  obtain ⟨high, hhigh, hproduct⟩ := exists_high (mulSigned_of_words hm hn) hlow
  exact ⟨high, hhigh, toInt_of_mulSigned hproduct⟩

theorem exists_high_unsigned (a b : Word) :
    ∃ high, ofHighHalf (mulUnsigned 64 a.toNat b.toNat) = .ok (.write high) ∧
      (high ++ a * b : BitVec 64).toNat = a.toNat * b.toNat := by
  have hproduct : mulUnsigned 64 a.toNat b.toNat =
      .ok (.ofInt 64 ((a.toNat * b.toNat : Nat) : Int)) := by
    rw [mulUnsigned_of_words a.isLt b.isLt, BitVec.ofInt_natCast]
  have hlow : BitVec.ofInt 32 ((a.toNat * b.toNat : Nat) : Int) = a * b := by
    rw [BitVec.ofInt_natCast, BitVec.ofNat_mul, BitVec.ofNat_toNat, BitVec.ofNat_toNat]
    simp only [BitVec.setWidth_eq]
  obtain ⟨high, hhigh, hwhole⟩ := exists_high hproduct hlow
  exact ⟨high, hhigh, toNat_of_mulUnsigned hwhole⟩

theorem ofDivision_eq {divide : Word → Word → Except Crash Word} {v : Word}
    (h : b ≠ 0 → divide a b = .ok v) :
    ofDivision divide byZero a b = .ok (.write (if b = 0 then byZero else v)) := by
  unfold ofDivision
  split
  · rfl
  · next hb =>
    rw [h hb]
    rfl

end Effect

namespace Word

variable {a b : Word}

theorem toInt_ne_zero (hb : b ≠ 0) : b.toInt ≠ 0 := by
  intro hzero
  exact hb (BitVec.eq_of_toInt_eq hzero)

theorem dividesUnsigned (a b : Word) :
    DividesUnsigned a b (if b = 0 then .allOnes 32 else a.udiv b)
      (if b = 0 then a else a.umod b) := by
  constructor
  · intro hb
    have hpos : 0 < b.toNat := by
      have hne : b.toNat ≠ 0 := fun hzero => hb (BitVec.eq_of_toNat_eq hzero)
      omega
    rw [if_neg hb, if_neg hb]
    change a.toNat = (a / b).toNat * b.toNat + (a % b).toNat ∧ (a % b).toNat < b.toNat
    rw [BitVec.toNat_udiv, BitVec.toNat_umod]
    exact ⟨(Nat.div_add_mod' _ _).symm, Nat.mod_lt _ hpos⟩
  · intro hb
    exact ⟨if_pos hb, if_pos hb⟩

theorem sdiv_mul_add_srem (a b : Word) : a.sdiv b * b + a.srem b = a := by
  -- The quotient wraps for the least number by minus one, so the law is that of the integers
  -- only once both sides are cut to a word.
  have hquotient : a.sdiv b = .ofInt 32 (a.toInt.tdiv b.toInt) := by
    apply BitVec.eq_of_toInt_eq
    rw [BitVec.toInt_sdiv, BitVec.toInt_ofInt]
  have hremainder : a.srem b = .ofInt 32 (a.toInt.tmod b.toInt) := by
    rw [← BitVec.toInt_srem, BitVec.ofInt_toInt]
  calc a.sdiv b * b + a.srem b
      = .ofInt 32 (a.toInt.tdiv b.toInt) * .ofInt 32 b.toInt +
          .ofInt 32 (a.toInt.tmod b.toInt) := by
        rw [hquotient, hremainder, BitVec.ofInt_toInt]
    _ = .ofInt 32 (a.toInt.tdiv b.toInt * b.toInt + a.toInt.tmod b.toInt) := by
        rw [BitVec.ofInt_add, BitVec.ofInt_mul]
    _ = a := by rw [Int.tdiv_mul_add_tmod, BitVec.ofInt_toInt]

theorem sign_srem (a b : Word) : (a.srem b).toInt = 0 ∨ (a.srem b).toInt.sign = a.toInt.sign := by
  rw [BitVec.toInt_srem]
  by_cases hdvd : b.toInt ∣ a.toInt
  · exact .inl (Int.tmod_eq_zero_of_dvd hdvd)
  · right
    rw [Int.sign_tmod, if_neg hdvd]

theorem dividesSigned (a b : Word) :
    DividesSigned a b (if b = 0 then .allOnes 32 else a.sdiv b)
      (if b = 0 then a else a.srem b) := by
  constructor
  · intro hb
    rw [if_neg hb, if_neg hb, sdiv_mul_add_srem]
  · intro hb hfits
    have hquotient : (a.sdiv b).toInt = a.toInt.tdiv b.toInt := by
      refine BitVec.toInt_sdiv_of_ne_or_ne a b ?_
      by_cases hleast : a = .intMin 32
      · exact .inr fun hone => hfits ⟨hleast, hone⟩
      · exact .inl hleast
    have hless : (a.srem b).toInt.natAbs < b.toInt.natAbs := by
      rw [BitVec.toInt_srem, Int.natAbs_tmod]
      exact Nat.mod_lt _ (Int.natAbs_pos.mpr (toInt_ne_zero hb))
    rw [if_neg hb, if_neg hb]
    refine ⟨?_, hless, sign_srem a b⟩
    rw [hquotient, BitVec.toInt_srem, Int.tdiv_mul_add_tmod]
  · rintro rfl rfl
    decide
  · intro hb
    exact ⟨if_pos hb, if_pos hb⟩

end Word

theorem Hart.exists_step_of_write {h : Hart} {word v : Word} (hword : h.word? = some word)
    (heffect : (Opcode.ofWord word).effect h.pc (h.operands word) = .ok (.write v))
    (hrd : Instruction.rd word ≠ .zero) :
    ∃ s h', h.step = .ok (.ok s, h') ∧ h'.read (Instruction.rd word) = v := by
  refine ⟨_, _, step_of_perform (fetch_of_word? hword) heffect rfl, ?_⟩
  have hkept := (h.write (h.operands word).rd v).read_write_zero 0 (Instruction.rd word)
  refine Eq.trans hkept ?_
  rw [operands_rd]
  exact read_write_self v hrd

namespace Opcode

variable {o : Opcode} {a b v : Word}

/-- An instruction whose sources hold two words puts a value in its destination, whatever registers
they are. -/
def Yields (o : Opcode) (a b v : Word) : Prop :=
  ∀ (h : Hart) (word : Word), h.word? = some word → ofWord word = o →
    Instruction.rd word ≠ .zero → h.read (Instruction.rs1 word) = a →
    h.read (Instruction.rs2 word) = b →
    ∃ s h', h.step = .ok (.ok s, h') ∧ h'.read (Instruction.rd word) = v

theorem yields_of_effect (hformat : o.format = .R)
    (heffect : ∀ pc rd, o.effect pc ⟨rd, a, b, 0⟩ = .ok (.write v)) : o.Yields a b v := by
  rintro h word hword rfl hrd rfl rfl
  have hoperands : h.operands word = ⟨Instruction.rd word, h.read (Instruction.rs1 word),
      h.read (Instruction.rs2 word), 0⟩ := by
    rw [Hart.operands, hformat]
    rfl
  have hwrite : (ofWord word).effect h.pc (h.operands word) = .ok (.write v) := by
    rw [hoperands]
    exact heffect _ _
  exact Hart.exists_step_of_write hword hwrite hrd

theorem multiplications_yield (a b : Word) :
    ∃ low highS highSU highU, mul.Yields a b low ∧ mulh.Yields a b highS ∧
      mulhsu.Yields a b highSU ∧ mulhu.Yields a b highU ∧
      Word.Products a b low highS highSU highU := by
  -- The lower half does not depend on how the operands are read.
  have hlow : BitVec.ofInt 32 (a.toInt * b.toInt) = a * b := by
    rw [BitVec.ofInt_mul, BitVec.ofInt_toInt, BitVec.ofInt_toInt]
  have hlow' : BitVec.ofInt 32 (a.toInt * b.toNat) = a * b := by
    rw [BitVec.ofInt_mul, BitVec.ofInt_toInt, BitVec.ofInt_natCast, BitVec.ofNat_toNat]
    simp only [BitVec.setWidth_eq]
  obtain ⟨highS, hS, signed⟩ := Effect.exists_high_signed (Checked.natAbs_toInt_le a)
    (Nat.lt_of_le_of_lt (Checked.natAbs_toInt_le b) (by decide)) hlow
  obtain ⟨highSU, hSU, mixed⟩ := Effect.exists_high_signed (Checked.natAbs_toInt_le a)
    (n := (b.toNat : Int)) b.isLt hlow'
  obtain ⟨highU, hU, unsigned⟩ := Effect.exists_high_unsigned a b
  exact ⟨a * b, highS, highSU, highU, yields_of_effect rfl fun _ _ => rfl,
    yields_of_effect rfl fun _ _ => hS, yields_of_effect rfl fun _ _ => hSU,
    yields_of_effect rfl fun _ _ => hU, signed, mixed, unsigned⟩

theorem yields_of_division {divide : Word → Word → Except Crash Word} {byZero : Word}
    (hformat : o.format = .R)
    (heffect : ∀ pc rd, o.effect pc ⟨rd, a, b, 0⟩ = Effect.ofDivision divide byZero a b)
    (hdivide : b ≠ 0 → divide a b = .ok v) : o.Yields a b (if b = 0 then byZero else v) := by
  refine yields_of_effect hformat fun pc rd => ?_
  rw [heffect]
  exact Effect.ofDivision_eq hdivide

theorem divisions_yield (a b : Word) :
    (∃ q r, div.Yields a b q ∧ rem.Yields a b r ∧ Word.DividesSigned a b q r) ∧
      ∃ q r, divu.Yields a b q ∧ remu.Yields a b r ∧ Word.DividesUnsigned a b q r := by
  have hdiv : div.Yields a b (if b = 0 then .allOnes 32 else a.sdiv b) :=
    yields_of_division rfl (fun _ _ => rfl) fun hb => if_neg hb
  have hrem : rem.Yields a b (if b = 0 then a else a.srem b) :=
    yields_of_division rfl (fun _ _ => rfl) fun hb => if_neg hb
  have hdivu : divu.Yields a b (if b = 0 then .allOnes 32 else a.udiv b) :=
    yields_of_division rfl (fun _ _ => rfl) fun hb => if_neg hb
  have hremu : remu.Yields a b (if b = 0 then a else a.umod b) :=
    yields_of_division rfl (fun _ _ => rfl) fun hb => if_neg hb
  exact ⟨⟨_, _, hdiv, hrem, Word.dividesSigned a b⟩, _, _, hdivu, hremu, Word.dividesUnsigned a b⟩

/-- The instructions of the extension for multiplication and division leave what the integer laws
say of two words, whatever the words are. -/
theorem multiply_divide_laws (a b : Word) :
    (∃ low highS highSU highU, mul.Yields a b low ∧ mulh.Yields a b highS ∧
      mulhsu.Yields a b highSU ∧ mulhu.Yields a b highU ∧
      Word.Products a b low highS highSU highU) ∧
    (∃ q r, div.Yields a b q ∧ rem.Yields a b r ∧ Word.DividesSigned a b q r) ∧
    (∃ q r, divu.Yields a b q ∧ remu.Yields a b r ∧ Word.DividesUnsigned a b q r) :=
  ⟨multiplications_yield a b, divisions_yield a b⟩

/-- The least number, by the greatest one that is read as unsigned, goes into the register that it
comes from. -/
theorem multiply_divide_laws_mulhsu :
    ∃ (h : Hart) (s : Step) (h' : Hart) (low : Word),
      Hart.holding [0x0262a2b3] [(5, 0x80000000), (6, 0xffffffff)] = .ok h ∧
      h.step = .ok (.ok s, h') ∧
      (h'.read 5 ++ low : BitVec 64).toInt = -0x80000000 * 0xffffffff := by
  have hcalls : (do
      let h ← Hart.holding [0x0262a2b3] [(5, 0x80000000), (6, 0xffffffff)]
      return (h.word?, h.read 5, h.read 6) : Except Crash _).toOption =
      some (some 0x0262a2b3, 0x80000000, 0xffffffff) := by
    decide +kernel
  obtain ⟨h, hcreate, hcalls⟩ := bind_eq_ok (eq_ok_of_toOption hcalls)
  simp only [Prod.mk.injEq, Except.ok.injEq, pure, Except.pure] at hcalls
  obtain ⟨hword, hfirst, hsecond⟩ := hcalls
  obtain ⟨⟨low, highS, highSU, highU, -, -, hmixed, -, hproducts⟩, -⟩ :=
    multiply_divide_laws 0x80000000 0xffffffff
  obtain ⟨s, h', hstep, hread⟩ :=
    hmixed h 0x0262a2b3 hword (by decide +kernel) (by decide) hfirst hsecond
  have hproduct := hproducts.mixed
  rw [← hread] at hproduct
  exact ⟨h, s, h', low, hcreate, hstep, hproduct⟩

end Opcode

end Hartwatch
