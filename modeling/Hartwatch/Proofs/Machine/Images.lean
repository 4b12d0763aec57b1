import Hartwatch.Proofs.Machine.LoadsStores
import Hartwatch.Proofs.Machine.Totality

/-! What a loaded image leaves in memory. The reset vector may lie anywhere: the whole image is
copied byte by byte if its bytes are all in memory, and none of them otherwise. -/

namespace Hartwatch

theorem getElem?_bytesOfWords (ws : List Word) (i : Nat) {j : Nat} (hj : j < 4) :
    (bytesOfWords ws)[4 * i + j]? = ws[i]?.map fun w => w.extractLsb' (8 * j) 8 := by
  induction ws generalizing i with
  | nil => rfl
  | cons w ws ih =>
    have hcons : bytesOfWords (w :: ws) = w.bytes ++ bytesOfWords ws := List.flatMap_cons
    have hlen : w.bytes.length = 4 := rfl
    rw [hcons]
    cases i with
    | zero =>
      rw [List.getElem?_append_left (by omega)]
      have hcases : j = 0 ∨ j = 1 ∨ j = 2 ∨ j = 3 := by omega
      rcases hcases with rfl | rfl | rfl | rfl <;> rfl
    | succ i =>
      have hplace : 4 * (i + 1) + j - 4 = 4 * i + j := by omega
      rw [List.getElem?_append_right (by omega), hlen, hplace, ih]
      rfl

namespace Ram

variable {r r' : Ram} {a : Word}

theorem loadWord_of_bytes {w : Word} (hin : r.inBounds a 4 = true)
    (h : ∀ j < 4, r.byte? (a.toNat + j) = some (w.extractLsb' (8 * j) 8)) :
    r.loadWord a = .ok (.ok w) ∧ r.fetch a = .ok (.ok w) := by
  have hvalue : ∀ v : Word, r.memory.Holds (r.place a) 4 v → v = w := fun v hv =>
    Width.ext_bytes (w := .word) fun j hj =>
      Option.some.inj ((byte?_of_holds hin hv hj).symm.trans (h j hj))
  obtain ⟨v, hload, hv⟩ := load_of_inBounds .word hin
  obtain ⟨u, hfetch, hu⟩ := fetch_of_inBounds hin
  have hword : r.load a 4 = .ok (.ok (w.setWidth 64)) := hvalue v hv ▸ hload
  have hsame : (w.setWidth 64).setWidth 32 = w := by simp
  refine ⟨?_, hvalue u hu ▸ hfetch⟩
  rw [loadWord, hword]
  exact congrArg (fun u => Except.ok (Except.ok u)) hsame

theorem Copied.loadWord {ws : List Word} (h : r.Copied a (bytesOfWords ws) r')
    (hin : r.inBounds a (bytesOfWords ws).length = true) {i : Nat} {w : Word}
    (hw : ws[i]? = some w) (hwrap : a.toNat + 4 * i < 1 <<< 32) :
    r'.loadWord (a + BitVec.ofNat 32 (4 * i)) = .ok (.ok w) ∧
      r'.fetch (a + BitVec.ofNat 32 (4 * i)) = .ok (.ok w) := by
  have haddress : (a + BitVec.ofNat 32 (4 * i)).toNat = a.toNat + 4 * i := by
    rw [BitVec.toNat_add, BitVec.toNat_ofNat]
    omega
  have hi : i < ws.length := (List.getElem?_eq_some_iff.mp hw).1
  refine loadWord_of_bytes ?_ fun j hj => ?_
  · rw [inBounds_iff_range] at hin ⊢
    rw [length_bytesOfWords] at hin
    rw [h.base, h.capacity, haddress]
    omega
  · rw [haddress, Nat.add_assoc]
    refine h.inside _ _ ?_
    rw [getElem?_bytesOfWords ws i hj, hw]
    rfl

end Ram

namespace Machine

/-- All of an image is copied to the reset vector or none of it, whether it fits is all that
decides, and nothing but memory changes. The words of an image are read back where they are. -/
theorem load_image (m : Machine) :
    m.load [] = .ok (.ok 0, m) ∧
    ∀ image, image ≠ [] →
      ∃ result m', m.load image = .ok (result, m') ∧
        (result = .ok image.length ↔
          m.hart.ram.inBounds m.config.resetVector image.length = true) ∧
        (m.hart.ram.inBounds m.config.resetVector image.length = false →
          result = .error (.tooLarge image.length m.config.memorySize m.config.memoryBase) ∧
            m' = m) ∧
        (m.hart.ram.inBounds m.config.resetVector image.length = true →
          ∃ ram, m' = { m with hart := { m.hart with ram } } ∧
            m.hart.ram.Copied m.config.resetVector image ram ∧
            ∀ ws, image = bytesOfWords ws → ∀ i w, ws[i]? = some w →
              m.config.resetVector.toNat + 4 * i < 1 <<< 32 →
              ram.loadWord (m.config.resetVector + BitVec.ofNat 32 (4 * i)) = .ok (.ok w) ∧
                ram.fetch (m.config.resetVector + BitVec.ofNat 32 (4 * i)) = .ok (.ok w)) := by
  refine ⟨rfl, fun image hne => ?_⟩
  rcases m.load_cases image with ⟨hfits, ram, hload, hcopied⟩ | ⟨hnot, hload⟩
  · have hin := hfits.resolve_left hne
    refine ⟨_, _, hload, iff_of_true rfl hin, fun hout => ?_, fun _ => ⟨ram, rfl, hcopied, ?_⟩⟩
    · cases hin.symm.trans hout
    · rintro ws rfl i w hw hwrap
      exact hcopied.loadWord hin hw hwrap
  · have hout : ¬ m.hart.ram.inBounds m.config.resetVector image.length = true :=
      fun hin => hnot (.inr hin)
    exact ⟨_, _, hload, iff_of_false (fun h => nomatch h) hout, fun _ => ⟨rfl, rfl⟩,
      fun hin => absurd hin hout⟩

/-- A reset vector that is not aligned, with 63 bytes of memory behind it. -/
theorem load_image_unaligned :
    let ws : List Word := [0x00100073, 0xdeadbeef]
    let large : List Byte := List.replicate 64 0
    ∃ m, create ⟨0x80000000, 61, 0x80000001⟩ = .ok m ∧
      bytesOfWords ws ≠ [] ∧
      m.hart.ram.inBounds m.config.resetVector (bytesOfWords ws).length = true ∧
      ws[1]? = some 0xdeadbeef ∧ m.config.resetVector.toNat + 4 * 1 < 1 <<< 32 ∧
      (∃ m', m.load (bytesOfWords ws) = .ok (.ok 8, m') ∧ m'.hart.pc = 0x80000001 ∧
        m'.hart.ram.byte? 0x80000008 = some 0xde ∧ m'.hart.ram.byte? 0x80000009 = some 0 ∧
        m'.hart.ram.loadWord 0x80000005 = .ok (.ok 0xdeadbeef)) ∧
      large ≠ [] ∧ m.hart.ram.inBounds m.config.resetVector large.length = false ∧
      m.load large = .ok (.error (.tooLarge 64 61 0x80000000), m) := by
  intro ws large
  obtain ⟨m, hm⟩ : ∃ m, create ⟨0x80000000, 61, 0x80000001⟩ = .ok m := ⟨_, rfl⟩
  have hconfig : m.config = ⟨0x80000000, 61, 0x80000001⟩ ∧ m.hart.pc = 0x80000001 := by
    cases hm
    exact ⟨rfl, rfl⟩
  have hin : m.hart.ram.inBounds m.config.resetVector (bytesOfWords ws).length = true := by
    cases hm
    decide
  have hout : m.hart.ram.inBounds m.config.resetVector large.length = false := by
    cases hm
    decide
  have hbehind : m.hart.ram.byte? 0x80000009 = some 0 := by
    cases hm
    decide
  have hwrap : m.config.resetVector.toNat + 4 * 1 < 1 <<< 32 := by
    rw [hconfig.1]
    decide
  obtain ⟨result, m', hload, hresult, -, hloaded⟩ := m.load_image.2 (bytesOfWords ws) (by decide)
  obtain ⟨ram, rfl, hcopied, hwords⟩ := hloaded hin
  obtain ⟨result', m'', hlarge, -, hfails, -⟩ := m.load_image.2 large (by decide)
  obtain ⟨hsize, hsame⟩ := hfails hout
  rw [hsize, hsame, hconfig.1] at hlarge
  rw [hresult.mpr hin] at hload
  have hword := (hwords ws rfl 1 _ rfl hwrap).1
  have hlast := hcopied.inside 7 0xde rfl
  have hnext := hcopied.outside 0x80000009
  rw [hconfig.1] at hword hlast hnext
  exact ⟨m, hm, by decide, hin, rfl, hwrap,
    ⟨_, hload, hconfig.2, hlast, (hnext (.inr (by decide))).trans hbehind, hword⟩, by decide,
    hout, hlarge⟩

end Machine

end Hartwatch
