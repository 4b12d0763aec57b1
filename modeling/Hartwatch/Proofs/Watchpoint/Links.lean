import Hartwatch.Watchpoint
import Mathlib.Data.Fintype.Card
import Mathlib.Data.List.FinRange

/-! The two lists of a pool. In every pool that the operations make, the links of the active and
of the free slots run through each slot once, and no operation moves what an active slot holds. -/

namespace Hartwatch

open Watchpoint

theorem get_set (slots : Vector Watchpoint 32) (h i : Handle) (w : Watchpoint) :
    (slots.set h w h.isLt).get i = if i = h then w else slots.get i := by
  by_cases he : i = h
  · subst he
    rw [if_pos rfl]
    exact Vector.getElem_set_self i.isLt
  · have hne : h.val ≠ i.val := fun hv => he (Fin.ext hv.symm)
    rw [if_neg he]
    exact Vector.getElem_set_ne h.isLt i.isLt hne

/-- The links lead from a handle through exactly these slots and end behind them. -/
def Chain (slots : Vector Watchpoint 32) : Option Handle → List Handle → Prop
  | start, [] => start = none
  | start, h :: hs => start = some h ∧ Chain slots (slots.get h).next hs

namespace Chain

variable {slots slots' : Vector Watchpoint 32} {start : Option Handle} {hs front back : List Handle}
variable {h : Handle}

instance decide : (start : Option Handle) → (hs : List Handle) → Decidable (Chain slots start hs)
  | start, [] => inferInstanceAs (Decidable (start = none))
  | start, h :: hs =>
    have := decide (slots.get h).next hs
    inferInstanceAs (Decidable (start = some h ∧ Chain slots (slots.get h).next hs))

theorem frame (hc : Chain slots start hs)
    (he : ∀ i ∈ hs, (slots'.get i).next = (slots.get i).next) : Chain slots' start hs := by
  induction hs generalizing start with
  | nil => exact hc
  | cons i hs ih =>
    refine ⟨hc.1, ?_⟩
    rw [he i (by simp)]
    exact ih hc.2 fun j hj => he j (by simp [hj])

/-- A slot is taken out by changing the link to it, which is in the last slot before it or else
starts the chain. -/
theorem unlink {start' : Option Handle} (hc : Chain slots start (front ++ h :: back))
    (hnodup : front.Nodup) (hstart : start' = front.getLast?.elim (slots.get h).next fun _ => start)
    (hlast : ∀ i, front.getLast? = some i → (slots'.get i).next = (slots.get h).next)
    (hkeep : ∀ i ∈ front, front.getLast? ≠ some i → (slots'.get i).next = (slots.get i).next)
    (hback : ∀ i ∈ back, (slots'.get i).next = (slots.get i).next) :
    Chain slots' start' (front ++ back) := by
  induction front generalizing start start' with
  | nil =>
    rw [hstart]
    exact hc.2.frame hback
  | cons i front ih =>
    have hni := List.nodup_cons.mp hnodup
    refine ⟨by simpa [List.getLast?_cons] using hstart.trans hc.1, ?_⟩
    cases hl : front.getLast? with
    | none =>
      obtain rfl := List.getLast?_eq_none_iff.mp hl
      exact ih hc.2 hni.2 (hlast i rfl) (by simp) (by simp)
    | some b =>
      have hb : b ∈ front := List.mem_of_getLast? hl
      have hlast' : (i :: front).getLast? = some b := by simp [List.getLast?_cons, hl]
      have hi : (slots'.get i).next = (slots.get i).next := by
        refine hkeep i (by simp) fun he => hni.1 ?_
        rw [hlast'] at he
        exact Option.some.inj he ▸ hb
      refine ih hc.2 hni.2 (by rw [hl]; exact hi) (fun j hj => hlast j ?_) fun j hj hne =>
        hkeep j (by simp [hj]) ?_
      · rw [hlast', ← hl, hj]
      · rwa [hlast', ← hl]

theorem next_getLast (hc : Chain slots start (front ++ h :: back)) :
    front.getLast?.elim start (fun i => (slots.get i).next) = some h := by
  induction front generalizing start with
  | nil => exact hc.1
  | cons i front ih =>
    have hnext := ih hc.2
    cases front with
    | nil => simpa using hnext
    | cons j front =>
      rw [List.getLast?_cons_cons]
      obtain ⟨l, hlast⟩ : ∃ l, (j :: front).getLast? = some l := by
        simp [← Option.isSome_iff_exists]
      simpa [hlast] using hnext

end Chain

namespace WatchpointPool

variable {p p' : WatchpointPool} {h : Handle} {as fs hs front back : List Handle} {n : Nat}

theorem follow_chain {start : Option Handle} (hc : Chain p.slots start hs)
    (hn : hs.length ≤ n) : p.follow n start = hs := by
  induction hs generalizing start n with
  | nil =>
    obtain rfl : start = none := hc
    cases n <;> rfl
  | cons i hs ih =>
    obtain ⟨rfl, hc⟩ := hc
    obtain ⟨n, rfl⟩ : ∃ m, n = m + 1 := ⟨n - 1, by simp only [List.length_cons] at hn; omega⟩
    exact congrArg (i :: ·) (ih hc (by simpa using hn))

/-- Which slots lie on the two lists of a pool, and in which order. -/
structure Layout (p : WatchpointPool) (as fs : List Handle) : Prop where
  active : Chain p.slots p.head as
  free : Chain p.slots p.free fs
  nodup : (as ++ fs).Nodup
  complete : ∀ h, h ∈ as ++ fs
  number : ∀ h : Handle, (p.slots.get h).number = h
  cleared : ∀ h ∈ fs, (p.slots.get h).expr? = none ∧ (p.slots.get h).value = 0

def SameContent (p p' : WatchpointPool) (h : Handle) : Prop :=
  (p'.slots.get h).expr? = (p.slots.get h).expr? ∧ (p'.slots.get h).value = (p.slots.get h).value

theorem SameContent.expr (hs : p.SameContent p' h) :
    (p'.slots.get h).expr = (p.slots.get h).expr := by
  rw [Watchpoint.expr, Watchpoint.expr, hs.1]

structure SameLinks (p p' : WatchpointPool) : Prop where
  head : p'.head = p.head
  free : p'.free = p.free
  next : ∀ h : Handle, (p'.slots.get h).next = (p.slots.get h).next
  number : ∀ h : Handle, (p'.slots.get h).number = (p.slots.get h).number

theorem layout_empty : Layout empty [] (List.finRange 32) where
  active := rfl
  free := by decide +kernel
  nodup := List.nodup_finRange 32
  complete := List.mem_finRange
  number := by decide +kernel
  cleared := by decide +kernel

namespace Layout

theorem active_eq (hl : p.Layout as fs) : p.active = as := by
  have hlen := hl.nodup.length_le_card
  simp only [List.length_append, Fintype.card_fin] at hlen
  exact follow_chain hl.active (show as.length ≤ 32 by omega)

theorem of_sameLinks (hl : p.Layout as fs) (hs : p.SameLinks p')
    (hc : ∀ h ∈ fs, p.SameContent p' h) : p'.Layout as fs where
  active := hs.head ▸ hl.active.frame fun i _ => hs.next i
  free := hs.free ▸ hl.free.frame fun i _ => hs.next i
  nodup := hl.nodup
  complete := hl.complete
  number := fun i => (hs.number i).trans (hl.number i)
  cleared := fun i hi =>
    ⟨(hc i hi).1.trans (hl.cleared i hi).1, (hc i hi).2.trans (hl.cleared i hi).2⟩

theorem active_nodup (hl : p.Layout as fs) : as.Nodup :=
  (List.nodup_append.mp hl.nodup).1

theorem nodup_active (hl : p.Layout as fs) : p.active.Nodup :=
  hl.active_eq ▸ hl.active_nodup

/-- Taking a free slot puts it in front of the active ones, and an empty free list is the only
reason not to. -/
theorem allocate_cons (hl : p.Layout as (h :: fs)) :
    ∃ p', p.allocate = .ok (h, p') ∧ p'.Layout (h :: as) fs ∧ ∀ i, p.SameContent p' i := by
  obtain ⟨hfree, hrest⟩ := hl.free
  have hnodup := List.nodup_append.mp hl.nodup
  have hset : ∀ i, (p.slots.set h { p.slots.get h with next := p.head }).get i =
      if i = h then { p.slots.get h with next := p.head } else p.slots.get i :=
    fun i => get_set p.slots h i _
  have hkeep : ∀ i, i ≠ h →
      ((p.slots.set h { p.slots.get h with next := p.head }).get i).next =
        (p.slots.get i).next := by
    intro i hi
    rw [hset, if_neg hi]
  have hh : h ∉ as := fun hm => hnodup.2.2 h hm h (by simp) rfl
  refine ⟨_, by rw [allocate, hfree], ⟨⟨rfl, ?_⟩, ?_, ?_, ?_, ?_, ?_⟩, ?_⟩
  · rw [hset, if_pos rfl]
    exact hl.active.frame fun i hi => hkeep i fun he => hh (he ▸ hi)
  · exact hrest.frame fun i hi => hkeep i fun he => (List.nodup_cons.mp hnodup.2.1).1 (he ▸ hi)
  · exact List.nodup_middle.mp hl.nodup
  · exact fun i => List.perm_middle.mem_iff.mp (hl.complete i)
  · intro i
    rw [hset]
    split
    · next hi => rw [hi]; exact hl.number h
    · exact hl.number i
  · intro i hi
    rw [hset, if_neg fun he : i = h => (List.nodup_cons.mp hnodup.2.1).1 (he ▸ hi)]
    exact hl.cleared i (by simp [hi])
  · intro i
    simp only [SameContent, hset]
    split
    · next hi => rw [hi]; exact ⟨rfl, rfl⟩
    · exact ⟨rfl, rfl⟩

theorem allocate_nil (hl : p.Layout as []) : p.allocate = .error .exhausted := by
  rw [allocate, show p.free = none from hl.free]

theorem watch_cons {ctx : Expr.Context} {expr : String} {v : Word} (hl : p.Layout as (h :: fs))
    (hv : Expr.evaluate ctx expr = .ok v) :
    ∃ p', p.watch ctx expr = .ok (h, p') ∧ p'.Layout (h :: as) fs ∧
      (p'.slots.get h).expr? = some expr ∧ (p'.slots.get h).value = v ∧
      ∀ i, i ≠ h → p.SameContent p' i := by
  obtain ⟨q, hq, hlq, hsame⟩ := hl.allocate_cons
  have hset := get_set q.slots h
  have hfresh : h ∉ fs := by
    have hnodup := (List.nodup_append.mp hl.nodup).2.1
    exact (List.nodup_cons.mp hnodup).1
  refine ⟨{ q with slots := q.slots.set h { q.slots.get h with expr? := some expr, value := v } },
    ?_, hlq.of_sameLinks ⟨rfl, rfl, ?_, ?_⟩ ?_, ?_, ?_, ?_⟩
  · rw [watch, hv]
    simp [hq, bind, Except.bind, pure, Except.pure]
  · intro i
    rw [hset]
    split <;> simp_all
  · intro i
    rw [hset]
    split <;> simp_all
  · intro i hi
    have hne : i ≠ h := fun he => hfresh (he ▸ hi)
    simp [SameContent, hset, hne]
  · rw [hset, if_pos rfl]
  · rw [hset, if_pos rfl]
  · intro i hi
    simpa [SameContent, hset, hi] using hsame i

theorem watch_eq_ok {ctx : Expr.Context} {expr : String} (hl : p.Layout as fs)
    (hw : p.watch ctx expr = .ok (h, p')) :
    ∃ v fs', Expr.evaluate ctx expr = .ok v ∧ fs = h :: fs' ∧ p'.Layout (h :: as) fs' ∧
      (p'.slots.get h).expr? = some expr ∧ (p'.slots.get h).value = v ∧
      ∀ i, i ≠ h → p.SameContent p' i := by
  cases hv : Expr.evaluate ctx expr with
  | error e => simp [watch, hv] at hw
  | ok v =>
    cases fs with
    | nil => simp [watch, hv, hl.allocate_nil, bind, Except.bind] at hw
    | cons f fs =>
      obtain ⟨q, hq, hlq, hexpr, hvalue, hsame⟩ := hl.watch_cons hv
      obtain ⟨rfl, rfl⟩ := Prod.mk.inj (Except.ok.inj (hq.symm.trans hw))
      exact ⟨v, fs, rfl, rfl, hlq, hexpr, hvalue, hsame⟩

end Layout

theorem get_setLinkBehind (before next : Option Handle) (i : Handle) :
    (p.setLinkBehind before next).slots.get i =
      if before = some i then { p.slots.get i with next } else p.slots.get i := by
  cases before with
  | none => simp [setLinkBehind]
  | some b =>
    rw [setLinkBehind, get_set]
    by_cases hi : i = b
    · simp [hi]
    · simp [hi, Ne.symm hi]

theorem release_eq_ok {before : Option Handle} (hlink : p.linkBehind before = some h) :
    ∃ p', p.release h before = .ok p' ∧ p'.free = some h ∧
      p'.head = before.elim (p.slots.get h).next (fun _ => p.head) ∧
      ∀ i : Handle, p'.slots.get i =
        if i = h then ⟨(p.slots.get h).number, none, 0, p.free⟩
        else if before = some i then { p.slots.get i with next := (p.slots.get h).next }
        else p.slots.get i := by
  have hnumber : ((p.setLinkBehind before (p.slots.get h).next).slots.get h).number =
      (p.slots.get h).number := by
    rw [get_setLinkBehind]
    split <;> rfl
  refine ⟨_, by rw [release, if_pos hlink], rfl, ?_, fun i => ?_⟩
  · cases before <;> rfl
  · rw [get_set, hnumber, get_setLinkBehind]
    cases before <;> rfl

theorem findIn_eq_some {number : Nat} {before before' : Option Handle}
    (hf : p.findIn number before hs = some (h, before')) :
    ∃ front back, hs = front ++ h :: back ∧ (p.slots.get h).number = number ∧
      before' = front.getLast?.or before := by
  induction hs generalizing before with
  | nil => simp [findIn] at hf
  | cons i hs ih =>
    rw [findIn] at hf
    split at hf
    · next hn =>
      obtain ⟨rfl, rfl⟩ := Prod.mk.inj (Option.some.inj hf)
      exact ⟨[], hs, rfl, hn, rfl⟩
    · obtain ⟨front, back, rfl, hn, hb⟩ := ih hf
      refine ⟨i :: front, back, rfl, hn, hb.trans ?_⟩
      cases front with
      | nil => rfl
      | cons j front => simp [List.getLast?_cons]

theorem findIn_eq_none {number : Nat} {before : Option Handle}
    (hf : p.findIn number before hs = none) : ∀ i ∈ hs, (p.slots.get i).number ≠ number := by
  induction hs generalizing before with
  | nil => simp
  | cons i hs ih =>
    rw [findIn] at hf
    split at hf
    · cases hf
    · next hn =>
      intro j hj
      rcases List.mem_cons.mp hj with rfl | hj
      · exact hn
      · exact ih hf j hj

namespace Layout

theorem release (hl : p.Layout (front ++ h :: back) fs) :
    ∃ p', p.release h front.getLast? = .ok p' ∧ p'.Layout (front ++ back) (h :: fs) ∧
      ∀ i, i ≠ h → p.SameContent p' i := by
  have hlink : p.linkBehind front.getLast? = some h := by
    rw [← hl.active.next_getLast]
    cases front.getLast? <;> rfl
  obtain ⟨p', hp', hfree, hhead, hget⟩ := release_eq_ok hlink
  have hnodup := List.nodup_append.mp hl.nodup
  have hmid := List.nodup_cons.mp (List.nodup_middle.mp hnodup.1)
  have hout : ∀ i ∈ front ++ back, i ≠ h := fun i hi he => hmid.1 (he ▸ hi)
  have hfs : ∀ i ∈ fs, i ≠ h := fun i hi he => hnodup.2.2 h (by simp) i hi he.symm
  -- A slot keeps its link unless it is the one taken out or the one before it.
  have hkeep : ∀ i, i ≠ h → front.getLast? ≠ some i →
      (p'.slots.get i).next = (p.slots.get i).next := by
    intro i hi hb
    rw [hget, if_neg hi, if_neg hb]
  have hlast : ∀ i, front.getLast? = some i → i ∈ front := fun i hi => List.mem_of_getLast? hi
  have hback : ∀ i ∈ back, (p'.slots.get i).next = (p.slots.get i).next := by
    intro i hi
    refine hkeep i (hout i (by simp [hi])) fun hb => ?_
    exact (List.nodup_append.mp hmid.2).2.2 i (hlast i hb) i hi rfl
  have hcontent : ∀ i, i ≠ h → p.SameContent p' i := by
    intro i hi
    rw [SameContent, hget, if_neg hi]
    split <;> exact ⟨rfl, rfl⟩
  have hperm : (front ++ back ++ h :: fs).Perm (front ++ h :: back ++ fs) := by
    rw [List.append_assoc, List.append_assoc, List.cons_append]
    exact (List.perm_middle.append_left front).trans (by simp)
  have hself : p'.slots.get h = ⟨(p.slots.get h).number, none, 0, p.free⟩ := by
    rw [hget, if_pos rfl]
  refine ⟨p', hp', ⟨?_, ⟨hfree, ?_⟩, ?_, ?_, ?_, ?_⟩, hcontent⟩
  · refine hl.active.unlink (List.nodup_append.mp hmid.2).1 hhead (fun i hi => ?_)
      (fun i hi => hkeep i (hout i (by simp [hi]))) hback
    rw [hget, if_neg (hout i (by simp [hlast i hi])), if_pos hi]
  · rw [hself]
    refine hl.free.frame fun i hi => hkeep i (hfs i hi) fun hb => ?_
    exact hnodup.2.2 i (by simp [hlast i hb]) i hi rfl
  · exact hperm.nodup_iff.mpr hl.nodup
  · exact fun i => hperm.mem_iff.mpr (hl.complete i)
  · intro i
    rw [hget]
    split
    · next hi => rw [hi]; exact hl.number h
    · split <;> exact hl.number i
  · intro i hi
    rcases List.mem_cons.mp hi with rfl | hi
    · rw [hself]
      exact ⟨rfl, rfl⟩
    · have hsame := hcontent i (hfs i hi)
      rw [hsame.1, hsame.2]
      exact hl.cleared i hi

theorem find?_eq_some {number : Nat} {found : Handle × Option Handle} (hl : p.Layout as fs)
    (hf : p.find? number = some found) :
    ∃ front back, as = front ++ found.1 :: back ∧ found.1.val = number ∧
      found.2 = front.getLast? := by
  obtain ⟨front, back, has, hn, hb⟩ := findIn_eq_some hf
  exact ⟨front, back, hl.active_eq.symm.trans has, (hl.number _).symm.trans hn, by simpa using hb⟩

theorem delete (hl : p.Layout as fs) (number : Nat) :
    (p.delete number = .ok (.error (.notFound number), p) ∧ ∀ h ∈ as, h.val ≠ number) ∨
    ∃ front h back p', as = front ++ h :: back ∧ h.val = number ∧
      p.delete number = .ok (.ok (), p') ∧ p'.Layout (front ++ back) (h :: fs) ∧
      ∀ i, i ≠ h → p.SameContent p' i := by
  cases hf : p.find? number with
  | none =>
    refine .inl ⟨by rw [WatchpointPool.delete, hf], fun i hi => ?_⟩
    rw [← hl.number i]
    exact findIn_eq_none hf i (hl.active_eq ▸ hi)
  | some found =>
    obtain ⟨h, before⟩ := found
    obtain ⟨front, back, rfl, hn, rfl⟩ := hl.find?_eq_some hf
    obtain ⟨p', hp', hl', hsame⟩ := hl.release
    refine .inr ⟨front, h, back, p', rfl, hn, ?_, hl', hsame⟩
    rw [WatchpointPool.delete, hf]
    simp [hp', bind, Except.bind, pure, Except.pure]

end Layout

end WatchpointPool

end Hartwatch
