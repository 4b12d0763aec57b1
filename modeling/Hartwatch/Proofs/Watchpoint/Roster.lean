import Hartwatch.Proofs.Watchpoint.Operations

/-! What a pool comes to for those who use it: a list of watchpoints, newest first, over a stack of
free numbers. -/

namespace Hartwatch

open Watchpoint

namespace Watchpoint

structure Entry where
  number : Nat
  expr : String
  value : Word
  deriving DecidableEq, Repr

end Watchpoint

def Watchpoint.entry (w : Watchpoint) : Entry :=
  ⟨w.number, w.expr, w.value⟩

namespace WatchpointPool

inductive Reply where
  | taken (result : Except Error Nat)
  | deleted (result : Except Error Unit)
  | found (place? : Option (Nat × Option Nat))
  | looked (changes : List Change) (error? : Option Error)

end WatchpointPool

open WatchpointPool

structure Roster where
  active : List Entry
  /-- The number to be taken next comes first. -/
  free : List Nat

namespace Roster

def initial : Roster :=
  ⟨[], List.range 32⟩

def numbers (r : Roster) : List Nat :=
  r.active.map Entry.number

def find? (r : Roster) (number : Nat) : Option (Nat × Option Nat) :=
  if number ∈ r.numbers then some (number, (r.numbers.takeWhile (· ≠ number)).getLast?) else none

def get? (r : Roster) (number : Nat) : Option Entry :=
  r.active.find? fun e => e.number = number

def take (r : Roster) (expr : String) (value : Word) : Except Error (Nat × Roster) :=
  match r.free with
  | [] => .error .exhausted
  | n :: free => .ok (n, ⟨⟨n, expr, value⟩ :: r.active, free⟩)

def watch (r : Roster) (ctx : Expr.Context) (expr : String) : Except Error (Nat × Roster) :=
  match Expr.evaluate ctx expr with
  | .error e => .error (.expression e)
  | .ok value => r.take expr value

def drop (r : Roster) (number : Nat) : Roster :=
  ⟨r.active.filter fun e => e.number ≠ number, number :: r.free⟩

/-- Looks at watchpoints in order, up to the first one without a value. -/
def look (ctx : Expr.Context) : List Entry → List Entry × List Change × Option Error
  | [] => ([], [], none)
  | e :: es =>
    match Expr.evaluate ctx e.expr with
    | .error x => (e :: es, [], some (.evaluation e.number x))
    | .ok value =>
      let (es, changes, error?) := look ctx es
      ({ e with value } :: es,
        if value = e.value then changes else ⟨e.number, e.expr, e.value, value⟩ :: changes, error?)

def answerTaking (r : Roster) : Except Error (Nat × Roster) → Reply × Roster
  | .error e => (.taken (.error e), r)
  | .ok (n, r) => (.taken (.ok n), r)

def perform (r : Roster) : Operation → Reply × Roster
  | .allocate => r.answerTaking (r.take "" 0)
  | .watch ctx expr => r.answerTaking (r.watch ctx expr)
  | .delete n =>
    if n ∈ r.numbers then (.deleted (.ok ()), r.drop n) else (.deleted (.error (.notFound n)), r)
  | .release n => (.found (r.find? n), if n ∈ r.numbers then r.drop n else r)
  | .detect ctx =>
    let (active, changes, error?) := look ctx r.active
    (.looked changes error?, { r with active })

def afterAll (r : Roster) : List Operation → Roster
  | [] => r
  | o :: os => (r.perform o).2.afterAll os

theorem watch_eq_ok {r r' : Roster} {ctx : Expr.Context} {expr : String} {n : Nat}
    (h : r.watch ctx expr = .ok (n, r')) :
    ∃ value free, Expr.evaluate ctx expr = .ok value ∧ r.free = n :: free ∧
      r' = ⟨⟨n, expr, value⟩ :: r.active, free⟩ := by
  rw [watch] at h
  cases hv : Expr.evaluate ctx expr with
  | error e =>
    rw [hv] at h
    cases h
  | ok value =>
    rw [hv] at h
    dsimp only at h
    rw [take] at h
    cases hfree : r.free with
    | nil =>
      rw [hfree] at h
      cases h
    | cons n' free =>
      rw [hfree] at h
      obtain ⟨rfl, rfl⟩ := Prod.mk.inj (Except.ok.inj h)
      exact ⟨value, free, rfl, rfl, rfl⟩

end Roster

namespace WatchpointPool

def entryAt (p : WatchpointPool) (h : Handle) : Entry :=
  (p.slots.get h).entry

def roster (p : WatchpointPool) : Roster :=
  ⟨p.watchpoints.map Watchpoint.entry, (p.follow capacity p.free).map Fin.val⟩

def place? (p : WatchpointPool) (number : Nat) : Option (Nat × Option Nat) :=
  (p.find? number).map fun (h, before) => (h.val, before.map Fin.val)

def reply (p : WatchpointPool) : Operation → Except Crash Reply
  | .allocate => .ok (.taken (p.allocate.map fun taken => taken.1.val))
  | .watch ctx expr => .ok (.taken ((p.watch ctx expr).map fun taken => taken.1.val))
  | .delete number => do return .deleted (← p.delete number).1
  | .release number => .ok (.found (p.place? number))
  | .detect ctx => .ok (.looked (p.detect ctx).changes (p.detect ctx).error?)

def shown (taken : Handle × WatchpointPool) : Nat × Roster :=
  (taken.1.val, taken.2.roster)

variable {p q : WatchpointPool} {h : Handle} {as fs hs front back : List Handle}

namespace Layout

theorem roster_eq (hl : p.Layout as fs) : p.roster = ⟨as.map p.entryAt, fs.map Fin.val⟩ := by
  have hlen := hl.nodup.length_le_card
  simp only [List.length_append, Fintype.card_fin] at hlen
  have hfree : p.follow capacity p.free = fs :=
    follow_chain hl.free (show fs.length ≤ 32 by omega)
  rw [roster, watchpoints, hl.active_eq, hfree, List.map_map]
  rfl

theorem numbers_eq (hl : p.Layout as fs) : p.roster.numbers = as.map Fin.val := by
  rw [hl.roster_eq, Roster.numbers, List.map_map]
  exact List.map_congr_left fun i _ => hl.number i

theorem entryAt_eq (hl : p.Layout as fs) {as' fs' : List Handle} (hl' : q.Layout as' fs')
    (hsame : p.SameContent q h) : q.entryAt h = p.entryAt h := by
  rw [entryAt, entryAt, Watchpoint.entry, Watchpoint.entry, hl.number, hl'.number, hsame.expr,
    hsame.2]

theorem map_entryAt_eq (hl : p.Layout as fs) {as' fs' : List Handle} (hl' : q.Layout as' fs')
    (hsame : ∀ i ∈ hs, p.SameContent q i) : hs.map q.entryAt = hs.map p.entryAt :=
  List.map_congr_left fun i hi => hl.entryAt_eq hl' (hsame i hi)

theorem find?_cases (hl : p.Layout as fs) (n : Nat) :
    p.find? n = none ∧ n ∉ p.roster.numbers ∨
      ∃ front h back, as = front ++ h :: back ∧ h.val = n ∧ p.find? n = some (h, front.getLast?) ∧
        n ∈ p.roster.numbers := by
  rw [hl.numbers_eq]
  cases hf : p.find? n with
  | none =>
    refine .inl ⟨rfl, fun hn => ?_⟩
    obtain ⟨i, hi, rfl⟩ := List.mem_map.mp hn
    exact findIn_eq_none hf i (hl.active_eq ▸ hi) (hl.number i)
  | some found =>
    obtain ⟨h, before⟩ := found
    obtain ⟨front, back, rfl, rfl, rfl⟩ := hl.find?_eq_some hf
    exact .inr ⟨front, h, back, rfl, rfl, rfl, List.mem_map_of_mem (by simp)⟩

theorem takeWhile_numbers (hl : p.Layout (front ++ h :: back) fs) :
    p.roster.numbers.takeWhile (· ≠ h.val) = front.map Fin.val := by
  have hfront : ∀ n ∈ front.map Fin.val, decide (n ≠ h.val) = true := by
    intro n hn
    obtain ⟨i, hi, rfl⟩ := List.mem_map.mp hn
    have hne : i ≠ h := fun he =>
      (List.nodup_append.mp hl.active_nodup).2.2 i hi h List.mem_cons_self he
    exact decide_eq_true fun hv => hne (Fin.ext hv)
  rw [hl.numbers_eq, List.map_append, List.map_cons, List.takeWhile_append_of_pos hfront,
    List.takeWhile_cons_of_neg (by simp), List.append_nil]

theorem place?_eq (hl : p.Layout as fs) (n : Nat) : p.place? n = p.roster.find? n := by
  rw [place?, Roster.find?]
  rcases hl.find?_cases n with ⟨hf, hn⟩ | ⟨front, h, back, rfl, rfl, hf, hn⟩
  · rw [hf, if_neg hn, Option.map_none]
  · rw [hf, if_pos hn, hl.takeWhile_numbers, List.getLast?_map, Option.map_some]

theorem get?_eq (hl : p.Layout as fs) (n : Nat) :
    (p.get? n).map Watchpoint.entry = p.roster.get? n := by
  have hnumber : ∀ i, (p.entryAt i).number = i.val := hl.number
  rw [WatchpointPool.get?, Roster.get?]
  rcases hl.find?_cases n with ⟨hf, hn⟩ | ⟨front, h, back, rfl, rfl, hf, -⟩
  · have hnone : ∀ e ∈ p.roster.active, ¬ decide (e.number = n) = true := fun e he hen =>
      hn (List.mem_map.mpr ⟨e, he, of_decide_eq_true hen⟩)
    rw [hf, List.find?_eq_none.mpr hnone]
    rfl
  · have hfront : ∀ e ∈ front.map p.entryAt, ¬ decide (e.number = h.val) = true := by
      intro e he hen
      obtain ⟨i, hi, rfl⟩ := List.mem_map.mp he
      have hih : i = h := Fin.ext ((hnumber i).symm.trans (of_decide_eq_true hen))
      exact (List.nodup_append.mp hl.active_nodup).2.2 i hi h List.mem_cons_self hih
    rw [hf, hl.roster_eq, List.map_append, List.find?_append, List.find?_eq_none.mpr hfront,
      List.map_cons, List.find?_cons_of_pos (by simp [hnumber])]
    rfl

end Layout

theorem roster_empty : empty.roster = Roster.initial := by
  rw [layout_empty.roster_eq, List.map_coe_finRange_eq_range]
  rfl

end WatchpointPool

end Hartwatch
