import Hartwatch.Proofs.Machine.Records
import Hartwatch.Proofs.Machine.Totality
import Hartwatch.Proofs.Machine.Transfers

/-! A program that starts at an even address stays at even addresses. The immediates of branches
and of `jal` are even and `jalr` clears the last bit of its target, so no instruction leads from an
even address to an odd one, and neither runs nor images have another way to move the pc. -/

namespace Hartwatch

def Word.Even (a : Word) : Prop :=
  2 ∣ a.toNat

namespace Word.Even

variable {a : Word}

theorem of_toNat {n : Nat} {a : Word} (h : a.toNat = n - n % 2) : a.Even := by
  rw [Word.Even, h]
  omega

theorem add_four (h : a.Even) : (a + 4).Even := by
  have hfour : (4 : Word).toNat = 4 := rfl
  rw [Word.Even, BitVec.toNat_add, hfour]
  rw [Word.Even] at h
  omega

end Word.Even

theorem two_dvd_toInt {n : Nat} {x : BitVec n} (hx : x.getLsbD 0 = false) : 2 ∣ x.toInt := by
  have hnat : x.toNat % 2 = 0 := by
    rw [BitVec.getLsbD, Nat.testBit_zero] at hx
    have hodd := of_decide_eq_false hx
    omega
  cases n with
  | zero =>
    rw [BitVec.eq_nil x]
    decide
  | succ n =>
    rw [BitVec.toInt_eq_toNat_cond, Nat.pow_succ]
    split <;> omega

namespace Format

open Instruction

theorem two_dvd_offset {f : Format} (hf : f.places.getLast? = some none) (w : Word) :
    2 ∣ f.offset w := by
  apply two_dvd_toInt
  have hlength : f.places.length - 1 < f.places.length := by
    cases hplaces : f.places with
    | nil =>
      rw [hplaces] at hf
      cases hf
    | cons place? places => exact Nat.lt_succ_self _
  have hlast : f.places.getD (f.places.length - 1) none = none := by
    rw [List.getLast?_eq_getElem?] at hf
    rw [List.getD_eq_getElem?_getD, hf, Option.getD_some]
  have hbit := getMsbD_gather w f.places (f.places.length - 1)
  rw [hlast, BitVec.getMsbD_eq_getLsbD, decide_eq_true hlength, Bool.true_and, Nat.sub_self] at hbit
  exact hbit

end Format

structure Step.Even (s : Step) : Prop where
  pc : s.pc.Even
  fallThrough : s.fallThrough.Even
  next : s.next.Even

def EvenRecords (calls : List (Step × Hart)) : Prop :=
  ∀ call ∈ calls, call.1.Even ∧ call.2.pc.Even

theorem evenRecords_nil : EvenRecords [] :=
  List.forall_mem_nil _

theorem EvenRecords.append {calls calls' : List (Step × Hart)} (h : EvenRecords calls)
    (h' : EvenRecords calls') : EvenRecords (calls ++ calls') :=
  fun _ hmem => (List.mem_append.mp hmem).elim (h _) (h' _)

namespace Hart

variable {h h' : Hart} {s : Step} {cs : List Cycle} {calls : List (Step × Hart)}

theorem Moves.even {distance : Int} (hm : h.Moves distance h') (hd : 2 ∣ distance)
    (he : h.pc.Even) : h'.pc.Even := by
  rw [Moves] at hm
  rw [Word.Even] at he ⊢
  omega

theorem even_of_step (hs : h.step = .ok (.ok s, h')) (he : h.pc.Even) : h'.pc.Even := by
  have hgoes := transfers_of_step hs
  cases hbranch : (Opcode.ofWord s.word).branches with
  | true =>
    by_cases htakes : (Opcode.ofWord s.word).Takes (h.read (Instruction.rs1 s.word))
        (h.read (Instruction.rs2 s.word))
    · exact (hgoes.taken hbranch htakes).even (Format.two_dvd_offset rfl s.word) he
    · exact (hgoes.untaken hbranch htakes).even (by decide) he
  | false =>
    cases hjump : (Opcode.ofWord s.word).jumps with
    | true =>
      cases hopcode : Opcode.ofWord s.word
      case jal => exact (hgoes.jal hopcode).even (Format.two_dvd_offset rfl s.word) he
      case jalr =>
        obtain ⟨target, -, hpc⟩ := hgoes.jalr hopcode
        exact .of_toNat hpc
      all_goals
        rw [hopcode] at hjump
        cases hjump
    | false => exact (hgoes.straight hbranch hjump).even (by decide) he

theorem even_of_records (hr : s.Records h) (he : h.pc.Even) (hnext : s.next.Even) : s.Even := by
  have hpc : s.pc.Even := hr.pc ▸ he
  refine ⟨hpc, ?_, hnext⟩
  rw [hr.fallThrough]
  exact hpc.add_four

theorem Path.even (hp : h.Path calls) (he : h.pc.Even) : EvenRecords calls := by
  induction hp with
  | nil => exact evenRecords_nil
  | completed hrecords hstep hpc _ ih =>
    have hnext := even_of_step hstep he
    exact List.forall_mem_cons.mpr ⟨⟨even_of_records hrecords he (hpc ▸ hnext), hnext⟩, ih hnext⟩
  | @trapped h h' s t hrecords _ hstep hnext halike =>
    have hsame : h'.pc.Even := halike.1 ▸ he
    have hfall : s.next.Even := by
      rw [hnext, hrecords.fallThrough, hrecords.pc]
      exact he.add_four
    exact List.forall_mem_cons.mpr
      ⟨⟨even_of_records hrecords he hfall, hsame⟩, evenRecords_nil⟩

/-- Cycles from an even address on never leave the even addresses, wherever they stop. -/
theorem Cycles.even (hc : h.Cycles cs h') (he : h.pc.Even) :
    h'.pc.Even ∧ EvenRecords (Cycle.shown cs) := by
  induction cs generalizing h with
  | nil =>
    obtain rfl : h' = h := hc
    exact ⟨he, evenRecords_nil⟩
  | cons c cs ih =>
    obtain ⟨before, result, after⟩ := c
    obtain ⟨rfl, hstep, hrest⟩ := hc
    have hfirst : after.pc.Even := by
      cases result with
      | ok s => exact even_of_step hstep he
      | error t => exact (alike_of_trap hstep).1 ▸ he
    have hone : before.Cycles [⟨before, result, after⟩] after := ⟨rfl, hstep, rfl⟩
    have hpath := (path_of_cycles hone (List.forall_mem_nil _)).even he
    obtain ⟨hend, hshown⟩ := ih hrest hfirst
    have hsplit := Cycle.shown_append [⟨before, result, after⟩] cs
    rw [List.singleton_append] at hsplit
    exact ⟨hend, hsplit ▸ hpath.append hshown⟩

end Hart

namespace Machine

variable {σ : Type} {m m' : Machine} {x x' : σ} {seen calls : List (Step × Hart)}

def Request.recording : Request σ → Request (σ × List (Step × Hart))
  | .call (.run budget monitor) => .call (.run budget monitor.recording)
  | .call .quit => .call .quit
  | .load image => .load image

/-- A call has come to an even pc and to records with even addresses behind what was seen before. -/
def RecordsEven (r : Except Crash (Machine × σ × List (Step × Hart))) (m : Machine) (x : σ)
    (seen : List (Step × Hart)) : Prop :=
  ∃ calls, r = .ok (m, x, seen ++ calls) ∧ m.hart.pc.Even ∧ EvenRecords calls

theorem RecordsEven.of_none {r : Except Crash (Machine × σ × List (Step × Hart))}
    (he : m.hart.pc.Even) (hr : r = .ok (m, x, seen)) : RecordsEven r m x seen := by
  refine ⟨[], ?_, he, evenRecords_nil⟩
  rw [List.append_nil]
  exact hr

theorem run_recording {budget : Budget} {monitor : Monitor σ} (he : m.hart.pc.Even)
    (h : m.run budget monitor x = .ok (m', x')) (seen : List (Step × Hart)) :
    RecordsEven (m.run budget monitor.recording (x, seen)) m' x' seen := by
  cases hm : m.status.hasEnded with
  | true =>
    rw [run_of_hasEnded hm] at h
    obtain ⟨rfl, rfl⟩ := Prod.mk.inj (Except.ok.inj h)
    exact .of_none he (run_of_hasEnded hm)
  | false =>
    have hforget := run_forget monitor.recording_extends m budget (x, seen)
    obtain ⟨⟨m₁, x₁, kept⟩, hrecorded, hsame⟩ := bind_eq_ok (hforget.symm.trans h)
    obtain ⟨rfl, rfl⟩ := Prod.mk.inj (Except.ok.inj hsame)
    obtain ⟨cs, hran⟩ := run_ran hm hrecorded
    have hkept := hran.seen
    rw [Monitor.recording_after] at hkept
    obtain ⟨hx, rfl⟩ := Prod.mk.inj hkept
    exact ⟨Cycle.shown cs, hrecorded, hran.cycles.even he⟩

theorem pc_of_load {image : List Byte} {loaded : Except Image.Error Nat}
    (h : m.load image = .ok (loaded, m')) : m'.hart.pc = m.hart.pc := by
  rcases m.load_cases image with ⟨-, ram, hfits, -⟩ | ⟨-, hfails⟩
  · obtain ⟨-, rfl⟩ := Prod.mk.inj (Except.ok.inj (h.symm.trans hfits))
    rfl
  · obtain ⟨-, rfl⟩ := Prod.mk.inj (Except.ok.inj (h.symm.trans hfails))
    rfl

theorem request_recording {r : Request σ} (he : m.hart.pc.Even)
    (h : m.request x r = .ok (m', x')) (seen : List (Step × Hart)) :
    RecordsEven (m.request (x, seen) r.recording) m' x' seen := by
  cases r with
  | call c =>
    cases c with
    | run budget monitor => exact run_recording he h seen
    | quit =>
      obtain ⟨rfl, rfl⟩ := Prod.mk.inj (Except.ok.inj h)
      exact .of_none he rfl
  | load image =>
    obtain ⟨⟨loaded, m₁⟩, hload, h⟩ := bind_eq_ok h
    obtain ⟨rfl, rfl⟩ := Prod.mk.inj (Except.ok.inj h)
    refine .of_none (pc_of_load hload ▸ he) ?_
    rw [Request.recording, request, hload]
    rfl

theorem requestAll_recording {rs : List (Request σ)} (he : m.hart.pc.Even)
    (h : m.requestAll rs x = .ok (m', x')) (seen : List (Step × Hart)) :
    RecordsEven (m.requestAll (rs.map Request.recording) (x, seen)) m' x' seen := by
  induction rs generalizing m x seen with
  | nil =>
    obtain ⟨rfl, rfl⟩ := Prod.mk.inj (Except.ok.inj h)
    exact .of_none he rfl
  | cons r rs ih =>
    obtain ⟨⟨m₁, x₁⟩, hfirst, hrest⟩ := bind_eq_ok h
    obtain ⟨calls, hrecorded, hpc, heven⟩ := request_recording he hfirst seen
    obtain ⟨calls', hrecorded', hpc', heven'⟩ := ih hpc hrest (seen ++ calls)
    refine ⟨calls ++ calls', ?_, hpc', heven.append heven'⟩
    rw [List.map_cons, requestAll, hrecorded, ← List.append_assoc]
    exact hrecorded'

/-- Whatever is asked of a machine with an even reset vector, its pc stays even, and so do the
addresses in all records of instructions. So they do from there on however far the next run goes,
also before it returns. -/
theorem pc_stays_even {config : Config} {m₀ : Machine} (hcreate : create config = .ok m₀)
    (heven : config.resetVector.Even) (requests : List (Request σ))
    (hall : m₀.requestAll requests x = .ok (m, x')) :
    m.hart.pc.Even ∧
    (∃ calls, m₀.requestAll (requests.map Request.recording) (x, []) = .ok (m, x', calls) ∧
      EvenRecords calls) ∧
    ∀ cs h', m.hart.Cycles cs h' → h'.pc.Even ∧ EvenRecords (Cycle.shown cs) := by
  have hreset : m₀.hart.pc.Even := by
    obtain ⟨hart, -, hm₀⟩ := bind_eq_ok hcreate
    obtain rfl := Except.ok.inj hm₀
    exact heven
  obtain ⟨calls, hrecorded, hpc, hrecords⟩ := requestAll_recording hreset hall []
  rw [List.nil_append] at hrecorded
  exact ⟨hpc, ⟨calls, hrecorded, hrecords⟩, fun _ _ hcycles => hcycles.even hpc⟩

/-- The images start at no multiple of four. The jump aims at an odd address behind the first one,
and goes to the breakpoint of the other. -/
theorem pc_stays_even_odd_target :
    ∃ m₀ m calls, create ⟨0x80000000, 64, 0x80000002⟩ = .ok m₀ ∧ Word.Even 0x80000002 ∧
      m₀.requestAll [.load (bytesOfWords [0x00000297, 0x00d28067]), .call (.run (.limited 1) .idle),
        .load (bytesOfWords [0x00000297, 0x00d28067, 0, 0x00100073]),
        .call (.run .unlimited .idle)] () = .ok (m, ()) ∧
      m₀.requestAll [.load (bytesOfWords [0x00000297, 0x00d28067]),
        .call (.run (.limited 1) (.recording .idle)),
        .load (bytesOfWords [0x00000297, 0x00d28067, 0, 0x00100073]),
        .call (.run .unlimited (.recording .idle))] ((), []) = .ok (m, (), calls) ∧
      m.hart.pc.Even ∧ EvenRecords calls ∧
      calls.map (·.1.next) = [0x80000006, 0x8000000e, 0x80000012] := by
  let requests : List (Request Unit) :=
    [.load (bytesOfWords [0x00000297, 0x00d28067]), .call (.run (.limited 1) .idle),
      .load (bytesOfWords [0x00000297, 0x00d28067, 0, 0x00100073]), .call (.run .unlimited .idle)]
  have hcalls : (do
      let m₀ ← create ⟨0x80000000, 64, 0x80000002⟩
      let plain ← m₀.requestAll requests ()
      let recorded ← m₀.requestAll (requests.map Request.recording) ((), [])
      return recorded.2.2.map (·.1.next) : Except Crash (List Word)).toOption =
      some [0x80000006, 0x8000000e, 0x80000012] := by
    decide +kernel
  obtain ⟨m₀, hm₀, h⟩ := bind_eq_ok (eq_ok_of_toOption hcalls)
  obtain ⟨⟨m, u⟩, hplain, h⟩ := bind_eq_ok h
  obtain ⟨⟨m', u', calls⟩, hrecorded, h⟩ := bind_eq_ok h
  have hnexts : calls.map (·.1.next) = [0x80000006, 0x8000000e, 0x80000012] := Except.ok.inj h
  have heven : Word.Even 0x80000002 := by
    rw [Word.Even]
    decide
  obtain ⟨hpc, ⟨kept, hkept, hrecords⟩, -⟩ := pc_stays_even hm₀ heven requests hplain
  obtain ⟨-, hsame⟩ := Prod.mk.inj (Except.ok.inj (hkept.symm.trans hrecorded))
  obtain rfl := (Prod.mk.inj hsame).2
  exact ⟨m₀, m, kept, hm₀, heven, hplain, hkept, hpc, hrecords, hnexts⟩

end Machine

end Hartwatch
