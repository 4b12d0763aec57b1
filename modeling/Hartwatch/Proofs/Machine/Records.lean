import Hartwatch.Proofs.Machine.Frame
import Hartwatch.Proofs.Machine.Runs
import Hartwatch.Proofs.Machine.Standstill

/-! What a monitor is shown, kept as a list. A monitor that also keeps a list makes the same run as
one that does not, and the records on it follow one another as the instructions do. -/

namespace Hartwatch

variable {σ τ : Type} {monitor : Monitor σ} {wide : Monitor τ} {φ : τ → σ}
variable {x x' : σ} {budget : Budget} {seen calls : List (Step × Hart)} {cs : List Cycle}

/-! ### Monitors with a state of their own -/

/-- A monitor answers as another one does and keeps more, of which `φ` is what the other keeps. -/
def Monitor.Extends (wide : Monitor τ) (φ : τ → σ) (monitor : Monitor σ) : Prop :=
  ∀ s h y, monitor s h (φ y) = ((wide s h y).1, φ (wide s h y).2)

namespace Machine

def forget (φ : τ → σ) (r : Machine × τ) : Except Crash (Machine × σ) :=
  .ok (r.1, φ r.2)

theorem retire_forget (hw : wide.Extends φ monitor) (m : Machine) (s : Step) (y : τ) :
    m.retire monitor s (φ y) = m.retire wide s y >>= forget φ := by
  simp only [retire]
  cases Checked.succ m.retired with
  | error e => rfl
  | ok n =>
    simp only [bind, Except.bind, hw s m.hart y]
    rfl

theorem retireTrapped_forget (hw : wide.Extends φ monitor) (m : Machine) (pc : Word) (t : Trap)
    (y : τ) : m.retireTrapped monitor pc t (φ y) = m.retireTrapped wide pc t y >>= forget φ := by
  simp only [retireTrapped]
  cases t.retires with
  | false => rfl
  | true =>
    cases m.hart.ram.fetch pc with
    | error e => rfl
    | ok fetched =>
      cases fetched with
      | error t' => rfl
      | ok word => exact retire_forget hw m _ y

theorem step_forget (hw : wide.Extends φ monitor) (m : Machine) (y : τ) :
    m.step monitor (φ y) = m.step wide y >>= forget φ := by
  simp only [step]
  cases m.hart.step with
  | error e => rfl
  | ok stepped =>
    obtain ⟨result, hart⟩ := stepped
    cases result with
    | ok s => exact retire_forget hw { m with hart } s y
    | error t =>
      have htrap := retireTrapped_forget hw { m with hart } m.hart.pc t y
      simp only [bind, Except.bind, htrap]
      cases retireTrapped { m with hart } wide m.hart.pc t y <;> rfl

theorem loop_forget (hw : wide.Extends φ monitor) (n : Nat) (m : Machine) (y : τ) :
    loop monitor n m (φ y) = loop wide n m y >>= forget φ := by
  induction n generalizing m y with
  | zero => rfl
  | succ n ih =>
    rw [loop, loop, step_forget hw]
    cases m.step wide y with
    | error e => rfl
    | ok next =>
      obtain ⟨m₁, y₁⟩ := next
      by_cases hrun : m₁.status = .running
      · simpa [bind, Except.bind, forget, hrun] using ih m₁ y₁
      · simp [bind, Except.bind, pure, Except.pure, forget, hrun]

theorem run_forget (hw : wide.Extends φ monitor) (m : Machine) (budget : Budget) (y : τ) :
    m.run budget monitor (φ y) = m.run budget wide y >>= forget φ := by
  cases hm : m.status.hasEnded with
  | true =>
    rw [run_of_hasEnded hm, run_of_hasEnded hm]
    rfl
  | false =>
    rw [run_of_not_ended hm, run_of_not_ended hm, loop_forget hw]
    cases loop wide budget.bound { m with status := .running } y <;> rfl

end Machine

namespace Monitor

variable {c : Cycle}

def recording (monitor : Monitor σ) : Monitor (σ × List (Step × Hart)) :=
  fun s h x => ((monitor s h x.1).1, (monitor s h x.1).2, x.2 ++ [(s, h)])

theorem recording_extends (monitor : Monitor σ) : monitor.recording.Extends Prod.fst monitor :=
  fun _ _ _ => rfl

theorem recording_after : monitor.recording.after (x, seen) calls =
    (monitor.after x calls, seen ++ calls) := by
  induction calls generalizing x seen with
  | nil => simp [after]
  | cons call calls ih =>
    have hcons : monitor.recording.after (x, seen) (call :: calls) =
        monitor.recording.after ((monitor call.1 call.2 x).2, seen ++ [call]) calls := rfl
    rw [hcons, ih, List.append_assoc]
    rfl

theorem recording_endsAt_iff :
    monitor.recording.EndsAt (x, seen) cs c ↔ monitor.EndsAt x cs c := by
  simp only [EndsAt, recording_after]
  rfl

theorem recording_onward_iff : monitor.recording.Onward (x, seen) cs ↔ monitor.Onward x cs := by
  simp only [Onward, recording_endsAt_iff]

end Monitor

namespace Machine

variable {m m' : Machine}

theorem Ran.of_recording (h : m.Ran budget monitor.recording (x, []) cs m' (x', calls)) :
    m.Ran budget monitor x cs m' x' ∧ calls = Cycle.shown cs := by
  have hseen := h.seen
  rw [Monitor.recording_after, List.nil_append] at hseen
  obtain ⟨hx, hcalls⟩ := Prod.mk.inj hseen
  have hlast : budget = .limited cs.length ∨
      ∃ c, cs.getLast? = some c ∧ monitor.EndsAt x cs.dropLast c := by
    simpa only [Monitor.recording_endsAt_iff] using h.last
  exact ⟨⟨⟨h.cycles, hx, h.retired, h.config⟩, h.within,
    Monitor.recording_onward_iff.mp h.onward, hlast, h.status⟩, hcalls⟩

theorem exists_recording (hm : m.status.hasEnded = false)
    (h : m.run budget monitor x = .ok (m', x')) :
    ∃ cs, m.run budget monitor.recording (x, []) = .ok (m', x', Cycle.shown cs) ∧
      m.Ran budget monitor x cs m' x' := by
  have hforget := run_forget monitor.recording_extends m budget (x, [])
  obtain ⟨⟨m₁, x₁, calls⟩, hrecorded, hsame⟩ := bind_eq_ok (hforget.symm.trans h)
  obtain ⟨rfl, rfl⟩ := Prod.mk.inj (Except.ok.inj hsame)
  obtain ⟨cs, hran⟩ := run_ran hm hrecorded
  obtain ⟨hplain, rfl⟩ := hran.of_recording
  exact ⟨cs, hrecorded, hplain⟩

end Machine

/-! ### Records as a path -/

/-- A record is of the instruction at the pc of a hart. -/
structure Step.Records (s : Step) (h : Hart) : Prop where
  pc : s.pc = h.pc
  fallThrough : s.fallThrough = s.pc + 4
  word : ∀ i < 4, h.ram.byte? (s.pc.toNat + i) = some (s.word.extractLsb' (8 * i) 8)
  opcode : s.opcode = .ofWord s.word

namespace Hart

variable {h h' : Hart} {s : Step} {t : Trap}

/-- Records of the instructions from a hart on, each with the hart that its instruction leaves
behind. One that traps is the last, and the hart shown with it is still what it was. -/
inductive Path : Hart → List (Step × Hart) → Prop
  | nil (h : Hart) : Path h []
  | completed {h h' : Hart} {s : Step} {rest : List (Step × Hart)} : s.Records h →
    h.step = .ok (.ok s, h') → h'.pc = s.next → Path h' rest → Path h ((s, h') :: rest)
  | trapped {h h' : Hart} {s : Step} {t : Trap} : s.Records h →
    s.opcode = .ebreak ∨ s.opcode = .ecall → h.step = .ok (.error t, h') →
    s.next = s.fallThrough → h.Alike h' → Path h [(s, h')]

theorem records_straight {word : Word} (hf : h.ram.fetch h.pc = .ok (.ok word)) :
    (Step.straight h.pc word).Records h :=
  ⟨rfl, rfl, fun _ hi => byte?_of_fetch hf hi, rfl⟩

theorem records_of_step (hs : h.step = .ok (.ok s, h')) : s.Records h ∧ h'.pc = s.next := by
  obtain ⟨e, h₁, hfetch, -, -, hrecord, rfl⟩ := step_completed hs
  have hstraight := records_straight hfetch
  refine ⟨?_, rfl⟩
  rw [hrecord]
  exact ⟨hstraight.pc, hstraight.fallThrough, hstraight.word, hstraight.opcode⟩

theorem path_of_trap (hs : h.step = .ok (.error t, h')) :
    h.Path (Cycle.mk h (.error t) h').shown?.toList := by
  cases hretires : t.retires with
  | false =>
    rw [Cycle.shown?_of_not_retires hs hretires]
    exact .nil h
  | true =>
    obtain ⟨word, hfetch, -⟩ := step_retiring_trap hs hretires
    have hshown := Cycle.shown?_of_retires hs hretires hfetch
    have hword := word?_of_fetch hfetch
    have hopcode : Opcode.ofWord word = .ebreak ∨ Opcode.ofWord word = .ecall := by
      rcases step_trap_cases hs with ⟨w, hw, ho, -⟩ | ⟨w, hw, ho, -⟩ | ⟨hnot, -⟩
      · exact .inl (Option.some.inj (hword.symm.trans hw) ▸ ho)
      · exact .inr (Option.some.inj (hword.symm.trans hw) ▸ ho)
      · cases hnot.symm.trans hretires
    rw [hshown]
    exact .trapped (records_straight hfetch) hopcode hs rfl (alike_of_trap hs)

theorem path_of_cycles (hc : h.Cycles cs h') (hdone : ∀ c ∈ cs.dropLast, ∃ s, c.result = .ok s) :
    h.Path (Cycle.shown cs) := by
  induction cs generalizing h with
  | nil => exact .nil h
  | cons c cs ih =>
    obtain ⟨before, result, after⟩ := c
    obtain ⟨rfl, hstep, hrest⟩ := hc
    cases result with
    | ok s =>
      obtain ⟨hrecords, hpc⟩ := records_of_step hstep
      have hrestDone : ∀ c ∈ cs.dropLast, ∃ s, c.result = .ok s := by
        intro c hc
        cases cs with
        | nil => cases hc
        | cons d cs => exact hdone c (List.mem_cons_of_mem _ hc)
      exact .completed hrecords hstep hpc (ih hrest hrestDone)
    | error t =>
      cases cs with
      | nil =>
        have hshown := Cycle.shown_concat [] ⟨before, .error t, after⟩
        rw [List.nil_append] at hshown
        rw [hshown]
        exact path_of_trap hstep
      | cons d cs =>
        obtain ⟨s, hs⟩ := hdone _ List.mem_cons_self
        cases hs

theorem Path.head (hp : h.Path calls) : ∀ r ∈ calls.head?, r.1.pc = h.pc := by
  rintro r hr
  cases hp with
  | nil => cases hr
  | completed hrecords | trapped hrecords =>
    obtain rfl := Option.some.inj hr
    exact hrecords.pc

theorem Path.chain (hp : h.Path calls) : calls.IsChain fun r r' => r'.1.pc = r.1.next := by
  induction hp with
  | nil => exact .nil
  | trapped => exact .singleton _
  | @completed h h' s rest _ _ hpc hrest ih =>
    cases rest with
    | nil => exact .singleton _
    | cons r rest => exact .cons_cons ((hrest.head r rfl).trans hpc) ih

theorem Cycles.step_of_mem {c : Cycle} (hc : h.Cycles cs h') (hmem : c ∈ cs) :
    c.before.step = .ok (c.result, c.after) := by
  induction cs generalizing h with
  | nil => cases hmem
  | cons d cs ih =>
    obtain ⟨rfl, hstep, hrest⟩ := hc
    rcases List.mem_cons.mp hmem with rfl | hmem
    · exact hstep
    · exact ih hrest hmem

theorem Cycles.getLast?_shown {c : Cycle} (hcycles : h.Cycles cs h')
    (hdone : ∀ c ∈ cs.dropLast, ∃ s, c.result = .ok s) (hc : c ∈ cs) (ht : c.result = .error t)
    (hretires : t.retires = true) :
    ∃ word, c.after.ram.fetch c.before.pc = .ok (.ok word) ∧
      (Cycle.shown cs).getLast? = some (.straight c.before.pc word, c.after) := by
  have hlast : cs = cs.dropLast ++ [c] := by
    have hne : cs ≠ [] := List.ne_nil_of_mem hc
    have hsplit := List.dropLast_append_getLast hne
    rw [← hsplit, List.mem_append, List.mem_singleton] at hc
    rcases hc with hfront | hend
    · obtain ⟨s, hs⟩ := hdone c hfront
      cases ht.symm.trans hs
    · rw [hend, hsplit]
  have hstep := hcycles.step_of_mem hc
  obtain ⟨before, result, after⟩ := c
  obtain rfl : result = .error t := ht
  obtain ⟨word, hfetch, hafter⟩ := step_retiring_trap hstep hretires
  have hagain : after.ram.fetch before.pc = .ok (.ok word) := by
    rw [show after = _ from hafter]
    exact hfetch
  refine ⟨word, hagain, ?_⟩
  rw [hlast, Cycle.shown_concat, Cycle.shown?_of_retires hstep hretires hfetch]
  simp

/-- The records that some cycles make are a path from the hart at the first of them: each is of the
instruction at which the one before goes on, with the word that memory holds there by then. An
`ebreak` or `ecall` that traps can be fetched again and is the last record. -/
structure Recorded (h : Hart) (cs : List Cycle) (calls : List (Step × Hart)) : Prop where
  path : h.Path calls
  head : ∀ r ∈ calls.head?, r.1.pc = h.pc
  chain : calls.IsChain fun r r' => r'.1.pc = r.1.next
  trapped : ∀ c ∈ cs, ∀ t, c.result = .error t → t.retires = true →
    ∃ word, c.after.ram.fetch c.before.pc = .ok (.ok word) ∧
      calls.getLast? = some (.straight c.before.pc word, c.after)

theorem Cycles.recorded (hcycles : h.Cycles cs h')
    (hdone : ∀ c ∈ cs.dropLast, ∃ s, c.result = .ok s) : h.Recorded cs (Cycle.shown cs) := by
  have hpath := path_of_cycles hcycles hdone
  exact ⟨hpath, hpath.head, hpath.chain,
    fun c hc t ht hretires => hcycles.getLast?_shown hdone hc ht hretires⟩

end Hart

namespace Machine

variable {m m' : Machine}

/-- However far a run has come, what it has shown to its monitor are the records of its cycles. When
it returns, they are the list that the monitor can keep. -/
theorem run_records_path (hm : m.status.hasEnded = false) :
    (∀ cs m' x', m.Passed monitor x cs m' x' → monitor.Onward x cs.dropLast →
      m.hart.Recorded cs (Cycle.shown cs)) ∧
    ∀ m' x', m.run budget monitor x = .ok (m', x') →
      ∃ cs, m.run budget monitor.recording (x, []) = .ok (m', x', Cycle.shown cs) ∧
        m.Ran budget monitor x cs m' x' ∧ m.hart.Recorded cs (Cycle.shown cs) := by
  have hrecords : ∀ cs m' x', m.Passed monitor x cs m' x' → monitor.Onward x cs.dropLast →
      m.hart.Recorded cs (Cycle.shown cs) :=
    fun _ _ _ hpassed hon => hpassed.cycles.recorded fun _ hc => hon.completed hc
  refine ⟨hrecords, fun m' x' h => ?_⟩
  obtain ⟨cs, hrecorded, hran⟩ := exists_recording hm h
  exact ⟨cs, hrecorded, hran, hrecords _ _ _ hran.toPassed hran.onward⟩

/-- The program puts a breakpoint in the place of the word that comes next. -/
theorem run_records_path_overwritten :
    ∃ m m' calls, holding [0x00000297, 0x00100337, 0x07330313, 0x0062a823, 0x00000013] = .ok m ∧
      m.hart.ram.fetch 0x80000010 = .ok (.ok 0x00000013) ∧ m.status.hasEnded = false ∧
      m.run .unlimited .idle () = .ok (m', ()) ∧
      m.run .unlimited Monitor.idle.recording ((), []) = .ok (m', (), calls) ∧
      m.hart.Path calls ∧ (calls.IsChain fun r r' => r'.1.pc = r.1.next) ∧
      calls.map (·.1.word) = [0x00000297, 0x00100337, 0x07330313, 0x0062a823, 0x00100073] := by
  have hcalls : (do
      let m ← holding [0x00000297, 0x00100337, 0x07330313, 0x0062a823, 0x00000013]
      let fetched ← m.hart.ram.fetch 0x80000010
      let plain ← m.run .unlimited .idle ()
      let ran ← m.run .unlimited Monitor.idle.recording ((), [])
      return (fetched.toOption, m.status.hasEnded, ran.2.2.map (·.1.word)) :
        Except Crash (Option Word × Bool × List Word)).toOption =
      some (some 0x00000013, false,
        [0x00000297, 0x00100337, 0x07330313, 0x0062a823, 0x00100073]) := by
    decide +kernel
  obtain ⟨m, hm, h⟩ := bind_eq_ok (eq_ok_of_toOption hcalls)
  obtain ⟨fetched, hfetch, h⟩ := bind_eq_ok h
  obtain ⟨⟨m₁, u⟩, hplain, h⟩ := bind_eq_ok h
  obtain ⟨⟨m', u', calls⟩, hrun, h⟩ := bind_eq_ok h
  simp only [Prod.mk.injEq, Except.ok.injEq, pure, Except.pure] at h
  obtain ⟨hfetched, hended, hwords⟩ := h
  obtain rfl := eq_ok_of_toOption hfetched
  obtain ⟨cs, hrecorded, -, hrecords⟩ := (run_records_path hended).2 _ _ hplain
  obtain ⟨rfl, hsame⟩ := Prod.mk.inj (Except.ok.inj (hrecorded.symm.trans hrun))
  obtain ⟨-, rfl⟩ := Prod.mk.inj hsame
  exact ⟨m, _, _, hm, hfetch, hended, hplain, hrun, hrecords.path, hrecords.chain, hwords⟩

end Machine

end Hartwatch
