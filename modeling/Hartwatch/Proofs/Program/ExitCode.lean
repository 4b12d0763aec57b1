import Hartwatch.Program
import Hartwatch.Proofs.Debugger.SessionEnds
import Hartwatch.Proofs.Machine.Totality

/-! What the exit code of a session tells. It is zero where an image was loaded and the session then
was left or saw the program end well. Memory has whole lanes, so an image that is too large for the
size asked for by less than a lane is loaded all the same. -/

namespace Hartwatch

def Status.EndedWell (s : Status) : Prop :=
  ∃ pc, s = .trapped pc 0 ∨ s = .halted pc 0

theorem Status.isBad_eq_false_iff (s : Status) :
    s.isBad = false ↔ s = .quit ∨ s.EndedWell := by
  cases s with
  | trapped pc value => simp [isBad, EndedWell]
  | halted pc code => simp [isBad, EndedWell]
  | quit => simp [isBad]
  | running | stopped | aborted => simp [isBad, EndedWell]

theorem Machine.create_eq_ok {config : Config} {m : Machine} (h : create config = .ok m) :
    m.config = config ∧ m.status = .stopped ∧ m.hart.ram.base = config.memoryBase ∧
      m.hart.ram.memory.capacity = Ram.laneSize config.memorySize := by
  obtain ⟨hart, hhart, h⟩ := bind_eq_ok h
  obtain rfl := Except.ok.inj h
  obtain ⟨ram, hram, hhart⟩ := bind_eq_ok hhart
  obtain rfl := Except.ok.inj hhart
  rcases Ram.zeroed_cases config.memoryBase config.memorySize with
    ⟨-, ram', hzeroed, hbase, hcapacity⟩ | ⟨-, hzeroed⟩
  · obtain rfl := Except.ok.inj (hram.symm.trans hzeroed)
    exact ⟨rfl, rfl, hbase, hcapacity⟩
  · cases hram.symm.trans hzeroed

namespace Program

open Debugger Session

variable {files : Files} {time : String} {args : List String} {o : Options} {input : List UInt8}
variable {result : Result} {m : Machine}

def image (files : Files) (o : Options) : Except FileError (List Byte) :=
  match o.image? with
  | none => .ok (bytesOfWords Image.builtin)
  | some path => files.read path

/-- The image is read and fits into a memory of the size that the options ask for. -/
def Loads (files : Files) (o : Options) : Prop :=
  ∃ bytes, image files o = .ok bytes ∧ bytes.length ≤ o.memorySize

/-- The image is read and fits into the lanes that this size takes, but not into the size. -/
def Overhangs (files : Files) (o : Options) : Prop :=
  ∃ bytes, image files o = .ok bytes ∧ o.memorySize < bytes.length ∧
    bytes.length ≤ Ram.laneSize o.memorySize

theorem loads_iff {bytes : List Byte} (hbytes : image files o = .ok bytes) :
    Loads files o ↔ bytes.length ≤ o.memorySize := by
  refine ⟨?_, fun hfits => ⟨bytes, hbytes, hfits⟩⟩
  rintro ⟨bytes', hbytes', hfits⟩
  obtain rfl := Except.ok.inj (hbytes.symm.trans hbytes')
  exact hfits

theorem overhangs_iff {bytes : List Byte} (hbytes : image files o = .ok bytes) :
    Overhangs files o ↔
      o.memorySize < bytes.length ∧ bytes.length ≤ Ram.laneSize o.memorySize := by
  refine ⟨?_, fun hbetween => ⟨bytes, hbytes, hbetween⟩⟩
  rintro ⟨bytes', hbytes', hbetween⟩
  obtain rfl := Except.ok.inj (hbytes.symm.trans hbytes')
  exact hbetween

theorem loads_or_overhangs_iff {bytes : List Byte} (hbytes : image files o = .ok bytes) :
    Loads files o ∨ Overhangs files o ↔ bytes.length ≤ Ram.laneSize o.memorySize := by
  have hlanes := Ram.le_laneSize o.memorySize
  rw [loads_iff hbytes, overhangs_iff hbytes]
  omega

theorem Overhangs.not_loads (h : Overhangs files o) : ¬ Loads files o := by
  obtain ⟨bytes, hbytes, hsize, -⟩ := h
  rw [loads_iff hbytes]
  exact Nat.not_le_of_lt hsize

theorem not_overhangs_of_dvd (h : 8 ∣ o.memorySize) : ¬ Overhangs files o := by
  rintro ⟨bytes, -, hsize, hlen⟩
  rw [(Ram.laneSize_eq_iff _).mpr h] at hlen
  exact absurd hlen (Nat.not_le_of_lt hsize)

def debugger (o : Options) (m : Machine) : Debugger :=
  { Debugger.create m (.empty none) with batch := o.batch }

theorem load_of_created (bytes : List Byte) (hm : Machine.create o.config = .ok m) :
    bytes.length ≤ Ram.laneSize o.memorySize ∧
        (∃ m', m.load bytes = .ok (.ok bytes.length, m') ∧ m'.status = .stopped) ∨
      ¬ bytes.length ≤ Ram.laneSize o.memorySize ∧ ∃ e, m.load bytes = .ok (.error e, m) := by
  obtain ⟨hconfig, hstatus, hbase, hcapacity⟩ := Machine.create_eq_ok hm
  have hreset : o.config.resetVector = o.config.memoryBase := rfl
  have hsize : o.config.memorySize = o.memorySize := rfl
  have hfits : bytes = [] ∨ m.hart.ram.inBounds m.config.resetVector bytes.length = true ↔
      bytes.length ≤ Ram.laneSize o.memorySize := by
    rw [Ram.inBounds_iff_range, hconfig, hbase, hcapacity, hreset, hsize]
    constructor
    · rintro (rfl | ⟨-, hrange⟩)
      · exact Nat.zero_le _
      · omega
    · intro hlen
      exact .inr ⟨Nat.le_refl _, by omega⟩
  rcases m.load_cases bytes with ⟨hin, ram, hload, -⟩ | ⟨hin, hload⟩
  · exact .inl ⟨hfits.mp hin, _, hload, hstatus⟩
  · exact .inr ⟨fun h => hin (hfits.mpr h), _, hload⟩

theorem boot_cases_of_image {booted : Except Image.Error Machine} {bytes : List Byte}
    (hbytes : image files o = .ok bytes) (hm : Machine.create o.config = .ok m)
    (h : (m.load bytes >>= fun x => .ok (x.1.map fun _ => x.2)) = .ok booted) :
    (Loads files o ∨ Overhangs files o) ∧ (∃ m, booted = .ok m ∧ m.status = .stopped) ∨
      ¬ (Loads files o ∨ Overhangs files o) ∧ ∃ e, booted = .error e := by
  rw [loads_or_overhangs_iff hbytes]
  rcases load_of_created bytes hm with ⟨hfits, m', hload, hm'⟩ | ⟨hfits, e, hload⟩
  · rw [hload] at h
    obtain rfl := Except.ok.inj h
    exact .inl ⟨hfits, m', rfl, hm'⟩
  · rw [hload] at h
    obtain rfl := Except.ok.inj h
    exact .inr ⟨hfits, e, rfl⟩

theorem boot_cases {booted : Except Image.Error Machine}
    (h : boot files.read o.config o.image? = .ok booted) :
    (Loads files o ∨ Overhangs files o) ∧ (∃ m, booted = .ok m ∧ m.status = .stopped) ∨
      ¬ (Loads files o ∨ Overhangs files o) ∧ ∃ e, booted = .error e := by
  obtain ⟨m, hm, h⟩ := bind_eq_ok h
  cases hpath : o.image? with
  | none =>
    rw [hpath] at h
    have hbytes : image files o = .ok (bytesOfWords Image.builtin) := by rw [image, hpath]
    exact boot_cases_of_image hbytes hm h
  | some path =>
    rw [hpath] at h
    have himage : image files o = files.read path := by rw [image, hpath]
    cases hread : files.read path with
    | error e =>
      simp only [hread] at h
      obtain rfl := Except.ok.inj h
      refine .inr ⟨?_, _, rfl⟩
      rintro (⟨bytes, hbytes, -⟩ | ⟨bytes, hbytes, -⟩)
      · cases hbytes.symm.trans (himage.trans hread)
      · cases hbytes.symm.trans (himage.trans hread)
    | ok bytes =>
      simp only [hread] at h
      exact boot_cases_of_image (himage.trans hread) hm h

/-- A session over the loaded image ends. -/
def Held (files : Files) (o : Options) (input : List UInt8) (r : Except Debugger.Error Unit)
    (d : Debugger) : Prop :=
  ∃ m, boot files.read o.config o.image? = .ok (.ok m) ∧
    (session input).on (debugger o m) = .ok (r, d)

theorem run_cases (hargs : CommandLine.parse args = .ok (.run o)) (hlog : o.log? = none)
    (h : run files time args input = .ok result) :
    ¬ (Loads files o ∨ Overhangs files o) ∧ result = ⟨.empty, failure, files⟩ ∨
      (Loads files o ∨ Overhangs files o) ∧ ∃ r d, Held files o input r d ∧
        result = ⟨d.out.bytes, if r.isOk then exitCode d else failure, files⟩ := by
  rw [run, hargs] at h
  change start files time o input = _ at h
  rw [start, hlog] at h
  obtain ⟨booted, hbooted, h⟩ := bind_eq_ok h
  rcases boot_cases hbooted with ⟨hloads, m, rfl, -⟩ | ⟨hloads, e, rfl⟩
  · obtain ⟨⟨output, code⟩, hconverse, h⟩ := bind_eq_ok h
    obtain ⟨⟨r, d⟩, hsession, hend⟩ := bind_eq_ok hconverse
    obtain rfl := Except.ok.inj h
    refine .inr ⟨hloads, r, d, ⟨m, hbooted, hsession⟩, ?_⟩
    cases r with
    | ok u =>
      obtain ⟨rfl, rfl⟩ := Prod.mk.inj (Except.ok.inj hend)
      rfl
    | error e =>
      obtain ⟨rfl, rfl⟩ := Prod.mk.inj (Except.ok.inj hend)
      rfl
  · obtain rfl := Except.ok.inj h
    exact .inl ⟨hloads, rfl⟩

theorem run_batch (hargs : CommandLine.parse args = .ok (.run o)) (hbatch : o.batch = true)
    (input input' : List UInt8) :
    run files time args input' = run files time args input := by
  have hconverse : ∀ m, converse o m input' = converse o m input := by
    intro m
    have hm : (debugger o m).batch = true := hbatch
    change (session input').on (debugger o m) >>= _ = (session input).on (debugger o m) >>= _
    rw [session_of_batch hm, session_of_batch hm]
  simp only [run, hargs, start, hconverse]

theorem exitCode_eq_zero_iff (d : Debugger) :
    exitCode d = 0 ↔ d.machine.status = .quit ∨ d.machine.status.EndedWell := by
  rw [← Status.isBad_eq_false_iff, exitCode]
  cases d.machine.status.isBad <;> simp [failure]

theorem exitCode_cases (d : Debugger) : exitCode d = 0 ∨ exitCode d = 1 := by
  rw [exitCode]
  split
  · exact .inr rfl
  · exact .inl rfl

theorem held_ends {r : Except Debugger.Error Unit} {d : Debugger} (h : Held files o input r d) :
    (∀ e, r = .error e → e.isFatal = true) ∧
      (exitCode d = 0 ↔ Leaves o.batch input ∨ d.machine.status.EndedWell) ∧
      (o.batch = true → r = .ok () ∧ d.out.bytes = (endText d.machine).toUTF8) := by
  obtain ⟨m, hbooted, hsession⟩ := h
  rcases boot_cases hbooted with ⟨-, m', hm, hstatus⟩ | ⟨-, e, he⟩
  · obtain rfl := Except.ok.inj hm
    obtain ⟨hfatal, hquit, hbatch⟩ := session_ends (d := debugger o m) hstatus rfl rfl hsession
    refine ⟨hfatal, ?_, fun hb => ?_⟩
    · rw [exitCode_eq_zero_iff, hquit]
      rfl
    · obtain ⟨hr, hout⟩ := hbatch hb
      refine ⟨hr, ?_⟩
      rw [hout]
      exact ByteArray.empty_append
  · cases he

theorem Held.unique {r r' : Except Debugger.Error Unit} {d d' : Debugger}
    (h : Held files o input r d) (h' : Held files o input r' d') : r' = r ∧ d' = d := by
  obtain ⟨m, hbooted, hsession⟩ := h
  obtain ⟨m', hbooted', hsession'⟩ := h'
  obtain rfl := Except.ok.inj (Except.ok.inj (hbooted.symm.trans hbooted'))
  exact Prod.mk.inj (Except.ok.inj (hsession'.symm.trans hsession))

/-- A session over the loaded image ends without an error, and it is left or the program ends
well. -/
def GoesWell (files : Files) (o : Options) (input : List UInt8) : Prop :=
  ∃ d, Held files o input (.ok ()) d ∧ (Leaves o.batch input ∨ d.machine.status.EndedWell)

theorem held_exitCode {r : Except Debugger.Error Unit} {d : Debugger}
    (h : Held files o input r d) :
    (if r.isOk then exitCode d else failure) = 0 ↔ GoesWell files o input := by
  have hcode := (held_ends h).2.1
  constructor
  · intro hzero
    cases r with
    | ok u => exact ⟨d, h, hcode.mp hzero⟩
    | error e => cases hzero
  · rintro ⟨d', h', hwell⟩
    obtain ⟨rfl, rfl⟩ := h.unique h'
    exact hcode.mpr hwell

/-- Unless the image overhangs, the exit code is zero if and only if the image fits, nothing fatal
happens, and the session is left or the program ends well; without an image nothing is written. One
that overhangs is loaded as if it fitted, which takes a size that is no multiple of eight. In batch
mode the input does not matter, and all that is written is how the program has ended. -/
theorem run_exitCode (hargs : CommandLine.parse args = .ok (.run o)) (hlog : o.log? = none)
    (h : run files time args input = .ok result) :
    (8 ∣ o.memorySize → ¬ Overhangs files o) ∧
    (result.exitCode = 0 ∨ result.exitCode = 1) ∧
    (¬ Overhangs files o →
      (result.exitCode = 0 ↔ Loads files o ∧ GoesWell files o input) ∧
      (¬ Loads files o → result.output = .empty)) ∧
    (Overhangs files o →
      ¬ Loads files o ∧ (result.exitCode = 0 ↔ GoesWell files o input)) ∧
    (∀ e d, Held files o input (.error e) d → e.isFatal = true) ∧
    (o.batch = true → (∀ input', run files time args input' = .ok result) ∧
      (Loads files o ∨ Overhangs files o → ∃ d, Held files o input (.ok ()) d ∧
        result.output = (endText d.machine).toUTF8 ∧
        (result.exitCode = 0 ↔ d.machine.status.EndedWell))) := by
  have hbatch : o.batch = true → ∀ input', run files time args input' = .ok result :=
    fun hb input' => (run_batch hargs hb input input').trans h
  have hfatal : ∀ e d, Held files o input (.error e) d → e.isFatal = true :=
    fun e d hheld => (held_ends hheld).1 e rfl
  refine ⟨not_overhangs_of_dvd, ?_⟩
  rcases run_cases hargs hlog h with ⟨hnot, rfl⟩ | ⟨hloaded, r, d, hheld, rfl⟩
  · have hfails : failure ≠ 0 := by decide
    exact ⟨.inr rfl,
      fun _ => ⟨iff_of_false hfails fun hwell => hnot (.inl hwell.1), fun _ => rfl⟩,
      fun hover => absurd (.inr hover) hnot, hfatal,
      fun hb => ⟨hbatch hb, fun hloaded => absurd hloaded hnot⟩⟩
  · have hcode := held_exitCode hheld
    refine ⟨?_, fun hover => ?_, fun hover => ⟨hover.not_loads, hcode⟩, hfatal,
      fun hb => ⟨hbatch hb, fun _ => ?_⟩⟩
    · cases r with
      | ok u => exact exitCode_cases d
      | error e => exact .inr rfl
    · have hloads : Loads files o := hloaded.resolve_right hover
      exact ⟨hcode.trans (and_iff_right hloads).symm, fun hnot => absurd hloads hnot⟩
    · obtain ⟨-, hwell, hend⟩ := held_ends hheld
      obtain ⟨rfl, hout⟩ := hend hb
      have hnot : ¬ Leaves o.batch input := fun hl => nomatch hb.symm.trans hl.1
      exact ⟨d, hheld, hout, hwell.trans (or_iff_right hnot)⟩

/-- A line that is no text ends a session badly, and in batch mode it is not read. -/
theorem run_exitCode_invalid_text :
    ∃ o o' : Options, ∃ result result', CommandLine.parse ["--memory-size=64"] = .ok (.run o) ∧
      CommandLine.parse ["-b"] = .ok (.run o') ∧ o.log? = none ∧ o'.log? = none ∧
      run .bare "" ["--memory-size=64"] [0x70, 0x0a, 0xff] = .ok result ∧
      run .bare "" ["-b"] [0x70, 0x0a, 0xff] = .ok result' ∧
      8 ∣ o.memorySize ∧ result.exitCode = 1 ∧ Loads .bare o ∧
      ¬ GoesWell .bare o [0x70, 0x0a, 0xff] ∧
      8 ∣ o'.memorySize ∧ result'.exitCode = 0 ∧ GoesWell .bare o' [0x70, 0x0a, 0xff] := by
  have hargs : (CommandLine.parse ["--memory-size=64"]).toOption =
      some (.run ⟨none, false, none, some 64⟩) := by
    decide +kernel
  have hargs' : (CommandLine.parse ["-b"]).toOption = some (.run ⟨none, true, none, none⟩) := by
    decide +kernel
  have hruns : (do
      let result ← run .bare "" ["--memory-size=64"] [0x70, 0x0a, 0xff]
      let result' ← run .bare "" ["-b"] [0x70, 0x0a, 0xff]
      return (result.exitCode, result'.exitCode) : Except Crash _).toOption = some (1, 0) := by
    decide +kernel
  have hparse := eq_ok_of_toOption hargs
  have hparse' := eq_ok_of_toOption hargs'
  obtain ⟨result, hrun, h⟩ := bind_eq_ok (eq_ok_of_toOption hruns)
  obtain ⟨result', hrun', h⟩ := bind_eq_ok h
  obtain ⟨hcode, hcode'⟩ := Prod.mk.inj (Except.ok.inj h)
  have hsize : 8 ∣ (⟨none, false, none, some 64⟩ : Options).memorySize := by decide
  have hsize' : 8 ∣ (⟨none, true, none, none⟩ : Options).memorySize := by decide
  obtain ⟨hover, -, hzero, -⟩ := run_exitCode hparse rfl hrun
  obtain ⟨hover', -, hzero', -⟩ := run_exitCode hparse' rfl hrun'
  have hloads : Loads .bare ⟨none, false, none, some 64⟩ := ⟨_, rfl, by decide⟩
  have hwell := ((hzero' (hover' hsize')).1.mp hcode').2
  refine ⟨_, _, result, result', hparse, hparse', rfl, rfl, hrun, hrun', hsize, hcode, hloads,
    fun hgoes => ?_, hsize', hcode', hwell⟩
  cases hcode.symm.trans ((hzero (hover hsize)).1.mpr ⟨hloads, hgoes⟩)

/-- The built-in image has 20 bytes, and 17 bytes of memory take three lanes. -/
theorem run_exitCode_overhang :
    ¬ ∀ (files : Files) (time : String) (args : List String) (o : Options) (input : List UInt8)
      (result : Result), CommandLine.parse args = .ok (.run o) → o.log? = none →
      run files time args input = .ok result →
      (result.exitCode = 0 ↔ Loads files o ∧ GoesWell files o input) := by
  intro hall
  have hargs : (CommandLine.parse ["--memory-size", "17", "-b"]).toOption =
      some (.run ⟨none, true, none, some 17⟩) := by
    decide +kernel
  have hruns : (do
      let result ← run .bare "" ["--memory-size", "17", "-b"] []
      return result.exitCode : Except Crash _).toOption = some 0 := by
    decide +kernel
  obtain ⟨result, hrun, h⟩ := bind_eq_ok (eq_ok_of_toOption hruns)
  have hcode : result.exitCode = 0 := Except.ok.inj h
  have hloads := ((hall .bare "" _ _ [] result (eq_ok_of_toOption hargs) rfl hrun).mp hcode).1
  have hover : Overhangs .bare ⟨none, true, none, some 17⟩ := ⟨_, rfl, by decide, by decide⟩
  exact hover.not_loads hloads

end Program

end Hartwatch
