import Hartwatch.Proofs.Debugger.Composition

/-! What an output takes. An action that is oblivious of its output writes the same text on each one
and stops where the text no longer fits. Sequences of oblivious actions are oblivious. -/

namespace Hartwatch

namespace Sink

variable {s : Sink} {t u : ByteArray}

def takes (s : Sink) (bytes : ByteArray) : Bool :=
  s.room?.all fun room => bytes.size ≤ room

def kept (s : Sink) (bytes : ByteArray) : ByteArray :=
  match s.room? with
  | none => bytes
  | some room => bytes.extract 0 room

def after (s : Sink) (bytes : ByteArray) : Sink :=
  ⟨s.bytes ++ s.kept bytes, s.room?.map fun room => room - bytes.size⟩

theorem extract_of_size_le {room : Nat} (h : t.size ≤ room) : t.extract 0 room = t := by
  rw [← Nat.max_eq_left h]
  exact ByteArray.extract_zero_max_size

theorem extract_append_of_size_lt {room : Nat} (h : room < t.size) :
    (t ++ u).extract 0 room = t.extract 0 room := by
  have hnone : room - t.size = 0 := by omega
  rw [ByteArray.extract_append, hnone, Nat.zero_sub, ByteArray.extract_same,
    ByteArray.append_empty]

theorem write_eq (s : Sink) (text : String) :
    s.write text = (s.takes text.toUTF8, s.after text.toUTF8) := by
  obtain ⟨bytes, room?⟩ := s
  cases room? with
  | none => rfl
  | some room =>
    by_cases hfits : text.utf8ByteSize ≤ room
    · have hall : text.toByteArray.extract 0 room = text.toByteArray := extract_of_size_le hfits
      simp [write, takes, after, kept, hfits, hall]
    · have hspent : room - text.utf8ByteSize = 0 := by omega
      simp [write, takes, after, kept, hfits, hspent]

theorem takes_of_no_limit (h : s.room? = none) (bytes : ByteArray) : s.takes bytes = true := by
  simp [takes, h]

theorem after_of_no_limit (h : s.room? = none) (bytes : ByteArray) :
    s.after bytes = ⟨s.bytes ++ bytes, none⟩ := by
  simp [after, kept, h]

theorem room?_after (h : s.room? = none) (bytes : ByteArray) : (s.after bytes).room? = none := by
  rw [after_of_no_limit h]

theorem takes_empty (s : Sink) : s.takes .empty = true := by
  simp [takes]

theorem after_empty (s : Sink) : s.after .empty = s := by
  obtain ⟨bytes, room?⟩ := s
  cases room? with
  | none => simp [after, kept]
  | some room =>
    have hnone : ByteArray.empty.extract 0 room = .empty := extract_of_size_le (Nat.zero_le room)
    simp [after, kept, hnone]

theorem takes_append (s : Sink) (t u : ByteArray) :
    s.takes (t ++ u) = (s.takes t && (s.after t).takes u) := by
  obtain ⟨bytes, room?⟩ := s
  cases room? with
  | none => rfl
  | some room =>
    have hsizes : t.size + u.size ≤ room ↔ t.size ≤ room ∧ u.size ≤ room - t.size := by omega
    simp [takes, after, hsizes]

theorem after_append (h : s.takes t = true) : (s.after t).after u = s.after (t ++ u) := by
  obtain ⟨bytes, room?⟩ := s
  cases room? with
  | none => simp [after, kept, ByteArray.append_assoc]
  | some room =>
    have hfits : t.size ≤ room := by simpa [takes] using h
    simp [after, kept, ByteArray.extract_append, extract_of_size_le hfits, ByteArray.append_assoc,
      Nat.sub_sub]

theorem bytes_after_of_takes (h : s.takes t = true) : (s.after t).bytes = s.bytes ++ t := by
  obtain ⟨bytes, room?⟩ := s
  cases room? with
  | none => rfl
  | some room =>
    have hfits : t.size ≤ room := by simpa [takes] using h
    simp [after, kept, extract_of_size_le hfits]

theorem after_after (h : s.room? = none) (t u : ByteArray) :
    (s.after t).after u = s.after (t ++ u) :=
  after_append (takes_of_no_limit h t)

theorem after_append_of_not (h : s.takes t = false) : s.after (t ++ u) = s.after t := by
  obtain ⟨bytes, room?⟩ := s
  cases room? with
  | none => cases h
  | some room =>
    have hlt : room < t.size := by simpa [takes] using h
    have hspent : room - (t ++ u).size = room - t.size := by
      rw [ByteArray.size_append]
      omega
    simp only [after, kept, Option.map_some, hspent, extract_append_of_size_lt hlt]

end Sink

namespace Debugger

open Session

variable {α β : Type} {d d' : Debugger} {s : Sink}

/-- What an action comes to on a given output, against what it comes to on one without limit. The
output takes the whole text and nothing else differs, or it is full. -/
inductive Follows (s : Sink) : Except Crash (Except Error α × Debugger) →
    Except Crash (Except Error α × Debugger) → Prop
  | crashed (c : Crash) : Follows s (.error c) (.error c)
  | taken {r : Except Error α} {d : Debugger} : s.takes d.out.bytes = true →
    Follows s (.ok (r, d)) (.ok (r, d.onto (s.after d.out.bytes)))
  | refused {full : Except Crash (Except Error α × Debugger)} {d' : Debugger} :
    s.room? ≠ none →
    (∀ r d, full = .ok (r, d) →
      s.takes d.out.bytes = false ∧ d'.out = s.after d.out.bytes) →
    Follows s full (.ok (.error (.stream .outputFull), d'))

theorem Follows.of_not_takes {full : Except Crash (Except Error α × Debugger)} {bytes : ByteArray}
    (hnot : s.takes bytes = false) (hout : d'.out = s.after bytes)
    (hmore : ∀ r d, full = .ok (r, d) → ∃ text, d.out.bytes = bytes ++ text) :
    Follows s full (.ok (.error (.stream .outputFull), d')) := by
  refine .refused (fun hnone => ?_) fun r d h => ?_
  · rw [Sink.takes_of_no_limit hnone] at hnot
    cases hnot
  · obtain ⟨text, hbytes⟩ := hmore r d h
    rw [hbytes, Sink.takes_append, hnot, Sink.after_append_of_not hnot]
    exact ⟨rfl, hout⟩

structure Oblivious (action : Session α) : Prop where
  appends : ∀ ⦃d r d'⦄, d.out.room? = none → action.on d = .ok (r, d') →
    ∃ text, d'.out = d.out.after text
  follows : ∀ ⦃d⦄ s, d.out.room? = none → s.takes d.out.bytes = true →
    Follows s (action.on d) (action.on (d.onto (s.after d.out.bytes)))

theorem room?_of_after {text : ByteArray} (hroom : d.out.room? = none)
    (hout : d'.out = d.out.after text) : d'.out.room? = none := by
  rw [hout, Sink.room?_after hroom]

theorem bytes_of_after {text : ByteArray} (hroom : d.out.room? = none)
    (hout : d'.out = d.out.after text) : d'.out.bytes = d.out.bytes ++ text := by
  rw [hout, Sink.after_of_no_limit hroom]

theorem on_write_of_takes {text : String} (h : d.out.takes text.toUTF8 = true) :
    (write text).on d = .ok (.ok (), d.onto (d.out.after text.toUTF8)) := by
  rw [on_write, Sink.write_eq]
  exact congrArg (fun r => Except.ok (r, _)) (if_pos h)

theorem on_write_of_no_limit (h : d.out.room? = none) (text : String) :
    (write text).on d = .ok (.ok (), d.onto (d.out.after text.toUTF8)) :=
  on_write_of_takes (Sink.takes_of_no_limit h _)

theorem on_write_of_not {text : String} (h : d.out.takes text.toUTF8 = false) :
    (write text).on d =
      .ok (.error (.stream .outputFull), d.onto (d.out.after text.toUTF8)) := by
  rw [on_write, Sink.write_eq]
  exact congrArg (fun r => Except.ok (r, _)) (if_neg (Bool.not_eq_true _ ▸ h))

theorem on_lift_bind (action : Session α) (next : Except Error α → Session β) (d : Debugger) :
    (ExceptT.lift action.run >>= next : Session β).on d =
      action.on d >>= fun x => (next x.1).on x.2 := by
  rw [on_bind]
  change (action.on d >>= fun x => .ok (.ok x.1, x.2)) >>= continueWith next = _
  cases action.on d <;> rfl

namespace Oblivious

theorem of_onto {action : Session α} {r : Except Error α} {f : Debugger → Debugger}
    (hon : ∀ d, action.on d = .ok (r, f d)) (hf : ∀ d out, f (d.onto out) = (f d).onto out) :
    Oblivious action := by
  have hout : ∀ d, (f d).out = d.out := by
    intro d
    have hsame : f d = (f d).onto d.out := hf d d.out
    rw [hsame]
    rfl
  refine ⟨fun d r' d' _ h => ?_, fun d s _ htakes => ?_⟩
  · obtain ⟨-, rfl⟩ := Prod.mk.inj (Except.ok.inj ((hon d).symm.trans h))
    exact ⟨.empty, by rw [hout, Sink.after_empty]⟩
  · rw [hon, hon, hf, ← hout]
    exact .taken (by rw [hout]; exact htakes)

theorem pure (x : α) : Oblivious (Pure.pure x : Session α) :=
  .of_onto (f := id) (fun _ => rfl) fun _ _ => rfl

theorem throw (e : Error) : Oblivious (MonadExcept.throw e : Session α) :=
  .of_onto (f := id) (fun _ => rfl) fun _ _ => rfl

theorem update {f : Debugger → Debugger} (hf : ∀ d out, f (d.onto out) = (f d).onto out) :
    Oblivious (modify f : Session PUnit) :=
  .of_onto (fun _ => rfl) hf

theorem liftM (x : Except Crash α) : Oblivious (MonadLiftT.monadLift x : Session α) := by
  cases x with
  | ok x => exact pure x
  | error c =>
    refine ⟨fun d r d' _ h => ?_, fun d s _ _ => ?_⟩
    · cases h
    · exact Follows.crashed c

theorem write (text : String) : Oblivious (write text) := by
  refine ⟨fun d r d' hroom h => ?_, fun d s hroom htakes => ?_⟩
  · rw [on_write_of_no_limit hroom] at h
    obtain ⟨-, rfl⟩ := Prod.mk.inj (Except.ok.inj h)
    exact ⟨text.toUTF8, rfl⟩
  · have hbytes : (d.onto (d.out.after text.toUTF8)).out.bytes = d.out.bytes ++ text.toUTF8 :=
      bytes_of_after hroom rfl
    have hfits := s.takes_append d.out.bytes text.toUTF8
    have hend : (s.after d.out.bytes).after text.toUTF8 = s.after (d.out.bytes ++ text.toUTF8) :=
      Sink.after_append htakes
    rw [htakes, Bool.true_and] at hfits
    rw [on_write_of_no_limit hroom]
    cases hrest : (s.after d.out.bytes).takes text.toUTF8 with
    | true =>
      have htaken := Follows.taken (s := s) (r := Except.ok ())
        (d := d.onto (d.out.after text.toUTF8)) (by rw [hbytes, hfits, hrest])
      rw [hbytes, ← hend] at htaken
      rw [on_write_of_takes (d := d.onto (s.after d.out.bytes)) hrest]
      exact htaken
    | false =>
      rw [on_write_of_not (d := d.onto (s.after d.out.bytes)) hrest]
      refine .of_not_takes (hfits.trans hrest) hend fun r d' h => ⟨.empty, ?_⟩
      obtain ⟨-, rfl⟩ := Prod.mk.inj (Except.ok.inj h)
      rw [hbytes, ByteArray.append_empty]

/-- Whatever comes behind the first part sees the same on both outputs, or is not reached. -/
theorem proceed {action : Session α} {next : Except Error α → Session β} (ha : Oblivious action)
    (hn : ∀ r, Oblivious (next r))
    (hfull : next (.error (.stream .outputFull)) = MonadExcept.throw (.stream .outputFull)) :
    Oblivious (ExceptT.lift action.run >>= next) := by
  have hon : ∀ d, (ExceptT.lift action.run >>= next : Session β).on d =
      action.on d >>= fun x => (next x.1).on x.2 := fun d => on_lift_bind _ _ _
  refine ⟨fun d r d' hroom h => ?_, fun d s hroom htakes => ?_⟩
  · rw [hon] at h
    obtain ⟨⟨r₁, d₁⟩, hfirst, h⟩ := bind_eq_ok h
    obtain ⟨t, ht⟩ := ha.appends hroom hfirst
    obtain ⟨u, hu⟩ := (hn r₁).appends (room?_of_after hroom ht) h
    refine ⟨t ++ u, ?_⟩
    rw [hu, ht, Sink.after_after hroom]
  · rw [hon, hon]
    have hfirst := ha.follows s hroom htakes
    generalize hone : action.on d = full at hfirst
    generalize action.on (d.onto (s.after d.out.bytes)) = cut at hfirst
    cases hfirst with
    | crashed c => exact .crashed c
    | @taken r₁ d₁ htakes₁ =>
      obtain ⟨t, ht⟩ := ha.appends hroom hone
      exact (hn r₁).follows s (room?_of_after hroom ht) htakes₁
    | @refused _ d' hlimit hrefused =>
      have hstop : (Except.ok (.error (.stream .outputFull), d') >>= fun x =>
          (next x.1).on x.2) = .ok (.error (.stream .outputFull), d') := by
        change (next (.error (.stream .outputFull))).on d' = _
        rw [hfull]
        rfl
      rw [hstop]
      refine .refused hlimit fun r₂ d₂ h => ?_
      obtain ⟨⟨r₁, d₁⟩, rfl, h⟩ := bind_eq_ok h
      obtain ⟨hnot, hout⟩ := hrefused r₁ d₁ rfl
      obtain ⟨t, ht⟩ := ha.appends hroom hone
      have hroom₁ := room?_of_after hroom ht
      obtain ⟨u, hu⟩ := (hn r₁).appends hroom₁ h
      rw [bytes_of_after hroom₁ hu, Sink.takes_append, hnot, Sink.after_append_of_not hnot]
      exact ⟨rfl, hout⟩

theorem bind {action : Session α} {next : α → Session β} (ha : Oblivious action)
    (hn : ∀ x, Oblivious (next x)) : Oblivious (action >>= next) := by
  let onward : Except Error α → Session β
    | .ok x => next x
    | .error e => MonadExcept.throw e
  have hsame : (action >>= next) = ExceptT.lift action.run >>= onward := by
    funext d
    change (action >>= next).on d = (ExceptT.lift action.run >>= onward : Session β).on d
    rw [on_bind, on_lift_bind]
    congr 1
    funext x
    obtain ⟨r, d⟩ := x
    cases r <;> rfl
  have honward : ∀ r, Oblivious (onward r) := by
    intro r
    cases r with
    | ok x => exact hn x
    | error e => exact throw e
  rw [hsame]
  exact proceed ha honward rfl

theorem observe {next : Debugger → Session β} (hsame : ∀ d out, next (d.onto out) = next d)
    (hn : ∀ d, Oblivious (next d)) : Oblivious (get >>= next) := by
  refine ⟨fun d r d' hroom h => (hn d).appends hroom h, fun d s hroom htakes => ?_⟩
  have hfollows := (hn d).follows s hroom htakes
  change Follows s ((next d).on d) ((next (d.onto _)).on (d.onto _))
  rwa [hsame]

theorem quit : Oblivious quit :=
  update fun _ _ => rfl

end Oblivious

theorem oblivious_sequential : Sequential Oblivious where
  pure := .pure
  throw := fun _ => .throw _
  liftM := .liftM
  bind := .bind
  observe := .observe
  write := .write

end Debugger

end Hartwatch
