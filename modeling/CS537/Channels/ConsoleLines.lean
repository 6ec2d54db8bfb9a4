import CS537.Channels.Console

/-!
# The ring of the console holds lines

Each operation on `input` does to the lines in the ring what the console is for, so every run of the
console is a run of the console as its users see it.
-/

namespace CS537.Channels

open Foundation

/-- The ring holds the lines. -/
structure Input.Shows (i : Input) (x : Lines) : Prop where
  holds : i.ring.Holds uintBound INPUT_BUF (x.pending ++ x.edit)
  w_eq : i.w = (i.ring.first + x.pending.length) % uintBound
  no_newline : newline ∉ x.edit

namespace Input.Shows

variable {i : Input} {x : Lines}

theorem last_eq_w_iff (h : i.Shows x) : i.ring.last = i.w ↔ x.edit = [] := by
  rw [eq_comm, h.w_eq]
  exact (h.holds.drop_front inputSize).first_eq_last_iff inputSize

theorem first_eq_w_iff (h : i.Shows x) : i.ring.first = i.w ↔ x.pending = [] := by
  rw [h.w_eq]
  exact h.holds.take_front.first_eq_last_iff inputSize

/-- `input.e - input.w` -/
theorem edit_length (h : i.Shows x) : (i.ring.last + (uintBound - i.w)) % uintBound = x.edit.length := by
  rw [h.w_eq]
  exact (h.holds.drop_front inputSize).difference inputSize

/-- `input.e - input.r` -/
theorem length (h : i.Shows x) :
    (i.ring.last + (uintBound - i.ring.first)) % uintBound = x.pending.length + x.edit.length := by
  rw [h.holds.difference inputSize, List.length_append]

/-- The last byte of the line that is being typed is taken back. -/
theorem unpush {pending edit : List UInt8} {a : UInt8} (h : i.Shows ⟨pending, edit ++ [a]⟩) :
    i.ring.back uintBound INPUT_BUF = a ∧
      ({ i with ring := i.ring.unpush uintBound } : Input).Shows ⟨pending, edit⟩ := by
  have hholds := h.holds
  simp only [← List.append_assoc] at hholds
  obtain ⟨hback, hrest⟩ := hholds.unpush inputSize
  have hw : i.w = ((i.ring.unpush uintBound).first + pending.length) % uintBound := by
    rw [RingBuffer.unpush_first, h.w_eq]
  exact ⟨hback, hrest, hw, fun hmem ↦ h.no_newline (List.mem_append_left [a] hmem)⟩

theorem killLine {pending : List UInt8} (k : ℕ) {edit : List UInt8} (hk : edit.length = k) {i : Input}
    (h : i.Shows ⟨pending, edit⟩) :
    (Input.killLine k i).1.Shows ⟨pending, []⟩ ∧
      (Input.killLine k i).2 = List.replicate k BACKSPACE := by
  induction k generalizing edit i with
  | zero =>
    rw [List.length_eq_zero_iff] at hk
    subst hk
    exact ⟨h, rfl⟩
  | succ k ih =>
    rcases List.eq_nil_or_concat edit with rfl | ⟨edit, a, rfl⟩
    · cases hk
    · rw [List.concat_eq_append] at h hk
      obtain ⟨hback, hrest⟩ := h.unpush
      have hlast : i.ring.last ≠ i.w := mt h.last_eq_w_iff.mp (by simp)
      have hkeep : a ≠ newline := by
        rintro rfl
        exact h.no_newline (by simp)
      rw [Input.killLine, if_pos ⟨hlast, hback ▸ hkeep⟩]
      obtain ⟨hshows, hecho⟩ := ih (by simpa using hk) hrest
      exact ⟨hshows, congrArg (BACKSPACE :: ·) hecho⟩

/-- The first byte of the lines is taken out. -/
theorem pop {c : UInt8} {pending edit : List UInt8} (h : i.Shows ⟨c :: pending, edit⟩) :
    i.ring.front INPUT_BUF = c ∧ (⟨i.ring.pop uintBound, i.w⟩ : Input).Shows ⟨pending, edit⟩ := by
  obtain ⟨hfront, hrest⟩ := h.holds.pop inputSize
  refine ⟨hfront, hrest, ?_, h.no_newline⟩
  rw [h.w_eq, RingBuffer.pop_first, Nat.mod_add_mod, List.length_cons, Nat.add_right_comm, Nat.add_assoc]

/-- A byte is put at the end of the line that is being typed. -/
theorem push (h : i.Shows x) (hroom : x.pending.length + x.edit.length < INPUT_BUF) {c : UInt8} :
    (i.ring.push uintBound INPUT_BUF c).Holds uintBound INPUT_BUF (x.pending ++ x.edit ++ [c]) :=
  h.holds.push inputSize (by rwa [List.length_append]) c

/-- The line that is being typed goes on. -/
theorem typed (h : i.Shows x) {c : UInt8}
    (hpush : (i.ring.push uintBound INPUT_BUF c).Holds uintBound INPUT_BUF (x.pending ++ x.edit ++ [c]))
    (hc : c ≠ newline) :
    (⟨i.ring.push uintBound INPUT_BUF c, i.w⟩ : Input).Shows ⟨x.pending, x.edit ++ [c]⟩ := by
  refine ⟨?_, ?_, fun hmem ↦ ?_⟩
  · rw [← List.append_assoc]
    exact hpush
  · rw [RingBuffer.push_first, h.w_eq]
  · rcases List.mem_append.mp hmem with hedit | hlast
    · exact h.no_newline hedit
    · exact hc (List.mem_singleton.mp hlast).symm

/-- The line that is being typed is complete. -/
theorem commit {ring : RingBuffer UInt8} {xs : List UInt8} (h : ring.Holds uintBound INPUT_BUF xs) :
    (⟨ring, ring.last⟩ : Input).Shows ⟨xs, []⟩ := by
  refine ⟨?_, h.last_eq, List.not_mem_nil⟩
  rw [List.append_nil]
  exact h

end Input.Shows

/-- A key does the same to the ring and to the lines. -/
structure KeyResult.Matches (r : KeyResult Input) (r' : KeyResult Lines) : Prop where
  shows : r.input.Shows r'.input
  echo : r.echo = r'.echo
  wakes : r.wakes = r'.wakes

/-- A section of `consoleread` does the same to the ring and to the lines. -/
structure LineResult.Matches (r : LineResult Input) (r' : LineResult Lines) : Prop where
  shows : r.input.Shows r'.input
  bytes : r.bytes = r'.bytes
  taken : r.taken = r'.taken
  waits : r.waits = r'.waits

theorem Input.Shows.key {i : Input} {x : Lines} (h : i.Shows x) (c : UInt8) :
    (i.key c).Matches (x.key c) := by
  unfold Input.key Lines.key
  by_cases hp : c = ctrl 'P'
  · rw [if_pos hp, if_pos hp]
    exact ⟨h, rfl, rfl⟩
  rw [if_neg hp, if_neg hp]
  by_cases hu : c = ctrl 'U'
  · rw [if_pos hu, if_pos hu, h.edit_length]
    obtain ⟨hshows, hecho⟩ := Input.Shows.killLine x.edit.length rfl h
    exact ⟨hshows, hecho, rfl⟩
  rw [if_neg hu, if_neg hu]
  by_cases hback : c = ctrl 'H' ∨ c = 0x7f
  · rw [if_pos hback, if_pos hback]
    obtain ⟨pending, edit⟩ := x
    by_cases hnil : edit = []
    · rw [if_neg (not_not.mpr (h.last_eq_w_iff.mpr hnil)), if_neg (not_not.mpr hnil)]
      exact ⟨h, rfl, rfl⟩
    · rw [if_pos (mt h.last_eq_w_iff.mp hnil), if_pos hnil]
      rw [← List.dropLast_append_getLast hnil] at h
      exact ⟨h.unpush.2, rfl, rfl⟩
  rw [if_neg hback, if_neg hback, h.length]
  by_cases hroom : c ≠ 0 ∧ x.pending.length + x.edit.length < INPUT_BUF
  · rw [if_pos hroom, if_pos hroom]
    dsimp only
    generalize (if c = '\r'.toNat.toUInt8 then newline else c) = c'
    have hpush := h.push hroom.2 (c := c')
    have hfull := hpush.last_eq_full_iff inputSize
    rw [List.length_append, List.length_append, List.length_singleton] at hfull
    simp only [hfull]
    by_cases hcommit : c' = newline ∨ c' = ctrl 'D' ∨ x.pending.length + x.edit.length + 1 = INPUT_BUF
    · rw [if_pos hcommit, if_pos hcommit]
      exact ⟨.commit hpush, rfl, rfl⟩
    · rw [if_neg hcommit, if_neg hcommit]
      exact ⟨h.typed hpush fun heq ↦ hcommit (.inl heq), rfl, rfl⟩
  · rw [if_neg hroom, if_neg hroom]
    exact ⟨h, rfl, rfl⟩

theorem Input.Shows.read (target n : ℕ) {i : Input} {x : Lines} (h : i.Shows x) :
    (i.read target n).Matches (x.read target n) := by
  induction n generalizing i x with
  | zero => exact ⟨h, rfl, rfl, rfl⟩
  | succ n ih =>
    obtain ⟨pending, edit⟩ := x
    cases pending with
    | nil =>
      rw [Input.read, Lines.read, if_pos (h.first_eq_w_iff.mpr rfl)]
      exact ⟨h, rfl, rfl, rfl⟩
    | cons c pending =>
      have hnonempty : i.ring.first ≠ i.w := mt h.first_eq_w_iff.mp (List.cons_ne_nil c pending)
      obtain ⟨hfront, hrest⟩ := h.pop
      rw [Input.read, Lines.read, if_neg hnonempty]
      simp only [hfront, RingBuffer.unpop_pop h.holds.first_lt]
      by_cases heof : c = ctrl 'D'
      · rw [if_pos heof, if_pos heof]
        by_cases hsome : n + 1 < target
        · rw [if_pos hsome, if_pos hsome]
          exact ⟨h, rfl, rfl, rfl⟩
        · rw [if_neg hsome, if_neg hsome]
          exact ⟨hrest, rfl, rfl, rfl⟩
      rw [if_neg heof, if_neg heof]
      by_cases hline : c = newline
      · rw [if_pos hline, if_pos hline]
        exact ⟨hrest, rfl, rfl, rfl⟩
      · rw [if_neg hline, if_neg hline]
        have hnext := ih hrest
        exact ⟨hnext.shows, congrArg (c :: ·) hnext.bytes, congrArg (c :: ·) hnext.taken, hnext.waits⟩

/-! ## The machines -/

/-- The ring holds the lines, and all else is equal. -/
structure ConsoleState.Shows {ι : Type*} (s : ConsoleState Input ι) (t : ConsoleState Lines ι) : Prop where
  input : s.input.Shows t.input
  calls : s.calls = t.calls
  killed : s.killed = t.killed
  echo : s.echo = t.echo
  taken : s.taken = t.taken

namespace ConsoleState.Shows

variable {ι : Type*} {s : ConsoleState Input ι} {t : ConsoleState Lines ι}

theorem wakeReaders (h : s.Shows t) : s.wakeReaders.Shows t.wakeReaders :=
  ⟨h.input, by simp only [ConsoleState.wakeReaders, h.calls], h.killed, h.echo, h.taken⟩

theorem typed (h : s.Shows t) (k : UInt8) : (s.typed inputRing k).Shows (t.typed lineInput k) := by
  have hkey : (inputRing.key s.input k).Matches (lineInput.key t.input k) := h.input.key k
  have hstate : ({ s with
        input := (inputRing.key s.input k).input
        echo := s.echo ++ (inputRing.key s.input k).echo } : ConsoleState Input ι).Shows { t with
        input := (lineInput.key t.input k).input
        echo := t.echo ++ (lineInput.key t.input k).echo } :=
    ⟨hkey.shows, h.calls, h.killed, congrArg₂ (· ++ ·) h.echo hkey.echo, h.taken⟩
  simp only [ConsoleState.typed, hkey.wakes]
  by_cases hwakes : (lineInput.key t.input k).wakes = true
  · rw [if_pos hwakes, if_pos hwakes]
    exact hstate.wakeReaders
  · rw [if_neg hwakes, if_neg hwakes]
    exact hstate

theorem consoleintr (h : s.Shows t) (keys : List UInt8) :
    (s.consoleintr inputRing keys).Shows (t.consoleintr lineInput keys) := by
  induction keys generalizing s t with
  | nil => exact h
  | cons k keys ih => exact ih (h.typed k)

variable [DecidableEq ι]

theorem setCall (h : s.Shows t) (c : ι) (call : ConsoleCall) : (s.setCall c call).Shows (t.setCall c call) :=
  ⟨h.input, by simp only [ConsoleState.setCall, h.calls], h.killed, h.echo, h.taken⟩

theorem consoleread (h : s.Shows t) (c : ι) (target : ℕ) (got : List UInt8) :
    (s.consoleread inputRing c target got).Shows (t.consoleread lineInput c target got) := by
  generalize hr : inputRing.read target (target - got.length) s.input = r
  generalize hr' : lineInput.read target (target - got.length) t.input = r'
  have hread : r.Matches r' := hr ▸ hr' ▸ h.input.read target (target - got.length)
  have hstate : ({ s with input := r.input, killed := t.killed, taken := t.taken ++ r'.taken.map (c, ·) } :
      ConsoleState Input ι).Shows { t with input := r'.input, taken := t.taken ++ r'.taken.map (c, ·) } :=
    ⟨hread.shows, h.calls, rfl, h.echo, rfl⟩
  simp only [ConsoleState.consoleread, hr, hr', hread.bytes, hread.taken, hread.waits, h.killed, h.taken]
  by_cases hwaits : r'.waits = true
  · rw [if_pos hwaits, if_pos hwaits]
    by_cases hkilled : t.killed c = true
    · rw [if_pos hkilled, if_pos hkilled]
      exact hstate.setCall c _
    · rw [if_neg hkilled, if_neg hkilled]
      exact hstate.setCall c _
  · rw [if_neg hwaits, if_neg hwaits]
    exact hstate.setCall c _

theorem step (h : s.Shows t) {l : ConsoleLabel ι} {s' : ConsoleState Input ι}
    (hstep : s.step inputRing l = some s') : ∃ t', t.step lineInput l = some t' ∧ s'.Shows t' := by
  unfold ConsoleState.step at hstep ⊢
  rw [← h.calls]
  cases l with
  | intr keys => exact ⟨_, rfl, Option.some.inj hstep ▸ h.consoleintr keys⟩
  | kill c =>
    refine ⟨_, rfl, Option.some.inj hstep ▸ ⟨h.input, rfl, ?_, h.echo, h.taken⟩⟩
    exact congrArg (Function.update · c true) h.killed
  | callRead c target =>
    simp only at hstep ⊢
    split at hstep
    next => exact ⟨_, rfl, Option.some.inj hstep ▸ h.setCall c _⟩
    next => cases hstep
  | run c =>
    simp only at hstep ⊢
    split at hstep
    next => exact ⟨_, rfl, Option.some.inj hstep ▸ h.consoleread c _ _⟩
    next => cases hstep
  | wake c =>
    simp only at hstep ⊢
    split at hstep
    next => exact ⟨_, rfl, Option.some.inj hstep ▸ h.setCall c _⟩
    next => cases hstep

end ConsoleState.Shows

theorem consoleInit_shows (ι : Type*) : (consoleInit inputRing ι).Shows (consoleInit lineInput ι) :=
  ⟨⟨.empty (by decide) _, rfl, List.not_mem_nil⟩, rfl, rfl, rfl, rfl⟩

/-- Every run of the console is a run, with the same labels, of the console as its users see it, and
the two have the same calls, echo and bytes read. -/
theorem console_refines_lines {ι : Type*} [DecidableEq ι] {ls : List (ConsoleLabel ι)}
    {s : ConsoleState Input ι} (h : (console inputRing ι).run (consoleInit inputRing ι) ls = some s) :
    ∃ t, (console lineInput ι).run (consoleInit lineInput ι) ls = some t ∧ s.Shows t :=
  Machine.run_simulation (N := console lineInput ι) (R := ConsoleState.Shows)
    (fun _ _ _ _ hR hstep ↦ hR.step hstep) (consoleInit_shows ι) h

/-- A line is typed. -/
theorem console_refines_lines_typed :
    ∃ t, (console lineInput ℕ).run (consoleInit lineInput ℕ) [.intr [104, 105, 13]] = some t ∧
      ((consoleInit inputRing ℕ).consoleintr inputRing [104, 105, 13]).Shows t :=
  have hrun : (console inputRing ℕ).run (consoleInit inputRing ℕ) [.intr [104, 105, 13]] =
      some ((consoleInit inputRing ℕ).consoleintr inputRing [104, 105, 13]) := rfl
  console_refines_lines hrun

end CS537.Channels
