import CS537.Shell.BatchRuns

/-!
# The lines on which the modes agree

The strings that the interactive mode passes on end with a newline, and those of the batch mode have
at most 512 bytes.  With the numbers of the errors this leaves little room for lines that the modes
treat differently: what one of them passes on, the other one has to pass on later.
-/

namespace CS537.Shell

open Foundation

variable {s command : List Char} {events : List MainEvent} {flag : Bool} {l : TextLine}
  {lines : List TextLine} {more : List (List Char)} {n : ℕ}

/-! ## Commands and errors -/

@[simp]
theorem commands_nil : commands [] = [] := rfl

@[simp]
theorem commands_call : commands (.call command :: events) = command :: commands events := rfl

@[simp]
theorem commands_tooLong : commands (.tooLong :: events) = commands events := rfl

@[simp]
theorem commands_outOfBounds : commands (.outOfBounds :: events) = commands events := rfl

@[simp]
theorem errors_nil : errors [] = 0 := rfl

@[simp]
theorem outOfBounds_mem_call :
    .outOfBounds ∈ MainEvent.call command :: events ↔ .outOfBounds ∈ events := by
  simp

@[simp]
theorem outOfBounds_mem_tooLong :
    .outOfBounds ∈ MainEvent.tooLong :: events ↔ .outOfBounds ∈ events := by
  simp

theorem stream_nil : stream [] = [] := rfl

theorem stream_cons (l : TextLine) (lines : List TextLine) :
    stream (l :: lines) = l.bytes ++ stream lines := List.flatMap_cons

theorem TextLine.ChunksStart.head (h : l.ChunksStart) : l.text.head? ≠ some NUL := h 0 (Nat.zero_le _)

theorem TextLine.length_lt_of_short (h : l.bytes.length ≤ 512) : l.text.length < chunkLen := by
  rw [TextLine.bytes, List.length_append, List.length_singleton] at h
  rw [chunkLen, maxCommandLen]
  omega

section Agree

variable {i b : List MainEvent}

end Agree

theorem nul_mem_of_lastChunk (h : NUL ∈ l.lastChunk) : NUL ∈ l.text := by
  rcases List.mem_append.mp h with h | h
  · exact (List.drop_sublist _ _).mem h
  · exact absurd h (by decide)

/-- The lines up to the one that ends the shell satisfy a condition. -/
def UpToEnd (p : TextLine → Prop) : List TextLine → Prop
  | [] => True
  | l :: rest => p l ∧ (endsShell l.bytes = true ∨ UpToEnd p rest)

/-- What the interactive mode has passed on too much cannot be made up for without a chunk that ends the
shell. -/
theorem not_alike_of_more (hnul : ∀ l ∈ lines, NUL ∉ l.text)
    (hends : ∀ l ∈ lines, 512 < l.bytes.length → endsShell l.lastChunk = false) (hmore : more ≠ []) :
    ¬Alike more flag lines := by
  induction lines generalizing more flag with
  | nil => exact hmore
  | cons l lines ih =>
    obtain ⟨hnulHead, hnul⟩ := List.forall_mem_cons.mp hnul
    obtain ⟨hendsHead, hends⟩ := List.forall_mem_cons.mp hends
    intro h
    rw [Alike] at h
    split at h
    next hplain =>
      split at h
      · exact hmore h.2
      · refine ih hnul hends ?_ h.2
        obtain ⟨c, more, rfl⟩ := List.exists_cons_of_ne_nil hmore
        simp
    next =>
      obtain ⟨⟨-, hlong, -⟩, h⟩ := h
      rw [if_neg (mt nul_mem_of_lastChunk hnulHead), hendsHead hlong] at h
      exact ih hnul hends (by simp) h.2

/-- Without null characters and chunks that end the shell, only the lengths of the lines count. -/
theorem alike_text_iff (hnul : ∀ l ∈ lines, NUL ∉ l.text)
    (hends : ∀ l ∈ lines, 512 < l.bytes.length → endsShell l.lastChunk = false) :
    Alike [] false lines ↔ UpToEnd (fun l ↦ l.bytes.length ≤ 512) lines := by
  induction lines with
  | nil => exact iff_of_true rfl trivial
  | cons l lines ih =>
    obtain ⟨hnulHead, hnul⟩ := List.forall_mem_cons.mp hnul
    obtain ⟨hendsHead, hends⟩ := List.forall_mem_cons.mp hends
    rw [Alike, UpToEnd]
    by_cases hlength : l.bytes.length ≤ 512
    · rw [if_pos ⟨hnulHead, hlength⟩, List.nil_append, List.head?_cons, List.tail_cons,
        and_iff_right rfl, and_iff_right hlength]
      cases endsShell l.bytes with
      | true => exact iff_of_true rfl (.inl rfl)
      | false => exact (ih hnul hends).trans (or_iff_right (by decide)).symm
    · have hlong := Nat.not_le.mp hlength
      rw [if_neg fun h ↦ hlength h.2, if_neg (mt nul_mem_of_lastChunk hnulHead), hendsHead hlong]
      refine iff_of_false (fun h ↦ ?_) fun h ↦ hlength h.1
      exact not_alike_of_more hnul hends (by simp) h.2.2

/-! ## Lines that are read again -/

section Again

variable {size : ℕ+} {file buffer : List Char} {s : BatchRun}

/-- A line that is passed on and does not end the shell. -/
structure TextLine.Goes (l : TextLine) : Prop where
  plain : l.Plain
  goes : endsShell l.bytes = false

theorem TextLine.Goes.notMem (h : l.Goes) : NUL ∉ l.bytes := mt l.nul_mem_bytes.mp h.plain.1

theorem TextLine.Goes.cstring_eq (h : l.Goes) : cstring l.bytes = l.bytes := cstring_of_notMem h.notMem

/-- What `main` does with such a line. -/
theorem TextLine.Goes.pass_eq (h : l.Goes) (s : BatchRun) (buffer : List Char) :
    ∃ waiting children, s.pass l.bytes buffer = { s with
      line := [], buffer, waiting, children
      events := s.events ++ [.call l.bytes]
      ended := false } ∧ (childOf l.bytes = some false → waiting = some buffer.length) := by
  have hne : l.bytes ≠ [] := List.append_ne_nil_of_right_ne_nil _ (List.cons_ne_nil _ _)
  simp only [BatchRun.pass, if_neg (Nat.not_lt.mpr h.plain.2), h.cstring_eq, if_neg hne, h.goes]
  split
  next hnone => exact ⟨_, _, rfl, fun hsome ↦ absurd (hnone.symm.trans hsome) (by simp)⟩
  next => exact ⟨_, _, rfl, fun _ ↦ rfl⟩
  next hsome => exact ⟨_, _, rfl, fun hfalse ↦ absurd (hsome.symm.trans hfalse) (by simp)⟩

theorem newline_mem_bytes (l : TextLine) (rest : List Char) : '\n' ∈ l.bytes ++ rest :=
  List.mem_append_left _ (List.mem_append_right _ (List.mem_singleton_self _))

/-- The shell copies the next line from its buffer. -/
theorem step_copy (size : ℕ+) (file : List Char) (hreading : s.Reading) (hline : s.line = [])
    {rest : List Char} (hbuffer : s.buffer = l.bytes ++ rest) :
    (batchMachine size file).step s .copy = some (s.pass l.bytes rest) := by
  change s.step size file .copy = _
  have hmem : '\n' ∈ s.buffer := hbuffer ▸ newline_mem_bytes l rest
  rw [BatchRun.step, if_pos ⟨hreading, List.ne_nil_of_mem hmem⟩, if_pos hmem, hbuffer, getline_bytes, hline,
    List.nil_append]

/-- The lines in the buffer are passed on, and their foreground children finish. -/
theorem exists_passed (hlines : ∀ l ∈ lines, l.Goes) (hs : (batchMachine size file).Reachable s)
    (hreading : s.Reading) (hline : s.line = []) (hbuffer : s.buffer = stream lines) :
    ∃ children, (batchMachine size file).Reachable { s with
      buffer := [], children
      events := s.events ++ lines.map fun l ↦ .call l.bytes } := by
  induction lines generalizing s with
  | nil =>
    refine ⟨s.children, ?_⟩
    rw [List.map_nil, List.append_nil, ← stream_nil, ← hbuffer]
    exact hs
  | cons l lines ih =>
    obtain ⟨hl, hlines⟩ := List.forall_mem_cons.mp hlines
    obtain ⟨waiting, children, hpass, -⟩ := hl.pass_eq s (stream lines)
    have hcopied := hs.next (step_copy size file hreading hline (hbuffer.trans (stream_cons l lines)))
    rw [hpass] at hcopied
    have hwaited : (batchMachine size file).Reachable { s with
        line := [], buffer := stream lines, waiting := none, children
        events := s.events ++ [.call l.bytes]
        ended := false } := by
      cases waiting with
      | none => exact hcopied
      | some unread => exact hcopied.next (l := .finished) rfl
    obtain ⟨children', hpassed⟩ := ih hlines hwaited ⟨rfl, rfl⟩ rfl rfl
    refine ⟨children', ?_⟩
    rw [List.append_assoc, List.singleton_append] at hpassed
    rw [List.map_cons, hline, hreading.1, hreading.2]
    exact hpassed

/-- At the end of the file the shell ends. -/
theorem exists_ended_of_eof (hs : (batchMachine size file).Reachable s) (hreading : s.Reading)
    (hline : s.line = []) (hbuffer : s.buffer = []) (hdrop : file.drop s.offset = []) :
    (batchMachine size file).Reachable { s with ended := true } := by
  refine hs.next (l := .read) ?_
  change s.step size file .read = _
  rw [BatchRun.step, if_pos ⟨hreading, hbuffer⟩, if_pos (BatchRun.bytes_eq_nil_iff.mpr hdrop), if_pos hline]

/-- What is left of the file fits into the buffer. -/
theorem exists_read (hs : (batchMachine size file).Reachable s) (hreading : s.Reading)
    (hbuffer : s.buffer = []) (hsize : (file.drop s.offset).length ≤ size) (hmore : file.drop s.offset ≠ []) :
    (batchMachine size file).Reachable
      { s with offset := s.offset + (file.drop s.offset).length, buffer := file.drop s.offset } := by
  have hbytes : s.bytes size file = file.drop s.offset := List.take_of_length_le hsize
  refine hs.next (l := .read) ?_
  change s.step size file .read = _
  rw [BatchRun.step, if_pos ⟨hreading, hbuffer⟩, hbytes, if_neg hmore]

theorem commands_map (lines : List TextLine) :
    commands (lines.map fun l ↦ .call l.bytes) = lines.map TextLine.bytes := by
  induction lines with
  | nil => rfl
  | cons l lines ih => rw [List.map_cons, commands_call, ih, List.map_cons]

theorem commands_interactive (hlines : ∀ l ∈ lines, l.Goes) :
    commands (interactive false (stream lines)) = lines.map TextLine.bytes := by
  induction lines with
  | nil =>
    rw [stream_nil, interactive_nil]
    rfl
  | cons l lines ih =>
    obtain ⟨hl, hlines⟩ := List.forall_mem_cons.mp hlines
    have hnul : NUL ∉ l.text := hl.plain.1
    rw [stream_cons, interactive_short _ (TextLine.length_lt_of_short hl.plain.2) hnul, hl.goes, commands_call]
    exact congrArg (l.bytes :: ·) (ih hlines)

/-- The condition is needed: when the first of some lines is a command that cannot be executed, the batch
mode passes on the others twice. -/
theorem lines_read_again (hl : l.Goes) (hlines : ∀ l ∈ lines, l.Goes) (hchild : childOf l.bytes = some false)
    (hmore : lines ≠ []) (hsize : (stream (l :: lines)).length ≤ size) :
    ∃ s, (batchMachine size (stream (l :: lines))).Reachable s ∧ s.ended = true ∧
      commands s.events = l.bytes :: (lines ++ lines).map TextLine.bytes ∧
      ¬SameInBothModes (l :: lines) s.events := by
  obtain ⟨file, hfile⟩ : ∃ file, file = stream (l :: lines) := ⟨_, rfl⟩
  have hstream : file = l.bytes ++ stream lines := hfile.trans (stream_cons l lines)
  have hrest : file.drop l.bytes.length = stream lines := by rw [hstream, List.drop_left]
  have hlength : file.length = l.bytes.length + (stream lines).length := by rw [hstream, List.length_append]
  have hne : stream lines ≠ [] := by
    obtain ⟨l', lines', rfl⟩ := List.exists_cons_of_ne_nil hmore
    rw [stream_cons]
    exact List.ne_nil_of_mem (newline_mem_bytes l' _)
  rw [← hfile] at hsize ⊢
  have hstart : (batchMachine size file).Reachable .start := .init rfl
  have hread : (batchMachine size file).Reachable ⟨file.length, file, [], [], none, [], false⟩ := by
    have hfirst : file ≠ [] := hstream ▸ List.ne_nil_of_mem (newline_mem_bytes l _)
    have hread := exists_read hstart ⟨rfl, rfl⟩ rfl hsize hfirst
    rwa [show BatchRun.start.offset = 0 from rfl, List.drop_zero, Nat.zero_add] at hread
  obtain ⟨waiting, children, hpass, hwaiting⟩ :=
    hl.pass_eq ⟨file.length, file, [], [], none, [], false⟩ (stream lines)
  have hcalled := hread.next (step_copy size file ⟨rfl, rfl⟩ rfl hstream)
  rw [hpass, hwaiting hchild] at hcalled
  have hback : (batchMachine size file).Reachable
      ⟨l.bytes.length, stream lines, [], [.call l.bytes], none, children, false⟩ := by
    have hle : (stream lines).length ≤ file.length := hlength ▸ Nat.le_add_left _ _
    have hoffset : file.length - (stream lines).length = l.bytes.length := by omega
    refine hcalled.next (l := .exited) (congrArg some ?_)
    simp only [BatchRun.seekBack, if_pos hle, hoffset]
    rfl
  obtain ⟨children, hpassed⟩ := exists_passed hlines hback ⟨rfl, rfl⟩ rfl rfl
  have hagain := exists_read hpassed ⟨rfl, rfl⟩ rfl (by rw [hrest]; omega) (hrest ▸ hne)
  simp only [hrest] at hagain
  obtain ⟨children, hpassed⟩ := exists_passed hlines hagain ⟨rfl, rfl⟩ rfl rfl
  have hended := exists_ended_of_eof hpassed ⟨rfl, rfl⟩ rfl rfl (by rw [← hlength, List.drop_length])
  have hcommands : commands ([.call l.bytes] ++ (lines.map fun l ↦ .call l.bytes) ++
      lines.map fun l ↦ .call l.bytes) = l.bytes :: (lines ++ lines).map TextLine.bytes := by
    rw [List.append_assoc, ← List.map_append, List.singleton_append, commands_call, commands_map]
  refine ⟨_, hended, rfl, hcommands, fun h ↦ hmore ?_⟩
  have hsame := h.commands
  rw [hcommands, commands_interactive (List.forall_mem_cons.mpr ⟨hl, hlines⟩), List.map_cons,
    List.cons_inj_right] at hsame
  have hlength := congrArg List.length hsame
  rw [List.length_map, List.length_map, List.length_append] at hlength
  exact List.eq_nil_of_length_eq_zero (by omega)

end Again

/-! ## A line of 600 bytes -/

end CS537.Shell
