import CS537.Foundation.Machine
import CS537.Shell.Modes
import Mathlib.Data.PNat.Basic

/-!
# Runs of the batch mode

The shell reads the batch file through the buffer of a stream, and its children inherit both: the offset
of the open file is one for all of them, the buffers are copies.  A child in which `execvp` fails calls
`exit`, which puts the offset back by what is unread in the child's copy, and the shell reads these bytes
again.  As long as no child has anything unread, `main` gets the bytes of the file.
-/

namespace CS537.Shell

open Foundation

/-- The child that a command line starts: whether it is one in the background. -/
def childOf (command : List Char) : Option Bool :=
  match parseCommand command with
  | .general _ _ background => some background
  | _ => none

/-- The shell in batch mode. -/
structure BatchRun where
  /-- the offset of the batch file -/
  offset : ℕ
  /-- what the stream has read, and `getline` has not copied -/
  buffer : List Char
  /-- what `getline` has copied of the line -/
  line : List Char
  events : List MainEvent
  /-- the foreground child for which the shell waits, by the number of its unread bytes -/
  waiting : Option ℕ
  /-- the background children, in the same way -/
  children : List ℕ
  ended : Bool
  deriving DecidableEq

/-- The next system call of the shell on the file, the next copy of `getline`, or what a child does:
`execvp` has succeeded in the foreground child, which comes to its end, or it has failed in a child, which
calls `exit`. -/
inductive BatchLabel where
  | read
  | copy
  | finished
  | exited
  | exitedBackground (unread : ℕ)
  deriving DecidableEq

namespace BatchRun

def start : BatchRun := ⟨0, [], [], [], none, [], false⟩

/-- The body of the loop of `main`, on the line that `getline` has returned. -/
def pass (s : BatchRun) (line buffer : List Char) : BatchRun :=
  let s := { s with line := [], buffer }
  if 512 < line.length then { s with events := s.events ++ [.tooLong] }
  else
    let command := cstring line
    if command = [] then { s with events := s.events ++ [.outOfBounds], ended := true }
    else
      let s := { s with events := s.events ++ [.call command], ended := endsShell command }
      match childOf command with
      | none => s
      | some false => { s with waiting := some buffer.length }
      | some true => { s with children := buffer.length :: s.children }

/-- `lseek` by so many bytes back, which fails in front of the file. -/
def seekBack (s : BatchRun) (unread : ℕ) : BatchRun :=
  if unread ≤ s.offset then { s with offset := s.offset - unread } else s

/-- The shell is in `getline`. -/
def Reading (s : BatchRun) : Prop := s.ended = false ∧ s.waiting = none

instance (s : BatchRun) : Decidable s.Reading := inferInstanceAs (Decidable (_ ∧ _))

/-- What `read` returns for a buffer of `size` bytes. -/
def bytes (size : ℕ+) (file : List Char) (s : BatchRun) : List Char := (file.drop s.offset).take size

/-- The steps, for a stream with a buffer of `size` bytes. -/
def step (size : ℕ+) (file : List Char) (s : BatchRun) : BatchLabel → Option BatchRun
  | .read =>
    if s.Reading ∧ s.buffer = [] then
      -- at the end of the file `getline` returns what it has, or -1
      if s.bytes size file = [] then some (if s.line = [] then { s with ended := true } else s.pass s.line [])
      else some { s with offset := s.offset + (s.bytes size file).length, buffer := s.bytes size file }
    else none
  | .copy =>
    if s.Reading ∧ s.buffer ≠ [] then
      if '\n' ∈ s.buffer then
        some (s.pass (s.line ++ (getline '\n' s.buffer).1) (getline '\n' s.buffer).2)
      else some { s with line := s.line ++ s.buffer, buffer := [] }
    else none
  | .finished => if s.waiting = none then none else some { s with waiting := none }
  | .exited => s.waiting.map fun unread ↦ { s.seekBack unread with waiting := none }
  | .exitedBackground unread =>
    if unread ∈ s.children then
      some { s.seekBack unread with children := s.children.erase unread }
    else none

/-- A child that calls `exit` has no unread bytes. -/
def Undisturbed (s : BatchRun) : BatchLabel → Prop
  | .exited => s.waiting = some 0
  | .exitedBackground unread => unread = 0
  | .read | .copy | .finished => True

end BatchRun

/-- The batch mode on a file. -/
def batchMachine (size : ℕ+) (file : List Char) : Machine BatchRun BatchLabel where
  init s := s = .start
  step s l := s.step size file l

variable {size : ℕ+} {file text rest : List Char} {s t : BatchRun}

/-! ## Lines -/

/-- What has been copied of a line does not matter for its end. -/
theorem getline_append_left (htext : '\n' ∉ text) (rest : List Char) :
    getline '\n' (text ++ rest) = (text ++ (getline '\n' rest).1, (getline '\n' rest).2) := by
  induction text with
  | nil => rfl
  | cons c text ih =>
    obtain ⟨hc, htext⟩ := not_or.mp (mt List.mem_cons.mpr htext)
    rw [List.cons_append, getline, if_neg (Ne.symm hc), ih htext]
    rfl

/-- Nor does what comes behind its newline. -/
theorem getline_append_right (htext : '\n' ∈ text) (rest : List Char) :
    getline '\n' (text ++ rest) = ((getline '\n' text).1, (getline '\n' text).2 ++ rest) := by
  obtain ⟨u, v, rfl, hu⟩ := List.eq_append_cons_of_mem htext
  rw [getline_line hu, List.append_assoc, List.cons_append, getline_line hu]

/-- The batch mode on its first line. -/
theorem batch_step {line : List Char} (hread : getline '\n' text = (line, rest)) (hne : line ≠ []) :
    batch text =
      if 512 < line.length then .tooLong :: batch rest
      else if cstring line = [] then [.outOfBounds]
      else .call (cstring line) :: if endsShell (cstring line) then [] else batch rest := by
  rw [batch]
  simp only [hread, dif_neg hne]

/-! ## Steps -/

/-- What a step can do. -/
inductive BatchRun.Steps (size : ℕ+) (file : List Char) (s : BatchRun) : BatchLabel → BatchRun → Prop
  | endOfFile (hreading : s.Reading) (hbuffer : s.buffer = []) (hdrop : file.drop s.offset = [])
    (hline : s.line = []) : Steps size file s .read { s with ended := true }
  | lastLine (hreading : s.Reading) (hbuffer : s.buffer = []) (hdrop : file.drop s.offset = [])
    (hline : s.line ≠ []) : Steps size file s .read (s.pass s.line [])
  | read (hreading : s.Reading) (hbuffer : s.buffer = []) (hdrop : file.drop s.offset ≠ []) :
    Steps size file s .read
      { s with offset := s.offset + (s.bytes size file).length, buffer := s.bytes size file }
  | line (hreading : s.Reading) (hnewline : '\n' ∈ s.buffer) : Steps size file s .copy
      (s.pass (s.line ++ (getline '\n' s.buffer).1) (getline '\n' s.buffer).2)
  | copy (hreading : s.Reading) (hbuffer : s.buffer ≠ []) (hnewline : '\n' ∉ s.buffer) :
    Steps size file s .copy { s with line := s.line ++ s.buffer, buffer := [] }
  | finished {unread : ℕ} (hwaiting : s.waiting = some unread) :
    Steps size file s .finished { s with waiting := none }
  | exited {unread : ℕ} (hwaiting : s.waiting = some unread) :
    Steps size file s .exited { s.seekBack unread with waiting := none }
  | exitedBackground {unread : ℕ} (hmem : unread ∈ s.children) :
    Steps size file s (.exitedBackground unread)
      { s.seekBack unread with children := s.children.erase unread }

theorem BatchRun.bytes_eq_nil_iff : s.bytes size file = [] ↔ file.drop s.offset = [] := by
  rw [bytes, List.take_eq_nil_iff, or_iff_right size.pos.ne']

theorem BatchRun.bytes_append (size : ℕ+) (file : List Char) (s : BatchRun) :
    s.bytes size file ++ file.drop (s.offset + (s.bytes size file).length) = file.drop s.offset := by
  rw [← List.drop_drop, bytes, List.length_take]
  by_cases h : size ≤ (file.drop s.offset).length
  · rw [Nat.min_eq_left h, List.take_append_drop]
  · have hall := Nat.le_of_not_le h
    rw [Nat.min_eq_right hall, List.take_of_length_le hall, List.drop_length, List.append_nil]

theorem BatchRun.steps_of_step {l : BatchLabel} (h : s.step size file l = some t) :
    s.Steps size file l t := by
  cases l with
  | read =>
    rw [BatchRun.step] at h
    split_ifs at h with hreading hnone hline
    · obtain rfl := Option.some.inj h
      exact .endOfFile hreading.1 hreading.2 (bytes_eq_nil_iff.mp hnone) hline
    · obtain rfl := Option.some.inj h
      exact .lastLine hreading.1 hreading.2 (bytes_eq_nil_iff.mp hnone) hline
    · obtain rfl := Option.some.inj h
      exact .read hreading.1 hreading.2 (mt bytes_eq_nil_iff.mpr hnone)
  | copy =>
    rw [BatchRun.step] at h
    split_ifs at h with hreading hnewline
    · obtain rfl := Option.some.inj h
      exact .line hreading.1 hnewline
    · obtain rfl := Option.some.inj h
      exact .copy hreading.1 hreading.2 hnewline
  | finished =>
    rw [BatchRun.step] at h
    split_ifs at h with hwaiting
    obtain ⟨unread, hunread⟩ := Option.ne_none_iff_exists'.mp hwaiting
    obtain rfl := Option.some.inj h
    exact .finished hunread
  | exited =>
    obtain ⟨unread, hunread, rfl⟩ := Option.map_eq_some_iff.mp h
    exact .exited hunread
  | exitedBackground unread =>
    rw [BatchRun.step] at h
    split_ifs at h with hmem
    obtain rfl := Option.some.inj h
    exact .exitedBackground hmem

/-- The bytes that `main` still has to read. -/
def BatchRun.unread (file : List Char) (s : BatchRun) : List Char :=
  s.line ++ (s.buffer ++ file.drop s.offset)

/-- What is done and what is left is the batch mode on the file. -/
structure BatchInv (file : List Char) (s : BatchRun) : Prop where
  done : s.ended = true → s.events = batch file
  left : s.ended = false → s.events ++ batch (s.unread file) = batch file
  noNewline : '\n' ∉ s.line

namespace BatchInv

theorem start (file : List Char) : BatchInv file .start :=
  ⟨nofun, fun _ ↦ rfl, List.not_mem_nil⟩

/-- More has been read or copied. -/
theorem of_unread (h : BatchInv file s) (hended : s.ended = t.ended) (hevents : s.events = t.events)
    (hunread : s.unread file = t.unread file) (hnewline : '\n' ∉ t.line) : BatchInv file t := by
  refine ⟨fun hend ↦ ?_, fun hend ↦ ?_, hnewline⟩
  · rw [← hevents, h.done (hended.trans hend)]
  · rw [← hevents, ← hunread, h.left (hended.trans hend)]

/-- A line is passed on or rejected. -/
theorem pass (h : BatchInv file s) (hended : s.ended = false) {line buffer : List Char} (hne : line ≠ [])
    (hread : getline '\n' (s.unread file) = (line, buffer ++ file.drop s.offset)) :
    BatchInv file (s.pass line buffer) := by
  have hleft := h.left hended
  rw [batch_step hread hne] at hleft
  simp only [BatchRun.pass]
  split
  next hlong =>
    rw [if_pos hlong] at hleft
    refine ⟨fun hend ↦ absurd (hended.symm.trans hend) Bool.false_ne_true, fun _ ↦ ?_, List.not_mem_nil⟩
    exact (List.append_assoc _ _ _).trans hleft
  next hshort =>
    rw [if_neg hshort] at hleft
    split
    next hempty =>
      rw [if_pos hempty] at hleft
      exact ⟨fun _ ↦ hleft, nofun, List.not_mem_nil⟩
    next hcommand =>
      rw [if_neg hcommand] at hleft
      have hinv : BatchInv file { s with
          line := []
          buffer
          events := s.events ++ [.call (cstring line)]
          ended := endsShell (cstring line) } := by
        refine ⟨fun hend ↦ ?_, fun hend ↦ ?_, List.not_mem_nil⟩
        · rwa [if_pos hend] at hleft
        · rw [if_neg (Bool.eq_false_iff.mp hend)] at hleft
          exact (List.append_assoc _ _ _).trans hleft
      split
      · exact hinv
      · exact ⟨hinv.done, hinv.left, hinv.noNewline⟩
      · exact ⟨hinv.done, hinv.left, hinv.noNewline⟩

theorem seekBack_zero : s.seekBack 0 = s := if_pos (Nat.zero_le _)

theorem step (h : BatchInv file s) {l : BatchLabel} (hl : s.Undisturbed l)
    (hstep : s.step size file l = some t) : BatchInv file t := by
  cases BatchRun.steps_of_step hstep with
  | endOfFile hreading hbuffer hdrop hline =>
    have hleft := h.left hreading.1
    rw [BatchRun.unread, hline, hbuffer, hdrop, List.append_nil, List.append_nil, batch_nil,
      List.append_nil] at hleft
    exact ⟨fun _ ↦ hleft, nofun, h.noNewline⟩
  | lastLine hreading hbuffer hdrop hline =>
    refine h.pass hreading.1 hline ?_
    rw [BatchRun.unread, hbuffer, hdrop, List.append_nil, List.append_nil, getline_last h.noNewline]
  | read hreading hbuffer hdrop =>
    refine h.of_unread rfl rfl ?_ h.noNewline
    rw [BatchRun.unread, BatchRun.unread, hbuffer, List.nil_append, s.bytes_append]
  | line hreading hnewline =>
    have hne : (getline '\n' s.buffer).1 ≠ [] := getline_ne_nil (List.ne_nil_of_mem hnewline)
    refine h.pass hreading.1 (List.append_ne_nil_of_right_ne_nil _ hne) ?_
    rw [BatchRun.unread, getline_append_left h.noNewline, getline_append_right hnewline]
  | copy hreading hbuffer hnewline =>
    refine h.of_unread rfl rfl (List.append_assoc _ _ _).symm fun hmem ↦ ?_
    exact (List.mem_append.mp hmem).elim h.noNewline hnewline
  | finished => exact ⟨h.done, h.left, h.noNewline⟩
  | @exited unread hwaiting =>
    obtain rfl := Option.some.inj (hwaiting.symm.trans hl)
    rw [seekBack_zero]
    exact ⟨h.done, h.left, h.noNewline⟩
  | exitedBackground hmem =>
    obtain rfl : _ = 0 := hl
    rw [seekBack_zero]
    exact ⟨h.done, h.left, h.noNewline⟩

theorem of_reachable (h : (batchMachine size file).ReachableVia BatchRun.Undisturbed s) :
    BatchInv file s :=
  h.invariant (fun _ hs ↦ hs ▸ start file) fun _ _ _ _ hinv hl hstep ↦ hinv.step hl hstep

end BatchInv

/-! ## The end -/

/-- What is left to do: to read, to copy, and to pass on. -/
def BatchRun.work (file : List Char) (s : BatchRun) : ℕ :=
  3 * (file.drop s.offset).length + 2 * s.buffer.length + if s.line = [] then 0 else 1

end CS537.Shell
