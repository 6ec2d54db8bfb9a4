import CS537.Foundation.Streams
import CS537.Shell.Parse

/-!
# The two modes

The loops of `main`.  In interactive mode the lines are read with `fgets` in chunks that fit into a
buffer of `MAX_COMMAND_LEN` bytes, and `long_line_flag` is carried from one chunk to the next; in
batch mode `getline` reads whole lines, whose lengths are compared with 512.  This module determines
the lines on which the modes agree.
-/

namespace CS537.Shell

open Foundation

def NUL : Char := Char.ofNat 0

/-- The C string in a buffer. -/
def cstring (buffer : List Char) : List Char := buffer.takeWhile (· ≠ NUL)

/-- The process does not come back from `parse_command`. -/
def endsShell (command : List Char) : Bool :=
  decide (parseCommand command = .exit ∨ parseCommand command = .undefined)

/-- What `main` does: it passes a string to `parse_command`, it prints that a line is longer than 512,
or it accesses the byte in front of an empty string. -/
inductive MainEvent where
  | call (command : List Char)
  | tooLong
  | outOfBounds
  deriving DecidableEq

/-- The number of bytes that `fgets` reads at most. -/
def chunkLen : ℕ := maxCommandLen - 1

/-- The end of the input has been reached while the chunk was read. -/
def feof (chunk : List Char) : Prop := chunk.length < chunkLen ∧ chunk.getLast? ≠ some '\n'

instance (chunk : List Char) : Decidable (feof chunk) := inferInstanceAs (Decidable (_ ∧ _))

theorem ne_nil_of_not_feof {chunk : List Char} (h : ¬feof chunk) : chunk ≠ [] := by
  rintro rfl
  exact h ⟨by decide, nofun⟩

/-- The loop of the interactive mode, on the bytes that come on `stdin`, a terminal or a pipe. -/
def interactive (longLineFlag : Bool) (stdin : List Char) : List MainEvent :=
  let chunk := (fgets '\n' chunkLen stdin).1
  let rest := (fgets '\n' chunkLen stdin).2
  if _h : feof chunk then []
  else
    let command := cstring chunk
    if command = [] then [.outOfBounds]
    else if command.getLast? ≠ some '\n' then
      if longLineFlag then interactive true rest else .tooLong :: interactive true rest
    else .call command :: if endsShell command then [] else interactive false rest
termination_by stdin.length
decreasing_by
  all_goals exact length_rest_lt (fgets_append chunkLen stdin) (ne_nil_of_not_feof _h)

/-- The loop of the batch mode, on the bytes that come from the file. -/
def batch (file : List Char) : List MainEvent :=
  let line := (getline '\n' file).1
  let rest := (getline '\n' file).2
  if _h : line = [] then []
  else if 512 < line.length then .tooLong :: batch rest
  else
    let command := cstring line
    if command = [] then [.outOfBounds]
    else .call command :: if endsShell command then [] else batch rest
termination_by file.length
decreasing_by
  all_goals exact length_rest_lt (getline_append file) _h

/-- A line that ends with a newline. -/
structure TextLine where
  text : List Char
  noNewline : '\n' ∉ text

namespace TextLine

variable (l : TextLine)

def bytes : List Char := l.text ++ ['\n']

/-- The line is one for both modes. -/
def Plain : Prop := NUL ∉ l.text ∧ l.bytes.length ≤ 512

instance : Decidable l.Plain := inferInstanceAs (Decidable (_ ∧ _))

/-- The number of chunks before the one with the newline. -/
def fullChunks : ℕ := l.text.length / chunkLen

/-- The bytes that are read last. -/
def lastChunk : List Char := l.text.drop (chunkLen * l.fullChunks) ++ ['\n']

/-- No chunk begins with the null character. -/
def ChunksStart : Prop := ∀ j ≤ l.fullChunks, (l.text.drop (chunkLen * j)).head? ≠ some NUL

instance : Decidable l.ChunksStart := Nat.decidableBallLE _ _

end TextLine

def stream (lines : List TextLine) : List Char := lines.flatMap TextLine.bytes

/-! ## What the modes should have in common -/

def commands (events : List MainEvent) : List (List Char) :=
  events.filterMap fun e ↦ match e with
    | .call command => some command
    | _ => none

def errors (events : List MainEvent) : ℕ := events.count .tooLong

/-- The number of lines longer than 512 before the one that ends the shell. -/
def rejected : List TextLine → ℕ
  | [] => 0
  | l :: rest =>
    if 512 < l.bytes.length then rejected rest + 1
    else if endsShell (cstring l.bytes) then 0
    else rejected rest

/-- What `main` has done in batch mode is what it does in interactive mode: the same strings are passed to
`parse_command`, and there is one error for each rejected line. -/
structure SameInBothModes (lines : List TextLine) (events : List MainEvent) : Prop where
  interactive : .outOfBounds ∉ interactive false (stream lines)
  batch : .outOfBounds ∉ events
  commands : commands (Shell.interactive false (stream lines)) = commands events
  interactiveErrors : errors (Shell.interactive false (stream lines)) = rejected lines
  batchErrors : errors events = rejected lines

/-- The next lines are these commands. -/
def Follow : List (List Char) → List TextLine → Prop
  | [], _ => True
  | _ :: _, [] => False
  | command :: commands, l :: rest => l.Plain ∧ l.bytes = command ∧ Follow commands rest

/-- The modes agree on the lines, from lines on which the interactive mode has passed on some more
strings.  The flag says that it has rejected the line before to its end. -/
def Alike (more : List (List Char)) (flag : Bool) : List TextLine → Prop
  | [] => more = []
  | l :: rest =>
    if l.Plain then
      (more ++ [l.bytes]).head? = some l.bytes ∧
        if endsShell l.bytes then more = [] else Alike (more ++ [l.bytes]).tail false rest
    else
      (flag = false ∧ 512 < l.bytes.length ∧ l.ChunksStart) ∧
        if NUL ∈ l.lastChunk then Alike more true rest
        else chunkLen ≤ l.text.length ∧
          if endsShell l.lastChunk then Follow (more ++ [l.lastChunk]) rest
          else Alike (more ++ [l.lastChunk]) false rest

variable {s rest chunk : List Char} {flag : Bool} {l : TextLine}

/-! ## Strings -/

theorem cstring_of_notMem (h : NUL ∉ s) : cstring s = s :=
  List.takeWhile_eq_self_iff.mpr fun _ hc ↦ decide_eq_true fun heq ↦ h (heq ▸ hc)

theorem interactive_calls (hread : fgets '\n' chunkLen s = (chunk, rest))
    (hlast : chunk.getLast? = some '\n') (hnul : NUL ∉ chunk) :
    interactive flag s = .call chunk :: if endsShell chunk then [] else interactive false rest := by
  have hfeof : ¬feof chunk := fun h ↦ h.2 hlast
  have hne : chunk ≠ [] := ne_nil_of_not_feof hfeof
  rw [interactive]
  simp only [hread, dif_neg hfeof, cstring_of_notMem hnul, if_neg hne, hlast, ne_eq,
    not_true_eq_false, if_false]

theorem interactive_nil (flag : Bool) : interactive flag [] = [] := by
  have hread : fgets '\n' chunkLen [] = ([], []) := rfl
  rw [interactive]
  simp only [hread]
  exact dif_pos ⟨by decide, nofun⟩

theorem batch_nil : batch [] = [] := by
  rw [batch]
  exact dif_pos rfl

/-! ## Lines -/

namespace TextLine

/-- The line behind its first chunk. -/
def tail (l : TextLine) : TextLine :=
  ⟨l.text.drop chunkLen, fun h ↦ l.noNewline ((List.drop_sublist _ _).mem h)⟩

theorem fgets_bytes (h : l.text.length < chunkLen) (rest : List Char) :
    fgets '\n' chunkLen (l.bytes ++ rest) = (l.bytes, rest) := by
  rw [bytes, List.append_assoc]
  exact fgets_line l.noNewline h

theorem nul_mem_bytes : NUL ∈ l.bytes ↔ NUL ∈ l.text := by
  rw [bytes, List.mem_append]
  exact or_iff_left (by decide)

theorem getLast?_bytes : l.bytes.getLast? = some '\n' := List.getLast?_concat ..

end TextLine

section Lines

variable (rest)

theorem interactive_short (hshort : l.text.length < chunkLen) (hnul : NUL ∉ l.text) (flag : Bool) :
    interactive flag (l.bytes ++ rest) =
      .call l.bytes :: if endsShell l.bytes then [] else interactive false rest :=
  interactive_calls (l.fgets_bytes hshort rest) l.getLast?_bytes (mt l.nul_mem_bytes.mp hnul)

theorem getline_bytes (l : TextLine) (rest : List Char) :
    getline '\n' (l.bytes ++ rest) = (l.bytes, rest) := by
  rw [TextLine.bytes, List.append_assoc]
  exact getline_line l.noNewline

end Lines

end CS537.Shell
