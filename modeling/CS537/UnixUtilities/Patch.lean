import CS537.UnixUtilities.MyDiff
import Mathlib.Data.FinEnum

/-!
# Patches

How the output of `my-diff` is read: a number is the position of the next change, a removed line with
an added line behind it is a replacement, and at the end of the patch the rest of the lines is removed,
or lines are added to them.
-/

namespace CS537.UnixUtilities

open Foundation

inductive PatchLine where
  | position (n : ℕ)
  | removed (line : List UInt8)
  | added (line : List UInt8)
  deriving DecidableEq

namespace PatchLine

def text : PatchLine → List UInt8
  | position n => (numeral n).bytes
  | removed line => removedMark :: blank :: line
  | added line => addedMark :: blank :: line

def parse (line : List UInt8) : Option PatchLine :=
  if line.take 2 = [removedMark, blank] then some (removed (line.drop 2))
  else if line.take 2 = [addedMark, blank] then some (added (line.drop 2))
  else if line ≠ [] ∧ ∀ c ∈ line, 48 ≤ c ∧ c ≤ 57 then some (position (readDigits 10 0 line))
  else none

def addedLine : PatchLine → Option (List UInt8)
  | added line => some line
  | _ => none

end PatchLine

def parsePatch (text : List UInt8) : Option (List PatchLine) :=
  ((lines newline text).map (chomp newline)).mapM PatchLine.parse

/-- The lines that a patch makes out of those from a position on. -/
def applyPatch : ℕ → List (List UInt8) → List PatchLine → Option (List (List UInt8))
  | _, lines, [] => some lines
  | pos, lines, .position n :: patch =>
    if pos ≤ n ∧ n - pos ≤ lines.length then
      (applyPatch n (lines.drop (n - pos)) patch).map (lines.take (n - pos) ++ ·)
    else none
  | pos, line :: lines, .removed old :: .added new :: patch =>
    if line = old then (applyPatch (pos + 1) lines patch).map (new :: ·) else none
  | _, lines, patch =>
    if patch = lines.map .removed then some []
    else if lines = [] then patch.mapM PatchLine.addedLine
    else none

def patchLines (pos : ℕ) (lines : List (List UInt8)) (text : List UInt8) :
    Option (List (List UInt8)) :=
  (parsePatch text).bind (applyPatch pos lines)

variable {pos n : ℕ} {line old new : List UInt8} {kept lines : List (List UInt8)} {p : PatchLine}

/-! ## Reading a patch -/

namespace PatchLine

/-- A numeral does not begin with a mark. -/
theorem take_numeral_ne {mark : UInt8} (hmark : ¬(48 ≤ mark ∧ mark ≤ 57)) (n : ℕ) :
    (numeral n).bytes.take 2 ≠ [mark, blank] := fun h ↦
  hmark (digit_of_mem_numeral ((List.take_sublist 2 _).mem (h ▸ List.mem_cons_self)))

theorem parse_text (p : PatchLine) : parse p.text = some p := by
  cases p with
  | position n =>
    rw [text, parse, if_neg (take_numeral_ne (by decide) n), if_neg (take_numeral_ne (by decide) n),
      if_pos ⟨numeral_ne_nil n, fun _ ↦ digit_of_mem_numeral⟩, readDigits_numeral]
  | removed line => rfl
  | added line => rfl

end PatchLine

theorem parsePatch_nil : parsePatch [] = some [] := by
  rw [parsePatch, lines_nil]
  rfl

theorem parsePatch_line (hp : newline ∉ p.text) (text : List UInt8) :
    parsePatch (p.text ++ newline :: text) = (parsePatch text).map (p :: ·) := by
  rw [parsePatch, lines_line hp text, List.map_cons, chomp_concat, List.mapM_cons, p.parse_text, parsePatch]
  cases ((Foundation.lines newline text).map (chomp newline)).mapM PatchLine.parse with
  | none => rfl
  | some patch => rfl

theorem newline_notMem_marked {mark : UInt8} (hmark : newline ∉ [mark, blank])
    (hline : newline ∉ line) : newline ∉ mark :: blank :: line := fun h ↦
  (List.mem_append.mp h).elim hmark hline

theorem parsePatch_position (n : ℕ) (text : List UInt8) :
    parsePatch ((numeral n).bytes ++ newline :: text) = (parsePatch text).map (.position n :: ·) :=
  parsePatch_line (p := .position n) (fun h ↦ absurd (digit_of_mem_numeral h) (by decide)) text

theorem parsePatch_removed (hline : newline ∉ line) (text : List UInt8) :
    parsePatch (removedMark :: blank :: line ++ newline :: text) =
      (parsePatch text).map (.removed line :: ·) :=
  parsePatch_line (p := .removed line) (newline_notMem_marked (by decide) hline) text

theorem parsePatch_added (hline : newline ∉ line) (text : List UInt8) :
    parsePatch (addedMark :: blank :: line ++ newline :: text) =
      (parsePatch text).map (.added line :: ·) :=
  parsePatch_line (p := .added line) (newline_notMem_marked (by decide) hline) text

theorem parsePatch_text {patch : List PatchLine} (hpatch : ∀ p ∈ patch, newline ∉ p.text) :
    parsePatch (patch.flatMap fun p ↦ p.text ++ [newline]) = some patch := by
  induction patch with
  | nil => exact parsePatch_nil
  | cons p patch ih =>
    obtain ⟨hp, hpatch⟩ := List.forall_mem_cons.mp hpatch
    rw [List.flatMap_cons, List.append_assoc, List.singleton_append, parsePatch_line hp, ih hpatch,
      Option.map_some]

/-- The lines of a patch that all have the same mark. -/
def markedLines (mark : UInt8) (lines : List (List UInt8)) : List UInt8 :=
  lines.flatMap fun line ↦ mark :: blank :: line ++ [newline]

theorem parsePatch_markedLines {mark : UInt8} {p : List UInt8 → PatchLine}
    (hp : ∀ line, (p line).text = mark :: blank :: line) (hmark : newline ∉ [mark, blank])
    (hlines : ∀ line ∈ lines, newline ∉ line) :
    parsePatch (markedLines mark lines) = some (lines.map p) := by
  have htext : markedLines mark lines = (lines.map p).flatMap fun p ↦ p.text ++ [newline] := by
    rw [List.flatMap_map]
    simp only [hp]
    rfl
  rw [htext]
  refine parsePatch_text fun q hq ↦ ?_
  obtain ⟨line, hline, rfl⟩ := List.mem_map.mp hq
  rw [hp]
  exact newline_notMem_marked hmark (hlines line hline)

/-! ## Applying it -/

theorem patchLines_nil : patchLines pos lines [] = some lines := by
  rw [patchLines, parsePatch_nil, Option.bind_some, applyPatch]

/-- The lines before the position are kept. -/
theorem patchLines_position (hpos : pos + kept.length = n) (text : List UInt8) :
    patchLines pos (kept ++ lines) ((numeral n).bytes ++ newline :: text) =
      (patchLines n lines text).map (kept ++ ·) := by
  have hskip : n - pos = kept.length := by omega
  have hlength : pos ≤ n ∧ n - pos ≤ (kept ++ lines).length := by
    rw [List.length_append]
    omega
  rw [patchLines, parsePatch_position, patchLines]
  cases parsePatch text with
  | none => rfl
  | some patch =>
    simp only [Option.map_some, Option.bind_some]
    rw [applyPatch, if_pos hlength, hskip, List.drop_left, List.take_left]

theorem patchLines_replaced (hold : newline ∉ old) (hnew : newline ∉ new) (text : List UInt8) :
    patchLines pos (old :: lines)
        (removedMark :: blank :: old ++ newline :: (addedMark :: blank :: new ++ newline :: text)) =
      (patchLines (pos + 1) lines text).map (new :: ·) := by
  rw [patchLines, parsePatch_removed hold, parsePatch_added hnew, patchLines]
  cases parsePatch text with
  | none => rfl
  | some patch =>
    simp only [Option.map_some, Option.bind_some]
    rw [applyPatch, if_pos rfl]

/-- At the end the rest of the lines is removed. -/
theorem patchLines_removed (hlines : ∀ line ∈ lines, newline ∉ line) :
    patchLines pos lines (markedLines removedMark lines) = some [] := by
  rw [patchLines, parsePatch_markedLines (p := .removed) (fun _ ↦ rfl) (by decide) hlines,
    Option.bind_some]
  cases lines with
  | nil => rw [List.map_nil, applyPatch]
  | cons line lines =>
    cases lines with
    | nil => simp [applyPatch]
    | cons next lines => simp [applyPatch]

/-- Behind the last line other ones are added. -/
theorem patchLines_added (hlines : ∀ line ∈ lines, newline ∉ line) :
    patchLines pos [] (markedLines addedMark lines) = some lines := by
  have hadded : (lines.map PatchLine.added).mapM PatchLine.addedLine = some lines := by
    induction lines with
    | nil => rfl
    | cons line lines ih =>
      rw [List.map_cons, List.mapM_cons, ih (List.forall_mem_cons.mp hlines).2]
      rfl
  rw [patchLines, parsePatch_markedLines (p := .added) (fun _ ↦ rfl) (by decide) hlines,
    Option.bind_some]
  cases lines with
  | nil => rw [List.map_nil, applyPatch]
  | cons line lines => simpa [applyPatch] using hadded

/-- They are not added in front of a line. -/
theorem patchLines_added_cons (hne : lines ≠ []) (hlines : ∀ line ∈ lines, newline ∉ line) :
    patchLines pos (old :: kept) (markedLines addedMark lines) = none := by
  obtain ⟨line, lines, rfl⟩ := List.exists_cons_of_ne_nil hne
  rw [patchLines, parsePatch_markedLines (p := .added) (fun _ ↦ rfl) (by decide) hlines,
    Option.bind_some]
  simp [applyPatch]

end CS537.UnixUtilities
