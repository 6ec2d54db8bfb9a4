import CS537.Foundation.Numerals
import CS537.Foundation.Streams

/-!
# my-diff

The loops of `main` in `my-diff.c` and what they print.  The program keeps numbers of lines and of
bytes in variables of type `int`.  A run without a result (`none`) has accessed a byte outside of its
string, has counted too many lines or has given `printf` more than it can count.
-/

namespace CS537.UnixUtilities

open Foundation

def newline : UInt8 := 10
def blank : UInt8 := 32

/-- The character `<`. -/
def removedMark : UInt8 := 60

/-- The character `>`. -/
def addedMark : UInt8 := 62

@[irreducible]
def intMax : ℕ := 2 ^ 31 - 1

/-- A length as a value of type `int`. -/
@[irreducible]
def toInt (n : ℕ) : ℤ := Int.bmod n (2 ^ 32)

/-- What is stored in `read_returnA` and `read_returnB`; at the end of the file it is -1. -/
def readReturn (line : List UInt8) : ℤ := if line = [] then -1 else toInt line.length

/-- `remove_newline`. -/
def removeNewline (line : CString) : Option CString :=
  let strLen := toInt line.bytes.length
  if 0 < strLen then
    if line.bytes[(strLen - 1).toNat]? = some newline then
      some ⟨line.bytes.take (strLen - 1).toNat, fun h ↦ line.noNul ((List.take_sublist _ _).mem h)⟩
    else some line
  else none

/-- `printf` of a mark and a line. -/
def printLine (mark : UInt8) (line : CString) : Option (List UInt8) :=
  let text := mark :: blank :: line.bytes ++ [newline]
  if text.length ≤ intMax then some text else none

/-- The number of the line is printed unless the line before was different, too. -/
def printLineno (lastDiff : ℤ) (lineno : ℕ) : List UInt8 :=
  if lastDiff + 1 ≠ lineno then (numeral lineno).bytes ++ [newline] else []

/-- The loop over the rest of the longer file; its condition compares the result of `getline` itself. -/
def printRest (mark : UInt8) (line fp : List UInt8) : Option (List UInt8) := do
  let stripped ← removeNewline (.ofBytes line)
  let text ← printLine mark stripped
  if _h : (getline newline fp).1 = [] then return text
  else
    let more ← printRest mark (getline newline fp).1 (getline newline fp).2
    return text ++ more
termination_by fp.length
decreasing_by exact length_rest_lt (getline_append fp) _h

/-- What is printed behind the loop over both files. -/
def printTails (lastDiff : ℤ) (lineno : ℕ) (lineA fpA lineB fpB : List UInt8) :
    Option (List UInt8) :=
  if readReturn lineA = -1 ∧ readReturn lineB ≠ -1 then
    (printRest addedMark lineB fpB).map (printLineno lastDiff lineno ++ ·)
  else if readReturn lineA ≠ -1 ∧ readReturn lineB = -1 then
    (printRest removedMark lineA fpA).map (printLineno lastDiff lineno ++ ·)
  else some []

theorem ne_nil_of_readReturn {line : List UInt8} (h : readReturn line ≠ -1) : line ≠ [] :=
  fun heq ↦ h (if_pos heq)

/-- The loop over both files, from the values of `lineno` and `last_diff` before a round. -/
def compareFiles (lineno : ℕ) (lastDiff : ℤ) (fpA fpB : List UInt8) : Option (List UInt8) :=
  if lineno < intMax then
    let lineno := lineno + 1
    let lineA := (getline newline fpA).1
    let restA := (getline newline fpA).2
    let lineB := (getline newline fpB).1
    let restB := (getline newline fpB).2
    if _h : readReturn lineA = -1 ∨ readReturn lineB = -1 then
      printTails lastDiff lineno lineA restA lineB restB
    else do
      let strippedA ← removeNewline (.ofBytes lineA)
      let strippedB ← removeNewline (.ofBytes lineB)
      if strcmp strippedA strippedB ≠ 0 then
        let removed ← printLine removedMark strippedA
        let added ← printLine addedMark strippedB
        let more ← compareFiles lineno lineno restA restB
        return printLineno lastDiff lineno ++ removed ++ added ++ more
      else compareFiles lineno lastDiff restA restB
  else none
termination_by fpA.length
decreasing_by
  all_goals exact length_rest_lt (getline_append fpA) (ne_nil_of_readReturn (not_or.mp _h).1)

/-- The output for two files. -/
def myDiff (fpA fpB : List UInt8) : Option (List UInt8) := compareFiles 0 (-1) fpA fpB

end CS537.UnixUtilities
