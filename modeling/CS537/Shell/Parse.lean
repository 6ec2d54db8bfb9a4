import CS537.Foundation.Tokens
import Mathlib.Algebra.Ring.Nat
import Mathlib.Data.List.Basic
import Mathlib.Data.Int.Basic

/-!
# Command lines of `mysh`

`parse_command` splits a line at its blanks and sorts the tokens in one pass: a token may contain
the redirection character, and the newline at the end of the line is part of the last token until
the loop is over.  A byte is the character with its code.
-/

namespace CS537.Shell

open Foundation

abbrev Word := List Char

def maxCommandLen : ℕ := 520
def maxParseNum : ℕ := 260

def exitCmd : Word := ['e', 'x', 'i', 't']
def jobsCmd : Word := ['j', 'o', 'b', 's']
def waitCmd : Word := ['w', 'a', 'i', 't']

/-- A line as `main` passes it on: from the terminal with its newline and in a buffer of
`MAX_COMMAND_LEN` bytes, from a batch file with at most 512 bytes, the last one possibly without a
newline. -/
structure InputLine where
  text : List Char
  newline : Bool
  noNewline : '\n' ∉ text
  noNul : Char.ofNat 0 ∉ text
  fits : if newline then text.length + 1 < maxCommandLen else text.length ≤ 512

/-- The contents of the line. -/
def InputLine.bytes (line : InputLine) : List Char :=
  if line.newline then line.text ++ ['\n'] else line.text

/-- The errors at which `parse_command` returns. -/
inductive ParseError where
  | multipleRedirections
  | multipleArguments
  | overflow
  deriving DecidableEq

/-- The text on the standard error. -/
def ParseError.message : ParseError → Option String
  | .multipleRedirections => some "Error: Multiple redirection characters!\n"
  | .multipleArguments => some "Error: Multiple arguments after redirection character!\n"
  | .overflow => none

/-- The locals of the loop over the tokens; `args` is `arg_arr` up to `num_parse`. -/
structure ParseState where
  args : List Word
  rdFlag : Bool
  numArgAfterRd : ℕ
  deriving DecidableEq

/-- `arg_arr[num_parse++] = token`; there is no room for more than `MAX_PARSE_NUM` words. -/
def ParseState.push (st : ParseState) (token : Word) : Except ParseError ParseState :=
  if st.args.length < maxParseNum then .ok { st with args := st.args ++ [token] }
  else .error .overflow

/-- Push a word behind the redirection character. -/
def ParseState.pushAfterRd (st : ParseState) (token : Word) : Except ParseError ParseState :=
  { st with numArgAfterRd := st.numArgAfterRd + 1 }.push token

/-- The body of the loop. -/
def addToken (st : ParseState) (token : Word) : Except ParseError ParseState :=
  if '>' ∈ token then
    let left := token.takeWhile (· ≠ '>')
    let right := (token.dropWhile (· ≠ '>')).tail
    if st.rdFlag ∨ '>' ∈ right then .error .multipleRedirections
    else
      let st := { st with rdFlag := true }
      (if left = [] then .ok st else st.push left).bind fun st ↦
        if right = [] then .ok st else st.pushAfterRd right
  else if st.rdFlag then
    if st.numArgAfterRd + 1 > 1 then .error .multipleArguments else st.pushAfterRd token
  else st.push token

/-- The loop, from the bytes that are left on. -/
def addTokens (st : ParseState) (rest : List Char) : Except ParseError ParseState :=
  (tokens (· == ' ') rest).foldlM addToken st

/-- The loop asks `strtok_r` for one token after the other. -/
theorem addTokens_eq (st : ParseState) (rest : List Char) :
    addTokens st rest = match strtok (· == ' ') rest with
      | none => .ok st
      | some (token, rest) => (addToken st token).bind (addTokens · rest) := by
  rw [addTokens, tokens_eq_strtok]
  cases strtok (· == ' ') rest with
  | none => rfl
  | some found => rfl

/-- The newline is removed from the last word, or with it.  Without any word the access is out of
bounds. -/
def stripNewline (args : List Word) : Option (List Word) :=
  match args.getLast? with
  | none => none
  | some last =>
    if 1 < last.length ∧ last.getLast? = some '\n' then some (args.dropLast ++ [last.dropLast])
    else if last.head? = some '\n' then some args.dropLast
    else some args

/-- What a line makes the shell do. -/
inductive Command where
  | rejected (e : ParseError)
  | empty
  | exit
  | jobs
  | wait (jobid : ℤ)
  | waitInvalid
  | general (argv : List Word) (redirect : Option Word) (background : Bool)
  | undefined
  deriving DecidableEq

def isnumber (word : Word) : Bool := word.all Char.isDigit

/-- The C library's `atoi`, on digits. -/
def atoi (digits : Word) : ℤ :=
  let value := digits.foldl (fun n c ↦ 10 * n + (c.toNat - '0'.toNat)) 0
  Int.bmod (min value (2 ^ 63 - 1) : ℕ) (2 ^ 32)

def checkBuiltIn (args : List Word) (argc : ℤ) : Option Command :=
  if argc = 1 then
    if args[0]? = some exitCmd then some .exit
    else if args[0]? = some jobsCmd then some .jobs
    else none
  else if argc = 2 ∧ args[0]? = some waitCmd then
    match args[1]? with
    | some word => if isnumber word then some (.wait (atoi word)) else some .waitInvalid
    | none => some .undefined
  else none

/-- The child of `func_general_cmd` takes `argv[argc]` for the file, and ends the arguments
there. -/
def funcGeneralCmd (args : List Word) (argc : ℤ) (bgFlag rdFlag : Bool) : Command :=
  if argc < 0 ∨ maxParseNum ≤ argc then .undefined
  else if rdFlag then
    match args[argc.toNat]? with
    | some rdFilename => .general (args.take argc.toNat) (some rdFilename) bgFlag
    | none => .undefined
  else .general (args.take argc.toNat) none bgFlag

/-- The end of `parse_command`, on the words and the redirection flag. -/
def runArgs (args : List Word) (rdFlag : Bool) : Command :=
  match args.getLast? with
  | none => .empty
  | some last =>
    let bgFlag : Bool := decide (last = ['&'])
    let argc : ℤ := args.length - bgFlag.toNat - rdFlag.toNat
    (checkBuiltIn args argc).getD (funcGeneralCmd args argc bgFlag rdFlag)

def parseCommand (command : List Char) : Command :=
  match addTokens ⟨[], false, 0⟩ command with
  | .error .overflow => .undefined
  | .error e => .rejected e
  | .ok st =>
    match stripNewline st.args with
    | none => .undefined
    | some args => runArgs args st.rdFlag

/-- The system calls of the shell and of its child that start a process or change a file. -/
inductive SystemCall where
  | fork
  | unlink (file : Word)
  | openCreate (file : Word)
  | execvp (argv : List Word)
  deriving DecidableEq

def Command.calls : Command → List SystemCall
  | .general argv (some file) _ => [.fork, .unlink file, .openCreate file, .execvp argv]
  | .general argv none _ => [.fork, .execvp argv]
  | _ => []

end CS537.Shell
