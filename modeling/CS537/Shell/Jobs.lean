import CS537.Foundation.Machine
import CS537.Shell.Parse
import Mathlib.Data.Finset.Insert
import Mathlib.Data.List.FinRange

/-!
# Background jobs

The shell numbers its commands and keeps the background jobs in a table of `MAX_SIM_JOBS` slots,
from which they are removed when a call of `waitpid` finds their process gone.  A child that has
ended stays until the shell waits for it, and its process identifier may then be used again.
-/

namespace CS537.Shell

open Foundation

def maxSimJobs : ℕ := 40
def maxJid : ℕ := 1000

/-- A child that the shell has not waited for; `command` is the number of the command it runs. -/
structure Child where
  command : ℕ
  ended : Bool
  deriving DecidableEq

/-- `job_info`. -/
structure JobInfo where
  jobid : ℕ
  argv : List Word
  jobpid : ℕ
  deriving DecidableEq

/-- What the shell prints; a listing has the numbers and texts of the jobs. -/
inductive Output where
  | invalidJid (jobid : ℤ)
  | terminated (jobid : ℤ)
  | listing (jobs : List (ℕ × List Char))
  | tooManyJobs
  | outOfBounds
  deriving DecidableEq

/-- Where the shell is: in the loop that waits for a command in the foreground, in the first loop of
`job_arr_add`, in the call of `waitpid` in `func_wait` if it has found the job, or in the loop of
`func_jobs`. -/
inductive Phase where
  | prompt
  | foreground (pid : ℕ)
  | cleaning (argv : List Word) (pid : ℕ) (i : ℕ)
  | waiting (jobid : ℤ) (pid : Option ℕ)
  | listing (i : ℕ) (printed : List (ℕ × List Char))
  | dead
  deriving DecidableEq

/-- The globals of the shell, its children and what it has printed last.  `background` remembers the
commands that were started as background jobs. -/
structure ShellState where
  children : ℕ → Option Child
  jobidNext : ℕ
  bgFlag : ℕ → Bool
  jobArr : Fin maxSimJobs → Option JobInfo
  phase : Phase
  said : Option Output
  background : Finset ℕ

/-- A line is entered, the shell goes on, `wait` returns a child, or a child ends. -/
inductive Event where
  | line (l : InputLine) (pid : ℕ)
  | advance
  | reaped (pid : ℕ)
  | ended (pid : ℕ)

/-- `waitpid` without blocking: the children that are left, unless the one asked for is still
running.  If there is no such child, it returns an error. -/
def waitpid (children : ℕ → Option Child) (pid : ℕ) : Option (ℕ → Option Child) :=
  match children pid with
  | some ⟨_, false⟩ => none
  | _ => some (Function.update children pid none)

/-- The text of a job in `func_jobs`.  Without a word nothing is written to the buffer. -/
def jobCmd (argv : List Word) : Option (List Char) :=
  if argv = [] then none else some (argv.flatMap (· ++ [' '])).dropLast

namespace ShellState

/-- A read of `bg_flag`. -/
def flagAt (junk : ℤ → Bool) (s : ShellState) (jobid : ℤ) : Bool :=
  if 0 ≤ jobid ∧ jobid < maxJid then s.bgFlag jobid.toNat else junk jobid

def funcWait (junk : ℤ → Bool) (s : ShellState) (jobid : ℤ) : ShellState :=
  if jobid ≥ s.jobidNext ∨ s.flagAt junk jobid = false then
    { s with said := some (.invalidJid jobid) }
  else
    let found := (List.finRange maxSimJobs).findSome? fun i ↦
      (s.jobArr i).bind fun job ↦ if (job.jobid : ℤ) = jobid then some job.jobpid else none
    { s with phase := .waiting jobid found }

/-- `func_general_cmd` up to the first loop over the children or the jobs. -/
def funcGeneral (s : ShellState) (argv : List Word) (background : Bool) (pid : ℕ) :
    Option ShellState :=
  if s.children pid = none then
    let forked := { s with children := Function.update s.children pid (some ⟨s.jobidNext, false⟩) }
    if background then
      let forked := { forked with background := insert s.jobidNext s.background }
      if s.jobidNext < maxJid then
        some { forked with
          bgFlag := Function.update s.bgFlag s.jobidNext true
          phase := .cleaning argv pid 0 }
      else some { forked with said := some .outOfBounds, phase := .dead }
    else some { forked with phase := .foreground pid }
  else none

def runCommand (junk : ℤ → Bool) (s : ShellState) (command : Command) (pid : ℕ) :
    Option ShellState :=
  match command with
  | .general argv _ background => s.funcGeneral argv background pid
  | .wait jobid => some (s.funcWait junk jobid)
  | .waitInvalid => some { s with said := some (.invalidJid (-1)) }
  | .jobs => some { s with phase := .listing 0 [] }
  | .exit => some { s with phase := .dead }
  | .rejected _ | .empty => some s
  | .undefined => some { s with said := some .outOfBounds, phase := .dead }

/-- One round of the first loop of `job_arr_add`. -/
def cleanSlot (s : ShellState) (i : Fin maxSimJobs) : ShellState :=
  match s.jobArr i with
  | none => s
  | some job =>
    match waitpid s.children job.jobpid with
    | none => s
    | some children => { s with children := children, jobArr := Function.update s.jobArr i none }

/-- The second loop of `job_arr_add`, with the end of `func_general_cmd`. -/
def addJob (s : ShellState) (argv : List Word) (pid : ℕ) : ShellState :=
  let s := { s with phase := .prompt, jobidNext := s.jobidNext + 1 }
  match (List.finRange maxSimJobs).find? fun i ↦ (s.jobArr i).isNone with
  | some i =>
    { s with jobArr := Function.update s.jobArr i (some ⟨s.jobidNext - 1, argv, pid⟩) }
  | none => { s with said := some .tooManyJobs }

/-- One round of the loop of `func_jobs`. -/
def listSlot (s : ShellState) (i : Fin maxSimJobs) (printed : List (ℕ × List Char)) : ShellState :=
  match s.jobArr i with
  | none => { s with phase := .listing (i + 1) printed }
  | some job =>
    match waitpid s.children job.jobpid with
    | some children =>
      { s with
        children := children
        jobArr := Function.update s.jobArr i none
        phase := .listing (i + 1) printed }
    | none =>
      match jobCmd job.argv with
      | some text => { s with phase := .listing (i + 1) (printed ++ [(job.jobid, text)]) }
      | none => { s with said := some .outOfBounds, phase := .dead }

def advance (s : ShellState) : Option ShellState :=
  match s.phase with
  | .cleaning argv pid i =>
    if h : i < maxSimJobs then
      some { s.cleanSlot ⟨i, h⟩ with phase := .cleaning argv pid (i + 1) }
    else some (s.addJob argv pid)
  | .waiting jobid (some pid) =>
    (waitpid s.children pid).map fun children ↦
      { s with children := children, phase := .prompt, said := some (.terminated jobid) }
  | .waiting jobid none => some { s with phase := .prompt, said := some (.terminated jobid) }
  | .listing i printed =>
    if h : i < maxSimJobs then some (s.listSlot ⟨i, h⟩ printed)
    else some { s with phase := .prompt, said := some (.listing printed) }
  | .prompt | .foreground _ | .dead => none

/-- `wait` returns a child that has ended; the loop in `func_general_cmd` stops at its own. -/
def reap (s : ShellState) (pid : ℕ) : Option ShellState :=
  match s.phase, s.children pid with
  | .foreground child, some ⟨_, true⟩ =>
    let s := { s with children := Function.update s.children pid none }
    if pid = child then some { s with phase := .prompt, jobidNext := s.jobidNext + 1 } else some s
  | _, _ => none

def step (junk : ℤ → Bool) (s : ShellState) (e : Event) : Option ShellState :=
  let s := { s with said := none }
  match e with
  | .line l pid =>
    match s.phase with
    | .prompt => s.runCommand junk (parseCommand l.bytes) pid
    | _ => none
  | .advance => s.advance
  | .reaped pid => s.reap pid
  | .ended pid =>
    match s.children pid with
    | some ⟨k, false⟩ =>
      some { s with children := Function.update s.children pid (some ⟨k, true⟩) }
    | _ => none

end ShellState

/-- The shell when it has been started. -/
def initial : ShellState where
  children _ := none
  jobidNext := 0
  bgFlag _ := false
  jobArr _ := none
  phase := .prompt
  said := none
  background := ∅

/-- The shell with its children, for what it reads outside of `bg_flag`. -/
def jobControl (junk : ℤ → Bool) : Machine ShellState Event where
  init s := s = initial
  step := ShellState.step junk

namespace ShellState

/-- Command `k` is being run by process `pid`. -/
def Running (s : ShellState) (k pid : ℕ) : Prop := s.children pid = some ⟨k, false⟩

/-- The process started for command `k` has ended. -/
def Ended (s : ShellState) (k : ℕ) : Prop := ∀ pid, ¬s.Running k pid

/-- What the shell prints is true: a job said to have terminated has ended, and a listing has all
jobs that have not ended. -/
def Truthful (s : ShellState) : Output → Prop
  | .terminated jobid => ∃ k : ℕ, jobid = k ∧ k ∈ s.background ∧ s.Ended k
  | .listing jobs => ∀ k ∈ s.background, ¬s.Ended k → k ∈ jobs.map Prod.fst
  | .outOfBounds => False
  | .invalidJid _ | .tooManyJobs => True

/-- The tables have room for the step, and no access is out of bounds. -/
def HasRoom (s : ShellState) (e : Event) : Prop :=
  match e with
  | .line l _ =>
    match parseCommand l.bytes with
    | .general _ _ background => background = true → s.jobidNext < maxJid
    | .wait jobid => 0 ≤ jobid ∧ jobid < maxJid ∨ s.jobidNext ≤ jobid
    | .undefined => False
    | _ => True
  | .advance =>
    match s.phase with
    | .cleaning _ _ i => maxSimJobs ≤ i → ∃ j, s.jobArr j = none
    | .listing i _ => ∀ h : i < maxSimJobs, ∀ job, s.jobArr ⟨i, h⟩ = some job →
        job.argv = [] → ∀ k, ¬s.Running k job.jobpid
    | _ => True
  | _ => True

end ShellState

end CS537.Shell
