import CS537.Storage.Logging
import CS537.Storage.Boot
import CS537.Log.Crash
import CS537.Mkfs.LogBlocks

/-!
# The files on the log

The kernel with `log.c` below the functions of `fs.c`: the blocks that a call reads are the buffers of
the log, the blocks that it changes go through `log_write`, and a crash leaves the disk only.  A call may
end in a panic, of `fs.c` or of `log_write`; then the kernel does nothing until it crashes.  Over it,
the files as a user may count on them: what the system calls had done when no one of them was in
progress is committed at some time, all at once, and a crash goes back to what is committed.
-/

namespace CS537.Storage

open Foundation Log
open FileSystem (Inum FsState)
open FsCheck (BSIZE)
open Mkfs (Dinode HostFile NINODES)

/-- What the processes do, and crashes.  The system calls that write have names. -/
inductive Event (ι : Type)
  | beginOp (o : ι)
  | call (o : ι) (call : Call) (answer : Answer)
  | endOp (o : ι)
  | crash

/-! ## The kernel -/

/-- The log with the buffers and the disk, and the inode cache; `panicked` is the panic of `fs.c` that
has stopped the kernel. -/
structure Journal (ι : Type) where
  log : LogState ι
  icache : ℕ → Dinode
  valid : ℕ → Bool
  refs : Multiset Inum
  locks : Finset Inum
  panicked : Option String

inductive JournalLabel (ι : Type)
  | event (e : Event ι)
  /-- a call that panics -/
  | panic (o : ι) (call : Call)
  | read (b : ℕ)
  | evict (b : ℕ)
  /-- the process in `commit` or in `recover_from_log` -/
  | proceed

def JournalLabel.event? {ι : Type} : JournalLabel ι → Option (Event ι)
  | .event e => some e
  | .panic _ _ | .read _ | .evict _ | .proceed => none

/-- The inode cache when the kernel starts. -/
def Cache.start (block : ℕ → Block) : Cache where
  volume := { block, icache := fun _ ↦ .zero, valid := fun _ ↦ false, logged := [] }
  refs := 0
  locks := ∅

instance decidableUp {ι : Type} (s : LogState ι) : Decidable s.Up :=
  inferInstanceAs (Decidable (_ ∨ _))

instance decidableOpen (state : OpState) : Decidable state.Open :=
  match state with
  | .active | .logging _ _ => inferInstanceAs (Decidable True)
  | .idle | .ended | .crashed => inferInstanceAs (Decidable False)

/-- The blocks that a call has given to `log_write`. -/
def writes (v : Volume) : List (ℕ × Block) := v.logged.map fun b ↦ (b, v.block b)

variable {ι : Type}

namespace Journal

/-- The inode cache over the buffers. -/
def cache (s : Journal ι) : Cache where
  volume := { block := s.log.bread, icache := s.icache, valid := s.valid, logged := [] }
  refs := s.refs
  locks := s.locks

/-- The log with an inode cache over it. -/
def of (log : LogState ι) (t : Cache) : Journal ι :=
  ⟨log, t.volume.icache, t.volume.valid, t.refs, t.locks, none⟩

def boot (disk : ℕ → Block) : Journal ι := of (.boot disk) (.start disk)

variable [DecidableEq ι] (sb : SuperBlock) (area : LogArea)

/-- What comes after a step of the log that may have panicked. -/
def unlessHalted (f : LogState ι → Option (LogState ι)) (s : LogState ι) : Option (LogState ι) :=
  if s.halted = none then f s else some s

/-- `log_write` for one block after another, until it panics. -/
def logWrites (o : ι) : List (ℕ × Block) → LogState ι → Option (LogState ι)
  | [], s => some s
  | (b, data) :: ws, s =>
    (s.step area (.checkWrite o b data)).bind <| unlessHalted fun s ↦
      (s.step area (.appendWrite o)).bind <| unlessHalted (logWrites o ws)

/-- A call may be made. -/
def Calls (s : Journal ι) (o : ι) (call : Call) : Prop :=
  s.panicked = none ∧ s.log.halted = none ∧ s.log.Up ∧ (call.InTransaction → (s.log.ops o).Open) ∧
    call.Allowed sb.ninodes s.refs s.locks fun i ↦ (s.cache.volume.dinode sb i).type

instance decidableCalls (s : Journal ι) (o : ι) (call : Call) : Decidable (s.Calls sb o call) :=
  inferInstanceAs (Decidable (_ ∧ _))

/-- A call that returns. -/
def call (s : Journal ι) (o : ι) (call : Call) (answer : Answer) : Option (Journal ι) :=
  if s.Calls sb o call then
    (stateAfter answer (call.onBlocks sb s.cache)).bind fun t ↦
      (logWrites area o (writes t.volume) s.log).bind fun log ↦
        if log.halted = none then some (of log t) else none
  else none

/-- A call that panics.  What a function of `fs.c` has given to the log before its panic does not matter:
nothing is committed after it. -/
def callPanic (s : Journal ι) (o : ι) (call : Call) : Option (Journal ι) :=
  if s.Calls sb o call then
    match call.onBlocks sb s.cache with
    | .ok (_, t) =>
      (logWrites area o (writes t.volume) s.log).bind fun log ↦
        if log.halted = none then none else some { s with log }
    | .error (.panic msg) => some { s with panicked := some msg }
    | .error .deadlock => none
  else none

/-- A step of the log alone. -/
def logStep (s : Journal ι) (l : LogLabel ι) : Option (Journal ι) :=
  if s.panicked = none then (s.log.step area l).map fun log ↦ { s with log } else none

def step (s : Journal ι) : JournalLabel ι → Option (Journal ι)
  | .event (.beginOp o) => s.logStep area (.beginOp o)
  | .event (.call o call answer) => s.call sb area o call answer
  | .event (.endOp o) => s.logStep area (.endOp o)
  | .event .crash => some (of s.log.crash (.start s.log.disk))
  | .panic o call => s.callPanic sb area o call
  | .read b => s.logStep area (.read b)
  | .evict b => s.logStep area (.evict b)
  | .proceed => s.logStep area .proceed

/-- A call writes fewer than `MAXOPBLOCKS` blocks, together with what its system call has written
before. -/
def Fits (s : Journal ι) : JournalLabel ι → Prop
  | .event (.call o call _) | .panic o call => ∀ answer c, call.onBlocks sb s.cache = .ok (answer, c) →
      (writtenBy s.log.recent o ∪ c.volume.logged.toFinset).card < MAXOPBLOCKS
  | _ => True

end Journal

/-- The kernel on a disk whose log is empty. -/
def journalMachine [DecidableEq ι] (sb : SuperBlock) (area : LogArea) (d : EmptyLog area) :
    Machine (Journal ι) (JournalLabel ι) where
  init s := s = .boot d.disk
  step s l := s.step sb area l

/-! ## The files that survive crashes -/

/-- The files after a start of the kernel. -/
def restarted (fs : FsState) : FsState where
  inode := fs.inode
  refs := 0
  valid _ := false
  locks := ∅
  isSym := false
  cwd := FileSystem.ROOTINO

/-- The files, those that a crash leaves, and the system calls in progress. -/
structure Durable (ι : Type) where
  files : FsState
  saved : FsState
  openOps : Finset ι

inductive DurableLabel (ι : Type)
  | event (e : Event ι)
  | commit

def DurableLabel.event? : DurableLabel ι → Option (Event ι)
  | .event e => some e
  | .commit => none

namespace Durable

def start (fs : FsState) : Durable ι := ⟨fs, fs, ∅⟩

variable [DecidableEq ι] (ninodes : ℕ)

def call (s : Durable ι) (o : ι) (call : Call) (answer : Answer) : Option (Durable ι) :=
  if (call.InTransaction → o ∈ s.openOps) ∧
      call.Allowed ninodes s.files.refs s.files.locks fun i ↦ typeCode (s.files.inode i).type then
    (stateAfter answer (call.onFiles ninodes s.files)).map fun files ↦ { s with files }
  else none

def step (s : Durable ι) : DurableLabel ι → Option (Durable ι)
  | .event (.beginOp o) => if o ∈ s.openOps then none else some { s with openOps := insert o s.openOps }
  | .event (.call o call answer) => s.call ninodes o call answer
  | .event (.endOp o) => if o ∈ s.openOps then some { s with openOps := s.openOps.erase o } else none
  | .event .crash => some (start s.saved)
  | .commit => if s.openOps = ∅ then some { s with saved := restarted s.files } else none

end Durable

/-- Files that survive crashes. -/
def durableMachine [DecidableEq ι] (ninodes : ℕ) : Machine (Durable ι) (DurableLabel ι) where
  init s := ∃ fs, s = .start fs
  step s l := s.step ninodes l

/-! ## What the steps do -/

section

variable [DecidableEq ι] {sb : SuperBlock} {area : LogArea} {s t : Journal ι} {o : ι} {call : Call}
  {answer : Answer}

/-- A call that is made and returns. -/
structure Journal.Called (sb : SuperBlock) (area : LogArea) (s : Journal ι) (o : ι) (call : Call)
    (answer : Answer) (c : Cache) (log : LogState ι) : Prop where
  calls : s.Calls sb o call
  returns : call.onBlocks sb s.cache = .ok (answer, c)
  logged : Journal.logWrites area o (writes c.volume) s.log = some log
  running : log.halted = none

theorem Journal.call_eq_some : s.call sb area o call answer = some t ↔
    ∃ c log, Journal.Called sb area s o call answer c log ∧ t = .of log c := by
  rw [Journal.call]
  constructor
  · intro h
    split_ifs at h with hcalls
    obtain ⟨c, hc, h⟩ := Option.bind_eq_some_iff.mp h
    obtain ⟨log, hlog, h⟩ := Option.bind_eq_some_iff.mp h
    split_ifs at h with hrunning
    exact ⟨c, log, ⟨hcalls, stateAfter_eq_some.mp hc, hlog, hrunning⟩, (Option.some.inj h).symm⟩
  · rintro ⟨c, log, h, rfl⟩
    rw [if_pos h.calls, stateAfter_eq_some.mpr h.returns, Option.bind_some, h.logged, Option.bind_some,
      if_pos h.running]

/-- A call that panics does so in `log_write` or in `fs.c`. -/
theorem Journal.callPanic_cases (h : s.callPanic sb area o call = some t) :
    s.Calls sb o call ∧
      ((∃ answer c log, call.onBlocks sb s.cache = .ok (answer, c) ∧
          Journal.logWrites area o (writes c.volume) s.log = some log ∧ log.halted ≠ none ∧
          t = { s with log }) ∨
        ∃ msg, call.onBlocks sb s.cache = .error (.panic msg) ∧ t = { s with panicked := some msg }) := by
  rw [Journal.callPanic] at h
  split_ifs at h with hcalls
  refine ⟨hcalls, ?_⟩
  split at h
  next answer c hc =>
    obtain ⟨log, hlog, h⟩ := Option.bind_eq_some_iff.mp h
    split_ifs at h with hrunning
    exact .inl ⟨answer, c, log, hc, hlog, hrunning, (Option.some.inj h).symm⟩
  next msg hmsg => exact .inr ⟨msg, hmsg, (Option.some.inj h).symm⟩
  next => cases h

theorem Journal.logStep_eq_some {l : LogLabel ι} : s.logStep area l = some t ↔
    s.panicked = none ∧ ∃ log, s.log.step area l = some log ∧ t = { s with log } := by
  rw [Journal.logStep]
  constructor
  · intro h
    split_ifs at h with hpanicked
    obtain ⟨log, hlog, rfl⟩ := Option.map_eq_some_iff.mp h
    exact ⟨hpanicked, log, hlog, rfl⟩
  · rintro ⟨hpanicked, log, hlog, rfl⟩
    rw [if_pos hpanicked, hlog, Option.map_some]

end

end CS537.Storage
