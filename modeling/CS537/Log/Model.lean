import CS537.Foundation.Machine
import CS537.Foundation.RedoLog
import CS537.Mkfs.Sectors

/-!
# The log

`log.c` of the xv6 kernel.  The file system calls of all processes write blocks of the buffer cache
between `begin_op` and `end_op`; the call that leaves no other one behind copies the blocks to the
log, writes the header, copies the blocks to their places and erases the header.  A step is what is
done under `log.lock`, or what leads to one write of the disk.  The computer may crash between any
two steps; the disk remains then, and the next thing to run is `recover_from_log`.

A block becomes cached, and stops being cached unless it is dirty, at any time.  While a call of
`log_write` runs, the process holds the buffer locked, so the new content of the buffer is set where
the call marks it dirty.
-/

namespace CS537.Log

open Foundation
open Mkfs (byteOf uintAt)

/-- The most blocks that a file system call writes. -/
def MAXOPBLOCKS : ℕ := 10

/-- The most blocks that the log holds. -/
def LOGSIZE : ℕ := MAXOPBLOCKS * 3

/-- The content of a block; behind `BSIZE` bytes it does not matter. -/
abbrev Block := ℕ → UInt8

/-! ## The header block -/

/-- What `write_head` makes of the header block. -/
def writeHeader (lh : List ℕ) (hb : Block) : Block := fun i ↦
  if i < 4 then byteOf lh.length i
  else if i < 4 * (lh.length + 1) then byteOf (lh.getD (i / 4 - 1) 0) (i % 4)
  else hb i

/-- What `read_head` takes from the header block. -/
def readHeader (hb : Block) : List ℕ :=
  (List.range (uintAt hb 0)).map fun i ↦ uintAt hb (4 * (i + 1))

/-! ## States -/

/-- `log.start` and `log.size`, as the super block has them. -/
structure LogArea where
  start : ℕ
  size : ℕ
  enough : LOGSIZE ≤ size
  bound : start + size < 2 ^ 31

/-- Outside of the log. -/
def LogArea.Home (area : LogArea) (b : ℕ) : Prop :=
  b < 2 ^ 32 ∧ (b < area.start ∨ area.start + area.size ≤ b)

instance decidableHome (area : LogArea) (b : ℕ) : Decidable (area.Home b) :=
  inferInstanceAs (Decidable (_ ∧ _))

/-- A buffer with the content of a block; `dirty` is the flag `B_DIRTY`. -/
structure Buf where
  data : Block
  dirty : Bool

/-- What the process in `commit` or in `recover_from_log` does next. -/
inductive Activity
  /-- no process is there -/
  | none
  | readHead
  | writeLog (tail : ℕ)
  | writeHead
  | installTrans (tail : ℕ)
  /-- the `write_head` that erases the transaction -/
  | clearHead
  /-- the end of `end_op` -/
  | leave
  deriving DecidableEq

/-- Where a file system call is. -/
inductive OpState
  | idle
  | active
  /-- in `log_write` for a block, behind its checks -/
  | logging (b : ℕ) (data : Block)
  | ended
  | crashed

/-- Between `begin_op` and `end_op`. -/
def OpState.Open : OpState → Prop
  | .active => True
  | .logging _ _ => True
  | _ => False

theorem OpState.open_active : OpState.active.Open := trivial

theorem OpState.open_logging (b : ℕ) (data : Block) : (OpState.logging b data).Open := trivial

/-- The ends of the kernel. -/
inductive Halt
  | panic (msg : String)
  /-- a write behind the end of `log.lh.block` -/
  | overrun
  deriving DecidableEq

/-- A call of `log_write`. -/
structure LogWrite (ι : Type*) where
  op : ι
  block : ℕ
  data : Block

/-- The calls of `log_write` that have been committed, in their order, are recorded as `durable`,
and those since as `recent`. -/
structure LogState (ι : Type*) where
  disk : ℕ → Block
  buf : ℕ → Option Buf
  lh : List ℕ
  outstanding : ℕ
  committing : Bool
  activity : Activity
  ops : ι → OpState
  halted : Option Halt
  durable : List (LogWrite ι)
  recent : List (LogWrite ι)

inductive LogLabel (ι : Type*)
  | beginOp (o : ι)
  | checkWrite (o : ι) (b : ℕ) (data : Block)
  | appendWrite (o : ι)
  | endOp (o : ι)
  | read (b : ℕ)
  | evict (b : ℕ)
  /-- the process in `commit` or in `recover_from_log` -/
  | proceed
  | crash

/-- A disk whose log is empty, as the formatter leaves it. -/
structure EmptyLog (area : LogArea) where
  disk : ℕ → Block
  empty : readHeader (disk area.start) = []

variable {ι : Type*}

namespace LogState

/-- `bread`: the content of the buffer for a block. -/
def bread (s : LogState ι) (b : ℕ) : Block := (s.buf b).elim (s.disk b) Buf.data

/-- `bwrite` -/
def bwrite (s : LogState ι) (b : ℕ) (data : Block) : LogState ι :=
  { s with
    disk := Function.update s.disk b data
    buf := Function.update s.buf b (some ⟨data, false⟩) }

def setActivity (s : LogState ι) (a : Activity) : LogState ι := { s with activity := a }

def halt (s : LogState ι) (h : Halt) : LogState ι := { s with halted := some h }

/-- The kernel before `initlog`. -/
def boot (disk : ℕ → Block) : LogState ι where
  disk := disk
  buf _ := none
  lh := []
  outstanding := 0
  committing := false
  activity := .readHead
  ops _ := .idle
  halted := none
  durable := []
  recent := []

/-- The kernel after a crash. -/
def crash (s : LogState ι) : LogState ι :=
  { s with
    buf := fun _ ↦ none
    lh := []
    outstanding := 0
    committing := false
    activity := .readHead
    ops := fun o ↦ match s.ops o with
      | .active => .crashed
      | .logging _ _ => .crashed
      | state => state
    halted := none
    recent := [] }

variable [DecidableEq ι] (area : LogArea) (s : LogState ι)

def setOp (o : ι) (state : OpState) : LogState ι :=
  { s with ops := Function.update s.ops o state }

/-- The end of the loop of `begin_op`; a process that is asleep there is not enabled. -/
def beginOp (o : ι) : Option (LogState ι) :=
  match s.ops o with
  | .idle =>
    if s.activity = .none ∧ s.committing = false ∧
        s.lh.length + (s.outstanding + 1) * MAXOPBLOCKS ≤ LOGSIZE then
      some { s.setOp o .active with outstanding := s.outstanding + 1 }
    else none
  | _ => none

/-- The checks of `log_write`, which are made without `log.lock`. -/
def checkWrite (o : ι) (b : ℕ) (data : Block) : Option (LogState ι) :=
  match s.ops o with
  | .active =>
    if LOGSIZE ≤ s.lh.length ∨ area.size - 1 ≤ s.lh.length then
      some (s.halt (.panic "too big a transaction"))
    else if s.outstanding < 1 then some (s.halt (.panic "log_write outside of trans"))
    else some (s.setOp o (.logging b data))
  | _ => none

/-- The section of `log_write` that records the block. -/
def appendWrite (o : ι) : Option (LogState ι) :=
  match s.ops o with
  | .logging b data =>
    let s' := { s.setOp o .active with
      buf := Function.update s.buf b (some ⟨data, true⟩)
      recent := s.recent ++ [⟨o, b, data⟩] }
    if b ∈ s.lh then some s'
    else if LOGSIZE ≤ s.lh.length then some (s.halt .overrun)
    else some { s' with lh := s.lh ++ [b] }
  | _ => none

/-- The first section of `end_op`, and the way into `commit`. -/
def endOp (o : ι) : Option (LogState ι) :=
  match s.ops o with
  | .active =>
    let s' := { s.setOp o .ended with outstanding := s.outstanding - 1 }
    if s.committing then some (s.halt (.panic "log.committing"))
    else if s.outstanding - 1 = 0 then
      some { s' with
        committing := true
        activity := if 0 < s.lh.length then .writeLog 0 else .leave }
    else some s'
  | _ => none

/-- The next step in `commit`, behind it in `end_op`, or in `recover_from_log`. -/
def proceed : Option (LogState ι) :=
  match s.activity with
  | .none => none
  | .readHead =>
    some { s with lh := readHeader (s.bread area.start), activity := .installTrans 0 }
  | .writeLog tail =>
    match s.lh[tail]? with
    | some b => some ((s.bwrite (area.start + tail + 1) (s.bread b)).setActivity (.writeLog (tail + 1)))
    | none => some (s.setActivity .writeHead)
  | .writeHead =>
    some { (s.bwrite area.start (writeHeader s.lh (s.bread area.start))).setActivity (.installTrans 0) with
      durable := s.durable ++ s.recent
      recent := [] }
  | .installTrans tail =>
    match s.lh[tail]? with
    | some b =>
      some ((s.bwrite b (s.bread (area.start + tail + 1))).setActivity (.installTrans (tail + 1)))
    | none => some { s.setActivity .clearHead with lh := [] }
  | .clearHead =>
    some ((s.bwrite area.start (writeHeader s.lh (s.bread area.start))).setActivity
      (if s.committing then .leave else .none))
  | .leave => some { s.setActivity .none with committing := false }

def step : LogLabel ι → Option (LogState ι)
  | .crash => some s.crash
  | l =>
    if s.halted = none then
      match l with
      | .beginOp o => s.beginOp o
      | .checkWrite o b data => s.checkWrite area o b data
      | .appendWrite o => s.appendWrite o
      | .endOp o => s.endOp o
      | .read b => some { s with buf := Function.update s.buf b (some ((s.buf b).getD ⟨s.disk b, false⟩)) }
      | .evict b => if (s.buf b).any Buf.dirty then none else some { s with buf := Function.update s.buf b none }
      | .proceed => s.proceed area
      | .crash => none
    else none

end LogState

variable [DecidableEq ι]

/-- The log as a machine, from the first start of the kernel on. -/
def LogArea.machine (area : LogArea) (d : EmptyLog area) : Machine (LogState ι) (LogLabel ι) where
  init s := s = .boot d.disk
  step s l := s.step area l

/-! ## What a step does -/

namespace LogState

variable (area : LogArea)

/-- The steps of the machine, one constructor for each way a step ends. -/
inductive StepsTo : LogState ι → LogLabel ι → LogState ι → Prop
  | beginOp {s : LogState ι} {o : ι} (hop : s.ops o = .idle) (hactivity : s.activity = .none)
    (hcommitting : s.committing = false)
    (hspace : s.lh.length + (s.outstanding + 1) * MAXOPBLOCKS ≤ LOGSIZE) :
    StepsTo s (.beginOp o) { s.setOp o .active with outstanding := s.outstanding + 1 }
  | tooBig {s : LogState ι} {o : ι} {b : ℕ} {data : Block} (hop : s.ops o = .active)
    (hfull : LOGSIZE ≤ s.lh.length ∨ area.size - 1 ≤ s.lh.length) :
    StepsTo s (.checkWrite o b data) (s.halt (.panic "too big a transaction"))
  | outside {s : LogState ι} {o : ι} {b : ℕ} {data : Block} (hop : s.ops o = .active)
    (houtside : s.outstanding < 1) :
    StepsTo s (.checkWrite o b data) (s.halt (.panic "log_write outside of trans"))
  | checkWrite {s : LogState ι} {o : ι} {b : ℕ} {data : Block} (hop : s.ops o = .active) :
    StepsTo s (.checkWrite o b data) (s.setOp o (.logging b data))
  | absorb {s : LogState ι} {o : ι} {b : ℕ} {data : Block} (hop : s.ops o = .logging b data)
    (hmem : b ∈ s.lh) :
    StepsTo s (.appendWrite o) { s.setOp o .active with
      buf := Function.update s.buf b (some ⟨data, true⟩)
      recent := s.recent ++ [⟨o, b, data⟩] }
  | overrun {s : LogState ι} {o : ι} {b : ℕ} {data : Block} (hop : s.ops o = .logging b data)
    (hfull : LOGSIZE ≤ s.lh.length) : StepsTo s (.appendWrite o) (s.halt .overrun)
  | append {s : LogState ι} {o : ι} {b : ℕ} {data : Block} (hop : s.ops o = .logging b data)
    (hmem : b ∉ s.lh) :
    StepsTo s (.appendWrite o) { s.setOp o .active with
      buf := Function.update s.buf b (some ⟨data, true⟩)
      recent := s.recent ++ [⟨o, b, data⟩]
      lh := s.lh ++ [b] }
  | endTwice {s : LogState ι} {o : ι} (hop : s.ops o = .active) (hcommitting : s.committing = true) :
    StepsTo s (.endOp o) (s.halt (.panic "log.committing"))
  | endLast {s : LogState ι} {o : ι} (hop : s.ops o = .active) (hcommitting : s.committing = false)
    (hlast : s.outstanding - 1 = 0) :
    StepsTo s (.endOp o) { s.setOp o .ended with
      outstanding := s.outstanding - 1
      committing := true
      activity := if 0 < s.lh.length then .writeLog 0 else .leave }
  | endOther {s : LogState ι} {o : ι} (hop : s.ops o = .active) (hcommitting : s.committing = false)
    (hother : s.outstanding - 1 ≠ 0) :
    StepsTo s (.endOp o) { s.setOp o .ended with outstanding := s.outstanding - 1 }
  | read {s : LogState ι} {b : ℕ} : StepsTo s (.read b)
      { s with buf := Function.update s.buf b (some ((s.buf b).getD ⟨s.disk b, false⟩)) }
  | evict {s : LogState ι} {b : ℕ} (hclean : (s.buf b).any Buf.dirty = false) :
    StepsTo s (.evict b) { s with buf := Function.update s.buf b none }
  | readHead {s : LogState ι} (hactivity : s.activity = .readHead) : StepsTo s .proceed
      { s with lh := readHeader (s.bread area.start), activity := .installTrans 0 }
  | writeLog {s : LogState ι} {tail b : ℕ} (hactivity : s.activity = .writeLog tail)
    (hb : s.lh[tail]? = some b) : StepsTo s .proceed
      ((s.bwrite (area.start + tail + 1) (s.bread b)).setActivity (.writeLog (tail + 1)))
  | logWritten {s : LogState ι} {tail : ℕ} (hactivity : s.activity = .writeLog tail)
    (hend : s.lh.length ≤ tail) : StepsTo s .proceed (s.setActivity .writeHead)
  | writeHead {s : LogState ι} (hactivity : s.activity = .writeHead) : StepsTo s .proceed
      { (s.bwrite area.start (writeHeader s.lh (s.bread area.start))).setActivity (.installTrans 0) with
        durable := s.durable ++ s.recent
        recent := [] }
  | install {s : LogState ι} {tail b : ℕ} (hactivity : s.activity = .installTrans tail)
    (hb : s.lh[tail]? = some b) : StepsTo s .proceed
      ((s.bwrite b (s.bread (area.start + tail + 1))).setActivity (.installTrans (tail + 1)))
  | installed {s : LogState ι} {tail : ℕ} (hactivity : s.activity = .installTrans tail)
    (hend : s.lh.length ≤ tail) : StepsTo s .proceed { s.setActivity .clearHead with lh := [] }
  | clearHead {s : LogState ι} (hactivity : s.activity = .clearHead) : StepsTo s .proceed
      ((s.bwrite area.start (writeHeader s.lh (s.bread area.start))).setActivity
        (if s.committing then .leave else .none))
  | leave {s : LogState ι} (hactivity : s.activity = .leave) : StepsTo s .proceed
      { s.setActivity .none with committing := false }
  | crash {s : LogState ι} : StepsTo s .crash s.crash

variable {area} {s t : LogState ι} {o : ι}

theorem proceed_cases (h : s.proceed area = some t) : StepsTo area s .proceed t := by
  unfold proceed at h
  split at h
  case h_1 => simp at h
  case h_2 hactivity => exact Option.some.inj h ▸ .readHead hactivity
  case h_3 tail hactivity =>
    split at h
    next b hb => exact Option.some.inj h ▸ .writeLog hactivity hb
    next hend => exact Option.some.inj h ▸ .logWritten hactivity (List.getElem?_eq_none_iff.mp hend)
  case h_4 hactivity => exact Option.some.inj h ▸ .writeHead hactivity
  case h_5 tail hactivity =>
    split at h
    next b hb => exact Option.some.inj h ▸ .install hactivity hb
    next hend => exact Option.some.inj h ▸ .installed hactivity (List.getElem?_eq_none_iff.mp hend)
  case h_6 hactivity => exact Option.some.inj h ▸ .clearHead hactivity
  case h_7 hactivity => exact Option.some.inj h ▸ .leave hactivity

theorem beginOp_cases (h : s.beginOp o = some t) : StepsTo area s (.beginOp o) t := by
  unfold beginOp at h
  split at h
  case h_1 hop =>
    split at h
    next hspace => exact Option.some.inj h ▸ .beginOp hop hspace.1 hspace.2.1 hspace.2.2
    next => simp at h
  case h_2 => simp at h

theorem checkWrite_cases {b : ℕ} {data : Block} (h : s.checkWrite area o b data = some t) :
    StepsTo area s (.checkWrite o b data) t := by
  unfold checkWrite at h
  split at h
  case h_1 hop =>
    split at h
    next hfull => exact Option.some.inj h ▸ .tooBig hop hfull
    next =>
      split at h
      next houtside => exact Option.some.inj h ▸ .outside hop houtside
      next => exact Option.some.inj h ▸ .checkWrite hop
  case h_2 => simp at h

theorem appendWrite_cases (h : s.appendWrite o = some t) : StepsTo area s (.appendWrite o) t := by
  unfold appendWrite at h
  split at h
  case h_1 b data hop =>
    dsimp only at h
    split at h
    next hmem => exact Option.some.inj h ▸ .absorb hop hmem
    next hmem =>
      split at h
      next hfull => exact Option.some.inj h ▸ .overrun hop hfull
      next => exact Option.some.inj h ▸ .append hop hmem
  case h_2 => simp at h

theorem endOp_cases (h : s.endOp o = some t) : StepsTo area s (.endOp o) t := by
  unfold endOp at h
  split at h
  case h_1 hop =>
    dsimp only at h
    split at h
    next hcommitting => exact Option.some.inj h ▸ .endTwice hop hcommitting
    next hcommitting =>
      rw [Bool.not_eq_true] at hcommitting
      split at h
      next hlast => exact Option.some.inj h ▸ .endLast hop hcommitting hlast
      next hother => exact Option.some.inj h ▸ .endOther hop hcommitting hother
  case h_2 => simp at h

theorem step_cases {l : LogLabel ι} (h : s.step area l = some t) : StepsTo area s l t := by
  unfold step at h
  split at h
  case h_1 => exact Option.some.inj h ▸ .crash
  case h_2 =>
    split at h
    · split at h
      case h_1 => exact beginOp_cases h
      case h_2 => exact checkWrite_cases h
      case h_3 => exact appendWrite_cases h
      case h_4 => exact endOp_cases h
      case h_5 => exact Option.some.inj h ▸ .read
      case h_6 =>
        split at h
        · simp at h
        next hclean =>
          rw [Bool.not_eq_true] at hclean
          exact Option.some.inj h ▸ .evict hclean
      case h_7 => exact proceed_cases h
      case h_8 => simp at h
    · simp at h

end LogState

end CS537.Log
