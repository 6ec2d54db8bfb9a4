import CS537.Foundation.Machine
import Mathlib.Algebra.Ring.Nat
import Mathlib.Data.Fin.Basic
import Mathlib.Data.List.FinRange
import Mathlib.Data.List.Basic

/-!
# The multi-level queue scheduler

The process table with its queue nodes, the operations of `proc.c` on it, and the machine whose
steps are the sections executed under `ptable.lock` and the unlocked parts of `fork2`.  Null
pointers are `none`.  An operation that dereferences a null pointer, indexes the queues with
`put_in = -1`, follows a cyclic list for ever or panics has no result.
-/

namespace CS537.Scheduler

open Foundation

/-- `NPROC`. -/
def nproc : ℕ := 64

instance : NeZero nproc := ⟨by decide⟩

abbrev Slot := Fin nproc
abbrev Node := Fin nproc

/-- The `NLAYER` priorities. -/
abbrev Level := Fin 4

inductive ProcState where
  | unused
  | embryo
  | sleeping
  | runnable
  | running
  | zombie
  deriving DecidableEq

/-- What a process sleeps on: the address of a process or of something else. -/
inductive Chan where
  | proc (p : Slot)
  | other (address : ℕ)
  deriving DecidableEq

/-- The fields of `struct proc` that scheduling reads; `putIn = none` is `put_in = -1`. -/
structure Proc where
  state : ProcState
  pid : ℤ
  parent : Option Slot
  chan : Option Chan
  killed : Bool
  qNode : Option Node
  putIn : Option Level
  priority : Level
  ticks : Level → ℕ
  qtail : Level → ℕ

/-- `queue_node`, with the time of the last `put_tail_q` on it. -/
@[ext]
structure QueueNode where
  next : Option Node
  proc : Option Slot
  ticks : ℕ
  inuse : Bool
  putTime : ℕ

/-- `ptable`; `clock` counts the calls of `put_tail_q`. -/
@[ext]
structure PTable where
  proc : Slot → Proc
  node : Node → QueueNode
  qHead : Level → Option Node
  qTail : Level → Option Node
  clock : ℕ

namespace PTable

def setProc (t : PTable) (p : Slot) (q : Proc) : PTable :=
  { t with proc := Function.update t.proc p q }

def setNode (t : PTable) (n : Node) (m : QueueNode) : PTable :=
  { t with node := Function.update t.node n m }

def setPutIn (t : PTable) (p : Slot) (l : Option Level) : PTable :=
  t.setProc p { t.proc p with putIn := l }

def setState (t : PTable) (p : Slot) (state : ProcState) : PTable :=
  t.setProc p { t.proc p with state := state }

def setNext (t : PTable) (n : Node) (next : Option Node) : PTable :=
  t.setNode n { t.node n with next := next }

/-! ## The queues -/

/-- The end of `put_tail_q`: the node becomes the tail of its queue. -/
def linkTail (t : PTable) (n : Node) (priority : Level) : PTable :=
  match t.qTail priority with
  | none =>
    { t with
      qHead := Function.update t.qHead priority (some n)
      qTail := Function.update t.qTail priority (some n) }
  | some tail =>
    { t.setNext tail (some n) with qTail := Function.update t.qTail priority (some n) }

/-- The counters written by `put_tail_q` for the process of the node. -/
def startSlice (t : PTable) (n : Node) (p : Slot) (priority : Level) : PTable :=
  let q := t.proc p
  let t := t.setNode n { t.node n with next := none, ticks := 0, putTime := t.clock }
  let t := t.setProc p { q with qtail := Function.update q.qtail priority (q.qtail priority + 1) }
  { t with clock := t.clock + 1 }

def putTailQ (t : PTable) (node : Option Node) (priority : Level) : Option PTable :=
  node.bind fun n ↦
    (t.node n).proc.map fun p ↦ (t.startSlice n p priority).linkTail n priority

/-- The walk of `rm_from_q` from `prev`. -/
def unlinkAfter (t : PTable) (node : Option Node) : ℕ → Node → Option PTable
  | 0, _ => none
  | fuel + 1, prev =>
    match (t.node prev).next with
    | none => some t
    | some n =>
      if some n = node then some (t.setNext prev (t.node n).next)
      else unlinkAfter t node fuel n

def unlinkHead (t : PTable) (head : Node) (priority : Level) : PTable :=
  { t with
    qTail :=
      if t.qTail priority = t.qHead priority then Function.update t.qTail priority none
      else t.qTail
    qHead := Function.update t.qHead priority (t.node head).next }

def rmFromQ (t : PTable) (node : Option Node) (priority : Option Level) : Option PTable :=
  priority.bind fun l ↦
    match t.qHead l with
    | none => some t
    | some head =>
      if some head = node then some (t.unlinkHead head l)
      else t.unlinkAfter node nproc head

/-- The ticks of a time slice at a level. -/
def sliceLimit (l : Level) : ℕ := (5 - (l : ℕ)) * 4

/-- Put a process that is in no queue into the queue of its priority. -/
def enqueue (t : PTable) (p : Slot) : Option PTable :=
  (t.putTailQ (t.proc p).qNode (t.proc p).priority).map
    (·.setPutIn p (some (t.proc p).priority))

/-- The body of the loop of `refresh_q`. -/
def refreshOne (t : PTable) (p : Slot) : Option PTable :=
  match (t.proc p).state, (t.proc p).putIn with
  | .unused, _ => some t
  | .runnable, none => t.enqueue p
  | .runnable, some l =>
    if l ≠ (t.proc p).priority then (t.rmFromQ (t.proc p).qNode (some l)).bind (·.enqueue p)
    else
      (t.proc p).qNode.bind fun n ↦
        if (t.node n).ticks = sliceLimit l then
          (t.rmFromQ (t.proc p).qNode (some l)).bind (·.enqueue p)
        else some t
  | _, some l => (t.rmFromQ (t.proc p).qNode (some l)).map (·.setPutIn p none)
  | _, none => some t

def refreshQ (t : PTable) : Option PTable := (List.finRange nproc).foldlM refreshOne t

/-- The first queue that is not empty, from the highest priority down. -/
def pick (t : PTable) : Option (Level × Node) :=
  [3, 2, 1, 0].findSome? fun l ↦ (t.qHead l).map fun n ↦ (l, n)

/-- The process of the node starts to run; if it was in `sleep`, it clears its channel. -/
def dispatch (t : PTable) (pri : Level) (n : Node) : Option (Slot × PTable) :=
  (t.node n).proc.bind fun p ↦
    (t.proc p).qNode.map fun m ↦
      let q := t.proc p
      let q :=
        { q with
          ticks := Function.update q.ticks pri (q.ticks pri + 1)
          state := .running
          chan := none }
      (p, (t.setNode m { t.node m with ticks := (t.node m).ticks + 1 }).setProc p q)

/-- The first slot with a pid; slots that are not in use are searched too. -/
def findPid (t : PTable) (pid : ℤ) : Option Slot :=
  (List.finRange nproc).find? fun p ↦ (t.proc p).pid = pid

/-- `proc_setpri` and the value it returns. -/
def setpri (t : PTable) (pid pri : ℤ) : Option (ℤ × PTable) :=
  if h : 0 ≤ pri ∧ pri ≤ 3 then
    match t.findPid pid with
    | none => some (-1, t)
    | some p =>
      let t := t.setProc p { t.proc p with priority := ⟨pri.toNat, by omega⟩ }
      ((t.rmFromQ (t.proc p).qNode (t.proc p).putIn).bind (·.enqueue p)).map fun t ↦ (0, t)
  else some (-1, t)

/-! ## Sleeping, exiting and reaping -/

def wakeup1 (t : PTable) (chan : Option Chan) : PTable :=
  { t with
    proc := fun p ↦
      if (t.proc p).state = .sleeping ∧ (t.proc p).chan = chan then
        { t.proc p with state := .runnable }
      else t.proc p }

/-- `kill` and the value it returns. -/
def kill (t : PTable) (pid : ℤ) : ℤ × PTable :=
  match t.findPid pid with
  | none => (-1, t)
  | some p =>
    (0, t.setProc p
      { t.proc p with
        killed := true
        state := if (t.proc p).state = .sleeping then .runnable else (t.proc p).state })

/-- The slot that `userinit` was given. -/
def initproc : Slot := 0

/-- The body of the loop of `exit` that passes abandoned children to init. -/
def abandonOne (curproc : Slot) (t : PTable) (p : Slot) : PTable :=
  if (t.proc p).parent = some curproc then
    let t := t.setProc p { t.proc p with parent := some initproc }
    if (t.proc p).state = .zombie then t.wakeup1 (some (.proc initproc)) else t
  else t

def exit (t : PTable) (curproc : Slot) : PTable :=
  let t := t.wakeup1 ((t.proc curproc).parent.map .proc)
  let t := (List.finRange nproc).foldl (abandonOne curproc) t
  t.setState curproc .zombie

def sleep (t : PTable) (p : Slot) (chan : Chan) : PTable :=
  t.setProc p { t.proc p with chan := some chan, state := .sleeping }

/-- The first exited child. -/
def reapable (t : PTable) (curproc : Slot) : Option Slot :=
  (List.finRange nproc).find? fun p ↦
    (t.proc p).parent = some curproc ∧ (t.proc p).state = .zombie

def haveKids (t : PTable) (curproc : Slot) : Bool :=
  (List.finRange nproc).any fun p ↦ (t.proc p).parent = some curproc

def reap (t : PTable) (p : Slot) : Option PTable :=
  (t.proc p).qNode.map fun n ↦
    (t.setNode n { t.node n with inuse := false }).setProc p
      { t.proc p with
        pid := 0, parent := none, killed := false, state := .unused, qNode := none }

/-! ## Creating processes -/

/-- The locked part of `allocproc`. -/
def takeSlot (t : PTable) (pid : ℤ) : Option (Slot × PTable) :=
  ((List.finRange nproc).find? fun p ↦ (t.proc p).state = .unused).map fun p ↦
    (p, t.setProc p { t.proc p with state := .embryo, pid := pid })

/-- The rest of `allocproc` for a process that has got its kernel stack. -/
def takeNode (t : PTable) (p : Slot) : PTable :=
  let reset := { t.proc p with ticks := fun _ ↦ 0, qtail := fun _ ↦ 0, putIn := none }
  match (List.finRange nproc).find? fun n ↦ (t.node n).inuse = false with
  | none => t.setProc p reset
  | some n =>
    (t.setNode n { t.node n with inuse := true, proc := some p, next := none }).setProc p
      { reset with qNode := some n }

/-- The rest of `fork2` for a child whose memory has been copied. -/
def completeFork (t : PTable) (curproc np : Slot) (pri : Level) : Option PTable :=
  (t.proc np).qNode.map fun n ↦
    (t.setNode n { t.node n with proc := some np }).setProc np
      { t.proc np with parent := some curproc, priority := pri, state := .runnable }

end PTable

/-! ## The machine -/

/-- How far a process has come in `fork2`: its child and whether the child left `allocproc`. -/
structure Fork where
  np : Slot
  pri : Level
  allocated : Bool

/-- The kernel on `ncpu` processors; `lastPicked` is the process chosen by the last pass. -/
structure Kernel (ncpu : ℕ) where
  ptable : PTable
  cpuProc : Fin ncpu → Option Slot
  forking : Slot → Option Fork
  nextpid : ℤ
  lastPicked : Option Slot

/-- The sections; `c` is the processor that executes them. -/
inductive Section (ncpu : ℕ) where
  | schedule (c : Fin ncpu)
  | yield (c : Fin ncpu)
  | sleep (c : Fin ncpu) (chan : Chan)
  | wakeup (chan : Chan)
  | kill (pid : ℤ)
  | exit (c : Fin ncpu)
  | wait (c : Fin ncpu)
  | fork (c : Fin ncpu)
  | fork2 (c : Fin ncpu) (pri : Level)
  | kallocDone (c : Fin ncpu) (success : Bool)
  | copyuvmDone (c : Fin ncpu) (success : Bool)
  | setpri (pid pri : ℤ)

namespace Kernel

variable {ncpu : ℕ}

def setTable (k : Kernel ncpu) (t : PTable) : Kernel ncpu := { k with ptable := t }

/-- The process running on `c`, when it is not inside `fork2`. -/
def myproc (k : Kernel ncpu) (c : Fin ncpu) : Option Slot :=
  (k.cpuProc c).filter fun p ↦ (k.forking p).isNone

/-- The process running on `c` inside `fork2`, before or after the return of `allocproc`. -/
def forkproc (k : Kernel ncpu) (c : Fin ncpu) (allocated : Bool) : Option (Slot × Fork) :=
  (k.cpuProc c).bind fun p ↦
    ((k.forking p).filter fun f ↦ f.allocated = allocated).map fun f ↦ (p, f)

/-- The process on `c` returns to the scheduler. -/
def sched (k : Kernel ncpu) (c : Fin ncpu) (t : PTable) : Kernel ncpu :=
  { k with ptable := t, cpuProc := Function.update k.cpuProc c none }

/-- A pass of the scheduler loop. -/
def schedule (k : Kernel ncpu) (c : Fin ncpu) : Option (Kernel ncpu) :=
  k.ptable.refreshQ.bind fun t ↦
    match t.pick with
    | none => some { k with ptable := t, lastPicked := none }
    | some (pri, n) =>
      (t.dispatch pri n).map fun run ↦
        { k with
          ptable := run.2
          cpuProc := Function.update k.cpuProc c (some run.1)
          lastPicked := some run.1 }

/-- One round of the loop of `wait`, with the value returned unless the process sleeps. -/
def wait (k : Kernel ncpu) (c : Fin ncpu) (curproc : Slot) : Option (Option ℤ × Kernel ncpu) :=
  match k.ptable.reapable curproc with
  | some p => (k.ptable.reap p).map fun t ↦ (some (k.ptable.proc p).pid, k.setTable t)
  | none =>
    if k.ptable.haveKids curproc = false ∨ (k.ptable.proc curproc).killed = true then
      some (some (-1), k)
    else some (none, k.sched c (k.ptable.sleep curproc (.proc curproc)))

/-- The entry of `fork2`, which returns `-1` when the table is full. -/
def fork2 (k : Kernel ncpu) (curproc : Slot) (pri : Level) : Option ℤ × Kernel ncpu :=
  match k.ptable.takeSlot k.nextpid with
  | none => (some (-1), k)
  | some (np, t) =>
    (none,
      { k with
        ptable := t
        nextpid := k.nextpid + 1
        forking := Function.update k.forking curproc (some ⟨np, pri, false⟩) })

/-- `fork2` ends. -/
def endFork (k : Kernel ncpu) (curproc : Slot) (t : PTable) : Kernel ncpu :=
  { k with ptable := t, forking := Function.update k.forking curproc none }

/-- `allocproc` has called `kalloc`. -/
def kallocDone (k : Kernel ncpu) (curproc : Slot) (f : Fork) (success : Bool) :
    Option ℤ × Kernel ncpu :=
  if success then
    (none,
      { k with
        ptable := k.ptable.takeNode f.np
        forking := Function.update k.forking curproc (some { f with allocated := true }) })
  else (some (-1), k.endFork curproc (k.ptable.setState f.np .unused))

/-- `fork2` has called `copyuvm`. -/
def copyuvmDone (k : Kernel ncpu) (curproc : Slot) (f : Fork) (success : Bool) :
    Option (ℤ × Kernel ncpu) :=
  if success then
    (k.ptable.completeFork curproc f.np f.pri).map fun t ↦
      ((k.ptable.proc f.np).pid, k.endFork curproc t)
  else some (-1, k.endFork curproc (k.ptable.setState f.np .unused))

/-- One section; a timer interrupt can make a process yield inside `fork2`. -/
def step (k : Kernel ncpu) : Section ncpu → Option (Kernel ncpu)
  | .schedule c => if k.cpuProc c = none then k.schedule c else none
  | .yield c => (k.cpuProc c).map fun p ↦ k.sched c (k.ptable.setState p .runnable)
  | .sleep c chan => (k.myproc c).map fun p ↦ k.sched c (k.ptable.sleep p chan)
  | .wakeup chan => some (k.setTable (k.ptable.wakeup1 (some chan)))
  | .kill pid => some (k.setTable (k.ptable.kill pid).2)
  | .exit c =>
    (k.myproc c).bind fun p ↦
      if p = PTable.initproc then none else some (k.sched c (k.ptable.exit p))
  | .wait c => (k.myproc c).bind fun p ↦ (k.wait c p).map Prod.snd
  | .fork c => (k.myproc c).map fun p ↦ (k.fork2 p (k.ptable.proc p).priority).2
  | .fork2 c pri => (k.myproc c).map fun p ↦ (k.fork2 p pri).2
  | .kallocDone c success =>
    (k.forkproc c false).map fun pf ↦ (k.kallocDone pf.1 pf.2 success).2
  | .copyuvmDone c success =>
    (k.forkproc c true).bind fun pf ↦ (k.copyuvmDone pf.1 pf.2 success).map Prod.snd
  | .setpri pid pri => (k.ptable.setpri pid pri).map fun r ↦ k.setTable r.2

/-- The statics of the kernel after `ptable_init`. -/
def freeProc : Proc :=
  { state := .unused, pid := 0, parent := none, chan := none, killed := false, qNode := none,
    putIn := none, priority := 0, ticks := fun _ ↦ 0, qtail := fun _ ↦ 0 }

def freeNode : QueueNode := { next := none, proc := none, ticks := 0, inuse := false, putTime := 0 }

/-- The state left by `userinit`. -/
def userinit : Kernel ncpu where
  ptable :=
    { proc := Function.update (fun _ ↦ freeProc) PTable.initproc
        { freeProc with state := .runnable, pid := 1, priority := 3, qNode := some 0 }
      node := Function.update (fun _ ↦ freeNode) 0
        { freeNode with inuse := true, proc := some PTable.initproc }
      qHead := fun _ ↦ none
      qTail := fun _ ↦ none
      clock := 0 }
  cpuProc := fun _ ↦ none
  forking := fun _ ↦ none
  nextpid := 2
  lastPicked := none

def machine (ncpu : ℕ) : Machine (Kernel ncpu) (Section ncpu) where
  init k := k = userinit
  step := step

end Kernel

end CS537.Scheduler
