import CS537.Foundation.Machine
import CS537.Foundation.RingBuffer

/-!
# Pipes

`pipe.c` of the xv6 kernel.  A call of `pipewrite` or `piperead` holds the lock of the pipe except
while it sleeps, so a step runs a call from where it gets the lock to where it sleeps or returns.
`wakeup` makes the sleeping calls on one side of the pipe go on; a process that is killed may go on as
well, at any time.
-/

namespace CS537.Channels

open Foundation

def PIPESIZE : ℕ := 512

/-- The values of an unsigned integer. -/
def uintBound : ℕ := 2 ^ 32

theorem ringSize : RingSize uintBound PIPESIZE := ⟨by decide, by decide⟩

/-- `struct pipe`: the ring has `data` and the counters `nread` and `nwrite`. -/
structure Pipe where
  ring : RingBuffer UInt8
  readopen : Bool
  writeopen : Bool

namespace Pipe

/-- `p->nwrite == p->nread + PIPESIZE` -/
def Full (p : Pipe) : Prop := p.ring.last = (p.ring.first + PIPESIZE) % uintBound

/-- `p->nread == p->nwrite` -/
def Empty (p : Pipe) : Prop := p.ring.first = p.ring.last

instance decidableFull (p : Pipe) : Decidable p.Full := inferInstanceAs (Decidable (_ = _))

instance decidableEmpty (p : Pipe) : Decidable p.Empty := inferInstanceAs (Decidable (_ = _))

/-- `p->data[p->nwrite++ % PIPESIZE] = b` -/
def put (p : Pipe) (b : UInt8) : Pipe := { p with ring := p.ring.push uintBound PIPESIZE b }

/-- `p->nread++` -/
def take (p : Pipe) : Pipe := { p with ring := p.ring.pop uintBound }

/-- `p->data[p->nread % PIPESIZE]` -/
def front (p : Pipe) : UInt8 := p.ring.front PIPESIZE

end Pipe

/-- How a call of `pipewrite` leaves the lock. -/
inductive WriteEnd
  | done
  | sleep
  | fail

/-- The loop of `pipewrite` over the bytes that are left, up to where it sleeps: the pipe and the
number of bytes stored. -/
def writeLoop (killed : Bool) : List UInt8 → Pipe → Pipe × ℕ × WriteEnd
  | [], p => (p, 0, .done)
  | b :: rest, p =>
    if p.Full then (p, 0, if p.readopen = false ∨ killed = true then .fail else .sleep)
    else
      let r := writeLoop killed rest (p.put b)
      (r.1, r.2.1 + 1, r.2.2)

/-- The second loop of `piperead`, for `n` bytes. -/
def readLoop : ℕ → Pipe → Pipe × List UInt8
  | 0, p => (p, [])
  | n + 1, p =>
    if p.Empty then (p, [])
    else
      let r := readLoop n p.take
      (r.1, p.front :: r.2)

/-- A call of `pipewrite` or `piperead`. -/
inductive PipeCall
  | idle
  /-- `pipewrite` has stored `i` bytes of `addr` -/
  | writing (addr : List UInt8) (i : ℕ) (asleep : Bool)
  | reading (n : ℕ) (asleep : Bool)
  /-- `pipewrite` has returned `n`, or -1 -/
  | wrote (addr : List UInt8) (i : ℕ) (failed : Bool)
  /-- `piperead` for `n` bytes has returned -/
  | gotBytes (n : ℕ) (bytes : List UInt8)
  /-- `piperead` has returned -1 -/
  | readFailed

/-- The calls, and the bytes stored and read by them in their order. -/
structure PipeState (ι : Type*) where
  pipe : Pipe
  calls : ι → PipeCall
  killed : ι → Bool
  written : List (ι × UInt8)
  delivered : List (ι × UInt8)

inductive PipeLabel (ι : Type*)
  | callWrite (c : ι) (addr : List UInt8)
  | callRead (c : ι) (n : ℕ)
  | run (c : ι)
  | wake (c : ι)
  | kill (c : ι)
  | close (writable : Bool)

/-- In `pipewrite`. -/
def PipeCall.Writing : PipeCall → Prop
  | .writing _ _ _ => True
  | _ => False

/-- In `piperead`. -/
def PipeCall.Reading : PipeCall → Prop
  | .reading _ _ => True
  | _ => False

/-- `wakeup(&p->nread)` -/
def PipeCall.wakeReader : PipeCall → PipeCall
  | .reading n _ => .reading n false
  | call => call

/-- `wakeup(&p->nwrite)` -/
def PipeCall.wakeWriter : PipeCall → PipeCall
  | .writing addr i _ => .writing addr i false
  | call => call

namespace PipeState

variable {ι : Type*} [DecidableEq ι] (s : PipeState ι) (c : ι)

def setCall (call : PipeCall) : PipeState ι := { s with calls := Function.update s.calls c call }

def wakeReaders : PipeState ι := { s with calls := fun c ↦ (s.calls c).wakeReader }

def wakeWriters : PipeState ι := { s with calls := fun c ↦ (s.calls c).wakeWriter }

/-- The bytes that a section of `pipewrite` has stored. -/
def store (pipe : Pipe) (bytes : List UInt8) : PipeState ι :=
  { s with pipe := pipe, written := s.written ++ bytes.map (c, ·) }

/-- The bytes that a section of `piperead` has read. -/
def fetch (pipe : Pipe) (bytes : List UInt8) : PipeState ι :=
  { s with pipe := pipe, delivered := s.delivered ++ bytes.map (c, ·) }

/-- A section of `pipewrite` with `i` bytes stored before it. -/
def pipewrite (addr : List UInt8) (i : ℕ) : PipeState ι :=
  let r := writeLoop (s.killed c) (addr.drop i) s.pipe
  let s' := s.store c r.1 ((addr.drop i).take r.2.1)
  match r.2.2 with
  | .done => s'.wakeReaders.setCall c (.wrote addr (i + r.2.1) false)
  | .sleep => s'.wakeReaders.setCall c (.writing addr (i + r.2.1) true)
  | .fail => s'.setCall c (.wrote addr (i + r.2.1) true)

/-- A section of `piperead`. -/
def piperead (n : ℕ) : PipeState ι :=
  if s.pipe.Empty ∧ s.pipe.writeopen = true then
    if s.killed c = true then s.setCall c .readFailed else s.setCall c (.reading n true)
  else
    let r := readLoop n s.pipe
    (s.fetch c r.1 r.2).wakeWriters.setCall c (.gotBytes n r.2)

/-- `pipeclose` -/
def pipeclose (writable : Bool) : PipeState ι :=
  if writable then { s.wakeReaders with pipe := { s.pipe with writeopen := false } }
  else { s.wakeWriters with pipe := { s.pipe with readopen := false } }

def step : PipeLabel ι → Option (PipeState ι)
  | .callWrite c addr =>
    match s.calls c with
    | .idle => some (s.setCall c (.writing addr 0 false))
    | _ => none
  | .callRead c n =>
    match s.calls c with
    | .idle => some (s.setCall c (.reading n false))
    | _ => none
  | .run c =>
    match s.calls c with
    | .writing addr i false => some (s.pipewrite c addr i)
    | .reading n false => some (s.piperead c n)
    | _ => none
  | .wake c =>
    match s.calls c with
    | .writing addr i _ => some (s.setCall c (.writing addr i false))
    | .reading n _ => some (s.setCall c (.reading n false))
    | _ => none
  | .kill c => some { s with killed := Function.update s.killed c true }
  | .close writable => some (s.pipeclose writable)

end PipeState

/-- A new pipe: `data` is what `kalloc` returned. -/
def pipealloc {ι : Type*} (data : ℕ → UInt8) : PipeState ι where
  pipe := ⟨⟨data, 0, 0⟩, true, true⟩
  calls _ := .idle
  killed _ := false
  written := []
  delivered := []

/-- A pipe as a machine. -/
def pipeMachine {ι : Type*} [DecidableEq ι] (data : ℕ → UInt8) : Machine (PipeState ι) (PipeLabel ι) where
  init s := s = pipealloc data
  step := PipeState.step

/-- What a step does. -/
inductive PipeState.StepsTo {ι : Type*} [DecidableEq ι] : PipeState ι → PipeLabel ι → PipeState ι → Prop
  | callWrite {s : PipeState ι} {c : ι} {addr : List UInt8} (hcall : s.calls c = .idle) :
    StepsTo s (.callWrite c addr) (s.setCall c (.writing addr 0 false))
  | callRead {s : PipeState ι} {c : ι} {n : ℕ} (hcall : s.calls c = .idle) :
    StepsTo s (.callRead c n) (s.setCall c (.reading n false))
  | pipewrite {s : PipeState ι} {c : ι} {addr : List UInt8} {i : ℕ}
    (hcall : s.calls c = .writing addr i false) : StepsTo s (.run c) (s.pipewrite c addr i)
  | piperead {s : PipeState ι} {c : ι} {n : ℕ} (hcall : s.calls c = .reading n false) :
    StepsTo s (.run c) (s.piperead c n)
  | wakeWriter {s : PipeState ι} {c : ι} {addr : List UInt8} {i : ℕ} {asleep : Bool}
    (hcall : s.calls c = .writing addr i asleep) :
    StepsTo s (.wake c) (s.setCall c (.writing addr i false))
  | wakeReader {s : PipeState ι} {c : ι} {n : ℕ} {asleep : Bool} (hcall : s.calls c = .reading n asleep) :
    StepsTo s (.wake c) (s.setCall c (.reading n false))
  | kill {s : PipeState ι} {c : ι} :
    StepsTo s (.kill c) { s with killed := Function.update s.killed c true }
  | close {s : PipeState ι} {writable : Bool} : StepsTo s (.close writable) (s.pipeclose writable)

theorem PipeState.step_cases {ι : Type*} [DecidableEq ι] {s t : PipeState ι} {l : PipeLabel ι}
    (h : s.step l = some t) : s.StepsTo l t := by
  unfold PipeState.step at h
  split at h
  case h_1 =>
    split at h
    next hcall => exact Option.some.inj h ▸ .callWrite hcall
    next => simp at h
  case h_2 =>
    split at h
    next hcall => exact Option.some.inj h ▸ .callRead hcall
    next => simp at h
  case h_3 =>
    split at h
    next hcall => exact Option.some.inj h ▸ .pipewrite hcall
    next hcall => exact Option.some.inj h ▸ .piperead hcall
    next => simp at h
  case h_4 =>
    split at h
    next hcall => exact Option.some.inj h ▸ .wakeWriter hcall
    next hcall => exact Option.some.inj h ▸ .wakeReader hcall
    next => simp at h
  case h_5 => exact Option.some.inj h ▸ .kill
  case h_6 => exact Option.some.inj h ▸ .close

end CS537.Channels
