import CS537.Foundation.Machine
import CS537.Channels.Pipe

/-!
# The console

`consoleintr` and `consoleread` of the xv6 kernel.  The bytes that are typed go into a ring with three
counters: `r` and `w` bound the lines that a process may read, and `w` and `e` the line that is being
typed.  The processes do not depend on how the input is kept: `LineInput` has the two operations on it,
and `console` is the machine over any such input.
-/

namespace CS537.Channels

open Foundation

def INPUT_BUF : ℕ := 128

/-- The code that `consputc` takes for a backspace. -/
def BACKSPACE : ℕ := 0x100

/-- `C(x)` -/
def ctrl (x : Char) : UInt8 := (x.toNat - '@'.toNat).toUInt8

def newline : UInt8 := '\n'.toNat.toUInt8

theorem inputSize : RingSize uintBound INPUT_BUF := ⟨by decide, by decide⟩

/-- `input`: the ring has `buf`, `r` and `e`. -/
structure Input where
  ring : RingBuffer UInt8
  w : ℕ

/-- What a key does: the input, the codes given to `consputc`, and whether it makes readers wake. -/
structure KeyResult (β : Type*) where
  input : β
  echo : List ℕ
  wakes : Bool

/-- What a section of `consoleread` does: the input, the bytes for the caller, all the bytes taken from
the input, and whether it sleeps. -/
structure LineResult (β : Type*) where
  input : β
  bytes : List UInt8
  taken : List UInt8
  waits : Bool

namespace Input

/-- Kill line: `k` is `input.e - input.w`. -/
def killLine : ℕ → Input → Input × List ℕ
  | 0, i => (i, [])
  | k + 1, i =>
    if i.ring.last ≠ i.w ∧ i.ring.back uintBound INPUT_BUF ≠ newline then
      let rest := killLine k { i with ring := i.ring.unpush uintBound }
      (rest.1, BACKSPACE :: rest.2)
    else (i, [])

/-- The `switch` of `consoleintr`. -/
def key (i : Input) (c : UInt8) : KeyResult Input :=
  if c = ctrl 'P' then ⟨i, [], false⟩
  else if c = ctrl 'U' then
    let killed := killLine ((i.ring.last + (uintBound - i.w)) % uintBound) i
    ⟨killed.1, killed.2, false⟩
  else if c = ctrl 'H' ∨ c = 0x7f then
    if i.ring.last ≠ i.w then ⟨{ i with ring := i.ring.unpush uintBound }, [BACKSPACE], false⟩
    else ⟨i, [], false⟩
  else if c ≠ 0 ∧ (i.ring.last + (uintBound - i.ring.first)) % uintBound < INPUT_BUF then
    let c' := if c = '\r'.toNat.toUInt8 then newline else c
    let ring := i.ring.push uintBound INPUT_BUF c'
    if c' = newline ∨ c' = ctrl 'D' ∨ ring.last = (ring.first + INPUT_BUF) % uintBound then
      ⟨⟨ring, ring.last⟩, [c'.toNat], true⟩
    else ⟨⟨ring, i.w⟩, [c'.toNat], false⟩
  else ⟨i, [], false⟩

/-- The loop of `consoleread` with `n` bytes to go. -/
def read (target : ℕ) : ℕ → Input → LineResult Input
  | 0, i => ⟨i, [], [], false⟩
  | n + 1, i =>
    if i.ring.first = i.w then ⟨i, [], [], true⟩
    else
      let c := i.ring.front INPUT_BUF
      let ring := i.ring.pop uintBound
      if c = ctrl 'D' then
        if n + 1 < target then ⟨⟨ring.unpop uintBound, i.w⟩, [], [], false⟩
        else ⟨⟨ring, i.w⟩, [], [c], false⟩
      else if c = newline then ⟨⟨ring, i.w⟩, [c], [c], false⟩
      else
        let rest := read target n ⟨ring, i.w⟩
        ⟨rest.input, c :: rest.bytes, c :: rest.taken, rest.waits⟩

end Input

/-! ## The processes -/

/-- The operations on the input. -/
structure LineInput (β : Type*) where
  init : β
  key : β → UInt8 → KeyResult β
  read : ℕ → ℕ → β → LineResult β

/-- A call of `consoleread` for `target` bytes. -/
inductive ConsoleCall
  | idle
  | reading (target : ℕ) (got : List UInt8) (asleep : Bool)
  | returned (target : ℕ) (bytes : List UInt8)
  /-- The process was killed: -1 is returned, whatever has been read. -/
  | failed (target : ℕ) (got : List UInt8)

/-- The input and the calls, the codes given to `consputc` and the bytes taken from the input. -/
structure ConsoleState (β ι : Type*) where
  input : β
  calls : ι → ConsoleCall
  killed : ι → Bool
  echo : List ℕ
  taken : List (ι × UInt8)

inductive ConsoleLabel (ι : Type*)
  | intr (keys : List UInt8)
  | callRead (c : ι) (target : ℕ)
  | run (c : ι)
  | wake (c : ι)
  | kill (c : ι)

/-- `wakeup(&input.r)` -/
def ConsoleCall.wake : ConsoleCall → ConsoleCall
  | .reading target got _ => .reading target got false
  | call => call

namespace ConsoleState

variable {β ι : Type*} [DecidableEq ι] (ops : LineInput β) (s : ConsoleState β ι) (c : ι)

def setCall (call : ConsoleCall) : ConsoleState β ι := { s with calls := Function.update s.calls c call }

def wakeReaders : ConsoleState β ι := { s with calls := fun c ↦ (s.calls c).wake }

/-- One pass of the loop of `consoleintr`. -/
def typed (k : UInt8) : ConsoleState β ι :=
  let r := ops.key s.input k
  let s' := { s with input := r.input, echo := s.echo ++ r.echo }
  if r.wakes then s'.wakeReaders else s'

def consoleintr (keys : List UInt8) : ConsoleState β ι := keys.foldl (typed ops) s

/-- A section of `consoleread` after it has read `got`. -/
def consoleread (target : ℕ) (got : List UInt8) : ConsoleState β ι :=
  let r := ops.read target (target - got.length) s.input
  let s' := { s with input := r.input, taken := s.taken ++ r.taken.map (c, ·) }
  if r.waits then
    if s.killed c = true then s'.setCall c (.failed target (got ++ r.bytes))
    else s'.setCall c (.reading target (got ++ r.bytes) true)
  else s'.setCall c (.returned target (got ++ r.bytes))

def step : ConsoleLabel ι → Option (ConsoleState β ι)
  | .intr keys => some (s.consoleintr ops keys)
  | .callRead c target =>
    match s.calls c with
    | .idle => some (s.setCall c (.reading target [] false))
    | _ => none
  | .run c =>
    match s.calls c with
    | .reading target got false => some (s.consoleread ops c target got)
    | _ => none
  | .wake c =>
    match s.calls c with
    | .reading target got _ => some (s.setCall c (.reading target got false))
    | _ => none
  | .kill c => some { s with killed := Function.update s.killed c true }

end ConsoleState

section

variable {β : Type*} (ops : LineInput β) (ι : Type*) [DecidableEq ι]

/-- No key has been typed. -/
def consoleInit : ConsoleState β ι := ⟨ops.init, fun _ ↦ .idle, fun _ ↦ false, [], []⟩

/-- The console with its readers. -/
def console : Machine (ConsoleState β ι) (ConsoleLabel ι) where
  init s := s = consoleInit ops ι
  step s := s.step ops

end

/-- The console of the kernel. -/
def inputRing : LineInput Input := ⟨⟨⟨fun _ ↦ 0, 0, 0⟩, 0⟩, Input.key, Input.read⟩

/-! ## What the console is for -/

/-- The bytes of the lines that have been typed and not been read, and the line that is being
typed. -/
structure Lines where
  pending : List UInt8
  edit : List UInt8

namespace Lines

/-- The keys edit a line of their own; it can be read once it is complete or there is no more room. -/
def key (x : Lines) (c : UInt8) : KeyResult Lines :=
  if c = ctrl 'P' then ⟨x, [], false⟩
  else if c = ctrl 'U' then ⟨⟨x.pending, []⟩, List.replicate x.edit.length BACKSPACE, false⟩
  else if c = ctrl 'H' ∨ c = 0x7f then
    if x.edit ≠ [] then ⟨⟨x.pending, x.edit.dropLast⟩, [BACKSPACE], false⟩ else ⟨x, [], false⟩
  else if c ≠ 0 ∧ x.pending.length + x.edit.length < INPUT_BUF then
    let c' := if c = '\r'.toNat.toUInt8 then newline else c
    if c' = newline ∨ c' = ctrl 'D' ∨ x.pending.length + x.edit.length + 1 = INPUT_BUF then
      ⟨⟨x.pending ++ x.edit ++ [c'], []⟩, [c'.toNat], true⟩
    else ⟨⟨x.pending, x.edit ++ [c']⟩, [c'.toNat], false⟩
  else ⟨x, [], false⟩

/-- The bytes of the lines, up to the end of a line. -/
def read (target : ℕ) : ℕ → Lines → LineResult Lines
  | 0, x => ⟨x, [], [], false⟩
  | _ + 1, ⟨[], edit⟩ => ⟨⟨[], edit⟩, [], [], true⟩
  | n + 1, ⟨c :: pending, edit⟩ =>
    if c = ctrl 'D' then
      if n + 1 < target then ⟨⟨c :: pending, edit⟩, [], [], false⟩ else ⟨⟨pending, edit⟩, [], [c], false⟩
    else if c = newline then ⟨⟨pending, edit⟩, [c], [c], false⟩
    else
      let rest := read target n ⟨pending, edit⟩
      ⟨rest.input, c :: rest.bytes, c :: rest.taken, rest.waits⟩

end Lines

/-- The console as its users see it. -/
def lineInput : LineInput Lines := ⟨⟨[], []⟩, Lines.key, Lines.read⟩

end CS537.Channels
