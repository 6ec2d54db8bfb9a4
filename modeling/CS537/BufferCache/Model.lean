import CS537.Foundation.Machine
import CS537.Foundation.Ring
import CS537.Log.Model

/-!
# The buffer cache

`bio.c` of the xv6 kernel with the sleep locks of the buffers.  The buffers are on a ring, from the one
that was released last to the one that was released first.  A label names a use of a buffer, from `bread`
to `brelse`; a process that has two buffers is in two uses.  A step is what is done under one of the spin
locks, or by the disk.  `refcnt` counts processes and is a natural number here.
-/

namespace CS537.BufferCache

open Foundation
open Log (Block MAXOPBLOCKS)

def NBUF : ℕ := MAXOPBLOCKS * 3

def ROOTDEV : ℕ := 1

/-- A buffer in `bcache.buf`. -/
abbrev Slot := Fin NBUF

/-- `struct buf`, with the process that holds the sleep lock. -/
structure Buf (ι : Type*) where
  valid : Bool
  dirty : Bool
  dev : ℕ
  blockno : ℕ
  lock : Option ι
  refcnt : ℕ
  data : Block

/-- Where a process is with its buffer. -/
inductive Use
  | idle
  /-- in `acquiresleep` -/
  | acquiring (i : Slot) (asleep : Bool)
  /-- in `iderw`, called by `bread` -/
  | reading (i : Slot)
  /-- behind `bread`; the data may have been changed since it was last logged or written -/
  | holding (i : Slot) (changed : Bool)
  /-- in `iderw`, called by `bwrite` -/
  | writing (i : Slot)
  /-- in `brelse`, behind `releasesleep` -/
  | releasing (i : Slot)
  deriving DecidableEq

structure Bcache (ι : Type*) where
  buf : Slot → Buf ι
  /-- the links of the buffers, and those of `bcache.head` -/
  links : Links Slot
  disk : ℕ → Block
  uses : ι → Use
  panicked : Option String

inductive BufferLabel (ι : Type*)
  | bread (o : ι) (blockno : ℕ)
  | acquiresleep (o : ι)
  | iderw (o : ι)
  | change (o : ι) (data : Block)
  | logWrite (o : ι)
  | bwrite (o : ι)
  | brelse (o : ι)
  /-- the end of `brelse` -/
  | release (o : ι)
  | crash

namespace Bcache

variable {ι : Type*}

/-- The links after `binit`. -/
def binit : Links Slot :=
  (List.finRange NBUF).foldl Links.pushFront ⟨fun _ ↦ none, fun _ ↦ none⟩

def boot (disk : ℕ → Block) : Bcache ι where
  buf _ := ⟨false, false, 0, 0, none, 0, fun _ ↦ 0⟩
  links := binit
  disk := disk
  uses _ := .idle
  panicked := none

/-- The first loop of `bget`. -/
def lookup (s : Bcache ι) (dev blockno : ℕ) : Option Slot :=
  search s.links.next (fun i ↦ decide ((s.buf i).dev = dev ∧ (s.buf i).blockno = blockno)) (NBUF + 1)
    (s.links.next none)

/-- The second loop of `bget`. -/
def victim (s : Bcache ι) : Option Slot :=
  search s.links.prev (fun i ↦ decide ((s.buf i).refcnt = 0 ∧ (s.buf i).dirty = false)) (NBUF + 1)
    (s.links.prev none)

def panic (s : Bcache ι) (msg : String) : Bcache ι := { s with panicked := some msg }

def setBuf (s : Bcache ι) (i : Slot) (b : Buf ι) : Bcache ι :=
  { s with buf := Function.update s.buf i b }

variable [DecidableEq ι] (s : Bcache ι)

def setUse (o : ι) (u : Use) : Bcache ι := { s with uses := Function.update s.uses o u }

def bget (o : ι) (dev blockno : ℕ) : Bcache ι :=
  match s.lookup dev blockno with
  | some i => (s.setBuf i { s.buf i with refcnt := (s.buf i).refcnt + 1 }).setUse o (.acquiring i false)
  | none =>
    match s.victim with
    | some i =>
      (s.setBuf i { s.buf i with dev, blockno, valid := false, dirty := false, refcnt := 1 }).setUse o
        (.acquiring i false)
    | none => s.panic "bget: no buffers"

/-- `bread` looks at the flags of the buffer. -/
def afterBget (i : Slot) : Use := if (s.buf i).valid then .holding i false else .reading i

/-- A round of `acquiresleep`, and what `bread` does when it has the lock. -/
def acquiresleep (o : ι) : Option (Bcache ι) :=
  match s.uses o with
  | .acquiring i false =>
    if (s.buf i).lock = none then
      some ((s.setBuf i { s.buf i with lock := some o }).setUse o (s.afterBget i))
    else some (s.setUse o (.acquiring i true))
  | _ => none

/-- What the disk does for `iderw`. -/
def transfer (i : Slot) : Bcache ι :=
  if (s.buf i).dirty then
    { s.setBuf i { s.buf i with valid := true, dirty := false } with
      disk := Function.update s.disk (s.buf i).blockno (s.buf i).data }
  else s.setBuf i { s.buf i with valid := true, dirty := false, data := s.disk (s.buf i).blockno }

def iderwOn (o : ι) (i : Slot) : Bcache ι :=
  if (s.buf i).lock ≠ some o then s.panic "iderw: buf not locked"
  else if (s.buf i).valid ∧ (s.buf i).dirty = false then s.panic "iderw: nothing to do"
  else (s.transfer i).setUse o (.holding i false)

def iderw (o : ι) : Option (Bcache ι) :=
  match s.uses o with
  | .reading i => some (s.iderwOn o i)
  | .writing i => some (s.iderwOn o i)
  | _ => none

/-- The process changes `b->data`. -/
def change (o : ι) (data : Block) : Option (Bcache ι) :=
  match s.uses o with
  | .holding i _ => some ((s.setBuf i { s.buf i with data }).setUse o (.holding i true))
  | _ => none

/-- What `log_write` does with the buffer. -/
def logWrite (o : ι) : Option (Bcache ι) :=
  match s.uses o with
  | .holding i _ => some ((s.setBuf i { s.buf i with dirty := true }).setUse o (.holding i false))
  | _ => none

def bwrite (o : ι) : Option (Bcache ι) :=
  match s.uses o with
  | .holding i _ =>
    if (s.buf i).lock ≠ some o then some (s.panic "bwrite")
    else some ((s.setBuf i { s.buf i with dirty := true }).setUse o (.writing i))
  | _ => none

/-- `wakeup` of the processes that wait for the lock of a buffer. -/
def wakeup (i : Slot) : Bcache ι :=
  { s with uses := fun p ↦ if s.uses p = .acquiring i true then .acquiring i false else s.uses p }

/-- The start of `brelse`.  The kernel logs or writes what it has changed before. -/
def brelse (o : ι) : Option (Bcache ι) :=
  match s.uses o with
  | .holding i false =>
    if (s.buf i).lock ≠ some o then some (s.panic "brelse")
    else some (((s.setBuf i { s.buf i with lock := none }).wakeup i).setUse o (.releasing i))
  | _ => none

/-- The end of `brelse`. -/
def release (o : ι) : Option (Bcache ι) :=
  match s.uses o with
  | .releasing i =>
    let s' := (s.setBuf i { s.buf i with refcnt := (s.buf i).refcnt - 1 }).setUse o .idle
    if (s.buf i).refcnt - 1 = 0 then some { s' with links := (s.links.unlink i).pushFront i } else some s'
  | _ => none

def step : BufferLabel ι → Option (Bcache ι)
  | .crash => some (.boot s.disk)
  | l =>
    if s.panicked = none then
      match l with
      | .bread o blockno => if s.uses o = .idle then some (s.bget o ROOTDEV blockno) else none
      | .acquiresleep o => s.acquiresleep o
      | .iderw o => s.iderw o
      | .change o data => s.change o data
      | .logWrite o => s.logWrite o
      | .bwrite o => s.bwrite o
      | .brelse o => s.brelse o
      | .release o => s.release o
      | .crash => none
    else none

end Bcache

/-- The buffer cache over a disk. -/
def bcacheMachine {ι : Type*} [DecidableEq ι] (disk : ℕ → Block) :
    Machine (Bcache ι) (BufferLabel ι) where
  init s := s = .boot disk
  step s l := s.step l

/-- What a write to one buffer leaves as it is in it is the same in all buffers. -/
theorem update_keeps {α β γ : Type*} [DecidableEq α] {g : α → β} {i : α} {b : β} (f : β → γ)
    (h : f b = f (g i)) (j : α) : f (Function.update g i b j) = f (g j) := by
  by_cases hj : j = i
  · rw [hj, Function.update_self, h]
  · rw [Function.update_of_ne hj]

/-! ## What a step does -/

namespace Bcache

variable {ι : Type*} [DecidableEq ι]

/-- The steps of the machine, one constructor for each way a step ends. -/
inductive StepsTo : Bcache ι → BufferLabel ι → Bcache ι → Prop
  | hit {s : Bcache ι} {o : ι} {blockno : ℕ} {i : Slot} (huse : s.uses o = .idle)
    (hfound : s.lookup ROOTDEV blockno = some i) : StepsTo s (.bread o blockno)
      ((s.setBuf i { s.buf i with refcnt := (s.buf i).refcnt + 1 }).setUse o (.acquiring i false))
  | recycle {s : Bcache ι} {o : ι} {blockno : ℕ} {i : Slot} (huse : s.uses o = .idle)
    (hmiss : s.lookup ROOTDEV blockno = none) (hvictim : s.victim = some i) : StepsTo s (.bread o blockno)
      ((s.setBuf i { s.buf i with dev := ROOTDEV, blockno, valid := false, dirty := false, refcnt := 1 }).setUse
        o (.acquiring i false))
  | noBuffers {s : Bcache ι} {o : ι} {blockno : ℕ} (huse : s.uses o = .idle)
    (hmiss : s.lookup ROOTDEV blockno = none) (hnone : s.victim = none) :
    StepsTo s (.bread o blockno) (s.panic "bget: no buffers")
  | lock {s : Bcache ι} {o : ι} {i : Slot} (huse : s.uses o = .acquiring i false)
    (hfree : (s.buf i).lock = none) : StepsTo s (.acquiresleep o)
      ((s.setBuf i { s.buf i with lock := some o }).setUse o (s.afterBget i))
  | sleep {s : Bcache ι} {o : ι} {i : Slot} (huse : s.uses o = .acquiring i false)
    (hheld : (s.buf i).lock ≠ none) : StepsTo s (.acquiresleep o) (s.setUse o (.acquiring i true))
  | iderw {s : Bcache ι} {o : ι} {i : Slot} (huse : s.uses o = .reading i ∨ s.uses o = .writing i) :
    StepsTo s (.iderw o) (s.iderwOn o i)
  | change {s : Bcache ι} {o : ι} {i : Slot} {changed : Bool} {data : Block}
    (huse : s.uses o = .holding i changed) : StepsTo s (.change o data)
      ((s.setBuf i { s.buf i with data }).setUse o (.holding i true))
  | logWrite {s : Bcache ι} {o : ι} {i : Slot} {changed : Bool} (huse : s.uses o = .holding i changed) :
    StepsTo s (.logWrite o) ((s.setBuf i { s.buf i with dirty := true }).setUse o (.holding i false))
  | bwrite {s : Bcache ι} {o : ι} {i : Slot} {changed : Bool} (huse : s.uses o = .holding i changed)
    (hlock : (s.buf i).lock = some o) : StepsTo s (.bwrite o)
      ((s.setBuf i { s.buf i with dirty := true }).setUse o (.writing i))
  | bwriteUnlocked {s : Bcache ι} {o : ι} {i : Slot} {changed : Bool} (huse : s.uses o = .holding i changed)
    (hlock : (s.buf i).lock ≠ some o) : StepsTo s (.bwrite o) (s.panic "bwrite")
  | brelse {s : Bcache ι} {o : ι} {i : Slot} (huse : s.uses o = .holding i false)
    (hlock : (s.buf i).lock = some o) : StepsTo s (.brelse o)
      (((s.setBuf i { s.buf i with lock := none }).wakeup i).setUse o (.releasing i))
  | brelseUnlocked {s : Bcache ι} {o : ι} {i : Slot} (huse : s.uses o = .holding i false)
    (hlock : (s.buf i).lock ≠ some o) : StepsTo s (.brelse o) (s.panic "brelse")
  | releaseLast {s : Bcache ι} {o : ι} {i : Slot} (huse : s.uses o = .releasing i)
    (hlast : (s.buf i).refcnt - 1 = 0) : StepsTo s (.release o)
      { (s.setBuf i { s.buf i with refcnt := (s.buf i).refcnt - 1 }).setUse o .idle with
        links := (s.links.unlink i).pushFront i }
  | releaseOther {s : Bcache ι} {o : ι} {i : Slot} (huse : s.uses o = .releasing i)
    (hother : (s.buf i).refcnt - 1 ≠ 0) : StepsTo s (.release o)
      ((s.setBuf i { s.buf i with refcnt := (s.buf i).refcnt - 1 }).setUse o .idle)
  | crash {s : Bcache ι} : StepsTo s .crash (.boot s.disk)

variable {s t : Bcache ι} {l : BufferLabel ι}

theorem bread_cases {o : ι} {blockno : ℕ} (huse : s.uses o = .idle) :
    StepsTo s (.bread o blockno) (s.bget o ROOTDEV blockno) := by
  rw [bget]
  cases hfound : s.lookup ROOTDEV blockno with
  | some i => exact .hit huse hfound
  | none =>
    cases hvictim : s.victim with
    | some i => exact .recycle huse hfound hvictim
    | none => exact .noBuffers huse hfound hvictim

theorem step_cases (h : s.step l = some t) : StepsTo s l t := by
  cases l with
  | crash => exact Option.some.inj h ▸ .crash
  | bread o blockno =>
    simp only [step] at h
    split_ifs at h with _ huse
    exact Option.some.inj h ▸ bread_cases huse
  | acquiresleep o =>
    simp only [step, acquiresleep] at h
    split_ifs at h
    split at h
    · next i huse =>
      split_ifs at h with hfree
      · exact Option.some.inj h ▸ .lock huse hfree
      · exact Option.some.inj h ▸ .sleep huse hfree
    · cases h
  | iderw o =>
    simp only [step, iderw] at h
    split_ifs at h
    split at h
    · next i huse => exact Option.some.inj h ▸ .iderw (.inl huse)
    · next i huse => exact Option.some.inj h ▸ .iderw (.inr huse)
    · cases h
  | change o data =>
    simp only [step, change] at h
    split_ifs at h
    split at h
    · next i changed huse => exact Option.some.inj h ▸ .change huse
    · cases h
  | logWrite o =>
    simp only [step, logWrite] at h
    split_ifs at h
    split at h
    · next i changed huse => exact Option.some.inj h ▸ .logWrite huse
    · cases h
  | bwrite o =>
    simp only [step, bwrite] at h
    split_ifs at h
    split at h
    · next i changed huse =>
      split_ifs at h with hlock
      · exact Option.some.inj h ▸ .bwriteUnlocked huse hlock
      · exact Option.some.inj h ▸ .bwrite huse (not_not.mp hlock)
    · cases h
  | brelse o =>
    simp only [step, brelse] at h
    split_ifs at h
    split at h
    · next i huse =>
      split_ifs at h with hlock
      · exact Option.some.inj h ▸ .brelseUnlocked huse hlock
      · exact Option.some.inj h ▸ .brelse huse (not_not.mp hlock)
    · cases h
  | release o =>
    simp only [step, release] at h
    split_ifs at h
    split at h
    · next i huse =>
      split_ifs at h with hlast
      · exact Option.some.inj h ▸ .releaseLast huse hlast
      · exact Option.some.inj h ▸ .releaseOther huse hlast
    · cases h

end Bcache

end CS537.BufferCache
