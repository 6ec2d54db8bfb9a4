import CS537.BufferCache.Runs
import CS537.Log.Buffers

/-!
# Blocks with locks

What the buffer cache is for: a cache of any number of blocks, each of which one process at a time may
lock, read and change.  A block is read into the cache and leaves it at any time, unless it is locked or
pinned by the log: these are the buffers of the log.  The buffers of `bio.c` are such a cache, whatever
the order in which the processes wait, are woken and recycle buffers.
-/

namespace CS537.BufferCache

open Foundation
open Log (Block BufferAccess)

/-! ## The cache -/

/-- What the processes do with blocks, and crashes. -/
inductive BlockEvent (ι : Type*)
  | request (o : ι) (b : ℕ)
  | change (o : ι) (data : Block)
  | logWrite (o : ι)
  | bwrite (o : ι)
  | release (o : ι)
  | crash

/-- Where a process is with a block. -/
inductive Session
  | idle
  | waiting (b : ℕ)
  | holding (b : ℕ) (changed : Bool)
  | writing (b : ℕ)

/-- The block that a process has locked. -/
def Session.locked : Session → Option ℕ
  | .holding b _ => some b
  | .writing b => some b
  | .idle | .waiting _ => none

structure BlockCache (ι : Type*) where
  buf : ℕ → Option Log.Buf
  disk : ℕ → Block
  sessions : ι → Session

inductive BlockLabel (ι : Type*)
  | event (e : BlockEvent ι)
  | read (b : ℕ)
  | evict (b : ℕ)
  /-- a process gets the block that it has requested -/
  | lock (o : ι)
  /-- the disk has written a block -/
  | written (o : ι)

variable {ι : Type*}

def BlockLabel.event? : BlockLabel ι → Option (BlockEvent ι)
  | .event e => some e
  | .read _ | .evict _ | .lock _ | .written _ => none

def BufferLabel.event? : BufferLabel ι → Option (BlockEvent ι)
  | .bread o b => some (.request o b)
  | .change o data => some (.change o data)
  | .logWrite o => some (.logWrite o)
  | .bwrite o => some (.bwrite o)
  | .brelse o => some (.release o)
  | .crash => some .crash
  | .acquiresleep _ | .iderw _ | .release _ => none

namespace BlockCache

def start (disk : ℕ → Block) : BlockCache ι := ⟨fun _ ↦ none, disk, fun _ ↦ .idle⟩

/-- Nobody has locked the block. -/
def Free (a : BlockCache ι) (b : ℕ) : Prop := ∀ p, (a.sessions p).locked ≠ some b

variable [DecidableEq ι] (a : BlockCache ι)

def setSession (o : ι) (session : Session) : BlockCache ι :=
  { a with sessions := Function.update a.sessions o session }

def setBlock (b : ℕ) (x : Log.Buf) : BlockCache ι := { a with buf := Function.update a.buf b (some x) }

omit [DecidableEq ι] in
@[simp]
theorem setBlock_buf (b : ℕ) (x : Log.Buf) : (a.setBlock b x).buf = Function.update a.buf b (some x) := rfl

def event : BlockEvent ι → Option (BlockCache ι)
  | .request o b =>
    match a.sessions o with
    | .idle => some (a.setSession o (.waiting b))
    | _ => none
  | .change o data =>
    match a.sessions o with
    | .holding b _ => (a.buf b).map fun x ↦ (a.setBlock b { x with data }).setSession o (.holding b true)
    | _ => none
  | .logWrite o =>
    match a.sessions o with
    | .holding b _ =>
      (a.buf b).map fun x ↦ (a.setBlock b { x with dirty := true }).setSession o (.holding b false)
    | _ => none
  | .bwrite o =>
    match a.sessions o with
    | .holding b _ => (a.buf b).map fun x ↦ (a.setBlock b { x with dirty := true }).setSession o (.writing b)
    | _ => none
  | .release o =>
    match a.sessions o with
    | .holding _ false => some (a.setSession o .idle)
    | _ => none
  | .crash => some (.start a.disk)

open scoped Classical in
noncomputable def step : BlockLabel ι → Option (BlockCache ι)
  | .event e => a.event e
  | .read b => if a.buf b = none then some (a.setBlock b ⟨a.disk b, false⟩) else none
  | .evict b =>
    if a.Free b ∧ (a.buf b).any Log.Buf.dirty = false then
      some { a with buf := Function.update a.buf b none }
    else none
  | .lock o =>
    match a.sessions o with
    | .waiting b => if a.Free b ∧ a.buf b ≠ none then some (a.setSession o (.holding b false)) else none
    | _ => none
  | .written o =>
    match a.sessions o with
    | .writing b => (a.buf b).map fun x ↦
        { (a.setBlock b ⟨x.data, false⟩).setSession o (.holding b false) with
          disk := Function.update a.disk b x.data }
    | _ => none

omit [DecidableEq ι] in
/-- What a step does to the buffers of the log, which do not have a change before it is marked. -/
def accesses (a : BlockCache ι) : BlockLabel ι → List BufferAccess
  | .event (.logWrite o) =>
    match a.sessions o with
    | .holding b _ => (a.buf b).toList.map fun x ↦ .logWrite b x.data
    | _ => []
  | .event .crash => [.crash]
  | .read b => [.read b]
  | .evict b => [.evict b]
  | .written o =>
    match a.sessions o with
    | .writing b => (a.buf b).toList.map fun x ↦ .bwrite b x.data
    | _ => []
  | .event (.request _ _) | .event (.change _ _) | .event (.bwrite _) | .event (.release _) | .lock _ => []

end BlockCache

/-- What a step does to the buffers of the log. -/
def Bcache.accesses (s : Bcache ι) : BufferLabel ι → List BufferAccess
  | .bread _ blockno =>
    match s.lookup ROOTDEV blockno, s.victim with
    | none, some i => if (s.buf i).valid then [.evict (s.buf i).blockno] else []
    | _, _ => []
  | .iderw o =>
    match s.uses o with
    | .reading i => [.read (s.buf i).blockno]
    | .writing i => [.bwrite (s.buf i).blockno (s.buf i).data]
    | _ => []
  | .logWrite o =>
    match s.uses o with
    | .holding i _ => [.logWrite (s.buf i).blockno (s.buf i).data]
    | _ => []
  | .crash => [.crash]
  | .acquiresleep _ | .change _ _ | .bwrite _ | .brelse _ | .release _ => []

/-- The cache over a disk. -/
noncomputable def blockMachine [DecidableEq ι] (disk : ℕ → Block) : Machine (BlockCache ι) (BlockLabel ι) where
  init a := a = .start disk
  step a l := a.step l

/-- A run of the cache, with what the processes do in it and its accesses to the buffers of the log. -/
def RunsTo [DecidableEq ι] (disk : ℕ → Block) (a : BlockCache ι) (events : List (BlockEvent ι))
    (accesses : List BufferAccess) (a' : BlockCache ι) : Prop :=
  ∃ ms, (blockMachine disk).run a ms = some a' ∧ ms.filterMap BlockLabel.event? = events ∧
    (blockMachine disk).outputs BlockCache.accesses a ms = accesses

namespace RunsTo

variable [DecidableEq ι] {disk : ℕ → Block} {a a' a'' : BlockCache ι} {events events' : List (BlockEvent ι)}
  {accesses accesses' : List BufferAccess}

theorem refl : RunsTo disk a [] [] a := ⟨[], rfl, rfl, rfl⟩

theorem step {l : BlockLabel ι} (hs : (blockMachine disk).step a l = some a') :
    RunsTo disk a ([l].filterMap BlockLabel.event?) (a.accesses l) a' :=
  ⟨[l], Machine.run_cons_of_step _ hs [], rfl,
    (Machine.outputs_cons_of_step _ hs []).trans (List.append_nil _)⟩

theorem trans (h : RunsTo disk a events accesses a') (h' : RunsTo disk a' events' accesses' a'') :
    RunsTo disk a (events ++ events') (accesses ++ accesses') a'' := by
  obtain ⟨ms, hrun, rfl, rfl⟩ := h
  obtain ⟨ns, hrun', rfl, rfl⟩ := h'
  refine ⟨ms ++ ns, ?_, List.filterMap_append, Machine.outputs_append _ hrun ns⟩
  rw [Machine.run_append, hrun, Option.bind_some, hrun']

end RunsTo

/-! ## The buffers are the cache -/

/-- A use of a buffer as one of its block. -/
def Use.session (buf : Slot → Buf ι) : Use → Session
  | .idle => .idle
  | .acquiring i _ => .waiting (buf i).blockno
  | .reading i => .waiting (buf i).blockno
  | .holding i changed => .holding (buf i).blockno changed
  | .writing i => .writing (buf i).blockno
  | .releasing _ => .idle

/-- A buffer that has been read, as the log sees it. -/
structure Buf.Shows (b : Buf ι) (blockno : ℕ) (x : Log.Buf) : Prop where
  dev : b.dev = ROOTDEV
  blockno : b.blockno = blockno
  valid : b.valid = true
  eq : x = ⟨b.data, b.dirty⟩

/-- The buffers and the processes of `bio.c` are those of the cache. -/
structure Matches (s : Bcache ι) (a : BlockCache ι) : Prop where
  disk : a.disk = s.disk
  buf : ∀ b x, a.buf b = some x ↔ ∃ i, (s.buf i).Shows b x
  sessions : ∀ o, a.sessions o = (s.uses o).session s.buf

section Matching

variable {s : Bcache ι} {a : BlockCache ι} {o : ι} {i : Slot} {b : Buf ι} {buf : Slot → Buf ι} {u : Use}
  {blockno : ℕ} {x : Log.Buf}

theorem Use.session_congr {buf' : Slot → Buf ι} (h : ∀ i, u.slot = some i → (buf' i).blockno = (buf i).blockno) :
    u.session buf' = u.session buf := by
  cases u with
  | idle => rfl
  | acquiring i asleep => exact congrArg Session.waiting (h i rfl)
  | reading i => exact congrArg Session.waiting (h i rfl)
  | holding i changed => exact congrArg (Session.holding · changed) (h i rfl)
  | writing i => exact congrArg Session.writing (h i rfl)
  | releasing i => rfl

/-- A block is locked by the process that has locked its buffer. -/
theorem Use.exists_locked (h : (u.session buf).locked = some blockno) :
    ∃ i, u.locked = some i ∧ (buf i).blockno = blockno := by
  cases u with
  | idle => cases h
  | acquiring i asleep => cases h
  | reading i => cases h
  | holding i changed => exact ⟨i, rfl, Option.some.inj h⟩
  | writing i => exact ⟨i, rfl, Option.some.inj h⟩
  | releasing i => cases h

/-- A buffer that has been read is written. -/
theorem Bcache.Identified.shows_update (h : Bcache.Identified buf) {cache : ℕ → Option Log.Buf}
    (hcache : ∀ b x, cache b = some x ↔ ∃ i, (buf i).Shows b x) (hroot : (buf i).dev = ROOTDEV)
    (hdev : b.dev = (buf i).dev) (hblockno : b.blockno = (buf i).blockno) (hvalid : b.valid = true) (c : ℕ)
    (x : Log.Buf) : Function.update cache (buf i).blockno (some ⟨b.data, b.dirty⟩) c = some x ↔
      ∃ j, (Function.update buf i b j).Shows c x := by
  by_cases hc : c = (buf i).blockno
  · subst hc
    rw [Function.update_self]
    constructor
    · intro hx
      refine ⟨i, ?_⟩
      rw [Function.update_self]
      exact ⟨hdev.trans hroot, hblockno, hvalid, (Option.some.inj hx).symm⟩
    · rintro ⟨j, hj⟩
      have hji : j = i := by
        by_contra hji
        rw [Function.update_of_ne hji] at hj
        exact hji (h.unique j i hj.dev hroot hj.blockno)
      rw [hji, Function.update_self] at hj
      rw [hj.eq]
  · rw [Function.update_of_ne hc, hcache]
    constructor
    · rintro ⟨j, hj⟩
      have hji : j ≠ i := by
        rintro rfl
        exact hc hj.blockno.symm
      exact ⟨j, by rwa [Function.update_of_ne hji]⟩
    · rintro ⟨j, hj⟩
      have hji : j ≠ i := by
        rintro rfl
        rw [Function.update_self] at hj
        exact hc (hj.blockno.symm.trans hblockno)
      exact ⟨j, by rwa [Function.update_of_ne hji] at hj⟩

/-- What the log does not see of a buffer changes. -/
theorem shows_same (hdev : b.dev = (buf i).dev) (hblockno : b.blockno = (buf i).blockno)
    (hvalid : b.valid = (buf i).valid) (hdirty : b.dirty = (buf i).dirty) (hdata : b.data = (buf i).data)
    (j : Slot) : (Function.update buf i b j).Shows blockno x ↔ (buf j).Shows blockno x := by
  by_cases hj : j = i
  · rw [hj, Function.update_self]
    constructor
    · rintro ⟨hroot, hb, hv, hx⟩
      exact ⟨hdev.symm.trans hroot, hblockno.symm.trans hb, hvalid.symm.trans hv, by rw [hx, hdata, hdirty]⟩
    · rintro ⟨hroot, hb, hv, hx⟩
      exact ⟨hdev.trans hroot, hblockno.trans hb, hvalid.trans hv, by rw [hx, hdata, hdirty]⟩
  · rw [Function.update_of_ne hj]

end Matching

/-- After a panic only the disk counts. -/
structure Cached (s : Bcache ι) (a : BlockCache ι) : Prop where
  inv : s.Inv
  disk : a.disk = s.disk
  running : s.panicked = none → Matches s a

/-! ## Steps -/

section Steps

variable {s t : Bcache ι} {a : BlockCache ι} {o : ι} {i : Slot} {b : Buf ι} {u : Use}

namespace Matches

theorem buf_eq (hm : Matches s a) (hroot : (s.buf i).dev = ROOTDEV) (hvalid : (s.buf i).valid = true) :
    a.buf (s.buf i).blockno = some ⟨(s.buf i).data, (s.buf i).dirty⟩ :=
  (hm.buf _ _).mpr ⟨i, hroot, rfl, hvalid, rfl⟩

/-- Nobody has locked the block of a buffer that nobody has. -/
theorem free (hm : Matches s a) (h : s.Inv) (hroot : (s.buf i).dev = ROOTDEV)
    (hfree : ∀ p, (s.uses p).locked = some i → (a.sessions p).locked = none) : a.Free (s.buf i).blockno := by
  intro p hp
  have hlocked := hp
  rw [hm.sessions] at hlocked
  obtain ⟨j, hj, hblockno⟩ := Use.exists_locked hlocked
  have hji := h.identified.unique j i (h.dev_eq (Use.slot_of_locked hj)) hroot hblockno
  rw [hfree p (hji ▸ hj)] at hp
  cases hp

theorem buf_eq_none (hm : Matches s a) (h : s.Inv) (hroot : (s.buf i).dev = ROOTDEV)
    (hvalid : (s.buf i).valid = false) : a.buf (s.buf i).blockno = none := by
  by_contra hsome
  obtain ⟨x, hx⟩ := Option.ne_none_iff_exists'.mp hsome
  obtain ⟨j, hj⟩ := (hm.buf _ _).mp hx
  have hji := h.identified.unique j i hj.dev hroot hj.blockno
  have hvalid' := hj.valid
  rw [hji, hvalid] at hvalid'
  cases hvalid'

variable [DecidableEq ι]

/-- A process goes on, and the other ones keep their buffers with their blocks. -/
theorem sessions_put {buf : Slot → Buf ι} (hm : Matches s a) (u : Use)
    (hothers : ∀ p j, p ≠ o → (s.uses p).slot = some j → (buf j).blockno = (s.buf j).blockno) (p : ι) :
    Function.update a.sessions o (u.session buf) p = (Function.update s.uses o u p).session buf := by
  by_cases hp : p = o
  · rw [hp, Function.update_self, Function.update_self]
  · rw [Function.update_of_ne hp, Function.update_of_ne hp, hm.sessions]
    exact (Use.session_congr fun j hj ↦ hothers p j hp hj).symm

/-- A process goes on, and every buffer keeps its block. -/
theorem sessions_same (hm : Matches s a) (u : Use) (hblockno : b.blockno = (s.buf i).blockno) (p : ι) :
    Function.update a.sessions o (u.session s.buf) p =
      (Function.update s.uses o u p).session (Function.update s.buf i b) := by
  have hblocknos := update_keeps (g := s.buf) (i := i) Buf.blockno hblockno
  have hsession : u.session (Function.update s.buf i b) = u.session s.buf :=
    Use.session_congr fun j _ ↦ hblocknos j
  rw [← hsession]
  exact hm.sessions_put u (fun _ j _ _ ↦ hblocknos j) p

/-- What the log does not see of a buffer changes, and a process goes on. -/
theorem put_same (hm : Matches s a) (hdev : b.dev = (s.buf i).dev) (hblockno : b.blockno = (s.buf i).blockno)
    (hvalid : b.valid = (s.buf i).valid) (hdirty : b.dirty = (s.buf i).dirty)
    (hdata : b.data = (s.buf i).data) :
    Matches ((s.setBuf i b).setUse o u) (a.setSession o (u.session s.buf)) where
  disk := hm.disk
  buf c x := (hm.buf c x).trans
    (exists_congr fun j ↦ (shows_same hdev hblockno hvalid hdirty hdata j).symm)
  sessions := hm.sessions_same u hblockno

/-- A process writes the buffer that it has locked. -/
theorem put_block (hm : Matches s a) (h : s.Inv) (hroot : (s.buf i).dev = ROOTDEV)
    (hdev : b.dev = (s.buf i).dev) (hblockno : b.blockno = (s.buf i).blockno) (hvalid : b.valid = true) :
    Matches ((s.setBuf i b).setUse o u)
      ((a.setBlock (s.buf i).blockno ⟨b.data, b.dirty⟩).setSession o (u.session s.buf)) where
  disk := hm.disk
  buf c x := h.identified.shows_update hm.buf hroot hdev hblockno hvalid c x
  sessions := hm.sessions_same u hblockno

omit [DecidableEq ι] in
theorem wakeup (hm : Matches s a) (i : Slot) : Matches (s.wakeup i) a where
  disk := hm.disk
  buf := hm.buf
  sessions p := by
    rw [hm.sessions]
    rcases s.wakeup_cases i p with hsame | ⟨hasleep, hawake⟩
    · rw [hsame]
      rfl
    · rw [hasleep, hawake]
      rfl

/-- A buffer gets another block. -/
theorem recycle (hm : Matches s a) (h : s.Inv) (hunused : ∀ p, (s.uses p).slot ≠ some i)
    (hvalid : b.valid = false) : Matches ((s.setBuf i b).setUse o (.acquiring i false))
      ({ a with buf := if (s.buf i).valid then Function.update a.buf (s.buf i).blockno none else a.buf }.setSession
        o (.waiting b.blockno)) where
  disk := hm.disk
  buf c x := by
    have hshows : (∃ j, (Function.update s.buf i b j).Shows c x) ↔ ∃ j, j ≠ i ∧ (s.buf j).Shows c x := by
      refine exists_congr fun j ↦ ?_
      by_cases hj : j = i
      · rw [hj, Function.update_self]
        exact iff_of_false (fun hb ↦ by simpa [hvalid] using hb.valid) fun hb ↦ hb.1 rfl
      · rw [Function.update_of_ne hj, and_iff_right hj]
    change (if _ then _ else _ : ℕ → Option Log.Buf) c = some x ↔ ∃ j, (Function.update s.buf i b j).Shows c x
    rw [hshows]
    cases hold : (s.buf i).valid with
    | false =>
      rw [if_neg Bool.false_ne_true, hm.buf]
      refine exists_congr fun j ↦ (and_iff_right_of_imp fun hj ↦ ?_).symm
      rintro rfl
      exact Bool.false_ne_true (hold.symm.trans hj.valid)
    | true =>
      rw [if_pos rfl]
      by_cases hc : c = (s.buf i).blockno
      · rw [hc, Function.update_self]
        refine iff_of_false (fun heq ↦ by cases heq) fun ⟨j, hji, hj⟩ ↦ hji ?_
        exact h.identified.unique j i hj.dev (h.identified.valid i hold) hj.blockno
      · rw [Function.update_of_ne hc, hm.buf]
        refine exists_congr fun j ↦ (and_iff_right_of_imp fun hj ↦ ?_).symm
        rintro rfl
        exact hc hj.blockno.symm
  sessions p := by
    have hsession : (Use.acquiring i false).session (Function.update s.buf i b) = .waiting b.blockno := by
      rw [Use.session, Function.update_self]
    have hothers : ∀ q j, q ≠ o → (s.uses q).slot = some j →
        (Function.update s.buf i b j).blockno = (s.buf j).blockno := by
      intro q j _ hj
      have hji : j ≠ i := by
        rintro rfl
        exact hunused q hj
      rw [Function.update_of_ne hji]
    rw [← hsession]
    exact hm.sessions_put _ hothers p

theorem of_setSession_self (hm : Matches s (a.setSession o (a.sessions o))) : Matches s a := by
  rwa [BlockCache.setSession, Function.update_eq_self] at hm

omit [DecidableEq ι] in
theorem with_links (hm : Matches s a) (links : Links Slot) : Matches { s with links } a :=
  ⟨hm.disk, hm.buf, hm.sessions⟩

end Matches

variable [DecidableEq ι] {l : BufferLabel ι} {d : ℕ → Block}

/-- Only a crash is possible after a panic. -/
theorem Bcache.running_of_step (hl : l ≠ .crash) (hs : s.step l = some t) : s.panicked = none := by
  by_contra hpanicked
  cases l <;> simp [Bcache.step, hpanicked] at hs
  exact hl rfl

/-- A process requests a block. -/
theorem request_step {blockno : ℕ} (hsession : a.sessions o = .idle) :
    (blockMachine d).step a (.event (.request o blockno)) = some (a.setSession o (.waiting blockno)) := by
  simp only [blockMachine, BlockCache.step, BlockCache.event, hsession]

/-- A process gets a block that is in the cache. -/
theorem lock_step {blockno : ℕ} (hsession : a.sessions o = .waiting blockno) (hfree : a.Free blockno)
    (hsome : a.buf blockno ≠ none) :
    (blockMachine d).step a (.lock o) = some (a.setSession o (.holding blockno false)) := by
  simp only [blockMachine, BlockCache.step, hsession]
  exact if_pos ⟨hfree, hsome⟩

namespace Matches

variable (hm : Matches s a)
include hm

omit [DecidableEq ι] in
theorem idle (huse : s.uses o = .idle) : a.sessions o = .idle := by
  rw [hm.sessions, huse]
  rfl

/-- The block of a recycled buffer leaves the cache. -/
theorem recycle_run (h : s.Inv) {blockno : ℕ} (huse : s.uses o = .idle) (hvictim : s.victim = some i) :
    ∃ a', RunsTo d a [.request o blockno]
        (if (s.buf i).valid then [.evict (s.buf i).blockno] else []) a' ∧
      Matches ((s.setBuf i { s.buf i with dev := ROOTDEV, blockno, valid := false, dirty := false, refcnt := 1 }).setUse
        o (.acquiring i false)) a' := by
  obtain ⟨hunused, hclean⟩ := h.of_victim hvictim
  have hslots := (h.counted i).eq_zero_iff.mp hunused
  have hrecycled := hm.recycle (o := o) (i := i)
    (b := { s.buf i with dev := ROOTDEV, blockno, valid := false, dirty := false, refcnt := 1 }) h hslots rfl
  cases hvalid : (s.buf i).valid with
  | false =>
    rw [hvalid, if_neg Bool.false_ne_true] at hrecycled
    exact ⟨_, .step (request_step (hm.idle huse)), hrecycled⟩
  | true =>
    rw [hvalid, if_pos rfl] at hrecycled
    have hroot := h.identified.valid i hvalid
    have hevict : (blockMachine d).step a (.evict (s.buf i).blockno) =
        some { a with buf := Function.update a.buf (s.buf i).blockno none } := by
      refine if_pos ⟨hm.free h hroot fun p hp ↦ absurd (Use.slot_of_locked hp) (hslots p), ?_⟩
      rw [hm.buf_eq hroot hvalid, Option.any_some, hclean]
    have hrequest : (blockMachine d).step { a with buf := Function.update a.buf (s.buf i).blockno none }
        (.event (.request o blockno)) = some _ := request_step (hm.idle huse)
    exact ⟨_, (RunsTo.step hevict).trans (.step hrequest), hrecycled⟩

/-- A process has locked its buffer. -/
theorem lock_run (h : s.Inv) (huse : s.uses o = .acquiring i false) (hfree : (s.buf i).lock = none) :
    ∃ a', RunsTo d a [] [] a' ∧
      Matches ((s.setBuf i { s.buf i with lock := some o }).setUse o (s.afterBget i)) a' := by
  have hsession := hm.sessions o
  rw [huse] at hsession
  have hput := hm.put_same (o := o) (i := i) (b := { s.buf i with lock := some o }) (u := s.afterBget i)
    rfl rfl rfl rfl rfl
  have hroot : (s.buf i).dev = ROOTDEV := h.dev_eq (o := o) (by rw [huse]; rfl)
  cases hvalid : (s.buf i).valid with
  | true =>
    have hafter : s.afterBget i = .holding i false := if_pos hvalid
    have hblock := hm.free h hroot fun p hp ↦ by
      have hlock := (h.locked p i).mpr hp
      rw [hfree] at hlock
      cases hlock
    have hstep := lock_step (d := d) hsession hblock
      (by rw [hm.buf_eq hroot hvalid]; exact Option.some_ne_none _)
    rw [hafter] at hput ⊢
    exact ⟨_, .step hstep, hput⟩
  | false =>
    have hafter : s.afterBget i = .reading i := if_neg (by rw [hvalid]; exact Bool.false_ne_true)
    rw [hafter] at hput ⊢
    have hsame : (Use.reading i).session s.buf = a.sessions o := hsession.symm
    rw [hsame] at hput
    exact ⟨a, .refl, hput.of_setSession_self⟩

/-- The disk has read a block, and the process that has waited for it has it. -/
theorem read_run (h : s.Inv) (huse : s.uses o = .reading i) :
    ∃ a', RunsTo d a [] [.read (s.buf i).blockno] a' ∧
      Matches ((s.transfer i).setUse o (.holding i false)) a' := by
  have hrelies := h.relies o
  have hsession := hm.sessions o
  rw [huse] at hrelies hsession
  obtain ⟨hvalid, hclean⟩ := hrelies
  have hlocked : (s.uses o).locked = some i := by
    rw [huse]
    rfl
  have hroot := h.dev_eq (Use.slot_of_locked hlocked)
  have hread : (blockMachine d).step a (.read (s.buf i).blockno) =
      some (a.setBlock (s.buf i).blockno ⟨s.disk (s.buf i).blockno, false⟩) := by
    rw [← hm.disk]
    exact if_pos (hm.buf_eq_none h hroot hvalid)
  have hblock := hm.free h hroot fun p hp ↦ by
    rw [h.locked_unique hlocked hp, hsession]
    rfl
  have hsome : (a.setBlock (s.buf i).blockno ⟨s.disk (s.buf i).blockno, false⟩).buf (s.buf i).blockno ≠ none := by
    rw [BlockCache.setBlock_buf, Function.update_self]
    exact Option.some_ne_none _
  have hlock := lock_step (d := d) (o := o)
    (a := a.setBlock (s.buf i).blockno ⟨s.disk (s.buf i).blockno, false⟩) hsession hblock hsome
  rw [Bcache.transfer, if_neg (by rw [hclean]; exact Bool.false_ne_true)]
  exact ⟨_, (RunsTo.step hread).trans (.step hlock), hm.put_block (u := .holding i false)
      (b := { s.buf i with valid := true, dirty := false, data := s.disk (s.buf i).blockno }) h hroot rfl rfl rfl⟩

/-- The disk has written a block. -/
theorem written_run (h : s.Inv) (huse : s.uses o = .writing i) :
    ∃ a', RunsTo d a [] [.bwrite (s.buf i).blockno (s.buf i).data] a' ∧
      Matches ((s.transfer i).setUse o (.holding i false)) a' := by
  have hrelies := h.relies o
  have hsession := hm.sessions o
  rw [huse] at hrelies hsession
  obtain ⟨hvalid, hdirty⟩ := hrelies
  have hroot : (s.buf i).dev = ROOTDEV := h.dev_eq (o := o) (by rw [huse]; rfl)
  have hput := hm.put_block (o := o) (u := .holding i false) (b := { s.buf i with valid := true, dirty := false })
    h hroot rfl rfl rfl
  have hwritten : (blockMachine d).step a (.written o) =
      some { (a.setBlock (s.buf i).blockno ⟨(s.buf i).data, false⟩).setSession o (.holding (s.buf i).blockno false)
        with disk := Function.update s.disk (s.buf i).blockno (s.buf i).data } := by
    simp only [blockMachine, BlockCache.step, hsession, Use.session, hm.buf_eq hroot hvalid, Option.map_some,
      hm.disk]
  have haccesses : a.accesses (.written o) = [.bwrite (s.buf i).blockno (s.buf i).data] := by
    simp only [BlockCache.accesses, hsession, Use.session, hm.buf_eq hroot hvalid]
    rfl
  rw [Bcache.transfer, if_pos hdirty, ← haccesses]
  exact ⟨_, .step hwritten, rfl, hput.buf, hput.sessions⟩

/-- A process that has locked a block changes it, or marks it. -/
theorem holder_step (h : s.Inv) {changed : Bool} (huse : s.uses o = .holding i changed) {e : BlockEvent ι}
    (hdev : b.dev = (s.buf i).dev) (hblockno : b.blockno = (s.buf i).blockno) (hvalid : b.valid = true)
    (hevent : a.sessions o = .holding (s.buf i).blockno changed →
      a.buf (s.buf i).blockno = some ⟨(s.buf i).data, (s.buf i).dirty⟩ →
        a.event e = some ((a.setBlock (s.buf i).blockno ⟨b.data, b.dirty⟩).setSession o (u.session s.buf))) :
    ∃ a', RunsTo d a [e] (a.accesses (.event e)) a' ∧ Matches ((s.setBuf i b).setUse o u) a' := by
  have hsession := hm.sessions o
  rw [huse] at hsession
  obtain ⟨hlocked, hvalid'⟩ := h.of_holding huse
  have hroot := h.dev_eq (Use.slot_of_locked hlocked)
  have hstep : (blockMachine d).step a (.event e) = some _ := hevent hsession (hm.buf_eq hroot hvalid')
  exact ⟨_, .step hstep, hm.put_block h hroot hdev hblockno hvalid⟩

theorem hit_run {blockno : ℕ} (huse : s.uses o = .idle) (hblockno : (s.buf i).blockno = blockno) :
    ∃ a', RunsTo d a [.request o blockno] [] a' ∧
      Matches ((s.setBuf i { s.buf i with refcnt := (s.buf i).refcnt + 1 }).setUse o (.acquiring i false)) a' := by
  have hput := hm.put_same (o := o) (i := i) (b := { s.buf i with refcnt := (s.buf i).refcnt + 1 })
    (u := .acquiring i false) rfl rfl rfl rfl rfl
  have hsession : (Use.acquiring i false).session s.buf = .waiting blockno := congrArg Session.waiting hblockno
  rw [hsession] at hput
  exact ⟨_, .step (request_step (hm.idle huse)), hput⟩

/-- A process goes on where the cache does not. -/
theorem quiet_run (hb : b.dev = (s.buf i).dev ∧ b.blockno = (s.buf i).blockno ∧ b.valid = (s.buf i).valid ∧
      b.dirty = (s.buf i).dirty ∧ b.data = (s.buf i).data)
    (hu : u.session s.buf = (s.uses o).session s.buf) :
    ∃ a', RunsTo d a [] [] a' ∧ Matches ((s.setBuf i b).setUse o u) a' := by
  obtain ⟨hdev, hblockno, hvalid, hdirty, hdata⟩ := hb
  have hput := hm.put_same (o := o) (u := u) hdev hblockno hvalid hdirty hdata
  rw [hu, ← hm.sessions] at hput
  exact ⟨a, .refl, hput.of_setSession_self⟩

theorem sleep_run (huse : s.uses o = .acquiring i false) :
    ∃ a', RunsTo d a [] [] a' ∧ Matches (s.setUse o (.acquiring i true)) a' := by
  have hquiet := hm.quiet_run (d := d) (o := o) (i := i) (b := s.buf i) (u := .acquiring i true)
    ⟨rfl, rfl, rfl, rfl, rfl⟩ (by rw [huse]; rfl)
  rwa [Bcache.setBuf, Function.update_eq_self] at hquiet

theorem brelse_run (huse : s.uses o = .holding i false) :
    ∃ a', RunsTo d a [.release o] [] a' ∧
      Matches (((s.setBuf i { s.buf i with lock := none }).wakeup i).setUse o (.releasing i)) a' := by
  have hput := (hm.wakeup i).put_same (o := o) (i := i) (b := { s.buf i with lock := none })
    (u := .releasing i) rfl rfl rfl rfl rfl
  have hrelease : (blockMachine d).step a (.event (.release o)) = some (a.setSession o .idle) := by
    have hsession := hm.sessions o
    rw [huse] at hsession
    simp only [blockMachine, BlockCache.step, BlockCache.event, hsession, Use.session]
  exact ⟨_, .step hrelease, hput⟩

theorem release_run (huse : s.uses o = .releasing i) :
    ∃ a', RunsTo d a [] [] a' ∧
      Matches ((s.setBuf i { s.buf i with refcnt := (s.buf i).refcnt - 1 }).setUse o .idle) a' :=
  hm.quiet_run ⟨rfl, rfl, rfl, rfl, rfl⟩ (by rw [huse]; rfl)

/-- A step without a panic is one of the cache, or two, or none. -/
theorem step_run (h : s.Inv) (hl : l ≠ .crash) (hs : s.step l = some t) (hrunning : t.panicked = none) :
    ∃ a', RunsTo d a ([l].filterMap BufferLabel.event?) (s.accesses l) a' ∧ Matches t a' := by
  cases Bcache.step_cases hs with
  | hit huse hfound =>
    simp only [Bcache.accesses, hfound]
    exact hm.hit_run huse (h.of_lookup hfound).2
  | recycle huse hmiss hvictim =>
    simp only [Bcache.accesses, hmiss, hvictim]
    exact hm.recycle_run h huse hvictim
  | noBuffers => cases hrunning
  | lock huse hfree => exact hm.lock_run h huse hfree
  | sleep huse => exact hm.sleep_run huse
  | iderw huse =>
    rw [h.iderwOn_eq huse]
    rcases huse with huse | huse
    · simp only [Bcache.accesses, huse]
      exact hm.read_run h huse
    · simp only [Bcache.accesses, huse]
      exact hm.written_run h huse
  | change huse =>
    refine hm.holder_step h huse rfl rfl (h.of_holding huse).2 fun hsession hbuf ↦ ?_
    simp only [BlockCache.event, hsession, hbuf, Option.map_some]
    rfl
  | @logWrite o i changed huse =>
    have hvalid := (h.of_holding huse).2
    have hsession : a.sessions o = .holding (s.buf i).blockno changed := by
      rw [hm.sessions, huse]
      rfl
    have haccesses : a.accesses (.event (.logWrite o)) = s.accesses (.logWrite o) := by
      simp only [BlockCache.accesses, Bcache.accesses, hsession, huse, hm.buf_eq (h.identified.valid i hvalid) hvalid]
      rfl
    rw [← haccesses]
    refine hm.holder_step h huse rfl rfl hvalid fun hsession hbuf ↦ ?_
    simp only [BlockCache.event, hsession, hbuf, Option.map_some]
    rfl
  | bwrite huse =>
    refine hm.holder_step h huse rfl rfl (h.of_holding huse).2 fun hsession hbuf ↦ ?_
    simp only [BlockCache.event, hsession, hbuf, Option.map_some]
    rfl
  | bwriteUnlocked => cases hrunning
  | brelse huse => exact hm.brelse_run huse
  | brelseUnlocked => cases hrunning
  | releaseLast huse =>
    obtain ⟨a', hrun, hmatches⟩ := hm.release_run (d := d) huse
    exact ⟨a', hrun, hmatches.with_links _⟩
  | releaseOther huse => exact hm.release_run huse
  | crash => exact absurd rfl hl

end Matches

omit [DecidableEq ι] in
/-- A crash empties the cache. -/
theorem Cached.boot (disk : ℕ → Block) : Cached (.boot disk : Bcache ι) (.start disk) where
  inv := .boot disk
  disk := rfl
  running _ := by
    refine ⟨rfl, fun b x ↦ iff_of_false (fun heq ↦ by cases heq) fun hshows ↦ ?_, fun _ ↦ rfl⟩
    obtain ⟨i, hi⟩ := hshows
    cases hi.dev

theorem Cached.step (h : Cached s a) (hs : s.step l = some t) :
    ∃ a', RunsTo d a ([l].filterMap BufferLabel.event?) (s.accesses l) a' ∧ Cached t a' := by
  by_cases hl : l = .crash
  · subst hl
    obtain rfl := Option.some.inj hs
    have hcrash : (blockMachine d).step a (.event .crash) = some (.start s.disk) := by
      rw [← h.disk]
      rfl
    exact ⟨_, .step hcrash, .boot s.disk⟩
  · have hrunning := Bcache.running_of_step hl hs
    have hm := h.running hrunning
    have hinv := h.inv.step hs
    by_cases ht : t.panicked = none
    · obtain ⟨a', hrun, hmatches⟩ := hm.step_run (d := d) h.inv hl hs ht
      exact ⟨a', hrun, hinv, hmatches.disk, fun _ ↦ hmatches⟩
    · obtain ⟨o, b, huse, rfl, hmiss, hvictim, rfl⟩ := h.inv.panics hrunning hs ht
      simp only [Bcache.accesses, hmiss, hvictim]
      exact ⟨_, .step (request_step (hm.idle huse)), hinv, h.disk, fun heq ↦ absurd heq ht⟩

/-! ## Runs -/

/-- A run of the buffers is a run of the cache in which the processes do the same, with the same accesses
to the buffers of the log. -/
theorem Cached.run {ls : List (BufferLabel ι)} (h : Cached s a) (hrun : (bcacheMachine d).run s ls = some t) :
    ∃ a', RunsTo d a (ls.filterMap BufferLabel.event?) ((bcacheMachine d).outputs Bcache.accesses s ls) a' ∧
      Cached t a' := by
  induction ls generalizing s a with
  | nil =>
    obtain rfl := Option.some.inj hrun
    exact ⟨a, .refl, h⟩
  | cons l ls ih =>
    obtain ⟨u, hs, hrun⟩ := Option.bind_eq_some_iff.mp hrun
    obtain ⟨a', hfirst, h'⟩ := h.step (d := d) hs
    obtain ⟨a'', hrest, h''⟩ := ih h' hrun
    have hboth := hfirst.trans hrest
    rw [← List.filterMap_append, List.singleton_append, ← Machine.outputs_cons_of_step _ hs] at hboth
    exact ⟨a'', hboth, h''⟩

/-- From boot on the buffers of `bio.c` are a cache of the blocks of the disk. -/
theorem bcache_run_refines_blocks {ls : List (BufferLabel ι)}
    (hrun : (bcacheMachine d).run (.boot d) ls = some t) :
    ∃ a', RunsTo d (.start d) (ls.filterMap BufferLabel.event?)
        ((bcacheMachine d).outputs Bcache.accesses (.boot d) ls) a' ∧ Cached t a' :=
  (Cached.boot d).run hrun

end Steps

end CS537.BufferCache
