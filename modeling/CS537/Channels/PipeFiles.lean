import CS537.Channels.PipeSleep

/-!
# Pipes behind open files

A process comes to a pipe through the two open files that `pipealloc` makes.  `filedup` and `fileclose`
count the references to each of them, and the call of `fileclose` that drops the last one closes its
end of the pipe.  A process in `pipewrite` or `piperead` makes no other call meanwhile, so that it keeps
its reference: the counts alone see to it that an end in use is open and that the page of the pipe is
freed once, when nothing can use it any more.
-/

namespace CS537.Channels

open Foundation

variable {π ι : Type*} [DecidableEq π] [DecidableEq ι]

/-! ## The open files -/

namespace PipeCall

/-- The call uses the write end, or the read end. -/
def Uses : Bool → PipeCall → Prop
  | true, call => call.Writing
  | false, call => call.Reading

instance decidableUses : (writable : Bool) → (call : PipeCall) → Decidable (call.Uses writable)
  | true, .writing _ _ _ | false, .reading _ _ => isTrue trivial
  | true, .idle | true, .reading _ _ | true, .wrote _ _ _ | true, .gotBytes _ _ | true, .readFailed =>
    isFalse id
  | false, .idle | false, .writing _ _ _ | false, .wrote _ _ _ | false, .gotBytes _ _
  | false, .readFailed => isFalse id

@[simp]
theorem uses_wakeReader (writable : Bool) (call : PipeCall) :
    call.wakeReader.Uses writable ↔ call.Uses writable := by
  cases writable with
  | true => exact writing_wakeReader call
  | false => exact reading_wakeReader call

@[simp]
theorem uses_wakeWriter (writable : Bool) (call : PipeCall) :
    call.wakeWriter.Uses writable ↔ call.Uses writable := by
  cases writable with
  | true => exact writing_wakeWriter call
  | false => exact reading_wakeWriter call

end PipeCall

def Pipe.isOpen (p : Pipe) : Bool → Bool
  | true => p.writeopen
  | false => p.readopen

/-- A pipe with its two files, which are told apart by `writable`. -/
structure PipeFiles (π ι : Type*) where
  pipe : PipeState ι
  ref : Bool → ℕ
  /-- the processes that have the references -/
  holders : Bool → List π
  /-- `fileclose` has dropped the last reference and has not called `pipeclose` yet -/
  closing : Bool → Bool
  /-- the last call of `pipewrite` or `piperead` of a process -/
  call : π → Option ι
  /-- how many times the page has been freed -/
  freed : ℕ
  panicked : Bool

inductive FileLabel (π ι : Type*)
  /-- `p` gives `q` a reference of its own: `q` is `p` in `dup` and the child in `fork` -/
  | filedup (p q : π) (writable : Bool)
  | fileclose (p : π) (writable : Bool)
  | pipeclose (writable : Bool)
  | filewrite (p : π) (c : ι) (addr : List UInt8)
  | fileread (p : π) (c : ι) (n : ℕ)
  | run (c : ι)
  | wake (c : ι)
  | kill (c : ι)

namespace PipeFiles

variable (s : PipeFiles π ι)

/-- The process is in no call of the pipe. -/
def Free (p : π) : Prop := ∀ c ∈ s.call p, ∀ writable, ¬(s.pipe.calls c).Uses writable

omit [DecidableEq π] [DecidableEq ι] in
instance decidableFree (p : π) : Decidable (s.Free p) :=
  inferInstanceAs (Decidable (∀ c ∈ s.call p, ∀ writable, ¬(s.pipe.calls c).Uses writable))

/-- The process can make a call for the file. -/
def Holds (p : π) (writable : Bool) : Prop := s.Free p ∧ p ∈ s.holders writable

instance decidableHolds (p : π) (writable : Bool) : Decidable (s.Holds p writable) :=
  inferInstanceAs (Decidable (_ ∧ _))

def filedup (q : π) (writable : Bool) : PipeFiles π ι :=
  if s.ref writable < 1 then { s with panicked := true }
  else { s with
    ref := Function.update s.ref writable (s.ref writable + 1)
    holders := Function.update s.holders writable (q :: s.holders writable) }

/-- `fileclose` up to where it releases `ftable.lock`. -/
def fileclose (p : π) (writable : Bool) : PipeFiles π ι :=
  if s.ref writable < 1 then { s with panicked := true }
  else { s with
    ref := Function.update s.ref writable (s.ref writable - 1)
    holders := Function.update s.holders writable ((s.holders writable).erase p)
    closing := if s.ref writable - 1 > 0 then s.closing else Function.update s.closing writable true }

/-- The call of `pipeclose` at the end of `fileclose`. -/
def pipeclose (writable : Bool) : PipeFiles π ι :=
  let pipe := s.pipe.pipeclose writable
  { s with
    pipe
    closing := Function.update s.closing writable false
    freed := if pipe.pipe.readopen = false ∧ pipe.pipe.writeopen = false then s.freed + 1 else s.freed }

/-- A step of the pipe. -/
def onPipe (l : PipeLabel ι) : Option (PipeFiles π ι) :=
  (s.pipe.step l).map fun pipe ↦ { s with pipe }

/-- The process comes to the pipe. -/
def enter (p : π) (c : ι) : PipeFiles π ι := { s with call := Function.update s.call p (some c) }

def step : FileLabel π ι → Option (PipeFiles π ι)
  | .filedup p q writable => if s.Holds p writable then some (s.filedup q writable) else none
  | .fileclose p writable => if s.Holds p writable then some (s.fileclose p writable) else none
  | .pipeclose writable => if s.closing writable = true then some (s.pipeclose writable) else none
  | .filewrite p c addr => if s.Holds p true then (s.enter p c).onPipe (.callWrite c addr) else none
  | .fileread p c n => if s.Holds p false then (s.enter p c).onPipe (.callRead c n) else none
  | .run c => s.onPipe (.run c)
  | .wake c => s.onPipe (.wake c)
  | .kill c => s.onPipe (.kill c)

end PipeFiles

/-- A pipe that `p` has made. -/
def newFiles (data : ℕ → UInt8) (p : π) : PipeFiles π ι where
  pipe := pipealloc data
  ref _ := 1
  holders _ := [p]
  closing _ := false
  call _ := none
  freed := 0
  panicked := false

/-- The processes on a pipe as a machine.  After a panic nothing moves. -/
def filesMachine (data : ℕ → UInt8) (p : π) : Machine (PipeFiles π ι) (FileLabel π ι) where
  init s := s = newFiles data p
  step s l := if s.panicked = true then none else s.step l

/-! ## Steps -/

/-- A label of a call that is in the pipe already. -/
def PipeLabel.Inside : PipeLabel ι → Prop
  | .run _ | .wake _ | .kill _ => True
  | _ => False

inductive PipeFiles.StepsTo : PipeFiles π ι → PipeFiles π ι → Prop
  | filedup {s : PipeFiles π ι} {p q : π} {writable : Bool} (hp : s.Holds p writable) :
    StepsTo s (s.filedup q writable)
  | fileclose {s : PipeFiles π ι} {p : π} {writable : Bool} (hp : s.Holds p writable) :
    StepsTo s (s.fileclose p writable)
  | pipeclose {s : PipeFiles π ι} {writable : Bool} (hclosing : s.closing writable = true) :
    StepsTo s (s.pipeclose writable)
  | filewrite {s : PipeFiles π ι} {p : π} {c : ι} {addr : List UInt8} (hp : s.Holds p true)
    (hc : s.pipe.calls c = .idle) :
    StepsTo s { s.enter p c with pipe := s.pipe.setCall c (.writing addr 0 false) }
  | fileread {s : PipeFiles π ι} {p : π} {c : ι} {n : ℕ} (hp : s.Holds p false)
    (hc : s.pipe.calls c = .idle) :
    StepsTo s { s.enter p c with pipe := s.pipe.setCall c (.reading n false) }
  | inside {s : PipeFiles π ι} {l : PipeLabel ι} {pipe : PipeState ι} (hl : l.Inside)
    (hpipe : s.pipe.step l = some pipe) : StepsTo s { s with pipe }

namespace PipeFiles

variable {s t : PipeFiles π ι}

theorem onPipe_inside {l : PipeLabel ι} (hl : l.Inside) (h : s.onPipe l = some t) : s.StepsTo t := by
  obtain ⟨pipe, hpipe, rfl⟩ := Option.map_eq_some_iff.mp h
  exact .inside hl hpipe

theorem step_cases {l : FileLabel π ι} (h : s.step l = some t) : s.StepsTo t := by
  cases l with
  | filedup p q writable =>
    obtain ⟨hp, ⟨⟩⟩ := Option.ite_none_right_eq_some.mp h
    exact .filedup hp
  | fileclose p writable =>
    obtain ⟨hp, ⟨⟩⟩ := Option.ite_none_right_eq_some.mp h
    exact .fileclose hp
  | pipeclose writable =>
    obtain ⟨hclosing, ⟨⟩⟩ := Option.ite_none_right_eq_some.mp h
    exact .pipeclose hclosing
  | filewrite p c addr =>
    obtain ⟨hp, h⟩ := Option.ite_none_right_eq_some.mp h
    obtain ⟨pipe, hpipe, rfl⟩ := Option.map_eq_some_iff.mp h
    cases PipeState.step_cases hpipe with
    | callWrite hc => exact .filewrite hp hc
  | fileread p c n =>
    obtain ⟨hp, h⟩ := Option.ite_none_right_eq_some.mp h
    obtain ⟨pipe, hpipe, rfl⟩ := Option.map_eq_some_iff.mp h
    cases PipeState.step_cases hpipe with
    | callRead hc => exact .fileread hp hc
  | run c => exact onPipe_inside (l := .run c) trivial h
  | wake c => exact onPipe_inside (l := .wake c) trivial h
  | kill c => exact onPipe_inside (l := .kill c) trivial h

end PipeFiles

/-! ## What the steps of the pipe keep -/

namespace PipeState

variable {s t : PipeState ι} {c : ι} {writable : Bool}

/-- The step keeps the ends as they are, and no call comes to use one. -/
structure Within (s t : PipeState ι) : Prop where
  isOpen : t.pipe.isOpen = s.pipe.isOpen
  uses : ∀ c writable, (t.calls c).Uses writable → (s.calls c).Uses writable

omit [DecidableEq ι] in
theorem isOpen_eq {p q : Pipe} (hread : q.readopen = p.readopen) (hwrite : q.writeopen = p.writeopen) :
    q.isOpen = p.isOpen := by
  funext writable
  cases writable with
  | true => exact hwrite
  | false => exact hread

omit [DecidableEq ι] in
theorem Within.trans {u : PipeState ι} (h : Within s t) (h' : Within t u) : Within s u :=
  ⟨h'.isOpen.trans h.isOpen, fun c writable hc ↦ h.uses c writable (h'.uses c writable hc)⟩

omit [DecidableEq ι] in
theorem within_wakeReaders (s : PipeState ι) : Within s s.wakeReaders :=
  ⟨rfl, fun _ writable ↦ (PipeCall.uses_wakeReader writable _).mp⟩

omit [DecidableEq ι] in
theorem within_wakeWriters (s : PipeState ι) : Within s s.wakeWriters :=
  ⟨rfl, fun _ writable ↦ (PipeCall.uses_wakeWriter writable _).mp⟩

theorem within_setCall {call : PipeCall}
    (hcall : ∀ writable, call.Uses writable → (s.calls c).Uses writable) : Within s (s.setCall c call) := by
  refine ⟨rfl, fun c' writable hc' ↦ ?_⟩
  by_cases hc : c' = c
  · subst hc
    exact hcall writable (by simpa only [setCall, Function.update_self] using hc')
  · simpa only [setCall, Function.update_of_ne hc] using hc'

omit [DecidableEq ι] in
theorem within_store {pipe : Pipe} (bytes : List UInt8) (h : pipe.isOpen = s.pipe.isOpen) :
    Within s (s.store c pipe bytes) := ⟨h, fun _ _ ↦ id⟩

omit [DecidableEq ι] in
theorem within_fetch {pipe : Pipe} (bytes : List UInt8) (h : pipe.isOpen = s.pipe.isOpen) :
    Within s (s.fetch c pipe bytes) := ⟨h, fun _ _ ↦ id⟩

theorem Within.pipewrite (hinv : PipeInv s) {addr : List UInt8} {i : ℕ}
    (hcall : s.calls c = .writing addr i false) : Within s (s.pipewrite c addr i) := by
  obtain ⟨xs, hholds, -⟩ := hinv.buffered
  have hspec := writeLoop_spec (s.killed c) (addr.drop i) hholds
  have hstore := within_store (c := c) ((addr.drop i).take (writeLoop (s.killed c) (addr.drop i) s.pipe).2.1)
    (isOpen_eq hspec.readopen hspec.writeopen)
  have hreturned {r : PipeState ι} {j : ℕ} {failed : Bool} (writable : Bool) :
      (PipeCall.wrote addr j failed).Uses writable → (r.calls c).Uses writable := by
    cases writable <;> exact False.elim
  unfold PipeState.pipewrite
  dsimp only
  split
  · exact (hstore.trans (within_wakeReaders _)).trans (within_setCall hreturned)
  · refine (hstore.trans (within_wakeReaders _)).trans (within_setCall fun writable hc ↦ ?_)
    cases writable with
    | true =>
      refine (PipeCall.uses_wakeReader true _).mpr ?_
      simp only [store, hcall]
      trivial
    | false => exact hc.elim
  · exact hstore.trans (within_setCall hreturned)

theorem Within.piperead (hinv : PipeInv s) {n : ℕ} (hcall : s.calls c = .reading n false) :
    Within s (s.piperead c n) := by
  obtain ⟨xs, hholds, -⟩ := hinv.buffered
  obtain ⟨-, -, hread, hwrite⟩ := readLoop_spec n hholds
  unfold PipeState.piperead
  split
  · split
    · exact within_setCall fun writable hc ↦ by cases writable <;> exact hc.elim
    · refine within_setCall fun writable hc ↦ ?_
      cases writable with
      | true => exact hc.elim
      | false =>
        rw [hcall]
        trivial
  · have hfetch := within_fetch (c := c) (readLoop n s.pipe).2 (isOpen_eq hread hwrite)
    refine (hfetch.trans (within_wakeWriters _)).trans (within_setCall fun writable hc ↦ ?_)
    cases writable <;> exact hc.elim

/-- A call that is in the pipe does not change the ends. -/
theorem Within.inside (hinv : PipeInv s) {l : PipeLabel ι} (hl : l.Inside) (hstep : s.step l = some t) :
    Within s t := by
  cases step_cases hstep with
  | callWrite | callRead | close => exact hl.elim
  | pipewrite hcall => exact .pipewrite hinv hcall
  | piperead hcall => exact .piperead hinv hcall
  | wakeWriter hcall =>
    refine within_setCall fun writable hc ↦ ?_
    rw [hcall]
    cases writable <;> exact hc
  | wakeReader hcall =>
    refine within_setCall fun writable hc ↦ ?_
    rw [hcall]
    cases writable <;> exact hc
  | kill => exact ⟨rfl, fun _ _ ↦ id⟩

omit [DecidableEq ι] in
@[simp]
theorem isOpen_pipeclose (s : PipeState ι) (writable : Bool) :
    (s.pipeclose writable).pipe.isOpen = Function.update s.pipe.isOpen writable false := by
  funext w
  cases writable <;> cases w <;> rfl

omit [DecidableEq ι] in
@[simp]
theorem uses_pipeclose (s : PipeState ι) (writable w : Bool) (c : ι) :
    ((s.pipeclose writable).calls c).Uses w ↔ (s.calls c).Uses w := by
  cases writable with
  | true => exact PipeCall.uses_wakeReader w _
  | false => exact PipeCall.uses_wakeWriter w _

end PipeState

/-! ## The counts -/

/-- What the count of a file says of its end of the pipe. -/
structure EndInv (s : PipeFiles π ι) (writable : Bool) : Prop where
  ref : s.ref writable = (s.holders writable).length
  closing : s.closing writable = true → s.ref writable = 0
  isOpen : s.pipe.pipe.isOpen writable = true ↔ 0 < s.ref writable ∨ s.closing writable = true
  uses : ∀ c, (s.pipe.calls c).Uses writable → ∃ p ∈ s.holders writable, s.call p = some c

/-- What the counts say of the pipe. -/
structure FilesInv (s : PipeFiles π ι) : Prop where
  alive : s.panicked = false
  ends : ∀ writable, EndInv s writable
  freed : s.freed = if s.pipe.pipe.readopen = false ∧ s.pipe.pipe.writeopen = false then 1 else 0

section Steps

variable {s t : PipeFiles π ι} {p q : π} {c : ι} {writable : Bool}

namespace EndInv

variable (h : EndInv s writable)
include h

omit [DecidableEq π] [DecidableEq ι] in
/-- The other file of the pipe keeps its count. -/
theorem congr (href : t.ref writable = s.ref writable) (hholders : t.holders writable = s.holders writable)
    (hclosing : t.closing writable = s.closing writable) (hpipe : t.pipe = s.pipe) (hcall : t.call = s.call) :
    EndInv t writable := by
  constructor
  · rw [href, hholders, h.ref]
  · rw [href, hclosing]
    exact h.closing
  · rw [hpipe, href, hclosing]
    exact h.isOpen
  · rw [hpipe, hholders, hcall]
    exact h.uses

omit [DecidableEq π] [DecidableEq ι] in
theorem ref_pos (hp : p ∈ s.holders writable) : 0 < s.ref writable := by
  rw [h.ref]
  exact List.length_pos_of_mem hp

omit [DecidableEq π] [DecidableEq ι] in
theorem isOpen_of_mem (hp : p ∈ s.holders writable) : s.pipe.pipe.isOpen writable = true :=
  h.isOpen.mpr (.inl (h.ref_pos hp))

omit [DecidableEq π] [DecidableEq ι] in
/-- No call uses an end whose last reference has been dropped. -/
theorem not_uses (hclosing : s.closing writable = true) (c : ι) : ¬(s.pipe.calls c).Uses writable := by
  intro hc
  obtain ⟨p, hp, -⟩ := h.uses c hc
  exact absurd (h.closing hclosing) (h.ref_pos hp).ne'

end EndInv

omit [DecidableEq π] [DecidableEq ι] in
/-- A process that is in no call keeps no end in use. -/
theorem ne_of_free (hfree : s.Free p) (hc : (s.pipe.calls c).Uses writable) (hq : s.call q = some c) :
    q ≠ p := by
  rintro rfl
  exact hfree c hq writable hc

namespace FilesInv

variable (h : FilesInv s)
include h

omit [DecidableEq π] [DecidableEq ι] in
theorem filedup (hp : s.Holds p writable) (q : π) : FilesInv (s.filedup q writable) := by
  have hpos := (h.ends writable).ref_pos hp.2
  rw [PipeFiles.filedup, if_neg (by omega)]
  refine ⟨h.alive, fun w ↦ ?_, h.freed⟩
  by_cases hne : w = writable
  · subst hne
    have hend := h.ends w
    constructor
    · simp only [Function.update_self, List.length_cons, hend.ref]
    · exact fun hclosing ↦ absurd (hend.closing hclosing) hpos.ne'
    · simp only [Function.update_self, Nat.zero_lt_succ, true_or, iff_true]
      exact hend.isOpen_of_mem hp.2
    · intro c hc
      obtain ⟨r, hr, hcall⟩ := hend.uses c hc
      exact ⟨r, by simpa only [Function.update_self] using List.mem_cons_of_mem q hr, hcall⟩
  · exact (h.ends w).congr (Function.update_of_ne hne _ _) (Function.update_of_ne hne _ _) rfl rfl rfl

omit [DecidableEq ι] in
theorem fileclose (hp : s.Holds p writable) : FilesInv (s.fileclose p writable) := by
  have hpos := (h.ends writable).ref_pos hp.2
  rw [PipeFiles.fileclose, if_neg (by omega)]
  refine ⟨h.alive, fun w ↦ ?_, h.freed⟩
  by_cases hne : w = writable
  · subst hne
    have hend := h.ends w
    have hclosing : s.closing w ≠ true := fun hclosing ↦ hpos.ne' (hend.closing hclosing)
    constructor
    · simp only [Function.update_self, List.length_erase_of_mem hp.2, hend.ref]
    · intro hw
      simp only [Function.update_self]
      by_contra hleft
      rw [if_pos (by omega)] at hw
      exact hclosing hw
    · simp only [Function.update_self, hend.isOpen_of_mem hp.2, true_iff]
      split
      next hleft => exact .inl hleft
      next => exact .inr (Function.update_self _ _ _)
    · intro c hc
      obtain ⟨r, hr, hcall⟩ := hend.uses c hc
      have hrp := ne_of_free hp.1 hc hcall
      exact ⟨r, by simpa only [Function.update_self] using (List.mem_erase_of_ne hrp).mpr hr, hcall⟩
  · refine (h.ends w).congr (Function.update_of_ne hne _ _) (Function.update_of_ne hne _ _) ?_ rfl rfl
    dsimp only
    split
    · rfl
    · exact Function.update_of_ne hne _ _

omit [DecidableEq π] [DecidableEq ι] in
theorem pipeclose (hclosing : s.closing writable = true) : FilesInv (s.pipeclose writable) := by
  have hopen := (h.ends writable).isOpen.mpr (.inr hclosing)
  have hfreed : s.freed = 0 := by
    rw [h.freed, if_neg]
    rintro ⟨hread, hwrite⟩
    cases writable with
    | true => exact absurd (hwrite.symm.trans hopen) (by simp)
    | false => exact absurd (hread.symm.trans hopen) (by simp)
  refine ⟨h.alive, fun w ↦ ?_, by simp only [PipeFiles.pipeclose, hfreed, Nat.zero_add]⟩
  have hend := h.ends w
  have huses (c : ι) := PipeState.uses_pipeclose s.pipe writable w c
  refine ⟨hend.ref, fun hw ↦ hend.closing ?_, ?_, fun c hc ↦ hend.uses c ((huses c).mp hc)⟩
  · by_cases hne : w = writable
    · exact hne ▸ hclosing
    · simpa only [PipeFiles.pipeclose, Function.update_of_ne hne] using hw
  · simp only [PipeFiles.pipeclose, PipeState.isOpen_pipeclose]
    by_cases hne : w = writable
    · subst hne
      simp [hend.closing hclosing]
    · simpa only [Function.update_of_ne hne] using hend.isOpen

/-- A process comes to the pipe with a call that uses an end it holds. -/
theorem enter (hp : s.Holds p writable) {call : PipeCall} (hcall : ∀ w, call.Uses w → w = writable) :
    FilesInv { s.enter p c with pipe := s.pipe.setCall c call } := by
  refine ⟨h.alive, fun w ↦ ?_, h.freed⟩
  have hend := h.ends w
  refine ⟨hend.ref, hend.closing, hend.isOpen, fun c' hc' ↦ ?_⟩
  simp only [PipeFiles.enter]
  by_cases hc : c' = c
  · subst hc
    simp only [PipeState.setCall, Function.update_self] at hc'
    obtain rfl := hcall w hc'
    exact ⟨p, hp.2, Function.update_self _ _ _⟩
  · simp only [PipeState.setCall, Function.update_of_ne hc] at hc'
    obtain ⟨r, hr, hrcall⟩ := hend.uses c' hc'
    exact ⟨r, hr, by rwa [Function.update_of_ne (ne_of_free hp.1 hc' hrcall)]⟩

omit [DecidableEq π] [DecidableEq ι] in
theorem within {pipe : PipeState ι} (hpipe : PipeState.Within s.pipe pipe) : FilesInv { s with pipe } := by
  have hread : pipe.pipe.readopen = s.pipe.pipe.readopen := congrFun hpipe.isOpen false
  have hwrite : pipe.pipe.writeopen = s.pipe.pipe.writeopen := congrFun hpipe.isOpen true
  refine ⟨h.alive, fun w ↦ ?_, ?_⟩
  · have hend := h.ends w
    refine ⟨hend.ref, hend.closing, ?_, fun c hc ↦ hend.uses c (hpipe.uses c w hc)⟩
    rw [hpipe.isOpen]
    exact hend.isOpen
  · rw [hread, hwrite]
    exact h.freed

end FilesInv

end Steps

/-- The processes on a pipe use it as its own results assume: every state reached keeps the counts, and
its pipe is reached while the ends in use are held open. -/
theorem filesInv_of_reachable {data : ℕ → UInt8} {p : π} {s : PipeFiles π ι}
    (h : (filesMachine data p).Reachable s) :
    FilesInv s ∧ (pipeMachine data).ReachableVia PipeState.Held s.pipe := by
  apply h.invariant
  · rintro _ rfl
    refine ⟨⟨rfl, fun writable ↦ ⟨rfl, fun hclosing ↦ (by cases hclosing), ?_, fun c hc ↦ ?_⟩, rfl⟩, .init rfl⟩
    · cases writable <;> exact iff_of_true rfl (.inl Nat.one_pos)
    · cases writable <;> exact hc.elim
  · rintro s l t - ⟨hinv, hpipe⟩ - hstep
    have hstep : s.step l = some t := (if_neg (by simp [hinv.alive])).symm.trans hstep
    cases PipeFiles.step_cases hstep with
    | filedup hp =>
      refine ⟨hinv.filedup hp _, ?_⟩
      rwa [PipeFiles.filedup, if_neg (Nat.not_lt.mpr ((hinv.ends _).ref_pos hp.2))]
    | fileclose hp =>
      refine ⟨hinv.fileclose hp, ?_⟩
      rwa [PipeFiles.fileclose, if_neg (Nat.not_lt.mpr ((hinv.ends _).ref_pos hp.2))]
    | @pipeclose writable hclosing =>
      refine ⟨hinv.pipeclose hclosing, hpipe.step (l := .close writable) ?_ rfl⟩
      cases writable <;> exact (hinv.ends _).not_uses hclosing
    | @filewrite q c addr hq hc =>
      refine ⟨hinv.enter hq fun w hw ↦ by cases w <;> trivial, ?_⟩
      have hopen : s.pipe.pipe.writeopen = true := (hinv.ends true).isOpen_of_mem hq.2
      exact hpipe.step (l := .callWrite c addr) hopen (by simp only [pipeMachine, PipeState.step, hc])
    | @fileread q c n hq hc =>
      refine ⟨hinv.enter hq fun w hw ↦ by cases w <;> trivial, ?_⟩
      have hopen : s.pipe.pipe.readopen = true := (hinv.ends false).isOpen_of_mem hq.2
      exact hpipe.step (l := .callRead c n) hopen (by simp only [pipeMachine, PipeState.step, hc])
    | @inside l pipe hl hin =>
      have hkept := PipeState.Within.inside (pipeInv_of_reachable hpipe.reachable) hl hin
      refine ⟨hinv.within hkept, hpipe.step (l := l) ?_ hin⟩
      cases l with
      | run | wake | kill => trivial
      | _ => exact hl.elim

/-! ## Results -/

/-- Whatever the processes do, `piperead` has returned 0 to a caller that wants bytes only at the end:
from then on no byte is stored and each byte stored has been read.  The page of the pipe is freed once,
when both ends are closed, and then no process has a reference or is in a call. -/
theorem end_of_pipe {data : ℕ → UInt8} {p : π} {s : PipeFiles π ι}
    (h : (filesMachine data p).Reachable s) :
    s.panicked = false ∧
    (∀ c n, 0 < n → s.pipe.calls c = .gotBytes n [] →
      s.pipe.pipe.writeopen = false ∧ s.pipe.written.map Prod.snd = s.pipe.delivered.map Prod.snd) ∧
    s.freed = (if s.pipe.pipe.readopen = false ∧ s.pipe.pipe.writeopen = false then 1 else 0) ∧
    (0 < s.freed → (∀ writable, s.holders writable = [] ∧ s.closing writable = false) ∧
      ∀ c, ¬(s.pipe.calls c).Writing ∧ ¬(s.pipe.calls c).Reading) := by
  obtain ⟨hinv, hpipe⟩ := filesInv_of_reachable h
  refine ⟨hinv.alive, fun c n hn hc ↦ ended_of_gotBytes hpipe hn hc, hinv.freed, fun hfreed ↦ ?_⟩
  have hclosed (writable : Bool) : s.pipe.pipe.isOpen writable = false := by
    have hboth : s.pipe.pipe.readopen = false ∧ s.pipe.pipe.writeopen = false := by
      by_contra hno
      rw [hinv.freed, if_neg hno] at hfreed
      exact absurd hfreed (Nat.lt_irrefl 0)
    cases writable with
    | true => exact hboth.2
    | false => exact hboth.1
  have hunused (writable : Bool) : s.ref writable = 0 ∧ s.closing writable = false := by
    have hno : ¬(0 < s.ref writable ∨ s.closing writable = true) := by
      rw [← (hinv.ends writable).isOpen, hclosed]
      exact Bool.false_ne_true
    simpa using hno
  have hholders (writable : Bool) : s.holders writable = [] := by
    rw [← List.length_eq_zero_iff, ← (hinv.ends writable).ref]
    exact (hunused writable).1
  have hnone (writable : Bool) (c : ι) : ¬(s.pipe.calls c).Uses writable := by
    intro hc
    obtain ⟨q, hq, -⟩ := (hinv.ends writable).uses c hc
    rw [hholders writable] at hq
    cases hq
  exact ⟨fun writable ↦ ⟨hholders writable, (hunused writable).2⟩, fun c ↦ ⟨hnone true c, hnone false c⟩⟩

/-- A process writes a byte, closes the write end, and reads the byte and then the end; when it has
closed the read end the page is freed. -/
def writeReadClose : List (FileLabel ℕ ℕ) :=
  [.filewrite 0 0 [7], .run 0, .fileclose 0 true, .pipeclose true, .fileread 0 1 1, .run 1,
    .fileread 0 2 1, .run 2, .fileclose 0 false, .pipeclose false]

theorem end_of_pipe_writeReadClose :
    ∃ s, (filesMachine (fun _ ↦ 0) 0).run (newFiles (fun _ ↦ 0) 0) writeReadClose = some s ∧
      s.pipe.calls 1 = .gotBytes 1 [7] ∧ s.pipe.calls 2 = .gotBytes 1 [] ∧ s.freed = 1 ∧
      s.pipe.written.map Prod.snd = s.pipe.delivered.map Prod.snd ∧
      ∀ c, ¬(s.pipe.calls c).Writing ∧ ¬(s.pipe.calls c).Reading := by
  obtain ⟨s, hs⟩ : ∃ s, (filesMachine (fun _ ↦ 0) 0).run (newFiles (fun _ ↦ 0) 0) writeReadClose = some s :=
    ⟨_, rfl⟩
  have hend := end_of_pipe (Machine.Reachable.run (.init rfl) hs)
  obtain rfl := Option.some.inj hs
  have hgot : _ = PipeCall.gotBytes 1 [] := rfl
  exact ⟨_, rfl, rfl, hgot, rfl, (hend.2.1 2 1 Nat.one_pos hgot).2, (hend.2.2.2 Nat.one_pos).2⟩

end CS537.Channels
