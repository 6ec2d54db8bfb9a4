import CS537.Channels.PipeRuns

/-!
# Sleeping calls of a pipe

A call that uses an end of the pipe holds a descriptor of that end, so `pipeclose` closes an end that
no call uses.  Under this rule a writer sleeps only at a full pipe and a reader only at an empty one,
whatever the order of the steps.  The exception is a reader that was asleep while a killed writer
stored bytes: that writer returns without a `wakeup`.
-/

namespace CS537.Channels

open Foundation

variable {ι : Type*} [DecidableEq ι]

/-! ## Calls -/

namespace PipeCall

def WriterAsleep : PipeCall → Prop
  | .writing _ _ asleep => asleep = true
  | _ => False

def ReaderAsleep : PipeCall → Prop
  | .reading _ asleep => asleep = true
  | _ => False

/-- `pipewrite` has returned -1. -/
def WriteFailed : PipeCall → Prop
  | .wrote _ _ failed => failed = true
  | _ => False

/-- `piperead` has returned 0 to a caller that wants bytes. -/
def AtEnd : PipeCall → Prop
  | .gotBytes n bytes => 0 < n ∧ bytes = []
  | _ => False

theorem WriterAsleep.writing {call : PipeCall} (h : call.WriterAsleep) : call.Writing := by
  cases call with
  | writing => trivial
  | _ => exact h.elim

theorem ReaderAsleep.reading {call : PipeCall} (h : call.ReaderAsleep) : call.Reading := by
  cases call with
  | reading => trivial
  | _ => exact h.elim

theorem not_readerAsleep_wakeReader (call : PipeCall) : ¬call.wakeReader.ReaderAsleep := by
  cases call <;> simp [wakeReader, ReaderAsleep]

theorem not_writerAsleep_wakeWriter (call : PipeCall) : ¬call.wakeWriter.WriterAsleep := by
  cases call <;> simp [wakeWriter, WriterAsleep]

@[simp]
theorem writing_wakeReader (call : PipeCall) : call.wakeReader.Writing ↔ call.Writing := by
  cases call <;> exact Iff.rfl

@[simp]
theorem reading_wakeReader (call : PipeCall) : call.wakeReader.Reading ↔ call.Reading := by
  cases call <;> exact Iff.rfl

@[simp]
theorem writerAsleep_wakeReader (call : PipeCall) :
    call.wakeReader.WriterAsleep ↔ call.WriterAsleep := by
  cases call <;> exact Iff.rfl

@[simp]
theorem writeFailed_wakeReader (call : PipeCall) : call.wakeReader.WriteFailed ↔ call.WriteFailed := by
  cases call <;> exact Iff.rfl

@[simp]
theorem atEnd_wakeReader (call : PipeCall) : call.wakeReader.AtEnd ↔ call.AtEnd := by
  cases call <;> exact Iff.rfl

@[simp]
theorem writing_wakeWriter (call : PipeCall) : call.wakeWriter.Writing ↔ call.Writing := by
  cases call <;> exact Iff.rfl

@[simp]
theorem reading_wakeWriter (call : PipeCall) : call.wakeWriter.Reading ↔ call.Reading := by
  cases call <;> exact Iff.rfl

@[simp]
theorem readerAsleep_wakeWriter (call : PipeCall) :
    call.wakeWriter.ReaderAsleep ↔ call.ReaderAsleep := by
  cases call <;> exact Iff.rfl

@[simp]
theorem writeFailed_wakeWriter (call : PipeCall) : call.wakeWriter.WriteFailed ↔ call.WriteFailed := by
  cases call <;> exact Iff.rfl

@[simp]
theorem atEnd_wakeWriter (call : PipeCall) : call.wakeWriter.AtEnd ↔ call.AtEnd := by
  cases call <;> exact Iff.rfl

end PipeCall

/-! ## The loops on a full and on an empty pipe -/

theorem writeLoop_full {p : Pipe} (h : p.Full) (killed : Bool) (bs : List UInt8) :
    (writeLoop killed bs p).1 = p := by
  cases bs with
  | nil => rfl
  | cons b rest => rw [writeLoop, if_pos h]

theorem readLoop_empty {p : Pipe} (h : p.Empty) (n : ℕ) : readLoop n p = (p, []) := by
  cases n with
  | zero => rfl
  | succ n => rw [readLoop, if_pos h]

/-- A killed writer of more bytes than there is room for fills the pipe and fails. -/
theorem writeLoop_killed {p : Pipe} {xs bs : List UInt8} (h : p.ring.Holds uintBound PIPESIZE xs)
    (hlong : PIPESIZE < xs.length + bs.length) :
    ∃ p', writeLoop true bs p = (p', PIPESIZE - xs.length, .fail) ∧ p'.Full := by
  have hspec := writeLoop_spec true bs h
  have hle := hspec.le
  have hcapacity := hspec.holds.length_le
  rw [List.length_append, List.length_take_of_le hle] at hcapacity
  generalize hr : writeLoop true bs p = r at hspec hle hcapacity ⊢
  obtain ⟨p', k, e⟩ := r
  simp only at hle hcapacity
  have hfail : e = .fail := by
    cases e with
    | done =>
      have hall : k = bs.length := hspec.done rfl
      omega
    | sleep => exact absurd (hspec.sleep rfl).2 (by simp)
    | fail => rfl
  subst hfail
  have hfull : p'.Full := hspec.full (by simp)
  have hlength := (hspec.holds.last_eq_full_iff ringSize).mp hfull
  rw [List.length_append, List.length_take_of_le hle] at hlength
  have hk : k = PIPESIZE - xs.length := Nat.eq_sub_of_add_eq' hlength
  exact ⟨p', by rw [hk], hfull⟩

/-! ## The invariant -/

/-- A step that processes can take: a call uses an end that is open, and `pipeclose` closes an end
that no call uses. -/
def PipeState.Held (s : PipeState ι) : PipeLabel ι → Prop
  | .callWrite _ _ => s.pipe.writeopen = true
  | .callRead _ _ => s.pipe.readopen = true
  | .close true => ∀ c, ¬(s.calls c).Writing
  | .close false => ∀ c, ¬(s.calls c).Reading
  | _ => True

/-- A writer was killed and has returned -1. -/
def PipeState.KilledWriter (s : PipeState ι) : Prop := ∃ c, s.killed c = true ∧ (s.calls c).WriteFailed

/-- Why a call sleeps or has come to the end of the pipe. -/
structure PipeState.Allows (s : PipeState ι) (call : PipeCall) : Prop where
  writing : call.Writing → s.pipe.writeopen = true
  reading : call.Reading → s.pipe.readopen = true
  writer : call.WriterAsleep → s.pipe.Full ∧ s.pipe.readopen = true
  reader : call.ReaderAsleep → (s.pipe.Empty ∧ s.pipe.writeopen = true) ∨ s.KilledWriter
  ended : call.AtEnd → s.pipe.writeopen = false ∧ s.pipe.Empty

/-- Why the calls sleep. -/
def SleepInv (s : PipeState ι) : Prop := ∀ c, s.Allows (s.calls c)

omit [DecidableEq ι] in
theorem PipeState.Allows.of_eq {s t : PipeState ι} {call : PipeCall} (h : s.Allows call)
    (hpipe : t.pipe = s.pipe) (hkilled : s.KilledWriter → t.KilledWriter) : t.Allows call := by
  refine ⟨?_, ?_, ?_, fun hcall ↦ (h.reader hcall).imp ?_ hkilled, ?_⟩
  all_goals rw [hpipe]
  · exact h.writing
  · exact h.reading
  · exact h.writer
  · exact id
  · exact h.ended

omit [DecidableEq ι] in
theorem PipeState.Allows.wrote {s : PipeState ι} {addr : List UInt8} {i : ℕ} {failed : Bool} :
    s.Allows (.wrote addr i failed) :=
  ⟨False.elim, False.elim, False.elim, False.elim, False.elim⟩

namespace SleepInv

variable {s : PipeState ι} {c : ι}

/-- One call goes on. -/
theorem setCall (h : SleepInv s) (hold : ¬(s.calls c).WriteFailed) {call : PipeCall}
    (hcall : (s.setCall c call).Allows call) : SleepInv (s.setCall c call) := by
  have hkilled : s.KilledWriter → (s.setCall c call).KilledWriter := by
    intro ⟨c', hc', hfailed⟩
    have hne : c' ≠ c := fun heq ↦ hold (heq ▸ hfailed)
    refine ⟨c', hc', ?_⟩
    simp only [PipeState.setCall, Function.update_of_ne hne]
    exact hfailed
  intro c'
  by_cases hc : c' = c
  · have hself : (s.setCall c call).calls c' = call := by
      rw [hc]
      exact Function.update_self _ _ _
    rwa [hself]
  · have hother : (s.setCall c call).calls c' = s.calls c' := Function.update_of_ne hc _ _
    rw [hother]
    exact (h c').of_eq rfl hkilled

omit [DecidableEq ι] in
theorem wakeReaders (h : SleepInv s) : SleepInv s.wakeReaders := by
  have hkilled : s.KilledWriter → s.wakeReaders.KilledWriter := fun ⟨c, hc, hfailed⟩ ↦
    ⟨c, hc, (PipeCall.writeFailed_wakeReader _).mpr hfailed⟩
  intro c
  have hcall := (h c).of_eq (t := s.wakeReaders) rfl hkilled
  exact ⟨fun hc ↦ hcall.writing ((PipeCall.writing_wakeReader _).mp hc),
    fun hc ↦ hcall.reading ((PipeCall.reading_wakeReader _).mp hc),
    fun hc ↦ hcall.writer ((PipeCall.writerAsleep_wakeReader _).mp hc),
    fun hc ↦ absurd hc (PipeCall.not_readerAsleep_wakeReader _),
    fun hc ↦ hcall.ended ((PipeCall.atEnd_wakeReader _).mp hc)⟩

omit [DecidableEq ι] in
theorem wakeWriters (h : SleepInv s) : SleepInv s.wakeWriters := by
  have hkilled : s.KilledWriter → s.wakeWriters.KilledWriter := fun ⟨c, hc, hfailed⟩ ↦
    ⟨c, hc, (PipeCall.writeFailed_wakeWriter _).mpr hfailed⟩
  intro c
  have hcall := (h c).of_eq (t := s.wakeWriters) rfl hkilled
  exact ⟨fun hc ↦ hcall.writing ((PipeCall.writing_wakeWriter _).mp hc),
    fun hc ↦ hcall.reading ((PipeCall.reading_wakeWriter _).mp hc),
    fun hc ↦ absurd hc (PipeCall.not_writerAsleep_wakeWriter _),
    fun hc ↦ hcall.reader ((PipeCall.readerAsleep_wakeWriter _).mp hc),
    fun hc ↦ hcall.ended ((PipeCall.atEnd_wakeWriter _).mp hc)⟩

omit [DecidableEq ι] in
/-- A section of `pipewrite` stores bytes while no reader waits for them. -/
theorem store (h : SleepInv s) {pipe : Pipe} (bs : List UInt8) (hread : pipe.readopen = s.pipe.readopen)
    (hwrite : pipe.writeopen = s.pipe.writeopen) (hopen : s.pipe.writeopen = true)
    (hfull : s.pipe.Full → pipe.Full) (hreader : ∀ c, (s.calls c).ReaderAsleep → s.KilledWriter) :
    SleepInv (s.store c pipe bs) := by
  intro c'
  refine ⟨fun _ ↦ hwrite.trans hopen, fun hc ↦ hread.trans ((h c').reading hc), fun hc ↦ ?_,
    fun hc ↦ .inr (hreader c' hc), fun hc ↦ ?_⟩
  · obtain ⟨hpipe, hreadopen⟩ := (h c').writer hc
    exact ⟨hfull hpipe, hread.trans hreadopen⟩
  · exact absurd (((h c').ended hc).1.symm.trans hopen) (by simp)

omit [DecidableEq ι] in
/-- A section of `piperead` takes bytes while no writer waits for room. -/
theorem fetch (h : SleepInv s) {pipe : Pipe} (bs : List UInt8) (hread : pipe.readopen = s.pipe.readopen)
    (hwrite : pipe.writeopen = s.pipe.writeopen) (hempty : s.pipe.Empty → pipe.Empty)
    (hwriter : ∀ c, ¬(s.calls c).WriterAsleep) : SleepInv (s.fetch c pipe bs) := by
  intro c'
  refine ⟨fun hc ↦ hwrite.trans ((h c').writing hc), fun hc ↦ hread.trans ((h c').reading hc),
    fun hc ↦ absurd hc (hwriter c'), fun hc ↦ ?_, fun hc ↦ ?_⟩
  · exact ((h c').reader hc).imp (fun ⟨hpipe, hopen⟩ ↦ ⟨hempty hpipe, hwrite.trans hopen⟩) id
  · obtain ⟨hclosed, hpipe⟩ := (h c').ended hc
    exact ⟨hwrite.trans hclosed, hempty hpipe⟩

theorem pipewrite (h : SleepInv s) (hinv : PipeInv s) {addr : List UInt8} {i : ℕ}
    (hcall : s.calls c = .writing addr i false) : SleepInv (s.pipewrite c addr i) := by
  obtain ⟨xs, hholds, -⟩ := hinv.buffered
  have hspec := writeLoop_spec (s.killed c) (addr.drop i) hholds
  have hopen : s.pipe.writeopen = true := (h c).writing (by rw [hcall]; trivial)
  have hold : ¬(s.calls c).WriteFailed := by rw [hcall]; exact id
  have hold' : ¬(s.wakeReaders.calls c).WriteFailed := by
    simp only [PipeState.wakeReaders, PipeCall.writeFailed_wakeReader]
    exact hold
  have hfull : s.pipe.Full → (writeLoop (s.killed c) (addr.drop i) s.pipe).1.Full := by
    intro hpipe
    rwa [writeLoop_full hpipe]
  have hreader : ∀ c', (s.wakeReaders.calls c').ReaderAsleep → s.wakeReaders.KilledWriter :=
    fun c' hc' ↦ absurd hc' (PipeCall.not_readerAsleep_wakeReader _)
  unfold PipeState.pipewrite
  generalize hend : (writeLoop (s.killed c) (addr.drop i) s.pipe).2.2 = e
  simp only [hend]
  cases e with
  | done =>
    exact (h.wakeReaders.store _ hspec.readopen hspec.writeopen hopen hfull hreader).setCall hold' .wrote
  | sleep =>
    have hnow := hspec.full (by rw [hend]; simp)
    apply (h.wakeReaders.store _ hspec.readopen hspec.writeopen hopen hfull hreader).setCall hold'
    exact ⟨fun _ ↦ hspec.writeopen.trans hopen, False.elim,
      fun _ ↦ ⟨hnow, hspec.readopen.trans (hspec.sleep hend).1⟩, False.elim, False.elim⟩
  | fail =>
    let call : PipeCall := .wrote addr (i + (writeLoop (s.killed c) (addr.drop i) s.pipe).2.1) true
    have hfailed : SleepInv (s.setCall c call) := h.setCall hold .wrote
    refine hfailed.store _ hspec.readopen hspec.writeopen hopen hfull fun c' hc' ↦ ?_
    rcases hspec.fail hend with hclosed | hkilled
    · have hreadopen : s.pipe.readopen = true := (hfailed c').reading hc'.reading
      exact absurd (hclosed.symm.trans hreadopen) (by simp)
    · have hself : (s.setCall c call).calls c = call := Function.update_self _ _ _
      exact ⟨c, hkilled, by rw [hself]; rfl⟩

theorem piperead (h : SleepInv s) (hinv : PipeInv s) {n : ℕ} (hcall : s.calls c = .reading n false) :
    SleepInv (s.piperead c n) := by
  have hold : ¬(s.calls c).WriteFailed := by rw [hcall]; exact id
  have hreadopen : s.pipe.readopen = true := (h c).reading (by rw [hcall]; trivial)
  unfold PipeState.piperead
  by_cases hwait : s.pipe.Empty ∧ s.pipe.writeopen = true
  · rw [if_pos hwait]
    by_cases hkilled : s.killed c = true
    · rw [if_pos hkilled]
      exact h.setCall hold ⟨False.elim, False.elim, False.elim, False.elim, False.elim⟩
    · rw [if_neg hkilled]
      exact h.setCall hold ⟨False.elim, fun _ ↦ hreadopen, False.elim, fun _ ↦ .inl hwait, False.elim⟩
  · rw [if_neg hwait]
    obtain ⟨xs, hholds, -⟩ := hinv.buffered
    obtain ⟨hbytes, hrest, hread, hwrite⟩ := readLoop_spec n hholds
    have hempty : s.pipe.Empty → (readLoop n s.pipe).1.Empty := by
      intro hpipe
      rwa [readLoop_empty hpipe]
    have hold' : ¬(s.wakeWriters.calls c).WriteFailed := by
      simp only [PipeState.wakeWriters, PipeCall.writeFailed_wakeWriter]
      exact hold
    have hwriter : ∀ c', ¬(s.wakeWriters.calls c').WriterAsleep :=
      fun _ ↦ PipeCall.not_writerAsleep_wakeWriter _
    apply (h.wakeWriters.fetch _ hread hwrite hempty hwriter).setCall hold'
    refine ⟨False.elim, False.elim, False.elim, False.elim, fun ⟨hn, hnil⟩ ↦ ?_⟩
    -- no byte was read, so there was none
    have hxs : xs = [] := by
      rw [hbytes, List.take_eq_nil_iff] at hnil
      exact hnil.resolve_left hn.ne'
    have hpipe : s.pipe.Empty := (hholds.first_eq_last_iff ringSize).mpr hxs
    have hclosed : s.pipe.writeopen = false := by simpa [hpipe] using hwait
    exact ⟨hwrite.trans hclosed, hempty hpipe⟩

omit [DecidableEq ι] in
theorem pipeclose (h : SleepInv s) {writable : Bool} (hheld : s.Held (.close writable)) :
    SleepInv (s.pipeclose writable) := by
  cases writable with
  | true =>
    have hnone : ∀ c, ¬(s.wakeReaders.calls c).Writing := fun c hc ↦
      hheld c ((PipeCall.writing_wakeReader _).mp hc)
    intro c
    have hcall := h.wakeReaders c
    exact ⟨fun hc ↦ absurd hc (hnone c), hcall.reading, hcall.writer,
      fun hc ↦ absurd hc (PipeCall.not_readerAsleep_wakeReader _), fun hc ↦ ⟨rfl, (hcall.ended hc).2⟩⟩
  | false =>
    have hnone : ∀ c, ¬(s.wakeWriters.calls c).Reading := fun c hc ↦
      hheld c ((PipeCall.reading_wakeWriter _).mp hc)
    intro c
    have hcall := h.wakeWriters c
    exact ⟨hcall.writing, fun hc ↦ absurd hc (hnone c),
      fun hc ↦ absurd hc (PipeCall.not_writerAsleep_wakeWriter _),
      fun hc ↦ absurd hc.reading (hnone c), hcall.ended⟩

theorem step (h : SleepInv s) (hinv : PipeInv s) {t : PipeState ι} {l : PipeLabel ι} (hheld : s.Held l)
    (hstep : s.StepsTo l t) : SleepInv t := by
  cases hstep with
  | callWrite hcall =>
    apply h.setCall (by rw [hcall]; exact id)
    exact ⟨fun _ ↦ hheld, False.elim, fun hasleep ↦ (by cases hasleep), False.elim, False.elim⟩
  | callRead hcall =>
    apply h.setCall (by rw [hcall]; exact id)
    exact ⟨False.elim, fun _ ↦ hheld, False.elim, fun hasleep ↦ (by cases hasleep), False.elim⟩
  | pipewrite hcall => exact h.pipewrite hinv hcall
  | piperead hcall => exact h.piperead hinv hcall
  | @wakeWriter c addr i asleep hcall =>
    have hopen : s.pipe.writeopen = true := (h c).writing (by rw [hcall]; trivial)
    apply h.setCall (by rw [hcall]; exact id)
    exact ⟨fun _ ↦ hopen, False.elim, fun hasleep ↦ (by cases hasleep), False.elim, False.elim⟩
  | @wakeReader c n asleep hcall =>
    have hopen : s.pipe.readopen = true := (h c).reading (by rw [hcall]; trivial)
    apply h.setCall (by rw [hcall]; exact id)
    exact ⟨False.elim, fun _ ↦ hopen, False.elim, fun hasleep ↦ (by cases hasleep), False.elim⟩
  | @kill c =>
    intro c'
    refine (h c').of_eq rfl fun ⟨w, hw, hfailed⟩ ↦ ⟨w, ?_, hfailed⟩
    by_cases hc : w = c
    · rw [hc]
      exact Function.update_self _ _ _
    · exact (Function.update_of_ne hc _ _).trans hw
  | close => exact h.pipeclose hheld

end SleepInv

theorem sleepInv_of_reachable {data : ℕ → UInt8} {s : PipeState ι}
    (h : (pipeMachine data).ReachableVia PipeState.Held s) : SleepInv s := by
  refine h.invariant ?_ fun s l t hs hinv hheld hstep ↦
    hinv.step (pipeInv_of_reachable hs.reachable) hheld (PipeState.step_cases hstep)
  intro s hinit c
  have hstart : s = pipealloc data := hinit
  subst hstart
  exact ⟨False.elim, False.elim, False.elim, False.elim, False.elim⟩

/-! ## Results -/

theorem full_not_empty {p : Pipe} {xs : List UInt8} (hholds : p.ring.Holds uintBound PIPESIZE xs)
    (hfull : p.Full) : ¬p.Empty := by
  intro hempty
  have hnil : xs = [] := (hholds.first_eq_last_iff ringSize).mp hempty
  have hlength : xs.length = PIPESIZE := (hholds.last_eq_full_iff ringSize).mp hfull
  rw [hnil] at hlength
  cases hlength

/-- A call that is not asleep can go on. -/
theorem PipeState.isSome_run {s : PipeState ι} {c : ι}
    (hcall : (s.calls c).Writing ∧ ¬(s.calls c).WriterAsleep ∨
      (s.calls c).Reading ∧ ¬(s.calls c).ReaderAsleep) : (s.step (.run c)).isSome = true := by
  unfold PipeState.step
  cases hc : s.calls c with
  | writing addr i asleep =>
    rw [hc] at hcall
    cases asleep with
    | true => exact (hcall.resolve_right fun hno ↦ hno.1.elim).2.elim rfl
    | false => simp only [hc, Option.isSome_some]
  | reading n asleep =>
    rw [hc] at hcall
    cases asleep with
    | true => exact (hcall.resolve_left fun hno ↦ hno.1.elim).2.elim rfl
    | false => simp only [hc, Option.isSome_some]
  | _ =>
    rw [hc] at hcall
    exact hcall.elim (fun hno ↦ hno.1.elim) fun hno ↦ hno.1.elim

/-- No wakeup is lost, killed writers apart: a writer sleeps at a full pipe with an open read end and
a reader at an empty one with an open write end, so a writer and a reader never both sleep. -/
theorem no_lost_wakeup {data : ℕ → UInt8} {s : PipeState ι}
    (h : (pipeMachine data).ReachableVia PipeState.Held s) :
    (∀ c, (s.calls c).WriterAsleep → s.pipe.Full ∧ s.pipe.readopen = true) ∧
    (¬s.KilledWriter →
      (∀ c, (s.calls c).ReaderAsleep → s.pipe.Empty ∧ s.pipe.writeopen = true) ∧
      ∀ w r, (s.calls w).Writing → (s.calls r).Reading →
        (s.step (.run w)).isSome = true ∨ (s.step (.run r)).isSome = true) := by
  have hinv := sleepInv_of_reachable h
  refine ⟨fun c ↦ (hinv c).writer, fun hnone ↦ ?_⟩
  have hreader : ∀ c, (s.calls c).ReaderAsleep → s.pipe.Empty ∧ s.pipe.writeopen = true :=
    fun c hc ↦ ((hinv c).reader hc).resolve_right hnone
  refine ⟨hreader, fun w r hw hr ↦ ?_⟩
  by_cases hasleep : (s.calls w).WriterAsleep
  · refine .inr (PipeState.isSome_run (.inr ⟨hr, fun hrsleep ↦ ?_⟩))
    obtain ⟨xs, hholds, -⟩ := (pipeInv_of_reachable h.reachable).buffered
    exact full_not_empty hholds ((hinv w).writer hasleep).1 (hreader r hrsleep).1
  · exact .inl (PipeState.isSome_run (.inl ⟨hw, hasleep⟩))

/-- A reader goes to sleep at a new pipe. -/
theorem no_lost_wakeup_new_pipe :
    let s : PipeState ℕ := (pipealloc fun _ ↦ 0).setCall 1 (.reading 1 false)
    ∀ c, ((s.piperead 1 1).calls c).ReaderAsleep →
      (s.piperead 1 1).pipe.Empty ∧ (s.piperead 1 1).pipe.writeopen = true :=
  have hcalled : (pipeMachine fun _ ↦ 0).ReachableVia PipeState.Held
      ((pipealloc fun _ ↦ 0).setCall (1 : ℕ) (.reading 1 false)) :=
    .step (.init rfl) (l := .callRead 1 1) rfl rfl
  have hasleep : (pipeMachine fun _ ↦ 0).ReachableVia PipeState.Held
      (((pipealloc fun _ ↦ 0).setCall (1 : ℕ) (.reading 1 false)).piperead 1 1) :=
    hcalled.step (l := .run 1) trivial rfl
  ((no_lost_wakeup hasleep).2 fun ⟨_, hkilled, _⟩ ↦ by cases hkilled).1

/-- `piperead` returns 0 to a caller that wants bytes only at the end: from then on, whatever the
processes do, no byte is stored and each byte stored has been read. -/
theorem ended_of_gotBytes {data : ℕ → UInt8} {s : PipeState ι} {c : ι} {n : ℕ}
    (h : (pipeMachine data).ReachableVia PipeState.Held s) (hn : 0 < n)
    (hc : s.calls c = .gotBytes n []) :
    s.pipe.writeopen = false ∧ s.written.map Prod.snd = s.delivered.map Prod.snd := by
  obtain ⟨xs, hholds, hwritten⟩ := (pipeInv_of_reachable h.reachable).buffered
  have hend : (s.calls c).AtEnd := by
    rw [hc]
    exact ⟨hn, rfl⟩
  obtain ⟨hclosed, hempty⟩ := (sleepInv_of_reachable h c).ended hend
  rw [(hholds.first_eq_last_iff ringSize).mp hempty, List.append_nil] at hwritten
  exact ⟨hclosed, hwritten⟩

/-- The exception is real: a killed writer of more bytes than the pipe has room for fills the pipe,
returns -1 and leaves a reader asleep. -/
theorem reader_left_asleep (data : ℕ → UInt8) {r w : ι} (hne : w ≠ r) (n : ℕ) {addr : List UInt8}
    (haddr : PIPESIZE < addr.length) :
    ∃ s, (pipeMachine data).ReachableVia PipeState.Held s ∧ s.calls r = .reading n true ∧
      s.calls w = .wrote addr PIPESIZE true ∧ s.pipe.Full := by
  let s₁ : PipeState ι := (pipealloc data).setCall r (.reading n false)
  let s₂ : PipeState ι := s₁.setCall r (.reading n true)
  let s₃ : PipeState ι := s₂.setCall w (.writing addr 0 false)
  let s₄ : PipeState ι := { s₃ with killed := Function.update s₃.killed w true }
  have hw₁ : s₁.calls r = .reading n false := Function.update_self _ _ _
  have hw₃ : s₃.calls w = .writing addr 0 false := Function.update_self _ _ _
  have h₁ : (pipeMachine data).ReachableVia PipeState.Held s₁ :=
    .step (.init rfl) (l := .callRead r n) rfl rfl
  have h₂ : (pipeMachine data).ReachableVia PipeState.Held s₂ := by
    refine h₁.step (l := .run r) trivial ?_
    simp only [pipeMachine, PipeState.step, hw₁]
    rfl
  have h₃ : (pipeMachine data).ReachableVia PipeState.Held s₃ := by
    refine h₂.step (l := .callWrite w addr) rfl ?_
    have hidle : s₂.calls w = .idle := by
      simp only [s₂, s₁, PipeState.setCall, Function.update_of_ne hne, pipealloc]
    simp only [pipeMachine, PipeState.step, hidle]
    rfl
  have h₄ : (pipeMachine data).ReachableVia PipeState.Held s₄ := h₃.step (l := .kill w) trivial rfl
  have h₅ : (pipeMachine data).ReachableVia PipeState.Held (s₄.pipewrite w addr 0) := by
    refine h₄.step (l := .run w) trivial ?_
    have hw₄ : s₄.calls w = .writing addr 0 false := hw₃
    simp only [pipeMachine, PipeState.step, hw₄]
  have hkilled : s₄.killed w = true := Function.update_self _ _ _
  have hlong : PIPESIZE < ([] : List UInt8).length + (addr.drop 0).length := by simpa using haddr
  obtain ⟨p, hloop, hfull⟩ := writeLoop_killed (p := s₄.pipe) (.empty (by decide) data) hlong
  have hend : s₄.pipewrite w addr 0 =
      (s₄.store w p ((addr.drop 0).take PIPESIZE)).setCall w (.wrote addr PIPESIZE true) := by
    simp only [PipeState.pipewrite, hkilled, hloop, List.length_nil, Nat.sub_zero, Nat.zero_add]
  have hr : (s₄.pipewrite w addr 0).calls r = s₂.calls r := by
    rw [hend]
    simp only [PipeState.setCall, PipeState.store, s₄, s₃, Function.update_of_ne hne.symm]
  refine ⟨_, h₅, hr.trans (Function.update_self _ _ _), ?_, ?_⟩
  · rw [hend]
    exact Function.update_self _ _ _
  · rw [hend]
    exact hfull

/-- A writer of one byte too many. -/
theorem reader_left_asleep_replicate :
    ∃ s : PipeState ℕ, (pipeMachine fun _ ↦ 0).ReachableVia PipeState.Held s ∧
      s.calls 0 = .reading 1 true ∧ s.calls 1 = .wrote (List.replicate 513 0) PIPESIZE true ∧
      s.pipe.Full :=
  reader_left_asleep (fun _ ↦ 0) (by decide) 1 (by rw [List.length_replicate]; decide)

end CS537.Channels
