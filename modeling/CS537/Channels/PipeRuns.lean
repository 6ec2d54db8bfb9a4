import CS537.Channels.Pipe

/-!
# Runs of a pipe

Whatever calls of `pipewrite` and `piperead` there are and however they alternate, the bytes are
read in the order in which they were stored, and none is lost or read twice, also after the counters
have wrapped around.
-/

namespace CS537.Channels

open Foundation

variable {ι : Type*} [DecidableEq ι]

/-! ## The loops -/

/-- What the loop of `pipewrite` does to a pipe that holds `xs`. -/
structure WriteSpec (killed : Bool) (bs : List UInt8) (p : Pipe) (xs : List UInt8)
    (r : Pipe × ℕ × WriteEnd) : Prop where
  le : r.2.1 ≤ bs.length
  holds : r.1.ring.Holds uintBound PIPESIZE (xs ++ bs.take r.2.1)
  readopen : r.1.readopen = p.readopen
  writeopen : r.1.writeopen = p.writeopen
  done : r.2.2 = .done → r.2.1 = bs.length
  full : r.2.2 ≠ .done → r.1.Full
  sleep : r.2.2 = .sleep → p.readopen = true ∧ killed = false
  fail : r.2.2 = .fail → p.readopen = false ∨ killed = true

theorem writeLoop_spec (killed : Bool) (bs : List UInt8) {p : Pipe} {xs : List UInt8}
    (h : p.ring.Holds uintBound PIPESIZE xs) : WriteSpec killed bs p xs (writeLoop killed bs p) := by
  induction bs generalizing p xs with
  | nil =>
    have hsame : writeLoop killed [] p = (p, 0, .done) := rfl
    rw [hsame]
    exact ⟨le_rfl, by simpa using h, rfl, rfl, fun _ ↦ rfl, fun hend ↦ absurd rfl hend,
      fun hend ↦ (by cases hend), fun hend ↦ (by cases hend)⟩
  | cons b rest ih =>
    rw [writeLoop]
    by_cases hfull : p.Full
    · rw [if_pos hfull]
      by_cases hstop : p.readopen = false ∨ killed = true
      · rw [if_pos hstop]
        exact ⟨Nat.zero_le _, by simpa using h, rfl, rfl, fun hend ↦ (by cases hend), fun _ ↦ hfull,
          fun hend ↦ (by cases hend), fun _ ↦ hstop⟩
      · rw [if_neg hstop]
        have hgoes : p.readopen = true ∧ killed = false := by simpa using hstop
        exact ⟨Nat.zero_le _, by simpa using h, rfl, rfl, fun hend ↦ (by cases hend), fun _ ↦ hfull,
          fun _ ↦ hgoes, fun hend ↦ (by cases hend)⟩
    · rw [if_neg hfull]
      have hroom : xs.length < PIPESIZE :=
        lt_of_le_of_ne h.length_le (mt (h.last_eq_full_iff ringSize).mpr hfull)
      have hnext := ih (p := p.put b) (h.push ringSize hroom b)
      refine ⟨Nat.succ_le_succ hnext.le, ?_, hnext.readopen, hnext.writeopen, fun hend ↦ ?_,
        hnext.full, hnext.sleep, hnext.fail⟩
      · have hholds := hnext.holds
        rwa [List.append_assoc, List.singleton_append] at hholds
      · exact congrArg (· + 1) (hnext.done hend)

/-- The second loop of `piperead` takes the first bytes. -/
theorem readLoop_spec (n : ℕ) {p : Pipe} {xs : List UInt8} (h : p.ring.Holds uintBound PIPESIZE xs) :
    (readLoop n p).2 = xs.take n ∧ (readLoop n p).1.ring.Holds uintBound PIPESIZE (xs.drop n) ∧
      (readLoop n p).1.readopen = p.readopen ∧ (readLoop n p).1.writeopen = p.writeopen := by
  induction n generalizing p xs with
  | zero => exact ⟨rfl, h, rfl, rfl⟩
  | succ n ih =>
    rw [readLoop]
    by_cases hempty : p.Empty
    · have hnil : xs = [] := (h.first_eq_last_iff ringSize).mp hempty
      subst hnil
      rw [if_pos hempty]
      exact ⟨rfl, h, rfl, rfl⟩
    · rw [if_neg hempty]
      cases xs with
      | nil => exact absurd ((h.first_eq_last_iff ringSize).mpr rfl) hempty
      | cons x xs =>
        obtain ⟨hfront, hpop⟩ := h.pop ringSize
        obtain ⟨hbytes, hholds, hread, hwrite⟩ := ih (p := p.take) hpop
        refine ⟨?_, hholds, hread, hwrite⟩
        rw [List.take_succ_cons, ← hbytes]
        exact congrArg (· :: _) hfront

/-! ## What is recorded -/

/-- The bytes of one call. -/
def bytesOf (c : ι) (l : List (ι × UInt8)) : List UInt8 := (l.filter fun x ↦ x.1 = c).map Prod.snd

theorem bytesOf_append_self (c : ι) (l : List (ι × UInt8)) (bs : List UInt8) :
    bytesOf c (l ++ bs.map (c, ·)) = bytesOf c l ++ bs := by
  have hall : (bs.map fun b ↦ (c, b)).filter (fun x ↦ x.1 = c) = bs.map fun b ↦ (c, b) :=
    List.filter_eq_self.mpr fun x hx ↦ by
      obtain ⟨b, -, rfl⟩ := List.mem_map.mp hx
      exact decide_eq_true rfl
  rw [bytesOf, List.filter_append, hall, List.map_append, List.map_map]
  exact congrArg (_ ++ ·) (List.map_id' bs)

theorem bytesOf_append_of_ne {c c' : ι} (hc : c' ≠ c) (l : List (ι × UInt8)) (bs : List UInt8) :
    bytesOf c' (l ++ bs.map (c, ·)) = bytesOf c' l := by
  have hnone : (bs.map fun b ↦ (c, b)).filter (fun x ↦ x.1 = c') = [] :=
    List.filter_eq_nil_iff.mpr fun x hx ↦ by
      obtain ⟨b, -, rfl⟩ := List.mem_map.mp hx
      simpa using hc.symm
  rw [bytesOf, List.filter_append, hnone, List.append_nil]
  rfl

omit [DecidableEq ι] in
theorem map_snd_append (c : ι) (l : List (ι × UInt8)) (bs : List UInt8) :
    (l ++ bs.map (c, ·)).map Prod.snd = l.map Prod.snd ++ bs := by
  rw [List.map_append, List.map_map]
  exact congrArg (_ ++ ·) (List.map_id' bs)

/-- What a call has stored, and what it has read. -/
def PipeCall.Recorded (stored got : List UInt8) : PipeCall → Prop
  | .idle => stored = [] ∧ got = []
  | .writing addr i _ => i ≤ addr.length ∧ stored = addr.take i ∧ got = []
  | .reading _ _ => stored = [] ∧ got = []
  | .wrote addr i failed => i ≤ addr.length ∧ stored = addr.take i ∧ got = [] ∧
      (failed = false → i = addr.length)
  | .gotBytes n bytes => stored = [] ∧ got = bytes ∧ bytes.length ≤ n
  | .readFailed => stored = [] ∧ got = []

/-- The pipe holds the bytes that have been stored and not been read. -/
structure PipeInv (s : PipeState ι) : Prop where
  buffered : ∃ xs, s.pipe.ring.Holds uintBound PIPESIZE xs ∧
    s.written.map Prod.snd = s.delivered.map Prod.snd ++ xs
  calls : ∀ c, (s.calls c).Recorded (bytesOf c s.written) (bytesOf c s.delivered)

theorem PipeCall.recorded_wakeReader {stored got : List UInt8} (call : PipeCall) :
    call.wakeReader.Recorded stored got ↔ call.Recorded stored got := by
  cases call <;> exact Iff.rfl

theorem PipeCall.recorded_wakeWriter {stored got : List UInt8} (call : PipeCall) :
    call.wakeWriter.Recorded stored got ↔ call.Recorded stored got := by
  cases call <;> exact Iff.rfl

namespace PipeInv

variable {s t : PipeState ι} {c : ι}

theorem recorded (h : PipeInv s) {call : PipeCall} (hcall : s.calls c = call) :
    call.Recorded (bytesOf c s.written) (bytesOf c s.delivered) :=
  hcall ▸ h.calls c

/-- One call goes on without moving bytes. -/
theorem setCall (h : PipeInv s) {call : PipeCall}
    (hcall : call.Recorded (bytesOf c s.written) (bytesOf c s.delivered)) :
    PipeInv (s.setCall c call) where
  buffered := h.buffered
  calls c' := by
    by_cases hc : c' = c
    · rw [hc]
      simp only [PipeState.setCall, Function.update_self]
      exact hcall
    · simp only [PipeState.setCall, Function.update_of_ne hc]
      exact h.calls c'

theorem wakeReaders (h : PipeInv s) : PipeInv s.wakeReaders :=
  ⟨h.buffered, fun c ↦ (PipeCall.recorded_wakeReader _).mpr (h.calls c)⟩

theorem wakeWriters (h : PipeInv s) : PipeInv s.wakeWriters :=
  ⟨h.buffered, fun c ↦ (PipeCall.recorded_wakeWriter _).mpr (h.calls c)⟩

/-- A section of `pipewrite` stores bytes. -/
theorem store (h : PipeInv s) {pipe : Pipe} {bs : List UInt8} {call : PipeCall}
    (hpipe : ∀ xs, s.pipe.ring.Holds uintBound PIPESIZE xs →
      pipe.ring.Holds uintBound PIPESIZE (xs ++ bs))
    (hcall : call.Recorded (bytesOf c s.written ++ bs) (bytesOf c s.delivered)) :
    PipeInv ((s.store c pipe bs).setCall c call) where
  buffered := by
    obtain ⟨xs, hxs, hwritten⟩ := h.buffered
    exact ⟨xs ++ bs, hpipe xs hxs, by
      simp only [PipeState.setCall, PipeState.store, map_snd_append, hwritten, List.append_assoc]⟩
  calls c' := by
    by_cases hc : c' = c
    · rw [hc]
      simp only [PipeState.setCall, PipeState.store, Function.update_self, bytesOf_append_self]
      exact hcall
    · simp only [PipeState.setCall, PipeState.store, Function.update_of_ne hc,
        bytesOf_append_of_ne hc]
      exact h.calls c'

/-- A section of `piperead` takes bytes. -/
theorem fetch (h : PipeInv s) {pipe : Pipe} {n : ℕ} {bs : List UInt8} {call : PipeCall}
    (hpipe : ∀ xs, s.pipe.ring.Holds uintBound PIPESIZE xs →
      bs = xs.take n ∧ pipe.ring.Holds uintBound PIPESIZE (xs.drop n))
    (hcall : call.Recorded (bytesOf c s.written) (bytesOf c s.delivered ++ bs)) :
    PipeInv ((s.fetch c pipe bs).setCall c call) where
  buffered := by
    obtain ⟨xs, hxs, hwritten⟩ := h.buffered
    obtain ⟨rfl, hrest⟩ := hpipe xs hxs
    exact ⟨xs.drop n, hrest, by
      simp only [PipeState.setCall, PipeState.fetch, map_snd_append, hwritten, List.append_assoc,
        List.take_append_drop]⟩
  calls c' := by
    by_cases hc : c' = c
    · rw [hc]
      simp only [PipeState.setCall, PipeState.fetch, Function.update_self, bytesOf_append_self]
      exact hcall
    · simp only [PipeState.setCall, PipeState.fetch, Function.update_of_ne hc,
        bytesOf_append_of_ne hc]
      exact h.calls c'

/-- The bytes of a call of `pipewrite` after a section that has stored `k` more. -/
theorem stored_section (h : PipeInv s) {addr : List UInt8} {i : ℕ}
    (hcall : s.calls c = .writing addr i false) {k : ℕ} (hk : k ≤ (addr.drop i).length) :
    i + k ≤ addr.length ∧ bytesOf c s.written ++ (addr.drop i).take k = addr.take (i + k) ∧
      bytesOf c s.delivered = [] := by
  obtain ⟨hi, hstored, hgot⟩ := h.recorded hcall
  rw [List.length_drop] at hk
  exact ⟨by omega, by rw [hstored, ← List.take_add], hgot⟩

theorem pipewrite (h : PipeInv s) {addr : List UInt8} {i : ℕ}
    (hcall : s.calls c = .writing addr i false) : PipeInv (s.pipewrite c addr i) := by
  obtain ⟨_, hholds, -⟩ := h.buffered
  have hle := (writeLoop_spec (s.killed c) (addr.drop i) hholds).le
  have hdone := (writeLoop_spec (s.killed c) (addr.drop i) hholds).done
  have hpipe := fun xs (hxs : s.pipe.ring.Holds uintBound PIPESIZE xs) ↦
    (writeLoop_spec (s.killed c) (addr.drop i) hxs).holds
  obtain ⟨hlength, hstored, hgot⟩ := h.stored_section hcall hle
  unfold PipeState.pipewrite
  generalize hend : (writeLoop (s.killed c) (addr.drop i) s.pipe).2.2 = e
  simp only [hend]
  cases e with
  | done =>
    have hall : i + (writeLoop (s.killed c) (addr.drop i) s.pipe).2.1 = addr.length := by
      have hdrop := hdone hend
      rw [List.length_drop] at hdrop
      omega
    exact h.wakeReaders.store hpipe ⟨hlength, hstored, hgot, fun _ ↦ hall⟩
  | sleep => exact h.wakeReaders.store hpipe ⟨hlength, hstored, hgot⟩
  | fail => exact h.store hpipe ⟨hlength, hstored, hgot, fun hfailed ↦ (by cases hfailed)⟩

theorem piperead (h : PipeInv s) {n : ℕ} (hcall : s.calls c = .reading n false) :
    PipeInv (s.piperead c n) := by
  obtain ⟨hstored, hgot⟩ := h.recorded hcall
  unfold PipeState.piperead
  by_cases hwait : s.pipe.Empty ∧ s.pipe.writeopen = true
  · rw [if_pos hwait]
    by_cases hkilled : s.killed c = true
    · rw [if_pos hkilled]
      exact h.setCall ⟨hstored, hgot⟩
    · rw [if_neg hkilled]
      exact h.setCall ⟨hstored, hgot⟩
  · rw [if_neg hwait]
    have hpipe := fun xs (hxs : s.pipe.ring.Holds uintBound PIPESIZE xs) ↦
      let hspec := readLoop_spec n hxs
      And.intro hspec.1 hspec.2.1
    have hlength : (readLoop n s.pipe).2.length ≤ n := by
      obtain ⟨xs, hxs, -⟩ := h.buffered
      rw [(hpipe xs hxs).1]
      exact List.length_take_le n xs
    have hall : bytesOf c s.delivered ++ (readLoop n s.pipe).2 = (readLoop n s.pipe).2 := by
      rw [hgot, List.nil_append]
    exact h.wakeWriters.fetch hpipe ⟨hstored, hall, hlength⟩

theorem pipeclose (h : PipeInv s) (writable : Bool) : PipeInv (s.pipeclose writable) := by
  cases writable with
  | true => exact ⟨h.buffered, h.wakeReaders.calls⟩
  | false => exact ⟨h.buffered, h.wakeWriters.calls⟩

theorem step (h : PipeInv s) {l : PipeLabel ι} (hstep : s.StepsTo l t) : PipeInv t := by
  cases hstep with
  | callWrite hcall =>
    obtain ⟨hstored, hgot⟩ := h.recorded hcall
    exact h.setCall ⟨Nat.zero_le _, hstored, hgot⟩
  | callRead hcall =>
    have hrecorded := h.recorded hcall
    exact h.setCall hrecorded
  | pipewrite hcall => exact h.pipewrite hcall
  | piperead hcall => exact h.piperead hcall
  | wakeWriter hcall =>
    have hrecorded := h.recorded hcall
    exact h.setCall hrecorded
  | wakeReader hcall =>
    have hrecorded := h.recorded hcall
    exact h.setCall hrecorded
  | kill => exact ⟨h.buffered, h.calls⟩
  | close => exact h.pipeclose _

end PipeInv

theorem pipeInv_of_reachable {data : ℕ → UInt8} {s : PipeState ι}
    (h : (pipeMachine data).Reachable s) : PipeInv s := by
  refine h.invariant ?_ fun _ _ _ _ hs _ hstep ↦ hs.step (PipeState.step_cases hstep)
  intro s hinit
  have hstart : s = pipealloc data := hinit
  subst hstart
  exact ⟨⟨[], .empty (by decide) data, rfl⟩, fun _ ↦ ⟨rfl, rfl⟩⟩

/-- In every run the readers get the bytes of the writers in the order in which they were stored, and
what they have not got is in the pipe.  A call has stored or read what it says. -/
theorem bytes_in_order {data : ℕ → UInt8} {s : PipeState ι} (h : (pipeMachine data).Reachable s) :
    (∃ xs, s.pipe.ring.Holds uintBound PIPESIZE xs ∧
      s.written.map Prod.snd = s.delivered.map Prod.snd ++ xs) ∧
    ∀ c, (s.calls c).Recorded (bytesOf c s.written) (bytesOf c s.delivered) :=
  have hinv := pipeInv_of_reachable h
  ⟨hinv.buffered, hinv.calls⟩

/-- A call of `pipewrite` stores two bytes in a new pipe. -/
theorem bytes_in_order_write :
    let s : PipeState ℕ := (pipealloc fun _ ↦ 0).setCall 0 (.writing [7, 8] 0 false)
    ∃ xs, (s.pipewrite 0 [7, 8] 0).pipe.ring.Holds uintBound PIPESIZE xs ∧
      (s.pipewrite 0 [7, 8] 0).written.map Prod.snd =
        (s.pipewrite 0 [7, 8] 0).delivered.map Prod.snd ++ xs :=
  have hcalled : (pipeMachine fun _ ↦ 0).Reachable
      ((pipealloc fun _ ↦ 0).setCall (0 : ℕ) (.writing [7, 8] 0 false)) :=
    .step (.init rfl) trivial (l := .callWrite 0 [7, 8]) rfl
  (bytes_in_order (hcalled.next (l := .run 0) rfl)).1

end CS537.Channels
