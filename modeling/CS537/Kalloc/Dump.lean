import CS537.Kalloc.SafeRuns
import Mathlib.Data.Finset.Card
import Mathlib.Data.List.Range

/-!
# Reporting the allocated frames

`dump_physmem` fills two arrays of the calling process with the tracked frames that are allocated
and their owners, from the highest frame down, and with `-1` behind them.  The search for the next
allocated frame has no bound of its own: it relies on the counter of the allocated frames, and goes on
in the memory behind the table when there are fewer.
-/

namespace CS537.Kalloc

/-! ## Arguments of system calls -/

/-- The `int` with these 32 bits. -/
def toInt32 (x : ℕ) : ℤ := if x < 2 ^ 31 then x else x - 2 ^ 32

/-- What a system call reads of the calling process. -/
structure Proc where
  sz : ℕ
  esp : ℕ
  /-- the word at a user address -/
  word : ℕ → ℕ
  sz_lt : sz < 2 ^ 32
  word_lt : ∀ addr, word addr < 2 ^ 32

namespace Proc

/-- `fetchint`; `none` stands for -1. -/
def fetchint (p : Proc) (addr : ℕ) : Option ℕ :=
  if p.sz ≤ addr ∨ p.sz < (addr + 4) % 2 ^ 32 then none else some (p.word addr)

def argint (p : Proc) (n : ℕ) : Option ℕ := p.fetchint ((p.esp + 4 + 4 * n) % 2 ^ 32)

/-- `argptr`, whose size is an `int`. -/
def argptr (p : Proc) (n : ℕ) (size : ℤ) : Option ℕ :=
  (p.argint n).bind fun i ↦
    if size < 0 ∨ p.sz ≤ i ∨ p.sz < (i + size.toNat) % 2 ^ 32 then none else some i

end Proc

/-! ## The system call -/

/-- The macro `IDX2FN`. -/
def idx2fn (idx : ℕ) : ℕ := uintSub (uintSub (physTop >>> 12) 1) idx

/-- The kernel's memory from `pg2pid` on: the number of words that are mapped, and each word behind the
table as it is read when so many elements have been written. -/
structure KernelMemory where
  mapped : ℕ
  word : ℕ → ℕ → ℤ
  table : maxFrameNum ≤ mapped

/-- `pg2pid[j]` when `k` elements have been written. -/
def pg2pidAt (a : Allocator) (m : KernelMemory) (k j : ℕ) : ℤ :=
  if j < maxFrameNum then a.pg2pid j else m.word k j

/-- The inner loop of `sys_dump_physmem` from word `j` on, with so many mapped words to go; behind them
is a page fault. -/
def scanOwned (owner : ℕ → ℤ) : ℕ → ℕ → Option ℕ
  | 0, _ => none
  | words + 1, j => if owner j = -1 then scanOwned owner words (j + 1) else some j

/-- The elements of `frames` and `pids` that were written, and whether the loops came to their
end. -/
structure Dump where
  entries : List (ℤ × ℤ)
  completed : Bool
  deriving DecidableEq

/-- The loops of `sys_dump_physmem` from element `i` on, with `n` elements to go. -/
def dumpLoop (a : Allocator) (m : KernelMemory) : ℕ → ℕ → ℕ → Dump
  | 0, _, _ => ⟨[], true⟩
  | n + 1, i, j =>
    if (i : ℤ) < a.allocatedCount then
      match scanOwned (pg2pidAt a m (2 * i)) (m.mapped - j) j with
      | none => ⟨[], false⟩
      | some j =>
        let rest := dumpLoop a m n (i + 1) (j + 1)
        -- `frames[i]` has been written when `pg2pid[j]` is read again
        ⟨(toInt32 (idx2fn j), pg2pidAt a m (2 * i + 1) j) :: rest.entries, rest.completed⟩
    else ⟨List.replicate (n + 1) (-1, -1), true⟩

/-- What `sys_dump_physmem` writes through the two pointers. -/
structure DumpCall where
  frames : ℕ
  pids : ℕ
  dump : Dump

/-- `sys_dump_physmem`; `none` stands for -1. -/
def sysDumpPhysmem (p : Proc) (a : Allocator) (m : KernelMemory) : Option DumpCall :=
  (p.argint 2).bind fun numFrame ↦
    let size := toInt32 (numFrame * 4 % 2 ^ 32)
    (p.argptr 0 size).bind fun frames ↦
      (p.argptr 1 size).bind fun pids ↦
        if toInt32 numFrame < 1 ∨ frames = 0 ∨ pids = 0 then none
        else some ⟨frames, pids, dumpLoop a m (toInt32 numFrame).toNat 0 0⟩

/-! ## The loops -/

/-- The frames of the table that have an owner, from `j` on. -/
def ownedFrom (pg2pid : ℕ → ℤ) (j : ℕ) : List ℕ :=
  (List.range' j (maxFrameNum - j)).filter fun i ↦ pg2pid i ≠ -1

theorem ownedFrom_of_le {pg2pid : ℕ → ℤ} {j : ℕ} (hj : maxFrameNum ≤ j) :
    ownedFrom pg2pid j = [] := by
  rw [ownedFrom, Nat.sub_eq_zero_of_le hj]
  rfl

theorem ownedFrom_of_lt {pg2pid : ℕ → ℤ} {j : ℕ} (hj : j < maxFrameNum) :
    ownedFrom pg2pid j =
      if pg2pid j = -1 then ownedFrom pg2pid (j + 1) else j :: ownedFrom pg2pid (j + 1) := by
  have hsucc : maxFrameNum - j = maxFrameNum - (j + 1) + 1 := by omega
  rw [ownedFrom, hsucc, List.range'_succ, List.filter_cons]
  by_cases hfree : pg2pid j = -1 <;> simp [hfree, ownedFrom]

/-- A search that begins before a frame with an owner stops at the next one. -/
theorem scanOwned_of_owned {a : Allocator} (m : KernelMemory) (c : ℕ) {words j k : ℕ} {ks : List ℕ}
    (howned : ownedFrom a.pg2pid j = k :: ks) (hwords : maxFrameNum ≤ words + j) :
    scanOwned (pg2pidAt a m c) words j = some k ∧ k < maxFrameNum ∧ ownedFrom a.pg2pid (k + 1) = ks := by
  have hj : j < maxFrameNum := by
    by_contra hbehind
    rw [ownedFrom_of_le (Nat.le_of_not_lt hbehind)] at howned
    cases howned
  induction words generalizing j with
  | zero => omega
  | succ words ih =>
    rw [ownedFrom_of_lt hj] at howned
    rw [scanOwned, pg2pidAt, if_pos hj]
    by_cases hfree : a.pg2pid j = -1
    · rw [if_pos hfree] at howned ⊢
      refine ih howned (by omega) ?_
      by_contra hbehind
      rw [ownedFrom_of_le (Nat.le_of_not_lt hbehind)] at howned
      cases howned
    · rw [if_neg hfree] at howned ⊢
      obtain ⟨rfl, rfl⟩ := List.cons.inj howned
      exact ⟨rfl, hj, rfl⟩

/-- A search that finds no frame with an owner goes on behind the table. -/
theorem scanOwned_of_free {a : Allocator} (m : KernelMemory) (c : ℕ) {words n : ℕ} (hn : n ≤ maxFrameNum)
    (hfree : ownedFrom a.pg2pid (maxFrameNum - n) = []) :
    scanOwned (pg2pidAt a m c) (words + n) (maxFrameNum - n) =
      scanOwned (pg2pidAt a m c) words maxFrameNum := by
  induction n with
  | zero => rfl
  | succ n ih =>
    have hj : maxFrameNum - (n + 1) < maxFrameNum := by omega
    have hnext : maxFrameNum - (n + 1) + 1 = maxFrameNum - n := by omega
    rw [ownedFrom_of_lt hj] at hfree
    have howner : a.pg2pid (maxFrameNum - (n + 1)) = -1 := by
      by_contra howned
      rw [if_neg howned] at hfree
      cases hfree
    rw [if_pos howner, hnext] at hfree
    rw [← Nat.add_assoc, scanOwned, pg2pidAt, if_pos hj, if_pos howner, hnext]
    exact ih (by omega) hfree

/-- The words at which the searches for `n` elements stop, from element `i` and word `j` on: they end at
the first search that comes to the end of the mapped memory. -/
def stops (a : Allocator) (m : KernelMemory) : ℕ → ℕ → ℕ → List ℕ
  | 0, _, _ => []
  | n + 1, i, j =>
    match scanOwned (pg2pidAt a m (2 * i)) (m.mapped - j) j with
    | none => []
    | some k => k :: stops a m n (i + 1) (k + 1)

/-- The searches stay in the table while it has frames with owners. -/
theorem stops_of_owned (a : Allocator) (m : KernelMemory) {n i j : ℕ}
    (hn : n ≤ (ownedFrom a.pg2pid j).length) : stops a m n i j = (ownedFrom a.pg2pid j).take n := by
  induction n generalizing i j with
  | zero => rfl
  | succ n ih =>
    have htable := m.table
    obtain ⟨k, ks, howned⟩ := List.exists_cons_of_ne_nil (List.ne_nil_of_length_pos (Nat.zero_lt_of_lt hn))
    have hwords : maxFrameNum ≤ m.mapped - j + j := by omega
    obtain ⟨hscan, hk, hks⟩ := scanOwned_of_owned m (2 * i) howned hwords
    rw [howned, List.length_cons] at hn
    rw [stops, hscan, howned, List.take_succ_cons]
    exact congrArg (k :: ·) ((ih (hks ▸ Nat.le_of_succ_le_succ hn)).trans (by rw [hks]))

theorem length_stops_le (a : Allocator) (m : KernelMemory) (n i j : ℕ) :
    (stops a m n i j).length ≤ n := by
  induction n generalizing i j with
  | zero => exact Nat.le_refl 0
  | succ n ih =>
    rw [stops]
    split
    · exact Nat.zero_le _
    · exact Nat.succ_le_succ (ih _ _)

/-- The elements written for these words, from element `i` on. -/
def entriesOf (a : Allocator) (m : KernelMemory) : ℕ → List ℕ → List (ℤ × ℤ)
  | _, [] => []
  | i, k :: ks => (toInt32 (idx2fn k), pg2pidAt a m (2 * i + 1) k) :: entriesOf a m (i + 1) ks

theorem length_entriesOf (a : Allocator) (m : KernelMemory) (i : ℕ) (ks : List ℕ) :
    (entriesOf a m i ks).length = ks.length := by
  induction ks generalizing i with
  | nil => rfl
  | cons k ks ih => rw [entriesOf, List.length_cons, ih, List.length_cons]

/-- The elements that the loops fill with frames: no more than are counted. -/
def counted (a : Allocator) (n i : ℕ) : ℕ := min n (a.allocatedCount - i).toNat

/-- The loops report the words at which the searches stop, and come to their end when there are as many
as are counted. -/
theorem dumpLoop_eq (a : Allocator) (m : KernelMemory) (n i j : ℕ) :
    dumpLoop a m n i j =
      if (stops a m (counted a n i) i j).length = counted a n i then
        ⟨entriesOf a m i (stops a m (counted a n i) i j) ++
          List.replicate (n - counted a n i) (-1, -1), true⟩
      else ⟨entriesOf a m i (stops a m (counted a n i) i j), false⟩ := by
  induction n generalizing i j with
  | zero =>
    have hzero : counted a 0 i = 0 := Nat.zero_min _
    rw [hzero]
    rfl
  | succ n ih =>
    by_cases hi : (i : ℤ) < a.allocatedCount
    · have hcounted : counted a (n + 1) i = counted a n (i + 1) + 1 := by
        simp only [counted]
        push_cast
        omega
      rw [dumpLoop, if_pos hi, hcounted, stops]
      cases scanOwned (pg2pidAt a m (2 * i)) (m.mapped - j) j with
      | none => exact (if_neg (Nat.succ_ne_zero _).symm).symm
      | some k =>
        simp only [ih, List.length_cons, Nat.add_right_cancel_iff, entriesOf, Nat.add_sub_add_right]
        split <;> rfl
    · have hzero : counted a (n + 1) i = 0 := by
        simp only [counted]
        omega
      rw [dumpLoop, if_neg hi, hzero]
      rfl

/-- The number of elements written of an array of `n`. -/
def elements (a : Allocator) (m : KernelMemory) (n : ℕ) : ℕ :=
  if (stops a m (counted a n 0) 0 0).length = counted a n 0 then n
  else (stops a m (counted a n 0) 0 0).length

theorem length_dumpLoop (a : Allocator) (m : KernelMemory) (n : ℕ) :
    (dumpLoop a m n 0 0).entries.length = elements a m n := by
  have hle : counted a n 0 ≤ n := Nat.min_le_left _ _
  rw [dumpLoop_eq, elements]
  split
  next h =>
    rw [List.length_append, length_entriesOf, List.length_replicate, h, Nat.add_sub_cancel' hle]
  next => exact length_entriesOf a m 0 _

theorem elements_le (a : Allocator) (m : KernelMemory) (n : ℕ) : elements a m n ≤ n := by
  rw [elements]
  split
  · exact Nat.le_refl n
  · exact (length_stops_le a m _ 0 0).trans (Nat.min_le_left _ _)

/-! ## The addresses written -/

/-- The addresses of the bytes that the call writes; address computations wrap around. -/
def DumpCall.Writes (c : DumpCall) (addr : ℕ) : Prop :=
  ∃ array ∈ [c.frames, c.pids], ∃ i < c.dump.entries.length, ∃ b < 4,
    addr = (array + 4 * i + b) % 2 ^ 32

/-- Whatever the call writes lies in the memory of the process. -/
def WritesInside (p : Proc) (a : Allocator) (m : KernelMemory) : Prop :=
  ∀ c, sysDumpPhysmem p a m = some c → ∀ addr, c.Writes addr → addr < p.sz

/-- The call passes its checks with these arguments. -/
structure Proc.Accepts (p : Proc) (numFrame frames pids : ℕ) : Prop where
  third : p.argint 2 = some numFrame
  first : p.argptr 0 (toInt32 (numFrame * 4 % 2 ^ 32)) = some frames
  second : p.argptr 1 (toInt32 (numFrame * 4 % 2 ^ 32)) = some pids
  positive : 1 ≤ toInt32 numFrame
  frames_ne : frames ≠ 0
  pids_ne : pids ≠ 0

theorem Proc.fetchint_lt {p : Proc} {addr x : ℕ} (h : p.fetchint addr = some x) : x < 2 ^ 32 := by
  unfold Proc.fetchint at h
  split at h
  · simp at h
  · obtain rfl := Option.some.inj h
    exact p.word_lt addr

theorem Proc.Accepts.toNat_eq {p : Proc} {numFrame frames pids : ℕ}
    (h : p.Accepts numFrame frames pids) : (toInt32 numFrame).toNat = numFrame := by
  have hpos := h.positive
  have hlt := Proc.fetchint_lt h.third
  unfold toInt32 at hpos ⊢
  split at hpos
  next hsmall => rw [if_pos hsmall, Int.toNat_natCast]
  next => omega

theorem sysDumpPhysmem_eq_some_iff {p : Proc} {a : Allocator} {m : KernelMemory}
    {c : DumpCall} : sysDumpPhysmem p a m = some c ↔ ∃ numFrame, p.Accepts numFrame c.frames c.pids ∧
      c.dump = dumpLoop a m (toInt32 numFrame).toNat 0 0 := by
  simp only [sysDumpPhysmem, Option.bind_eq_some_iff]
  constructor
  · rintro ⟨numFrame, hthird, frames, hfirst, pids, hsecond, hc⟩
    split at hc
    · simp at hc
    next hok =>
      obtain rfl := Option.some.inj hc
      push Not at hok
      exact ⟨numFrame, ⟨hthird, hfirst, hsecond, by omega, hok.2.1, hok.2.2⟩, rfl⟩
  · rintro ⟨numFrame, h, hdump⟩
    have hok : ¬(toInt32 numFrame < 1 ∨ c.frames = 0 ∨ c.pids = 0) := by
      have hpos := h.positive
      have hframes := h.frames_ne
      have hpids := h.pids_ne
      omega
    refine ⟨numFrame, h.third, c.frames, h.first, c.pids, h.second, ?_⟩
    rw [if_neg hok, ← hdump]

/-- The elements of an array that begins in the memory of the process end there, too. -/
def Fits (p : Proc) (array n : ℕ) : Prop := array + 4 * n ≤ p.sz

/-- An array whose elements lie in the memory of the process does not end behind it: one byte
would be at the end. -/
theorem fits_iff {p : Proc} {array n : ℕ} (hstart : array < p.sz) :
    (∀ i < n, ∀ b < 4, (array + 4 * i + b) % 2 ^ 32 < p.sz) ↔ Fits p array n := by
  have hsz := p.sz_lt
  constructor
  · intro h
    by_contra hfit
    simp only [Fits] at hfit
    have hend := h ((p.sz - array) / 4) (by omega) ((p.sz - array) % 4) (by omega)
    have haddr : array + 4 * ((p.sz - array) / 4) + (p.sz - array) % 4 = p.sz := by omega
    rw [haddr, Nat.mod_eq_of_lt hsz] at hend
    exact absurd hend (Nat.lt_irrefl _)
  · intro h i hi b hb
    simp only [Fits] at h
    rw [Nat.mod_eq_of_lt (by omega)]
    omega

/-- What `argptr` has checked of an array of `n` elements. -/
theorem argptr_eq_some {p : Proc} {k n array : ℕ}
    (h : p.argptr k (toInt32 (n * 4 % 2 ^ 32)) = some array) :
    array < p.sz ∧ (array + 4 * n < 2 ^ 32 → Fits p array n) := by
  obtain ⟨i, -, hi⟩ := Option.bind_eq_some_iff.mp h
  split at hi
  · simp at hi
  next hok =>
    obtain rfl := Option.some.inj hi
    push Not at hok
    refine ⟨hok.2.1, fun hwrap ↦ ?_⟩
    have hmod : n * 4 % 2 ^ 32 = 4 * n := by
      rw [Nat.mod_eq_of_lt (by omega)]
      omega
    have hsmall : 4 * n < 2 ^ 31 := by
      by_contra hbig
      have hneg := hok.1
      rw [hmod, toInt32, if_neg hbig] at hneg
      omega
    have hsum := hok.2.2
    rw [hmod, toInt32, if_pos hsmall, Int.toNat_natCast, Nat.mod_eq_of_lt hwrap] at hsum
    exact hsum

/-- The call writes inside the memory of the caller if the elements that it writes lie there. -/
theorem writesInside_iff (p : Proc) (a : Allocator) (m : KernelMemory) :
    WritesInside p a m ↔ ∀ numFrame frames pids, p.Accepts numFrame frames pids →
      Fits p frames (elements a m numFrame) ∧ Fits p pids (elements a m numFrame) := by
  constructor
  · intro h numFrame frames pids haccepts
    have hcall := h ⟨frames, pids, _⟩ (sysDumpPhysmem_eq_some_iff.mpr ⟨numFrame, haccepts, rfl⟩)
    have hlength := length_dumpLoop a m numFrame
    rw [haccepts.toNat_eq] at hcall
    constructor
    · refine (fits_iff (argptr_eq_some haccepts.first).1).mp fun i hi b hb ↦ ?_
      exact hcall _ ⟨frames, by simp, i, hlength ▸ hi, b, hb, rfl⟩
    · refine (fits_iff (argptr_eq_some haccepts.second).1).mp fun i hi b hb ↦ ?_
      exact hcall _ ⟨pids, by simp, i, hlength ▸ hi, b, hb, rfl⟩
  · rintro h c hc addr ⟨array, harray, i, hi, b, hb, rfl⟩
    obtain ⟨numFrame, haccepts, hdump⟩ := sysDumpPhysmem_eq_some_iff.mp hc
    obtain ⟨hframes, hpids⟩ := h numFrame c.frames c.pids haccepts
    rw [hdump, haccepts.toNat_eq, length_dumpLoop] at hi
    rcases List.mem_pair.mp harray with rfl | rfl
    · exact (fits_iff (argptr_eq_some haccepts.first).1).mpr hframes i hi b hb
    · exact (fits_iff (argptr_eq_some haccepts.second).1).mpr hpids i hi b hb

/-- `dump_physmem` writes only inside the memory of the caller exactly when the arrays do not wrap
around the end of the address space, or a search runs into the end of the mapped memory before the
elements have left the memory of the caller. -/
theorem dump_writes_inside_iff (p : Proc) (a : Allocator) (m : KernelMemory) :
    WritesInside p a m ↔ ∀ numFrame frames pids, p.Accepts numFrame frames pids →
      (frames + 4 * numFrame < 2 ^ 32 ∧ pids + 4 * numFrame < 2 ^ 32) ∨
      ((stops a m (counted a numFrame 0) 0 0).length < counted a numFrame 0 ∧
        Fits p frames (stops a m (counted a numFrame 0) 0 0).length ∧
        Fits p pids (stops a m (counted a numFrame 0) 0 0).length) := by
  rw [writesInside_iff]
  refine forall₃_congr fun numFrame frames pids ↦ forall_congr' fun haccepts ↦ ?_
  have hle := elements_le a m numFrame
  have hstops := length_stops_le a m (counted a numFrame 0) 0 0
  have hsz := p.sz_lt
  have hframes := (argptr_eq_some haccepts.first).2
  have hpids := (argptr_eq_some haccepts.second).2
  rw [elements] at hle ⊢
  simp only [Fits] at hframes hpids ⊢
  constructor
  · rintro ⟨hf, hp⟩
    by_cases hall : (stops a m (counted a numFrame 0) 0 0).length = counted a numFrame 0
    · rw [if_pos hall] at hf hp
      exact .inl ⟨by omega, by omega⟩
    · rw [if_neg hall] at hf hp
      exact .inr ⟨by omega, hf, hp⟩
  · rintro (⟨hf, hp⟩ | ⟨hshort, hf, hp⟩)
    · have hfits := hframes hf
      have hfits' := hpids hp
      exact ⟨by omega, by omega⟩
    · rw [if_neg hshort.ne]
      exact ⟨hf, hp⟩

/-- A process of four pages that asks for `2^30 + 1` elements in its second and third page. -/
def wrappingProc : Proc where
  sz := 0x4000
  esp := 0x3000
  word addr := if addr = 0x3004 then 0x1000 else if addr = 0x3008 then 0x2000 else 0x40000001
  sz_lt := by decide
  word_lt addr := by
    split
    · decide
    · split <;> decide

/-- No frame is counted. -/
def nothingCounted : Allocator where
  kmem := { freelist := none, next := fun _ ↦ none }
  pg2pid _ := -1
  allocatedCount := 0
  initflag := true

/-- The number of bytes wraps around to four, and the loops leave the memory of the process. -/
theorem dump_writes_outside : ¬∀ p a m, WritesInside p a m := by
  intro hclaim
  have haccepts : wrappingProc.Accepts 0x40000001 0x1000 0x2000 :=
    ⟨by decide, by decide, by decide, by decide, by decide, by decide⟩
  have hall : elements nothingCounted ⟨maxFrameNum, fun _ _ ↦ 0, le_rfl⟩ 0x40000001 = 0x40000001 := by
    have hcounted : counted nothingCounted 0x40000001 0 = 0 := Nat.min_zero _
    rw [elements, hcounted]
    rfl
  obtain ⟨hfits, -⟩ := (writesInside_iff _ _ _).mp (hclaim wrappingProc nothingCounted _) _ _ _ haccepts
  rw [hall, Fits] at hfits
  exact absurd hfits (by decide)

end CS537.Kalloc
