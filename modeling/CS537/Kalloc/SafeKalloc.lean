import CS537.Kalloc.FreeList

/-!
# The allocator that isolates processes

`kalloc(pid)` hands out the highest free page whose neighbours are free, unknown or owned by the
same process, and records the owner in `pg2pid`; pages for the unknown process `-2` are taken
without that check.  The page table code reads `pg2pid` beyond its ends for frames that are not
tracked; what such a read gives while a page is examined is a parameter of the call.
-/

namespace CS537.Kalloc

open Foundation

/-- The globals of the allocator. -/
structure Allocator where
  kmem : Kmem
  pg2pid : ℕ → ℤ
  allocatedCount : ℤ
  initflag : Bool

/-- A read of `pg2pid[index]`. -/
def readPid (pg2pid : ℕ → ℤ) (junk : ℤ → ℤ) (index : ℤ) : ℤ :=
  if 0 ≤ index ∧ index < maxFrameNum then pg2pid index.toNat else junk index

/-- `safe_guard`, for the given contents of the table. -/
def safeGuard (pid : ℤ → ℤ) (index self : ℤ) : Bool :=
  if index = 0 then
    if self = pid (index + 1) ∨ pid (index + 1) = -1 ∨ pid (index + 1) = -2 then true else false
  else
    let flag := true
    let flag :=
      if pid (index + 1) ≠ self ∧ pid (index + 1) ≠ -1 ∧ pid (index + 1) ≠ -2 then false else flag
    if pid (index - 1) ≠ self ∧ pid (index - 1) ≠ -1 ∧ pid (index - 1) ≠ -2 then false else flag

namespace Allocator

/-- A write to `pg2pid`; outside the table it has no result. -/
def setOwner (a : Allocator) (index : ℕ) (pid : ℤ) : Option Allocator :=
  if index < maxFrameNum then some { a with pg2pid := Function.update a.pg2pid index pid } else none

/-- The test of `select_page` on a free page. -/
def safe (a : Allocator) (junk : ℕ → ℤ → ℤ) (pid : ℤ) (r : ℕ) : Bool :=
  safeGuard (readPid a.pg2pid (junk r)) (va2idx r) pid

/-- `select_page`.  At the end of the list it follows the null pointer, which has no result. -/
def selectPage (a : Allocator) (junk : ℕ → ℤ → ℤ) (pid : ℤ) : Option (ℕ × Kmem) :=
  (findSafe a.kmem.next (a.safe junk pid) (numFrames + 1) none a.kmem.freelist).map
    fun found ↦ (found.2, a.kmem.unlink found)

/-- The critical section of `kalloc`: the page it takes, if there is one. -/
def takePage (a : Allocator) (junk : ℕ → ℤ → ℤ) (pid : ℤ) : Option (ℕ × Kmem) :=
  if pid = -2 then a.kmem.freelist.map fun r ↦ (r, { a.kmem with freelist := a.kmem.next r })
  else a.selectPage junk pid

/-- The end of `kalloc`, which records the owner of a tracked page. -/
def recordOwner (a : Allocator) (r : ℕ) (pid : ℤ) : Option (ℕ × Allocator) :=
  if tracked r then
    (a.setOwner (va2idx r) pid).map fun a ↦
      (r, { a with allocatedCount := a.allocatedCount + 1 })
  else some (r, a)

/-- `kalloc`: the page and the new state.  Without a page the address zero becomes an index far
outside `pg2pid`, which has no result. -/
def kalloc (a : Allocator) (junk : ℕ → ℤ → ℤ) (pid : ℤ) : Option (ℕ × Allocator) :=
  (a.takePage junk pid).bind fun taken ↦ recordOwner { a with kmem := taken.2 } taken.1 pid

/-- `kfree` in a kernel that ends at `kernelEnd`; a panic has no result. -/
def kfree (kernelEnd : ℕ) (a : Allocator) (v : ℕ) : Option Allocator :=
  if v % pgSize ≠ 0 ∨ v < kernelEnd ∨ v2p v ≥ physTop then none
  else do
    -- `memset` fills the page, and with it its link.
    let filled := { a.kmem with next := Function.update a.kmem.next v (some 0x01010101) }
    let a := { a with kmem := filled }
    let a ←
      if tracked v then
        (a.setOwner (va2idx v) (-1)).map fun a ↦
          if a.initflag then { a with allocatedCount := a.allocatedCount - 1 } else a
      else some a
    (a.kmem.insertFreelist v).map fun kmem ↦ { a with kmem := kmem }

/-- `kfree` up to the point where it acquires the lock. -/
def kfreeMark (kernelEnd : ℕ) (a : Allocator) (v : ℕ) : Option Allocator :=
  if v % pgSize ≠ 0 ∨ v < kernelEnd ∨ v2p v ≥ physTop then none
  else
    let filled := { a.kmem with next := Function.update a.kmem.next v (some 0x01010101) }
    let a := { a with kmem := filled }
    if tracked v then
      (a.setOwner (va2idx v) (-1)).map fun a ↦
        if a.initflag then { a with allocatedCount := a.allocatedCount - 1 } else a
    else some a

/-- The critical section of `kfree`. -/
def kfreeInsert (a : Allocator) (v : ℕ) : Option Allocator :=
  (a.kmem.insertFreelist v).map fun kmem ↦ { a with kmem := kmem }

end Allocator

/-- The pages that the loop of `freerange` visits. -/
def pagesBetween (vstart vend : ℕ) : List ℕ :=
  (List.range ((vend - pgRoundUp vstart) / pgSize)).map fun i ↦ pgRoundUp vstart + pgSize * i

namespace Allocator

def freerange (kernelEnd : ℕ) (a : Allocator) (vstart vend : ℕ) : Option Allocator :=
  (pagesBetween vstart vend).foldlM (kfree kernelEnd) a

def kinit1 (kernelEnd : ℕ) (a : Allocator) (vstart vend : ℕ) : Option Allocator :=
  a.freerange kernelEnd vstart vend

def kinit2 (kernelEnd : ℕ) (a : Allocator) (vstart vend : ℕ) : Option Allocator :=
  (a.freerange kernelEnd vstart vend).map fun a ↦ { a with initflag := true }

/-! ## Owners of adjacent frames -/

end Allocator

/-- The owner of a frame that is neither free nor unknown. -/
def Owned (pid : ℤ) : Prop := pid ≠ -1 ∧ pid ≠ -2

/-- Adjacent frames with owners have the same owner. -/
def Isolated (pg2pid : ℕ → ℤ) : Prop :=
  ∀ i, i + 1 < maxFrameNum → Owned (pg2pid i) → Owned (pg2pid (i + 1)) →
    pg2pid i = pg2pid (i + 1)

namespace Isolated

variable {pg2pid : ℕ → ℤ} {pid : ℤ} {index : ℕ}

/-- A write keeps the isolation if it respects the owners of both neighbours. -/
theorem update (h : Isolated pg2pid)
    (habove : ∀ i, i + 1 = index → Owned pid → Owned (pg2pid i) → pg2pid i = pid)
    (hbelow : index + 1 < maxFrameNum → Owned pid → Owned (pg2pid (index + 1)) →
      pg2pid (index + 1) = pid) :
    Isolated (Function.update pg2pid index pid) := by
  intro i hi hown hown'
  by_cases hindex : i = index
  · subst hindex
    rw [Function.update_self, Function.update_of_ne (Nat.succ_ne_self i)] at *
    exact (hbelow hi hown hown').symm
  · by_cases hindex' : i + 1 = index
    · subst hindex'
      rw [Function.update_self, Function.update_of_ne hindex] at *
      exact habove i rfl hown' hown
    · rw [Function.update_of_ne hindex, Function.update_of_ne hindex'] at *
      exact h i hi hown hown'

theorem update_of_not_owned (h : Isolated pg2pid) (hpid : ¬Owned pid) :
    Isolated (Function.update pg2pid index pid) :=
  h.update (fun _ _ hown ↦ absurd hown hpid) (fun _ hown ↦ absurd hown hpid)

end Isolated

theorem readPid_natCast {pg2pid : ℕ → ℤ} {junk : ℤ → ℤ} {i : ℕ} (hi : i < maxFrameNum) :
    readPid pg2pid junk i = pg2pid i := by
  have hlt : (i : ℤ) < maxFrameNum := Int.ofNat_lt.mpr hi
  rw [readPid, if_pos ⟨Int.natCast_nonneg i, hlt⟩, Int.toNat_natCast]

/-- A neighbour with this owner does not stand against an allocation for `self`. -/
def Compatible (owner self : ℤ) : Prop := owner = self ∨ owner = -1 ∨ owner = -2

theorem Compatible.eq_of_owned {owner self : ℤ} (h : Compatible owner self) (hown : Owned owner) :
    owner = self := by
  rcases h with heq | hfree | hunknown
  · exact heq
  · exact absurd hfree hown.1
  · exact absurd hunknown hown.2

/-- `safe_guard` compares the frame below and, if there is one, the frame above. -/
theorem safeGuard_iff {pid : ℤ → ℤ} {index self : ℤ} :
    safeGuard pid index self = true ↔ Compatible (pid (index + 1)) self ∧
      (index ≠ 0 → Compatible (pid (index - 1)) self) := by
  unfold safeGuard Compatible
  split
  next h =>
    subst h
    have hsymm : self = pid (0 + 1) ↔ pid (0 + 1) = self := ⟨Eq.symm, Eq.symm⟩
    simp only [hsymm, ne_eq, not_true_eq_false, false_implies, and_true, ite_eq_left_iff,
      Bool.false_eq_true, imp_false, not_not]
  next h =>
    by_cases hbelow : pid (index + 1) ≠ self ∧ pid (index + 1) ≠ -1 ∧ pid (index + 1) ≠ -2
    · simp [hbelow]
    · by_cases habove : pid (index - 1) ≠ self ∧ pid (index - 1) ≠ -1 ∧ pid (index - 1) ≠ -2
      · simp [habove, h]
      · simp only [if_neg hbelow, if_neg habove, true_iff]
        exact ⟨by tauto, fun _ ↦ by tauto⟩

/-- `safe_guard` accepts a frame only if the neighbours it has are not owned by others. -/
theorem neighbours_of_safeGuard {pg2pid : ℕ → ℤ} {junk : ℤ → ℤ} {index : ℕ} {pid : ℤ}
    (hsafe : safeGuard (readPid pg2pid junk) index pid = true) (hindex : index < maxFrameNum) :
    (∀ i, i + 1 = index → Owned (pg2pid i) → pg2pid i = pid) ∧
    (index + 1 < maxFrameNum → Owned (pg2pid (index + 1)) → pg2pid (index + 1) = pid) := by
  obtain ⟨hbelow, habove⟩ := safeGuard_iff.mp hsafe
  constructor
  · rintro i rfl
    have hread : readPid pg2pid junk (((i + 1 : ℕ) : ℤ) - 1) = pg2pid i := by
      rw [Nat.cast_succ, add_sub_cancel_right]
      exact readPid_natCast (Nat.lt_of_succ_lt hindex)
    rw [← hread]
    exact (habove (by omega)).eq_of_owned
  · intro hlt
    have hread : readPid pg2pid junk ((index : ℤ) + 1) = pg2pid (index + 1) := by
      rw [← Nat.cast_succ]
      exact readPid_natCast hlt
    rw [← hread]
    exact hbelow.eq_of_owned

/-! ## What the calls do -/

namespace Allocator

variable {kernelEnd : ℕ} {a a' : Allocator} {l : List ℕ}

/-- A page that `kfree` accepts. -/
theorem frame_of_kfree {v : ℕ} (hv : v < 2 ^ 32) (hs : a.kfree kernelEnd v = some a') : Frame v := by
  unfold kfree at hs
  split at hs
  · simp at hs
  next hpanic =>
    push Not at hpanic
    exact ⟨hpanic.1, hv, hpanic.2.2⟩

/-- The table of owners after a page was given to `pid`. -/
def ownersAfter (pg2pid : ℕ → ℤ) (va : ℕ) (pid : ℤ) : ℕ → ℤ :=
  if tracked va then Function.update pg2pid (va2idx va) pid else pg2pid

theorem kfree_eq_bind (kernelEnd : ℕ) (a : Allocator) (v : ℕ) :
    a.kfree kernelEnd v = (a.kfreeMark kernelEnd v).bind fun a ↦ a.kfreeInsert v := by
  unfold kfree kfreeMark
  split
  · rw [Option.bind_none]
  · cases tracked v with
    | true => rfl
    | false => rfl

/-- Marking a page that is not free leaves the free list. -/
theorem kfreeMark_spec (h : FreeList a.kmem l) {v : ℕ} (hv : v ∉ l) (hframe : Frame v)
    (hend : kernelEnd ≤ v) :
    ∃ a', a.kfreeMark kernelEnd v = some a' ∧ FreeList a'.kmem l ∧
      a'.pg2pid = ownersAfter a.pg2pid v (-1) := by
  have hfilled : FreeList { a.kmem with next := Function.update a.kmem.next v (some 0x01010101) } l :=
    ⟨h.linked.update_of_notMem hv _, h.descending, h.frames⟩
  have hok : ¬(v % pgSize ≠ 0 ∨ v < kernelEnd ∨ v2p v ≥ physTop) := by
    push Not
    exact ⟨hframe.aligned, hend, hframe.lt_physTop⟩
  rw [kfreeMark, if_neg hok]
  cases htracked : tracked v with
  | false => exact ⟨_, rfl, hfilled, by simp [ownersAfter, htracked]⟩
  | true =>
    have hindex : va2idx v < maxFrameNum := hframe.tracked_iff.mp htracked
    simp only [if_true, setOwner, if_pos hindex, Option.map_some, ownersAfter, htracked]
    split
    · exact ⟨_, rfl, hfilled, rfl⟩
    · exact ⟨_, rfl, hfilled, rfl⟩

theorem kfreeInsert_spec (h : FreeList a.kmem l) {v : ℕ} (hv : v ∉ l) (hframe : Frame v) :
    ∃ a' l', a.kfreeInsert v = some a' ∧ FreeList a'.kmem l' ∧ l'.Perm (v :: l) ∧
      a'.pg2pid = a.pg2pid := by
  obtain ⟨kmem, l', hinsert, hfree, hperm⟩ := h.insertFreelist hv hframe
  exact ⟨{ a with kmem := kmem }, l', by rw [kfreeInsert, hinsert, Option.map_some], hfree, hperm,
    rfl⟩

/-- `kfree` of a page that is not free puts it on the free list and marks its frame as free. -/
theorem kfree_spec (h : FreeList a.kmem l) {v : ℕ} (hv : v ∉ l) (hframe : Frame v)
    (hend : kernelEnd ≤ v) :
    ∃ a' l', a.kfree kernelEnd v = some a' ∧ FreeList a'.kmem l' ∧ l'.Perm (v :: l) ∧
      a'.pg2pid = ownersAfter a.pg2pid v (-1) := by
  obtain ⟨a₁, hmark, hfree₁, howners₁⟩ := kfreeMark_spec h hv hframe hend
  obtain ⟨a₂, l₂, hinsert, hfree₂, hperm, howners₂⟩ := kfreeInsert_spec hfree₁ hv hframe
  refine ⟨a₂, l₂, ?_, hfree₂, hperm, howners₂.trans howners₁⟩
  rw [kfree_eq_bind, hmark, Option.bind_some, hinsert]

theorem le_of_kfree {v : ℕ} (hs : a.kfree kernelEnd v = some a') : kernelEnd ≤ v := by
  unfold kfree at hs
  split at hs
  · simp at hs
  next hpanic =>
    push Not at hpanic
    exact hpanic.2.1

/-- The table of owners after the pages were freed one after another. -/
def ownersFreed (pg2pid : ℕ → ℤ) (pages : List ℕ) : ℕ → ℤ :=
  pages.foldl (fun owners v ↦ ownersAfter owners v (-1)) pg2pid

theorem ownersFreed_nil (pg2pid : ℕ → ℤ) : ownersFreed pg2pid [] = pg2pid := rfl

theorem ownersFreed_cons (pg2pid : ℕ → ℤ) (v : ℕ) (pages : List ℕ) :
    ownersFreed pg2pid (v :: pages) = ownersFreed (ownersAfter pg2pid v (-1)) pages := by
  simp only [ownersFreed, List.foldl_cons]

/-- Freeing new pages one after another puts all of them on the free list. -/
theorem foldlM_kfree_spec {pages : List ℕ} (h : FreeList a.kmem l)
    (hpages : ∀ v ∈ pages, Frame v ∧ kernelEnd ≤ v) (hnodup : pages.Nodup)
    (hnew : ∀ v ∈ pages, v ∉ l) :
    ∃ a' l', pages.foldlM (kfree kernelEnd) a = some a' ∧ FreeList a'.kmem l' ∧
      (∀ v, v ∈ l' ↔ v ∈ pages ∨ v ∈ l) ∧ a'.pg2pid = ownersFreed a.pg2pid pages := by
  induction pages generalizing a l with
  | nil => exact ⟨a, l, rfl, h, by simp, rfl⟩
  | cons v pages ih =>
    obtain ⟨hv, hnodup⟩ := List.nodup_cons.mp hnodup
    obtain ⟨hframe, hend⟩ := hpages v List.mem_cons_self
    obtain ⟨a₁, l₁, hfree, h₁, hperm, howners⟩ :=
      kfree_spec h (hnew v List.mem_cons_self) hframe hend
    have hmem (u : ℕ) : u ∈ l₁ ↔ u = v ∨ u ∈ l := by
      rw [hperm.mem_iff, List.mem_cons]
    have hrest : ∀ u ∈ pages, u ∉ l₁ := by
      intro u hu hl
      rcases (hmem u).mp hl with rfl | hl
      · exact hv hu
      · exact hnew u (List.mem_cons_of_mem v hu) hl
    obtain ⟨a', l', hfold, h', hmem', howners'⟩ :=
      ih h₁ (fun u hu ↦ hpages u (List.mem_cons_of_mem v hu)) hnodup hrest
    refine ⟨a', l', by simp [List.foldlM_cons, hfree, hfold], h', fun u ↦ ?_, ?_⟩
    · rw [hmem', hmem, List.mem_cons]
      tauto
    · rw [howners', howners, ownersFreed_cons]

/-- The pages of a range that was freed without a panic. -/
theorem frames_of_foldlM_kfree {pages : List ℕ} (hlt : ∀ v ∈ pages, v < 2 ^ 32)
    (hs : pages.foldlM (kfree kernelEnd) a = some a') : ∀ v ∈ pages, Frame v ∧ kernelEnd ≤ v := by
  induction pages generalizing a with
  | nil => simp
  | cons v pages ih =>
    rw [List.foldlM_cons] at hs
    obtain ⟨a₁, hfree, hrest⟩ := Option.bind_eq_some_iff.mp hs
    intro u hu
    rcases List.mem_cons.mp hu with rfl | hu
    · exact ⟨frame_of_kfree (hlt u List.mem_cons_self) hfree, le_of_kfree hfree⟩
    · exact ih (fun w hw ↦ hlt w (List.mem_cons_of_mem v hw)) hrest u hu

/-- A free page that `kalloc(pid)` may take. -/
def suits (a : Allocator) (junk : ℕ → ℤ → ℤ) (pid : ℤ) (r : ℕ) : Bool :=
  decide (pid = -2) || a.safe junk pid r

/-- A page suits if its neighbours are inside the table and compatible. -/
theorem suits_of_neighbours {junk : ℕ → ℤ → ℤ} {pid : ℤ} {r : ℕ}
    (hindex : va2idx r + 1 < maxFrameNum) (hbelow : Compatible (a.pg2pid (va2idx r + 1)) pid)
    (habove : ∀ i, i + 1 = va2idx r → Compatible (a.pg2pid i) pid) :
    a.suits junk pid r = true := by
  have hsafe : a.safe junk pid r = true := by
    refine safeGuard_iff.mpr ⟨?_, fun hne ↦ ?_⟩
    · rw [← Nat.cast_succ, readPid_natCast hindex]
      exact hbelow
    · obtain ⟨i, hi⟩ : ∃ i, va2idx r = i + 1 :=
        Nat.exists_eq_succ_of_ne_zero (Nat.cast_ne_zero.mp hne)
      rw [hi, Nat.cast_succ, add_sub_cancel_right, readPid_natCast (by omega)]
      exact habove i hi.symm
  rw [suits, hsafe, Bool.or_true]

/-- The page that `kalloc` takes from the free list: the first one that suits. -/
theorem takePage_spec (h : FreeList a.kmem l) (junk : ℕ → ℤ → ℤ) (pid : ℤ) :
    (a.takePage junk pid = none ∧ ∀ r ∈ l, a.suits junk pid r = false) ∨
    ∃ s r t, a.takePage junk pid = some (r, a.kmem.unlink (s.getLast?, r)) ∧ l = s ++ r :: t ∧
      a.suits junk pid r = true ∧ ∀ z ∈ s, a.suits junk pid z = false := by
  by_cases hpid : pid = -2
  · cases l with
    | nil =>
      have hnone : a.kmem.freelist = none := h.linked
      exact .inl ⟨by simp [takePage, hpid, hnone], by simp⟩
    | cons r t =>
      have hsome : a.kmem.freelist = some r := h.linked.1
      exact .inr ⟨[], r, t, by simp [takePage, hpid, hsome, Kmem.unlink], rfl,
        by simp [suits, hpid], by simp⟩
  · have hsuits : a.suits junk pid = a.safe junk pid := by
      funext r
      simp [suits, hpid]
    have hlength := h.length_le
    have hfuel : l.length < numFrames + 1 := by omega
    rw [hsuits]
    rcases FreeList.findSafe_eq (a.safe junk pid) none h.linked hfuel with
      ⟨hnone, hall⟩ | ⟨s, r, t, hsome, hsplit, hr, hs⟩
    · exact .inl ⟨by simp [takePage, hpid, selectPage, hnone], hall⟩
    · exact .inr ⟨s, r, t, by simp [takePage, hpid, selectPage, hsome], hsplit, hr, hs⟩

/-- `kalloc` takes the first free page that suits, and records its owner if it is tracked. -/
theorem kalloc_spec (h : FreeList a.kmem l) (junk : ℕ → ℤ → ℤ) (pid : ℤ) :
    (a.kalloc junk pid = none ∧ ∀ r ∈ l, a.suits junk pid r = false) ∨
    ∃ s r t a', a.kalloc junk pid = some (r, a') ∧ l = s ++ r :: t ∧
      a.suits junk pid r = true ∧ (∀ z ∈ s, a.suits junk pid z = false) ∧
      FreeList a'.kmem (s ++ t) ∧ a'.pg2pid = ownersAfter a.pg2pid r pid := by
  rcases takePage_spec h junk pid with ⟨hnone, hall⟩ | ⟨s, r, t, htake, rfl, hr, hs⟩
  · exact .inl ⟨by rw [kalloc, hnone, Option.bind_none], hall⟩
  · refine .inr ⟨s, r, t, ?_⟩
    cases htracked : tracked r with
    | false =>
      refine ⟨{ a with kmem := a.kmem.unlink (s.getLast?, r) }, ?_, rfl, hr, hs, h.unlink, ?_⟩
      · rw [kalloc, htake, Option.bind_some, recordOwner, htracked]
        rfl
      · rw [ownersAfter, htracked]
        rfl
    | true =>
      have hindex : va2idx r < maxFrameNum := (h.frames r (by simp)).tracked_iff.mp htracked
      refine ⟨{ a with
          kmem := a.kmem.unlink (s.getLast?, r)
          pg2pid := Function.update a.pg2pid (va2idx r) pid
          allocatedCount := a.allocatedCount + 1 }, ?_, rfl, hr, hs, h.unlink, ?_⟩
      · rw [kalloc, htake, Option.bind_some]
        simp only [recordOwner, htracked, setOwner, hindex, if_true, Option.map_some]
      · rw [ownersAfter, htracked]
        rfl

end Allocator

end CS537.Kalloc
