import CS537.Kalloc.SafeRuns

/-!
# The allocator with guard frames

The first allocator protects a tracked page by a frame that nobody gets: `kalloc` takes the head of
the free list and drops the entry after it, and `kfree` puts the page back together with the frame
below it.  The list is kept descending.  Neither call tests that the two entries are adjacent
frames; that they are follows from the tracked pages of the list coming in pairs.
-/

namespace CS537.Kalloc

open Foundation

namespace Guard

def kfree (kernelEnd : ℕ) (a : Allocator) (v : ℕ) : Option Allocator :=
  if v % pgSize ≠ 0 ∨ v < kernelEnd ∨ v2p v ≥ physTop then none
  else do
    let filled := { a.kmem with next := Function.update a.kmem.next v (some 0x01010101) }
    let a := { a with kmem := filled }
    let a ←
      if tracked v then do
        let a ← a.setOwner (va2idx v) (-1)
        if a.initflag then
          let a := { a with allocatedCount := a.allocatedCount - 1 }
          let rNext := uintSub v pgSize
          (a.kmem.insertFreelist rNext).map fun kmem ↦ { a with kmem := kmem }
        else some a
      else some a
    (a.kmem.insertFreelist v).map fun kmem ↦ { a with kmem := kmem }

/-- `kalloc`, which follows the head of the list without a test for null; its argument is not
used. -/
def kalloc (a : Allocator) (_pid : ℤ) : Option (ℕ × Allocator) :=
  a.kmem.freelist.bind fun r ↦
    let a := { a with kmem := { a.kmem with freelist := a.kmem.next r } }
    if tracked r then
      (a.setOwner (va2idx r) (-2)).bind fun a ↦
        let a := { a with allocatedCount := a.allocatedCount + 1 }
        a.kmem.freelist.map fun dropped ↦
          (r, { a with kmem := { a.kmem with freelist := a.kmem.next dropped } })
    else some (r, a)

def freerange (kernelEnd : ℕ) (a : Allocator) (vstart vend : ℕ) : Option Allocator :=
  (pagesBetween vstart vend).foldlM (kfree kernelEnd) a

def kinit1 (kernelEnd : ℕ) (a : Allocator) (vstart vend : ℕ) : Option Allocator :=
  freerange kernelEnd a vstart vend

def kinit2 (kernelEnd : ℕ) (a : Allocator) (vstart vend : ℕ) : Option Allocator :=
  (freerange kernelEnd a vstart vend).map fun a ↦ { a with initflag := true }

end Guard

/-- The calls of a run, with the stores of the owners of pages. -/
inductive GuardCall where
  | kinit1
  | kinit2
  | kalloc (pid : ℤ)
  | kfree (v : ℕ)
  | store (v : ℕ) (link : Option ℕ)

namespace Guard

/-- One completed call. -/
def step (kernelEnd : ℕ) (s : AllocRun) : GuardCall → Option AllocRun
  | .kinit1 =>
    if s.phase = .off then
      (kinit1 kernelEnd s.allocator kernelEnd entryEnd).map fun a ↦
        { s with allocator := a, phase := .kinit1 }
    else none
  | .kinit2 =>
    if s.phase = .kinit1 then
      (kinit2 kernelEnd s.allocator entryEnd (p2v physTop)).map fun a ↦
        { s with allocator := a, phase := .kinit2 }
    else none
  | .kalloc pid =>
    (kalloc s.allocator pid).map fun taken ↦
      { s with allocator := taken.2, allocated := insert taken.1 s.allocated }
  | .kfree v =>
    if v ∈ s.allocated then
      (kfree kernelEnd s.allocator v).map fun a ↦
        { s with allocator := a, allocated := s.allocated.erase v }
    else none
  | .store v link =>
    if v ∈ s.allocated then
      let kmem :=
        { s.allocator.kmem with next := Function.update s.allocator.kmem.next v link }
      some { s with allocator := { s.allocator with kmem := kmem } }
    else none

def machine (kernelEnd : ℕ) : Machine AllocRun GuardCall where
  init := AllocRun.Entry
  step := step kernelEnd

/-! ## What the calls do -/

variable {kernelEnd : ℕ} {a a' : Allocator} {l t : List ℕ} {v r : ℕ}

/-- Without the second page `kfree` is that of the isolating allocator. -/
theorem kfree_eq (h : tracked v = false ∨ a.initflag = false) :
    kfree kernelEnd a v = a.kfree kernelEnd v := by
  by_cases hpanic : v % pgSize ≠ 0 ∨ v < kernelEnd ∨ v2p v ≥ physTop
  · rw [kfree, Allocator.kfree, if_pos hpanic, if_pos hpanic]
  · rw [kfree, Allocator.kfree, if_neg hpanic, if_neg hpanic]
    cases htracked : tracked v with
    | false => simp
    | true =>
      have hinit : a.initflag = false := h.resolve_left (by simp [htracked])
      by_cases hindex : va2idx v < maxFrameNum
      · simp [Allocator.setOwner, hindex, hinit]
      · simp [Allocator.setOwner, hindex]

theorem initflag_of_kfree (h : a.kfree kernelEnd v = some a') : a'.initflag = a.initflag := by
  unfold Allocator.kfree at h
  split at h
  · simp at h
  · cases htracked : tracked v with
    | false =>
      simp only [htracked, Bool.false_eq_true, if_false, Option.bind_eq_bind, Option.bind_some] at h
      obtain ⟨kmem, -, rfl⟩ := Option.map_eq_some_iff.mp h
      rfl
    | true =>
      simp only [htracked, if_true, Option.bind_eq_bind] at h
      obtain ⟨a₁, ha₁, h⟩ := Option.bind_eq_some_iff.mp h
      obtain ⟨a₂, ha₂, rfl⟩ := Option.map_eq_some_iff.mp ha₁
      obtain ⟨kmem, -, rfl⟩ := Option.map_eq_some_iff.mp h
      unfold Allocator.setOwner at ha₂
      split at ha₂
      · obtain rfl := Option.some.inj ha₂
        dsimp only
        split <;> rfl
      · simp at ha₂

theorem foldlM_kfree_eq {pages : List ℕ} (hinit : a.initflag = false) :
    pages.foldlM (kfree kernelEnd) a = pages.foldlM (Allocator.kfree kernelEnd) a := by
  induction pages generalizing a with
  | nil => rw [List.foldlM_nil, List.foldlM_nil]
  | cons v pages ih =>
    rw [List.foldlM_cons, List.foldlM_cons, kfree_eq (.inr hinit)]
    apply Option.bind_congr
    intro a' ha'
    exact ih ((initflag_of_kfree ha').trans hinit)

theorem initflag_of_foldlM_kfree {pages : List ℕ}
    (h : pages.foldlM (Allocator.kfree kernelEnd) a = some a') : a'.initflag = a.initflag := by
  induction pages generalizing a with
  | nil =>
    rw [List.foldlM_nil] at h
    rw [Option.some.inj h]
  | cons v pages ih =>
    rw [List.foldlM_cons] at h
    obtain ⟨a₁, hfree, hrest⟩ := Option.bind_eq_some_iff.mp h
    exact (ih hrest).trans (initflag_of_kfree hfree)

/-- `kfree` puts a page of which neither half of the pair is free back with its guard frame. -/
theorem kfree_pair (h : FreeList a.kmem l) (hinit : a.initflag = true) (htracked : tracked v = true)
    (hframe : Frame v) (hend : kernelEnd ≤ v) (hv : v ∉ l) (hguard : Frame (uintSub v pgSize))
    (hne : v ≠ uintSub v pgSize) (hg : uintSub v pgSize ∉ l) :
    ∃ a' l', kfree kernelEnd a v = some a' ∧ FreeList a'.kmem l' ∧
      l'.Perm (v :: uintSub v pgSize :: l) ∧ a'.initflag = true := by
  have hfilled : FreeList { a.kmem with next := Function.update a.kmem.next v (some 0x01010101) } l :=
    ⟨h.linked.update_of_notMem hv _, h.descending, h.frames⟩
  obtain ⟨kmem₁, l₁, hinsert₁, hfree₁, hperm₁⟩ := hfilled.insertFreelist hg hguard
  have hv₁ : v ∉ l₁ := by
    rw [hperm₁.mem_iff, List.mem_cons]
    exact not_or.mpr ⟨hne, hv⟩
  obtain ⟨kmem₂, l₂, hinsert₂, hfree₂, hperm₂⟩ := hfree₁.insertFreelist hv₁ hframe
  have hok : ¬(v % pgSize ≠ 0 ∨ v < kernelEnd ∨ v2p v ≥ physTop) := by
    push Not
    exact ⟨hframe.aligned, hend, hframe.lt_physTop⟩
  have hindex : va2idx v < maxFrameNum := hframe.tracked_iff.mp htracked
  refine ⟨{ a with
      kmem := kmem₂
      pg2pid := Function.update a.pg2pid (va2idx v) (-1)
      allocatedCount := a.allocatedCount - 1 },
    l₂, ?_, hfree₂, hperm₂.trans (hperm₁.cons v), hinit⟩
  simp [kfree, if_neg hok, htracked, Allocator.setOwner, hindex, hinit, hinsert₁, hinsert₂]

/-- `kalloc` of a page that is not tracked takes the head of the list. -/
theorem kalloc_untracked (h : FreeList a.kmem (r :: t)) (htracked : tracked r = false) (pid : ℤ) :
    ∃ a', kalloc a pid = some (r, a') ∧ FreeList a'.kmem t ∧ a'.initflag = a.initflag := by
  have hhead : a.kmem.freelist = some r := h.linked.1
  have htail : FreeList { a.kmem with freelist := a.kmem.next r } t :=
    h.unlink (s := [])
  refine ⟨{ a with kmem := { a.kmem with freelist := a.kmem.next r } }, ?_, htail, rfl⟩
  rw [kalloc, hhead, Option.bind_some]
  exact if_neg (by rw [htracked]; exact Bool.false_ne_true)

/-- `kalloc` of a tracked page takes the head of the list and drops the next entry. -/
theorem kalloc_tracked {dropped : ℕ} (h : FreeList a.kmem (r :: dropped :: t))
    (htracked : tracked r = true) (pid : ℤ) :
    ∃ a', kalloc a pid = some (r, a') ∧ FreeList a'.kmem t ∧ a'.initflag = a.initflag := by
  have hhead : a.kmem.freelist = some r := h.linked.1
  have hindex : va2idx r < maxFrameNum := (h.frames r (by simp)).tracked_iff.mp htracked
  have hafter : FreeList { a.kmem with freelist := a.kmem.next r } (dropped :: t) :=
    h.unlink (s := [])
  have hnext : a.kmem.next r = some dropped := hafter.linked.1
  have htail : FreeList { a.kmem with freelist := a.kmem.next dropped } t :=
    hafter.unlink (s := [])
  refine ⟨{ a with
      kmem := { a.kmem with freelist := a.kmem.next dropped }
      pg2pid := Function.update a.pg2pid (va2idx r) (-2)
      allocatedCount := a.allocatedCount + 1 }, ?_, htail, rfl⟩
  rw [kalloc, hhead, Option.bind_some]
  simp only [htracked, if_true, Allocator.setOwner, hindex, Option.bind_some, hnext,
    Option.map_some]

/-! ## Pairs of frames -/

end Guard

open AllocRun

theorem pageAt_succ (i : ℕ) : pageAt (i + 1) = pageAt i - pgSize := by
  simp only [pageAt, pgSize]
  omega

theorem pageAt_lt {i j : ℕ} (hij : i < j) (hj : j < maxFrameNum) : pageAt j < pageAt i := by
  simp only [pageAt, pgSize, maxFrameNum] at *
  omega

theorem pageAt_inj {i j : ℕ} (hi : i < maxFrameNum) (hj : j < maxFrameNum)
    (h : pageAt i = pageAt j) : i = j := by
  rw [← va2idx_pageAt hi, h, va2idx_pageAt hj]

theorem Frame.eq_pageAt {v : ℕ} (hframe : Frame v) (htracked : tracked v = true) :
    v = pageAt (va2idx v) := by
  have hindex := hframe.tracked_iff.mp htracked
  exact hframe.va2idx_inj (frame_pageAt hindex) (va2idx_pageAt hindex).symm

theorem uintSub_pageAt {i : ℕ} (hi : i < maxFrameNum) :
    uintSub (pageAt i) pgSize = pageAt (i + 1) := by
  simp only [uintSub, pageAt, pgSize, maxFrameNum] at *
  omega

/-- Both frames of a pair are free. -/
structure FreePair (l : List ℕ) (k : ℕ) : Prop where
  page : pageAt (2 * k) ∈ l
  guard : pageAt (2 * k + 1) ∈ l

/-- The upper frame of a pair is allocated, the lower one nobody has. -/
structure GuardedPair (l : List ℕ) (allocated : Finset ℕ) (k : ℕ) : Prop where
  page : pageAt (2 * k) ∈ allocated
  guard_not_free : pageAt (2 * k + 1) ∉ l
  guard_not_allocated : pageAt (2 * k + 1) ∉ allocated

def Paired (l : List ℕ) (allocated : Finset ℕ) (k : ℕ) : Prop :=
  FreePair l k ∨ GuardedPair l allocated k

theorem Paired.congr {l l' : List ℕ} {allocated allocated' : Finset ℕ} {k : ℕ}
    (h : Paired l allocated k)
    (hl : ∀ i, i / 2 = k → (pageAt i ∈ l' ↔ pageAt i ∈ l))
    (hallocated : ∀ i, i / 2 = k → (pageAt i ∈ allocated' ↔ pageAt i ∈ allocated)) :
    Paired l' allocated' k := by
  have hpage : 2 * k / 2 = k := by omega
  have hguard : (2 * k + 1) / 2 = k := by omega
  rcases h with hfree | hguarded
  · exact .inl ⟨(hl _ hpage).mpr hfree.page, (hl _ hguard).mpr hfree.guard⟩
  · exact .inr ⟨(hallocated _ hpage).mpr hguarded.page,
      fun hmem ↦ hguarded.guard_not_free ((hl _ hguard).mp hmem),
      fun hmem ↦ hguarded.guard_not_allocated ((hallocated _ hguard).mp hmem)⟩

/-- The invariant of the runs, for the list of free pages. -/
structure GuardInv (kernelEnd : ℕ) (s : AllocRun) (l : List ℕ) : Prop where
  free : FreeList s.allocator.kmem l
  disjoint : ∀ v ∈ l, v ∉ s.allocated
  given : ∀ v, v ∈ l ∨ v ∈ s.allocated → Given kernelEnd s.phase v
  frames : ∀ v, Given kernelEnd s.phase v → Frame v ∧ kernelEnd ≤ v
  paired : s.phase = .kinit2 → ∀ k, 2 * k + 1 < maxFrameNum → Paired l s.allocated k
  initflag : s.allocator.initflag = decide (s.phase = .kinit2)

namespace GuardInv

variable {kernelEnd : ℕ} {s s' : AllocRun} {l t : List ℕ} {v r : ℕ}

theorem entry (h : s.Entry) : GuardInv kernelEnd s [] where
  free := ⟨h.freelist, List.Pairwise.nil, by simp⟩
  disjoint := by simp
  given v := by simp [h.allocated]
  frames v hv := by simp [h.phase, Given] at hv
  paired hphase := by simp [h.phase] at hphase
  initflag := by simp [h.initflag, h.phase]

/-- Freeing new pages, as `kinit1` and `kinit2` do. -/
theorem addPages (h : GuardInv kernelEnd s l) {pages : List ℕ} {a : Allocator}
    (hs : pages.foldlM (Guard.kfree kernelEnd) s.allocator = some a) (hphase : s.phase ≠ .kinit2)
    (hlt : ∀ v ∈ pages, v < 2 ^ 32) (hnodup : pages.Nodup)
    (hnew : ∀ v ∈ pages, ¬Given kernelEnd s.phase v) :
    a.initflag = false ∧ (∀ v ∈ pages, Frame v ∧ kernelEnd ≤ v) ∧
      ∃ l', FreeList a.kmem l' ∧ ∀ v, v ∈ l' ↔ v ∈ pages ∨ v ∈ l := by
  have hinit : s.allocator.initflag = false := by rw [h.initflag, decide_eq_false hphase]
  rw [Guard.foldlM_kfree_eq hinit] at hs
  have hpages := Allocator.frames_of_foldlM_kfree hlt hs
  have hdisjoint : ∀ v ∈ pages, v ∉ l := fun v hv hl ↦ hnew v hv (h.given v (.inl hl))
  obtain ⟨a', l', hfold, hfree, hmem, -⟩ :=
    Allocator.foldlM_kfree_spec h.free hpages hnodup hdisjoint
  obtain rfl := Option.some.inj (hs.symm.trans hfold)
  exact ⟨(Guard.initflag_of_foldlM_kfree hs).trans hinit, hpages, l', hfree, hmem⟩

theorem kinit1 (h : GuardInv kernelEnd s l) (hphase : s.phase = .off) {a : Allocator}
    (hs : Guard.kinit1 kernelEnd s.allocator kernelEnd entryEnd = some a) :
    ∃ l', GuardInv kernelEnd { s with allocator := a, phase := .kinit1 } l' := by
  have hnew (v : ℕ) : ¬Given kernelEnd s.phase v := by simp [hphase, Given]
  obtain ⟨hinit, hpages, l', hfree, hmem⟩ := h.addPages hs (by simp [hphase])
    (fun v ↦ lt_uint_of_mem_pagesBetween (by decide)) (nodup_pagesBetween _ _) fun v _ ↦ hnew v
  refine ⟨l', hfree, fun v hv hallocated ↦ hnew v (h.given v (.inr hallocated)), fun v hv ↦ ?_,
    hpages, (by simp), hinit⟩
  rcases hv with hv | hv
  · exact ((hmem v).mp hv).resolve_right fun hl ↦ hnew v (h.given v (.inl hl))
  · exact absurd (h.given v (.inr hv)) (hnew v)

theorem kinit2 (h : GuardInv kernelEnd s l) (hphase : s.phase = .kinit1) {a : Allocator}
    (hs : Guard.kinit2 kernelEnd s.allocator entryEnd (p2v physTop) = some a) :
    ∃ l', GuardInv kernelEnd { s with allocator := a, phase := .kinit2 } l' := by
  obtain ⟨a, hfold, rfl⟩ := Option.map_eq_some_iff.mp hs
  have hnew : ∀ v ∈ pagesBetween entryEnd (p2v physTop), ¬Given kernelEnd s.phase v := by
    rw [hphase]
    exact fun v ↦ not_given_of_mem_pagesBetween
  obtain ⟨-, hpages, l', hfree, hmem⟩ := h.addPages hfold (by simp [hphase])
    (fun v ↦ lt_uint_of_mem_pagesBetween (by decide)) (nodup_pagesBetween _ _) hnew
  have hgiven (v : ℕ) : v ∈ pagesBetween entryEnd (p2v physTop) ∨ v ∈ l ∨ v ∈ s.allocated →
      Given kernelEnd .kinit2 v := by
    rintro (hv | hv)
    · exact .inr hv
    · have hold := h.given v hv
      rw [hphase] at hold
      exact .inl hold
  have hpage {i : ℕ} (hi : i < maxFrameNum) : pageAt i ∈ l' :=
    (hmem _).mpr (.inl (pageAt_mem_pagesBetween hi))
  refine ⟨l', hfree, fun v hv hallocated ↦ ?_, fun v hv ↦ ?_, fun v hv ↦ ?_,
    fun _ k hk ↦ .inl ⟨hpage (by omega), hpage hk⟩, rfl⟩
  · rcases (hmem v).mp hv with hv | hv
    · exact hnew v hv (h.given v (.inr hallocated))
    · exact h.disjoint v hv hallocated
  · rw [hmem, or_assoc] at hv
    exact hgiven v hv
  · rcases hv with hv | hv
    · apply h.frames v
      rw [hphase]
      exact hv
    · exact hpages v hv

/-- Tracked pages are given by `kinit2` only. -/
theorem phase_of_tracked (h : GuardInv kernelEnd s l) (hv : v ∈ l ∨ v ∈ s.allocated)
    (htracked : tracked v = true) : s.phase = .kinit2 := by
  have hgiven := h.given v hv
  have hframe := (h.frames v hgiven).1
  have hpage := hframe.eq_pageAt htracked
  have hindex := hframe.tracked_iff.mp htracked
  cases hphase : s.phase with
  | off =>
    rw [hphase] at hgiven
    exact hgiven.elim
  | kinit1 =>
    rw [hphase] at hgiven
    have hle := (mem_pagesBetween.mp hgiven).2.2
    have hend : entryEnd = 0x80400000 := by decide
    simp only [pageAt, pgSize, maxFrameNum] at *
    omega
  | kinit2 => rfl

/-- A page that is not tracked is not in a pair. -/
theorem pageAt_ne (htracked : tracked v = false) {i : ℕ} (hi : i < maxFrameNum) : pageAt i ≠ v := by
  rintro rfl
  rw [tracked_pageAt hi] at htracked
  exact Bool.noConfusion htracked

theorem freePair_of_mem (h : GuardInv kernelEnd s l) {i : ℕ} (hi : i < maxFrameNum)
    (hmem : pageAt i ∈ l) : FreePair l (i / 2) := by
  have hphase := h.phase_of_tracked (.inl hmem) (tracked_pageAt hi)
  have hpair : 2 * (i / 2) + 1 < maxFrameNum := by
    simp only [maxFrameNum] at hi ⊢
    omega
  rcases h.paired hphase _ hpair with hfree | hguarded
  · exact hfree
  · have hparity : i = 2 * (i / 2) ∨ i = 2 * (i / 2) + 1 := by omega
    rcases hparity with heq | heq
    · rw [heq] at hmem
      exact absurd hguarded.page (h.disjoint _ hmem)
    · rw [heq] at hmem
      exact absurd hmem hguarded.guard_not_free

theorem guardedPair_of_mem (h : GuardInv kernelEnd s l) {i : ℕ} (hi : i < maxFrameNum)
    (hmem : pageAt i ∈ s.allocated) : i = 2 * (i / 2) ∧ GuardedPair l s.allocated (i / 2) := by
  have hphase := h.phase_of_tracked (.inr hmem) (tracked_pageAt hi)
  have hpair : 2 * (i / 2) + 1 < maxFrameNum := by
    simp only [maxFrameNum] at hi ⊢
    omega
  have hparity : i = 2 * (i / 2) ∨ i = 2 * (i / 2) + 1 := by omega
  rcases h.paired hphase _ hpair with hfree | hguarded
  · rcases hparity with heq | heq
    · rw [heq] at hmem
      exact absurd hmem (h.disjoint _ hfree.page)
    · rw [heq] at hmem
      exact absurd hmem (h.disjoint _ hfree.guard)
  · rcases hparity with heq | heq
    · exact ⟨heq, hguarded⟩
    · rw [heq] at hmem
      exact absurd hmem hguarded.guard_not_allocated

/-- The guard frame of the highest free page comes right after it. -/
theorem tail_eq (h : GuardInv kernelEnd s (r :: t)) (htracked : tracked r = true) :
    ∃ k t', 2 * k + 1 < maxFrameNum ∧ r = pageAt (2 * k) ∧ t = pageAt (2 * k + 1) :: t' := by
  have hframe := h.free.frames r List.mem_cons_self
  have hindex := hframe.tracked_iff.mp htracked
  obtain ⟨i, hi, rfl⟩ : ∃ i, i < maxFrameNum ∧ r = pageAt i :=
    ⟨_, hindex, hframe.eq_pageAt htracked⟩
  obtain ⟨hmax, hdesc⟩ := List.pairwise_cons.mp h.free.descending
  have hfree := h.freePair_of_mem hi List.mem_cons_self
  have hpair : 2 * (i / 2) + 1 < maxFrameNum := by
    simp only [maxFrameNum] at hi ⊢
    omega
  have heven : pageAt i = pageAt (2 * (i / 2)) := by
    rcases List.mem_cons.mp hfree.page with heq | hmem
    · exact heq.symm
    · have hlt := hmax _ hmem
      have hparity : i = 2 * (i / 2) ∨ i = 2 * (i / 2) + 1 := by omega
      rcases hparity with heq | heq
      · rw [← heq]
      · have habove := pageAt_lt (Nat.lt_succ_self (2 * (i / 2))) hpair
        rw [Nat.succ_eq_add_one, ← heq] at habove
        omega
  have hguard : pageAt (2 * (i / 2) + 1) ∈ t := by
    refine (List.mem_cons.mp hfree.guard).resolve_left fun heq ↦ ?_
    have hlt := pageAt_lt (Nat.lt_succ_self (2 * (i / 2))) hpair
    rw [Nat.succ_eq_add_one, heq, heven] at hlt
    exact lt_irrefl _ hlt
  refine ⟨i / 2, ?_⟩
  cases t with
  | nil => exact absurd hguard List.not_mem_nil
  | cons x t =>
    -- The entry after the page lies between the page and its guard frame.
    have hx : x = pageAt (2 * (i / 2) + 1) := by
      have hlt := hmax x List.mem_cons_self
      have haligned := (h.free.frames x (by simp)).aligned
      have hle : pageAt (2 * (i / 2) + 1) ≤ x := by
        rcases List.mem_cons.mp hguard with heq | hmem
        · exact Nat.le_of_eq heq
        · exact Nat.le_of_lt ((List.pairwise_cons.mp hdesc).1 _ hmem)
      rw [heven] at hlt
      simp only [pageAt, pgSize, maxFrameNum] at *
      omega
    exact ⟨t, hpair, heven, by rw [hx]⟩

/-- The pages of other pairs than `k` are others than its two. -/
theorem pageAt_ne_of_pair {i k : ℕ} (hi : i < maxFrameNum) (hk : 2 * k + 1 < maxFrameNum)
    (hne : i / 2 ≠ k) : pageAt i ≠ pageAt (2 * k) ∧ pageAt i ≠ pageAt (2 * k + 1) := by
  constructor
  · intro heq
    have hik := pageAt_inj hi (Nat.lt_of_succ_lt hk) heq
    omega
  · intro heq
    have hik := pageAt_inj hi hk heq
    omega

theorem kallocUntracked (h : GuardInv kernelEnd s (r :: t)) (htracked : tracked r = false)
    {a : Allocator} (hfree : FreeList a.kmem t) (hinit : a.initflag = s.allocator.initflag) :
    GuardInv kernelEnd { s with allocator := a, allocated := insert r s.allocated } t := by
  have hr : r ∉ t := (List.nodup_cons.mp h.free.linked.nodup).1
  refine ⟨hfree, fun v hv ↦ ?_, fun v hv ↦ h.given v ?_, h.frames, fun hphase k hk ↦ ?_,
    hinit.trans h.initflag⟩
  · rw [Finset.mem_insert, not_or]
    exact ⟨ne_of_mem_of_not_mem hv hr, h.disjoint v (List.mem_cons_of_mem r hv)⟩
  · rw [Finset.mem_insert] at hv
    rw [List.mem_cons]
    tauto
  · have hne (i : ℕ) (hi : i / 2 = k) : pageAt i ≠ r := pageAt_ne htracked (by omega)
    apply (h.paired hphase k hk).congr
    · intro i hi
      simp [hne i hi]
    · intro i hi
      simp [hne i hi]

theorem kallocTracked {k : ℕ} (hk : 2 * k + 1 < maxFrameNum)
    (h : GuardInv kernelEnd s (pageAt (2 * k) :: pageAt (2 * k + 1) :: t)) {a : Allocator}
    (hfree : FreeList a.kmem t) (hinit : a.initflag = s.allocator.initflag) :
    GuardInv kernelEnd
      { s with allocator := a, allocated := insert (pageAt (2 * k)) s.allocated } t := by
  have hnodup := h.free.linked.nodup
  obtain ⟨hpage, hnodup⟩ := List.nodup_cons.mp hnodup
  obtain ⟨hguard, -⟩ := List.nodup_cons.mp hnodup
  rw [List.mem_cons, not_or] at hpage
  refine ⟨hfree, fun v hv ↦ ?_, fun v hv ↦ h.given v ?_, h.frames, fun hphase j hj ↦ ?_,
    hinit.trans h.initflag⟩
  · rw [Finset.mem_insert, not_or]
    exact ⟨ne_of_mem_of_not_mem hv hpage.2, h.disjoint v (by simp [hv])⟩
  · rw [Finset.mem_insert] at hv
    rw [List.mem_cons, List.mem_cons, or_assoc, or_assoc]
    rcases hv with hv | rfl | hv
    · exact .inr (.inr (.inl hv))
    · exact .inl rfl
    · exact .inr (.inr (.inr hv))
  · by_cases hjk : j = k
    · subst hjk
      refine .inr ⟨Finset.mem_insert_self _ _, hguard, ?_⟩
      rw [Finset.mem_insert, not_or]
      exact ⟨Ne.symm hpage.1, h.disjoint _ (by simp)⟩
    · have hne (i : ℕ) (hi : i / 2 = j) : pageAt i ≠ pageAt (2 * k) ∧
          pageAt i ≠ pageAt (2 * k + 1) := pageAt_ne_of_pair (by omega) hk (by omega)
      apply (h.paired hphase j hj).congr
      · intro i hi
        simp [hne i hi]
      · intro i hi
        simp [hne i hi]

theorem kalloc (h : GuardInv kernelEnd s l) (hl : l ≠ []) (pid : ℤ) :
    ∃ r a l', Guard.kalloc s.allocator pid = some (r, a) ∧ l.head? = some r ∧
      GuardInv kernelEnd { s with allocator := a, allocated := insert r s.allocated } l' := by
  cases l with
  | nil => exact absurd rfl hl
  | cons r t =>
    cases htracked : tracked r with
    | false =>
      obtain ⟨a, hkalloc, hfree, hinit⟩ := Guard.kalloc_untracked h.free htracked pid
      exact ⟨r, a, t, hkalloc, rfl, h.kallocUntracked htracked hfree hinit⟩
    | true =>
      obtain ⟨k, t, hk, rfl, rfl⟩ := h.tail_eq htracked
      obtain ⟨a, hkalloc, hfree, hinit⟩ := Guard.kalloc_tracked h.free htracked pid
      exact ⟨_, a, t, hkalloc, rfl, kallocTracked hk h hfree hinit⟩

theorem kfreeUntracked (h : GuardInv kernelEnd s l) (hv : v ∈ s.allocated)
    (htracked : tracked v = false) :
    ∃ a l', Guard.kfree kernelEnd s.allocator v = some a ∧
      GuardInv kernelEnd { s with allocator := a, allocated := s.allocated.erase v } l' := by
  have hl : v ∉ l := fun hl ↦ h.disjoint v hl hv
  obtain ⟨hframe, hend⟩ := h.frames v (h.given v (.inr hv))
  obtain ⟨a, l', hkfree, hfree, hperm, -⟩ := Allocator.kfree_spec h.free hl hframe hend
  have hinit := Guard.initflag_of_kfree hkfree
  rw [← Guard.kfree_eq (.inl htracked)] at hkfree
  have hmem (u : ℕ) : u ∈ l' ↔ u = v ∨ u ∈ l := by rw [hperm.mem_iff, List.mem_cons]
  refine ⟨a, l', hkfree, hfree, fun u hu ↦ ?_, fun u hu ↦ h.given u ?_, h.frames,
    fun hphase k hk ↦ ?_, hinit.trans h.initflag⟩
  · rw [Finset.mem_erase]
    rintro ⟨hne, hallocated⟩
    exact h.disjoint u (((hmem u).mp hu).resolve_left hne) hallocated
  · rw [hmem, Finset.mem_erase] at hu
    rcases hu with (rfl | hu) | hu
    · exact .inr hv
    · exact .inl hu
    · exact .inr hu.2
  · have hne (i : ℕ) (hi : i / 2 = k) : pageAt i ≠ v := pageAt_ne htracked (by omega)
    apply (h.paired hphase k hk).congr
    · intro i hi
      simp [hmem, hne i hi]
    · intro i hi
      simp [hne i hi]

theorem kfreeTracked (h : GuardInv kernelEnd s l) (hv : v ∈ s.allocated)
    (htracked : tracked v = true) :
    ∃ a l', Guard.kfree kernelEnd s.allocator v = some a ∧
      GuardInv kernelEnd { s with allocator := a, allocated := s.allocated.erase v } l' := by
  have hl : v ∉ l := fun hl ↦ h.disjoint v hl hv
  have hkinit2 := h.phase_of_tracked (.inr hv) htracked
  obtain ⟨hframe, hend⟩ := h.frames v (h.given v (.inr hv))
  have hindex := hframe.tracked_iff.mp htracked
  obtain ⟨i, hi, rfl⟩ : ∃ i, i < maxFrameNum ∧ v = pageAt i :=
    ⟨_, hindex, hframe.eq_pageAt htracked⟩
  obtain ⟨heven, hguarded⟩ := h.guardedPair_of_mem hi hv
  obtain ⟨k, hk, rfl⟩ : ∃ k, 2 * k + 1 < maxFrameNum ∧ i = 2 * k := by
    refine ⟨i / 2, ?_, heven⟩
    simp only [maxFrameNum] at hi ⊢
    omega
  rw [Nat.mul_div_cancel_left k Nat.two_pos] at hguarded
  have hinit : s.allocator.initflag = true := by rw [h.initflag, decide_eq_true hkinit2]
  have hne : pageAt (2 * k) ≠ pageAt (2 * k + 1) :=
    ne_of_gt (pageAt_lt (Nat.lt_succ_self (2 * k)) hk)
  have hpair := @Guard.kfree_pair kernelEnd _ _ _ h.free hinit htracked hframe hend hl
  rw [uintSub_pageAt hi] at hpair
  obtain ⟨a, l', hkfree, hfree, hperm, hinit'⟩ :=
    hpair (frame_pageAt hk) hne hguarded.guard_not_free
  have hmem (u : ℕ) : u ∈ l' ↔ u = pageAt (2 * k) ∨ u = pageAt (2 * k + 1) ∨ u ∈ l := by
    rw [hperm.mem_iff, List.mem_cons, List.mem_cons]
  refine ⟨a, l', hkfree, hfree, fun u hu ↦ ?_, fun u hu ↦ ?_, h.frames,
    fun hphase j hj ↦ ?_, ?_⟩
  · rw [Finset.mem_erase]
    rintro ⟨hne', hallocated⟩
    rcases ((hmem u).mp hu).resolve_left hne' with hu | hu
    · rw [hu] at hallocated
      exact hguarded.guard_not_allocated hallocated
    · exact h.disjoint u hu hallocated
  · rw [hmem, Finset.mem_erase] at hu
    rcases hu with (hu | hu | hu) | hu
    · rw [hu]
      exact h.given _ (.inr hv)
    · rw [hu]
      exact given_pageAt hkinit2 hk
    · exact h.given u (.inl hu)
    · exact h.given u (.inr hu.2)
  · by_cases hjk : j = k
    · subst hjk
      exact .inl ⟨(hmem _).mpr (.inl rfl), (hmem _).mpr (.inr (.inl rfl))⟩
    · have hother (i : ℕ) (hi : i / 2 = j) : pageAt i ≠ pageAt (2 * k) ∧
          pageAt i ≠ pageAt (2 * k + 1) := pageAt_ne_of_pair (by omega) hk (by omega)
      apply (h.paired hphase j hj).congr
      · intro i hi
        simp [hmem, hother i hi]
      · intro i hi
        simp [hother i hi]
  · change a.initflag = decide (s.phase = .kinit2)
    rw [hinit', decide_eq_true hkinit2]

theorem kfree (h : GuardInv kernelEnd s l) (hv : v ∈ s.allocated) :
    ∃ a l', Guard.kfree kernelEnd s.allocator v = some a ∧
      GuardInv kernelEnd { s with allocator := a, allocated := s.allocated.erase v } l' := by
  cases htracked : tracked v with
  | false => exact h.kfreeUntracked hv htracked
  | true => exact h.kfreeTracked hv htracked

/-- A store of the owner of an allocated page. -/
theorem store (h : GuardInv kernelEnd s l) (hv : v ∈ s.allocated) (link : Option ℕ) :
    GuardInv kernelEnd
      { s with allocator := { s.allocator with
          kmem := { s.allocator.kmem with
            next := Function.update s.allocator.kmem.next v link } } } l := by
  have hl : v ∉ l := fun hl ↦ h.disjoint v hl hv
  exact ⟨⟨h.free.linked.update_of_notMem hl link, h.free.descending, h.free.frames⟩, h.disjoint,
    h.given, h.frames, h.paired, h.initflag⟩

/-- Every completed call keeps the invariant. -/
theorem step (h : GuardInv kernelEnd s l) {call : GuardCall}
    (hs : Guard.step kernelEnd s call = some s') : ∃ l', GuardInv kernelEnd s' l' := by
  cases call with
  | kinit1 =>
    simp only [Guard.step] at hs
    split at hs
    next hphase =>
      obtain ⟨a, ha, rfl⟩ := Option.map_eq_some_iff.mp hs
      exact h.kinit1 hphase ha
    next => simp at hs
  | kinit2 =>
    simp only [Guard.step] at hs
    split at hs
    next hphase =>
      obtain ⟨a, ha, rfl⟩ := Option.map_eq_some_iff.mp hs
      exact h.kinit2 hphase ha
    next => simp at hs
  | kalloc pid =>
    obtain ⟨⟨r, a⟩, ha, rfl⟩ := Option.map_eq_some_iff.mp hs
    have hl : l ≠ [] := by
      rintro rfl
      have hnone : s.allocator.kmem.freelist = none := h.free.linked
      rw [Guard.kalloc, hnone, Option.bind_none] at ha
      exact absurd ha.symm (Option.some_ne_none _)
    obtain ⟨r', a', l', ha', -, hinv⟩ := h.kalloc hl pid
    obtain ⟨rfl, rfl⟩ := Prod.mk.inj (Option.some.inj (ha.symm.trans ha'))
    exact ⟨l', hinv⟩
  | kfree v =>
    simp only [Guard.step] at hs
    split at hs
    next hv =>
      obtain ⟨a, ha, rfl⟩ := Option.map_eq_some_iff.mp hs
      obtain ⟨a', l', ha', hinv⟩ := h.kfree hv
      obtain rfl := Option.some.inj (ha.symm.trans ha')
      exact ⟨l', hinv⟩
    next => simp at hs
  | store v link =>
    simp only [Guard.step] at hs
    split at hs
    next hv =>
      obtain rfl := Option.some.inj hs
      exact ⟨l, h.store hv link⟩
    next => simp at hs

/-! ## The state after the boot -/

/-- The tracked pages given are those with an index in the table. -/
theorem mem_given_tracked (h : GuardInv kernelEnd s l) (hphase : s.phase = .kinit2) :
    v ∈ (pagesBetween entryEnd (p2v physTop)).filter tracked ↔
      ∃ i, i < maxFrameNum ∧ v = pageAt i := by
  rw [List.mem_filter]
  constructor
  · rintro ⟨hgiven, htracked⟩
    have hframe : Frame v := by
      refine (h.frames v ?_).1
      rw [hphase]
      exact .inr hgiven
    exact ⟨_, hframe.tracked_iff.mp htracked, hframe.eq_pageAt htracked⟩
  · rintro ⟨i, hi, rfl⟩
    exact ⟨pageAt_mem_pagesBetween hi, tracked_pageAt hi⟩

theorem exists_index_iff (h : GuardInv kernelEnd s l) {i : ℕ} (hi : i < maxFrameNum) :
    (∃ v ∈ l, va2idx v = i) ↔ pageAt i ∈ l := by
  constructor
  · rintro ⟨v, hv, rfl⟩
    have hframe := h.free.frames v hv
    rw [← hframe.eq_pageAt (hframe.tracked_iff.mpr hi)]
    exact hv
  · exact fun hmem ↦ ⟨_, hmem, va2idx_pageAt hi⟩

/-- An allocated tracked page is the upper half of a pair. -/
theorem exists_pair (h : GuardInv kernelEnd s l) (hv : v ∈ s.allocated)
    (htracked : tracked v = true) :
    ∃ k, 2 * k + 1 < maxFrameNum ∧ v = pageAt (2 * k) ∧ GuardedPair l s.allocated k := by
  have hframe := (h.frames v (h.given v (.inr hv))).1
  have hi := hframe.tracked_iff.mp htracked
  have hpage := hframe.eq_pageAt htracked
  rw [hpage] at hv
  obtain ⟨heven, hguarded⟩ := h.guardedPair_of_mem hi hv
  refine ⟨va2idx v / 2, ?_, ?_, hguarded⟩
  · simp only [maxFrameNum] at hi ⊢
    omega
  · rw [← heven]
    exact hpage

theorem of_reachable (hs : (Guard.machine kernelEnd).Reachable s) :
    ∃ l, GuardInv kernelEnd s l := by
  apply hs.invariant
  · exact fun s h ↦ ⟨[], entry h⟩
  · intro s call s' _ h _ hstep
    obtain ⟨l, hl⟩ := h
    exact hl.step hstep

end GuardInv

namespace Guard

/-- The frame below a page. -/
def guardOf (v : ℕ) : ℕ := v - pgSize

theorem guardOf_pageAt (i : ℕ) : guardOf (pageAt i) = pageAt (i + 1) := (pageAt_succ i).symm

end Guard

variable {kernelEnd : ℕ} {s : AllocRun}

/-- Free pages, allocated pages and guard frames are the tracked pages given, each once. -/
theorem GuardInv.pages_perm {l : List ℕ} (h : GuardInv kernelEnd s l) (hphase : s.phase = .kinit2) :
    (l.filter tracked ++ s.allocated.toList.filter tracked ++
      (s.allocated.toList.filter tracked).map Guard.guardOf).Perm
        ((pagesBetween entryEnd (p2v physTop)).filter tracked) := by
  have hfree (v : ℕ) : v ∈ l.filter tracked ↔ v ∈ l ∧ tracked v = true := List.mem_filter
  have hallocated (v : ℕ) : v ∈ s.allocated.toList.filter tracked ↔
      v ∈ s.allocated ∧ tracked v = true := by
    rw [List.mem_filter, Finset.mem_toList]
  have hguards (v : ℕ) : v ∈ (s.allocated.toList.filter tracked).map Guard.guardOf ↔
      ∃ k, 2 * k + 1 < maxFrameNum ∧ v = pageAt (2 * k + 1) ∧ GuardedPair l s.allocated k := by
    rw [List.mem_map]
    constructor
    · rintro ⟨u, hu, rfl⟩
      obtain ⟨hu, htracked⟩ := (hallocated u).mp hu
      obtain ⟨k, hk, rfl, hguarded⟩ := h.exists_pair hu htracked
      exact ⟨k, hk, Guard.guardOf_pageAt _, hguarded⟩
    · rintro ⟨k, hk, hv, hguarded⟩
      rw [hv]
      exact ⟨pageAt (2 * k),
        (hallocated _).mpr ⟨hguarded.page, tracked_pageAt (Nat.lt_of_succ_lt hk)⟩,
        Guard.guardOf_pageAt _⟩
  have hnodup : (l.filter tracked ++ s.allocated.toList.filter tracked ++
      (s.allocated.toList.filter tracked).map Guard.guardOf).Nodup := by
    refine List.Nodup.append (List.Nodup.append (h.free.linked.nodup.filter _)
      (s.allocated.nodup_toList.filter _) ?_) ?_ ?_
    · intro v hv hv'
      exact h.disjoint v ((hfree v).mp hv).1 ((hallocated v).mp hv').1
    · refine List.Nodup.map_on (fun u hu v hv heq ↦ ?_) (s.allocated.nodup_toList.filter _)
      obtain ⟨hu, htu⟩ := (hallocated u).mp hu
      obtain ⟨hv, htv⟩ := (hallocated v).mp hv
      obtain ⟨j, hj, rfl, -⟩ := h.exists_pair hu htu
      obtain ⟨k, hk, rfl, -⟩ := h.exists_pair hv htv
      rw [Guard.guardOf_pageAt, Guard.guardOf_pageAt] at heq
      have hjk := pageAt_inj hj hk heq
      rw [Nat.add_right_cancel hjk]
    · intro v hv hv'
      obtain ⟨k, -, heq, hguarded⟩ := (hguards v).mp hv'
      rw [heq] at hv
      rcases List.mem_append.mp hv with hv | hv
      · exact hguarded.guard_not_free ((hfree _).mp hv).1
      · exact hguarded.guard_not_allocated ((hallocated _).mp hv).1
  refine (List.perm_ext_iff_of_nodup hnodup ((nodup_pagesBetween _ _).filter _)).mpr fun v ↦ ?_
  rw [List.mem_append, List.mem_append, hfree, hallocated, hguards, h.mem_given_tracked hphase]
  constructor
  · rintro ((⟨hv, htracked⟩ | ⟨hv, htracked⟩) | ⟨k, hk, hv, -⟩)
    · have hframe := h.free.frames v hv
      exact ⟨_, hframe.tracked_iff.mp htracked, hframe.eq_pageAt htracked⟩
    · obtain ⟨k, hk, rfl, -⟩ := h.exists_pair hv htracked
      exact ⟨2 * k, Nat.lt_of_succ_lt hk, rfl⟩
    · exact ⟨2 * k + 1, hk, hv⟩
  · rintro ⟨i, hi, rfl⟩
    have htracked := tracked_pageAt hi
    obtain ⟨k, hk, hik⟩ : ∃ k, 2 * k + 1 < maxFrameNum ∧ (i = 2 * k ∨ i = 2 * k + 1) := by
      refine ⟨i / 2, ?_, by omega⟩
      simp only [maxFrameNum] at hi ⊢
      omega
    rcases h.paired hphase k hk with hpair | hguarded
    · rcases hik with rfl | rfl
      · exact .inl (.inl ⟨hpair.page, htracked⟩)
      · exact .inl (.inl ⟨hpair.guard, htracked⟩)
    · rcases hik with rfl | rfl
      · exact .inl (.inr ⟨hguarded.page, htracked⟩)
      · exact .inr ⟨k, hk, rfl, hguarded⟩

namespace Guard

/-- The law of the guard frames.  In every state reached after the boot the free list is strictly
descending; its tracked frames come in whole pairs; an allocated tracked page has an even index, and
the frame of the next index is neither free nor allocated; and the free pages, the allocated pages
and the frames below these are together the tracked pages given by `kinit2`, each once. -/
theorem guard_frames (hs : (machine kernelEnd).Reachable s) (hphase : s.phase = .kinit2) :
    ∃ l, Linked s.allocator.kmem.next s.allocator.kmem.freelist l ∧ l.Pairwise (· > ·) ∧
      (∀ k, 2 * k + 1 < maxFrameNum →
        ((∃ v ∈ l, va2idx v = 2 * k) ↔ ∃ v ∈ l, va2idx v = 2 * k + 1)) ∧
      (∀ v ∈ s.allocated, tracked v = true → va2idx v % 2 = 0 ∧
        va2idx (guardOf v) = va2idx v + 1 ∧ guardOf v ∉ l ∧ guardOf v ∉ s.allocated) ∧
      (∀ u ∈ s.allocated, ∀ v ∈ s.allocated, tracked u = true → tracked v = true →
        va2idx v ≠ va2idx u + 1) ∧
      (l.filter tracked ++ s.allocated.toList.filter tracked ++
        (s.allocated.toList.filter tracked).map guardOf).Perm
          ((pagesBetween entryEnd (p2v physTop)).filter tracked) := by
  obtain ⟨l, h⟩ := GuardInv.of_reachable hs
  refine ⟨l, h.free.linked, h.free.descending, fun k hk ↦ ?_, fun v hv htracked ↦ ?_,
    fun u hu v hv htu htv ↦ ?_, h.pages_perm hphase⟩
  · rw [h.exists_index_iff (Nat.lt_of_succ_lt hk), h.exists_index_iff hk]
    rcases h.paired hphase k hk with hfree | hguarded
    · exact iff_of_true hfree.page hfree.guard
    · exact iff_of_false (fun hmem ↦ h.disjoint _ hmem hguarded.page) hguarded.guard_not_free
  · obtain ⟨k, hk, rfl, hguarded⟩ := h.exists_pair hv htracked
    rw [guardOf_pageAt, va2idx_pageAt (Nat.lt_of_succ_lt hk), va2idx_pageAt hk]
    exact ⟨by omega, rfl, hguarded.guard_not_free, hguarded.guard_not_allocated⟩
  · obtain ⟨j, hj, rfl, -⟩ := h.exists_pair hu htu
    obtain ⟨k, hk, rfl, -⟩ := h.exists_pair hv htv
    rw [va2idx_pageAt (Nat.lt_of_succ_lt hj), va2idx_pageAt (Nat.lt_of_succ_lt hk)]
    omega

/-- No call is stuck: `kalloc` with a page left takes the highest, and `kfree` takes back every page
that is allocated. -/
theorem calls_complete (hs : (machine kernelEnd).Reachable s) :
    (∀ pid, s.allocator.kmem.freelist ≠ none → ∃ s', step kernelEnd s (.kalloc pid) = some s') ∧
    ∀ v ∈ s.allocated, ∃ s', step kernelEnd s (.kfree v) = some s' := by
  obtain ⟨l, h⟩ := GuardInv.of_reachable hs
  constructor
  · intro pid hne
    have hl : l ≠ [] := by
      rintro rfl
      exact hne h.free.linked
    obtain ⟨r, a, l', hkalloc, -, -⟩ := h.kalloc hl pid
    exact ⟨_, by rw [step, hkalloc, Option.map_some]⟩
  · intro v hv
    obtain ⟨a, l', hkfree, -⟩ := h.kfree hv
    exact ⟨_, by rw [step, if_pos hv, hkfree, Option.map_some]⟩

theorem exists_booted (kernelEnd : ℕ) (hbase : kernBase ≤ kernelEnd) (hend : kernelEnd ≤ entryEnd) :
    ∃ s, (machine kernelEnd).Reachable s ∧ s.phase = .kinit2 ∧ s.allocated = ∅ := by
  let s₀ : AllocRun := ⟨⟨⟨none, fun _ ↦ none⟩, fun _ ↦ 0, 0, false⟩, ∅, .off⟩
  have h₀ : (machine kernelEnd).Reachable s₀ := .init ⟨rfl, fun _ ↦ rfl, rfl, rfl, rfl, rfl⟩
  obtain ⟨l₀, hinv₀⟩ := GuardInv.of_reachable h₀
  obtain ⟨a₁, hkinit1⟩ := kinit1_completes hinv₀.free hbase hend
    fun v _ hv ↦ hinv₀.given v (.inl hv)
  rw [Allocator.kinit1, Allocator.freerange, ← foldlM_kfree_eq rfl] at hkinit1
  let s₁ : AllocRun := ⟨a₁, ∅, .kinit1⟩
  have h₁ : (machine kernelEnd).Reachable s₁ := by
    apply h₀.next (l := .kinit1)
    simp [machine, step, kinit1, freerange, s₀, s₁, hkinit1]
  obtain ⟨l₁, hinv₁⟩ := GuardInv.of_reachable h₁
  obtain ⟨a₂, hkinit2⟩ := kinit2_completes hinv₁.free hend fun v hv hl ↦
    not_given_of_mem_pagesBetween hv (hinv₁.given v (.inl hl))
  rw [Allocator.kinit2, Allocator.freerange, ← foldlM_kfree_eq hinv₁.initflag] at hkinit2
  have h₂ : (machine kernelEnd).Reachable ⟨a₂, ∅, .kinit2⟩ := by
    apply h₁.next (l := .kinit2)
    simp [machine, step, kinit2, freerange, s₁, hkinit2]
  exact ⟨_, h₂, rfl, rfl⟩

/-- The law after the boot and one `kalloc`. -/
theorem guard_frames_kalloc :
    ∃ s v, (machine 0x80115000).Reachable s ∧ s.allocated = {v} ∧
      ∃ l, Linked s.allocator.kmem.next s.allocator.kmem.freelist l ∧ l.Pairwise (· > ·) ∧
        (tracked v = true → guardOf v ∉ l) := by
  obtain ⟨s, hs, hphase, hallocated⟩ := exists_booted 0x80115000 (by decide) (by decide)
  obtain ⟨l, h⟩ := GuardInv.of_reachable hs
  have hl : l ≠ [] := by
    rintro rfl
    rcases h.paired hphase 0 (by decide) with hfree | hguarded
    · exact List.not_mem_nil hfree.page
    · rw [hallocated] at hguarded
      exact Finset.notMem_empty _ hguarded.page
  obtain ⟨v, a, -, hkalloc, -, -⟩ := h.kalloc hl 5
  have hs' : (machine 0x80115000).Reachable
      { s with allocator := a, allocated := insert v s.allocated } := by
    apply hs.next (l := .kalloc 5)
    simp [machine, step, hkalloc]
  obtain ⟨l', hlinked, hdesc, -, hguards, -⟩ := guard_frames hs' hphase
  refine ⟨_, v, hs', by rw [hallocated]; rfl, l', hlinked, hdesc, fun htracked ↦ ?_⟩
  exact (hguards v (Finset.mem_insert_self v _) htracked).2.2.1

end Guard

end CS537.Kalloc
