import CS537.Kalloc.Dump
import CS537.Kalloc.TableBounds
import Mathlib.Data.Finset.Sort

/-!
# The report of the allocated frames

The counter of `kalloc` and `kfree` is the number of tracked pages that are allocated, and
`pg2pid` has an owner for exactly these as long as no page was taken for `-1`, the mark of free
frames.  The search of `dump_physmem` then stays in the table and reports the allocated pages from
the highest down, each with the process of the `kalloc` that returned it.
-/

namespace CS537.Kalloc

open Foundation

/-! ## The counter -/

namespace Allocator

variable {kernelEnd : ℕ} {a a' : Allocator}

theorem kalloc_allocatedCount {junk : ℕ → ℤ → ℤ} {pid : ℤ} {r : ℕ}
    (hs : a.kalloc junk pid = some (r, a')) :
    a'.allocatedCount = a.allocatedCount + (if tracked r = true then 1 else 0) ∧
      a'.initflag = a.initflag := by
  obtain ⟨⟨r', kmem⟩, -, hrecord⟩ := Option.bind_eq_some_iff.mp hs
  unfold recordOwner at hrecord
  split at hrecord
  next htracked =>
    obtain ⟨a₁, hset, heq⟩ := Option.map_eq_some_iff.mp hrecord
    obtain ⟨rfl, rfl⟩ := Prod.mk.inj heq
    unfold setOwner at hset
    split at hset
    · obtain rfl := Option.some.inj hset
      simp [htracked]
    · simp at hset
  next htracked =>
    obtain ⟨rfl, rfl⟩ := Prod.mk.inj (Option.some.inj hrecord)
    simp [htracked]

theorem kfree_allocatedCount {v : ℕ} (hs : a.kfree kernelEnd v = some a') :
    a'.allocatedCount =
        a.allocatedCount - (if tracked v = true ∧ a.initflag = true then 1 else 0) ∧
      a'.initflag = a.initflag := by
  rw [kfree_eq_bind] at hs
  obtain ⟨a₁, hmark, hinsert⟩ := Option.bind_eq_some_iff.mp hs
  obtain ⟨kmem, -, rfl⟩ := Option.map_eq_some_iff.mp hinsert
  unfold kfreeMark at hmark
  split at hmark
  · simp at hmark
  · split at hmark
    next htracked =>
      obtain ⟨a₂, hset, rfl⟩ := Option.map_eq_some_iff.mp hmark
      unfold setOwner at hset
      split at hset
      · obtain rfl := Option.some.inj hset
        cases a.initflag <;> simp [htracked]
      · simp at hset
    next htracked =>
      obtain rfl := Option.some.inj hmark
      simp [htracked]

/-- The pages that `kinit1` and `kinit2` free are not counted. -/
theorem foldlM_kfree_allocatedCount {pages : List ℕ} (hinit : a.initflag = false)
    (hs : pages.foldlM (kfree kernelEnd) a = some a') :
    a'.allocatedCount = a.allocatedCount ∧ a'.initflag = false := by
  induction pages generalizing a with
  | nil =>
    obtain rfl := Option.some.inj hs
    exact ⟨rfl, hinit⟩
  | cons v pages ih =>
    rw [List.foldlM_cons] at hs
    obtain ⟨a₁, hfree, hrest⟩ := Option.bind_eq_some_iff.mp hs
    obtain ⟨hcount, hflag⟩ := kfree_allocatedCount hfree
    have hrest := ih (hflag.trans hinit) hrest
    simpa [hcount, hinit] using hrest

end Allocator

/-! ## The process each page was given to -/

/-- Who each page was given to by the last `kalloc` that returned it. -/
def givenAfter (s : AllocRun) (givenTo : ℕ → ℤ) : AllocCall → ℕ → ℤ
  | .kalloc pid junk =>
    match s.allocator.kalloc junk pid with
    | some (r, _) => Function.update givenTo r pid
    | none => givenTo
  | _ => givenTo

/-- The runs together with the processes that the pages were given to. -/
def owningMachine (kernelEnd : ℕ) : Machine (AllocRun × (ℕ → ℤ)) AllocCall :=
  (AllocRun.machine kernelEnd).observed givenAfter

namespace AllocRun

/-- The pages allocated whose owners are recorded. -/
def trackedPages (s : AllocRun) : Finset ℕ := s.allocated.filter fun v ↦ tracked v = true

theorem mem_trackedPages {s : AllocRun} {v : ℕ} :
    v ∈ s.trackedPages ↔ v ∈ s.allocated ∧ tracked v = true :=
  Finset.mem_filter

end AllocRun

/-- No tracked page is given before `kinit2`. -/
theorem not_tracked_of_given {kernelEnd v : ℕ} {phase : Phase} (hphase : phase ≠ .kinit2)
    (hgiven : Given kernelEnd phase v) (hframe : Frame v) : tracked v = false := by
  have hpage : v ∈ pagesBetween kernelEnd entryEnd := by
    cases phase with
    | off => exact absurd hgiven id
    | kinit1 => exact hgiven
    | kinit2 => exact absurd rfl hphase
  have hentry : entryEnd = 0x80400000 := by decide
  have hend := (mem_pagesBetween.mp hpage).2.2
  have heq := hframe.eq_add
  have hlarge : ¬va2idx v < maxFrameNum := by
    rw [hframe.va2idx_eq]
    simp only [hentry, kernBase, pgSize, numFrames, physTop, maxFrameNum] at *
    omega
  rw [← hframe.tracked_iff] at hlarge
  exact Bool.eq_false_iff.mpr hlarge

/-- What `dump_physmem` relies on. -/
structure CountInv (s : AllocRun) (givenTo : ℕ → ℤ) : Prop where
  count : s.allocator.allocatedCount = s.trackedPages.card
  initflag : s.allocator.initflag = true ↔ s.phase = .kinit2
  owners : ∀ v ∈ s.trackedPages, s.allocator.pg2pid (va2idx v) = givenTo v

namespace CountInv

variable {kernelEnd : ℕ} {s s' : AllocRun} {givenTo : ℕ → ℤ} {l : List ℕ}

theorem entry (h : s.Entry) : CountInv s givenTo where
  count := by simp [h.allocatedCount, AllocRun.trackedPages, h.allocated]
  initflag := by simp [h.initflag, h.phase]
  owners := by simp [AllocRun.trackedPages, h.allocated]

theorem trackedPages_eq_empty (hinv : AllocInv kernelEnd s l) (hphase : s.phase ≠ .kinit2) :
    s.trackedPages = ∅ := by
  apply Finset.eq_empty_of_forall_notMem
  intro v hv
  obtain ⟨hv, htracked⟩ := AllocRun.mem_trackedPages.mp hv
  have hgiven := (hinv.given v).mp (.inr hv)
  have huntracked := not_tracked_of_given hphase hgiven (hinv.frames v hgiven).1
  exact absurd htracked (by simp [huntracked])

/-- Before `kinit2` there is nothing to count. -/
theorem addPages (h : CountInv s givenTo) (hinv : AllocInv kernelEnd s l)
    (hphase : s.phase ≠ .kinit2) {pages : List ℕ} {a : Allocator}
    (hs : pages.foldlM (Allocator.kfree kernelEnd) s.allocator = some a) (initflag : Bool)
    (phase : Phase) (hflag : initflag = true ↔ phase = .kinit2) :
    CountInv { s with allocator := { a with initflag := initflag }, phase := phase } givenTo := by
  have hinit : s.allocator.initflag = false := by
    rw [Bool.eq_false_iff, ne_eq, h.initflag]
    exact hphase
  have hempty := trackedPages_eq_empty hinv hphase
  refine ⟨?_, hflag, fun v hv ↦ ?_⟩
  · exact (Allocator.foldlM_kfree_allocatedCount hinit hs).1.trans h.count
  · change v ∈ s.trackedPages at hv
    rw [hempty] at hv
    exact absurd hv (Finset.notMem_empty v)

/-- A write for another page leaves the owner of a page. -/
theorem ownersAfter_of_ne {pg2pid : ℕ → ℤ} {u v : ℕ} {pid : ℤ} (hu : Frame u) (hv : Frame v)
    (hne : u ≠ v) : Allocator.ownersAfter pg2pid v pid (va2idx u) = pg2pid (va2idx u) := by
  unfold Allocator.ownersAfter
  split
  · exact Function.update_of_ne (fun heq ↦ hne (hu.va2idx_inj hv heq)) _ _
  · rfl

theorem kalloc (h : CountInv s givenTo) (hinv : AllocInv kernelEnd s l) {pid : ℤ}
    {junk : ℕ → ℤ → ℤ} {r : ℕ} {a : Allocator} (hs : s.allocator.kalloc junk pid = some (r, a)) :
    CountInv { s with allocator := a, allocated := insert r s.allocated }
      (Function.update givenTo r pid) := by
  obtain ⟨hcount, hflag⟩ := Allocator.kalloc_allocatedCount hs
  rcases Allocator.kalloc_spec hinv.free junk pid with
    ⟨hnone, -⟩ | ⟨u, r', t, a', hsome, rfl, -, -, -, howners⟩
  · rw [hnone] at hs
    simp at hs
  · obtain ⟨rfl, rfl⟩ := Prod.mk.inj (Option.some.inj (hs.symm.trans hsome))
    have hnew : r ∉ s.allocated := hinv.disjoint r (by simp)
    have hframe : Frame r := hinv.free.frames r (by simp)
    refine ⟨?_, hflag ▸ h.initflag, fun v hv ↦ ?_⟩
    · rw [AllocRun.trackedPages, Finset.filter_insert]
      change a.allocatedCount = _
      rw [hcount, h.count]
      split
      · have hnotMem : r ∉ s.trackedPages := fun hr ↦ hnew (AllocRun.mem_trackedPages.mp hr).1
        rw [← AllocRun.trackedPages, Finset.card_insert_of_notMem hnotMem]
        push_cast
        rfl
      · simp [AllocRun.trackedPages]
    · obtain ⟨hv, htracked⟩ := AllocRun.mem_trackedPages.mp hv
      change a.pg2pid (va2idx v) = _
      rw [howners]
      by_cases hvr : v = r
      · subst hvr
        rw [Allocator.ownersAfter, if_pos htracked, Function.update_self, Function.update_self]
      · have hold : v ∈ s.allocated := (Finset.mem_insert.mp hv).resolve_left hvr
        have hvframe := (hinv.frames v ((hinv.given v).mp (.inr hold))).1
        rw [ownersAfter_of_ne hvframe hframe hvr, Function.update_of_ne hvr]
        exact h.owners v (AllocRun.mem_trackedPages.mpr ⟨hold, htracked⟩)

theorem kfree (h : CountInv s givenTo) (hinv : AllocInv kernelEnd s l) {v : ℕ}
    (hv : v ∈ s.allocated) {a : Allocator} (hs : s.allocator.kfree kernelEnd v = some a) :
    CountInv { s with allocator := a, allocated := s.allocated.erase v } givenTo := by
  obtain ⟨hcount, hflag⟩ := Allocator.kfree_allocatedCount hs
  have hl : v ∉ l := fun hl ↦ hinv.disjoint v hl hv
  have hgiven := (hinv.given v).mp (.inr hv)
  obtain ⟨hframe, hend⟩ := hinv.frames v hgiven
  obtain ⟨a', l', hsome, -, -, howners⟩ := Allocator.kfree_spec hinv.free hl hframe hend
  obtain rfl := Option.some.inj (hs.symm.trans hsome)
  refine ⟨?_, hflag ▸ h.initflag, fun u hu ↦ ?_⟩
  · change a.allocatedCount = ((s.allocated.erase v).filter _).card
    rw [hcount, h.count, Finset.filter_erase]
    by_cases htracked : tracked v = true
    · have hphase : s.phase = .kinit2 := by
        by_contra hphase
        exact absurd htracked (by simp [not_tracked_of_given hphase hgiven hframe])
      have hmem : v ∈ s.trackedPages := AllocRun.mem_trackedPages.mpr ⟨hv, htracked⟩
      have hpos : 0 < s.trackedPages.card := Finset.card_pos.mpr ⟨v, hmem⟩
      rw [if_pos ⟨htracked, h.initflag.mpr hphase⟩, ← AllocRun.trackedPages,
        Finset.card_erase_of_mem hmem]
      omega
    · have hmem : v ∉ s.trackedPages := fun hr ↦ htracked (AllocRun.mem_trackedPages.mp hr).2
      rw [if_neg (fun hc ↦ htracked hc.1), ← AllocRun.trackedPages,
        Finset.erase_eq_of_notMem hmem, Int.sub_zero]
  · obtain ⟨hu, htracked⟩ := AllocRun.mem_trackedPages.mp hu
    obtain ⟨hne, hu⟩ := Finset.mem_erase.mp hu
    have huframe := (hinv.frames u ((hinv.given u).mp (.inr hu))).1
    change a.pg2pid (va2idx u) = _
    rw [howners, ownersAfter_of_ne huframe hframe hne]
    exact h.owners u (AllocRun.mem_trackedPages.mpr ⟨hu, htracked⟩)

/-- Every completed call keeps the invariant. -/
theorem step (h : CountInv s givenTo) (hinv : AllocInv kernelEnd s l) {call : AllocCall}
    (hs : s.step kernelEnd call = some s') : CountInv s' (givenAfter s givenTo call) := by
  cases AllocRun.step_cases hs with
  | @kinit1 a hphase ha =>
    have hinit : s.allocator.initflag = false := by
      rw [Bool.eq_false_iff, ne_eq, h.initflag, hphase]
      simp
    have hflag := (Allocator.foldlM_kfree_allocatedCount hinit ha).2
    exact h.addPages hinv (by simp [hphase]) ha a.initflag .kinit1 (by simp [hflag])
  | kinit2 hphase ha =>
    obtain ⟨a, hfold, rfl⟩ := Option.map_eq_some_iff.mp ha
    exact h.addPages hinv (by simp [hphase]) hfold true .kinit2 (by simp)
  | kalloc ha =>
    simp only [givenAfter, ha]
    exact h.kalloc hinv ha
  | kfree hv ha => exact h.kfree hinv hv ha
  | store => exact ⟨h.count, h.initflag, h.owners⟩

theorem of_reachable {s : AllocRun × (ℕ → ℤ)} (hs : (owningMachine kernelEnd).Reachable s) :
    CountInv s.1 s.2 := by
  apply hs.invariant
  · exact fun s h ↦ entry h
  · intro s call s' hr h _ hstep
    obtain ⟨l, hinv⟩ := AllocInv.of_reachable (Machine.Reachable.of_observed hr)
    obtain ⟨t, ht, rfl⟩ := Option.map_eq_some_iff.mp hstep
    exact h.step hinv ht

end CountInv

/-! ## The report -/

/-- The pages reported, from the highest down. -/
def AllocRun.reported (s : AllocRun) : List ℕ := s.trackedPages.sort fun u v ↦ u ≥ v

/-- The number of the frame with this index. -/
theorem idx2fn_va2idx {v : ℕ} (hframe : Frame v) : idx2fn (va2idx v) = v2p v >>> 12 := by
  have htop := hframe.lt_physTop
  have hshift : v2p v >>> 12 = v2p v / 4096 := Nat.shiftRight_eq_div_pow _ 12
  have hphys : physTop >>> 12 = 57344 := by decide
  have hframes : numFrames = 57344 := by decide
  simp only [idx2fn, uintSub, hphys, hshift, hframe.va2idx_eq, hframes]
  simp only [physTop, pgSize] at htop ⊢
  omega

namespace CountInv

variable {kernelEnd : ℕ} {s : AllocRun} {givenTo : ℕ → ℤ} {l : List ℕ}

/-- The frames with owners are those of the pages reported, in the same order. -/
theorem ownedFrom_eq (h : CountInv s givenTo) (hinv : AllocInv kernelEnd s l)
    (hphase : s.phase = .kinit2) (howners : ∀ v ∈ s.allocated, givenTo v ≠ -1) :
    ownedFrom s.allocator.pg2pid 0 = s.reported.map va2idx := by
  have hframe : ∀ v ∈ s.allocated, Frame v := fun v hv ↦
    (hinv.frames v ((hinv.given v).mp (.inr hv))).1
  have hmem (v : ℕ) : v ∈ s.reported ↔ v ∈ s.allocated ∧ tracked v = true := by
    rw [AllocRun.reported, Finset.mem_sort, AllocRun.mem_trackedPages]
  have hfrom : (ownedFrom s.allocator.pg2pid 0).Pairwise (· < ·) :=
    List.Pairwise.filter _ List.pairwise_lt_range'
  have hreported : (s.reported.map va2idx).Pairwise (· < ·) := by
    have hdesc : s.reported.Pairwise (· ≥ ·) := Finset.pairwise_sort _ _
    have hnodup : s.reported.Nodup := Finset.sort_nodup _ _
    refine List.pairwise_map.mpr ((hdesc.and hnodup).imp_of_mem ?_)
    rintro u v hu hv ⟨hle, hne⟩
    have hfu := hframe u ((hmem u).mp hu).1
    have hfv := hframe v ((hmem v).mp hv).1
    refine lt_of_le_of_ne (hfv.va2idx_le hfu hle) fun heq ↦ hne ?_
    exact hfu.va2idx_inj hfv heq
  refine hfrom.eq_of_mem_iff hreported fun i ↦ ?_
  rw [ownedFrom, List.mem_filter, List.mem_range'_1, List.mem_map]
  simp only [decide_eq_true_eq]
  constructor
  · rintro ⟨hi, howned⟩
    have hlt : i < maxFrameNum := by omega
    have hpage : AllocRun.pageAt i ∈ s.allocated := by
      by_contra hfree
      exact howned (AllocRun.pg2pid_pageAt hinv hphase hlt hfree).2
    exact ⟨AllocRun.pageAt i, (hmem _).mpr ⟨hpage, AllocRun.tracked_pageAt hlt⟩,
      AllocRun.va2idx_pageAt hlt⟩
  · rintro ⟨v, hv, rfl⟩
    obtain ⟨hv, htracked⟩ := (hmem v).mp hv
    have hindex := (hframe v hv).tracked_iff.mp htracked
    rw [h.owners v (AllocRun.mem_trackedPages.mpr ⟨hv, htracked⟩)]
    exact ⟨by omega, howners v hv⟩

theorem length_reported (h : CountInv s givenTo) :
    s.allocator.allocatedCount = s.reported.length := by
  rw [h.count, AllocRun.reported, Finset.length_sort]

/-- The elements written for pages of the table. -/
theorem entriesOf_eq (h : CountInv s givenTo) (hinv : AllocInv kernelEnd s l) (m : KernelMemory)
    {i : ℕ} {vs : List ℕ} (hvs : ∀ v ∈ vs, v ∈ s.trackedPages) :
    entriesOf s.allocator m i (vs.map va2idx) = vs.map fun v ↦ (((v2p v >>> 12 : ℕ) : ℤ), givenTo v) := by
  induction vs generalizing i with
  | nil => rfl
  | cons v vs ih =>
    have hv := hvs v List.mem_cons_self
    obtain ⟨hallocated, htracked⟩ := AllocRun.mem_trackedPages.mp hv
    have hframe := (hinv.frames v ((hinv.given v).mp (.inr hallocated))).1
    have hsmall : v2p v >>> 12 < 2 ^ 31 := by
      have htop := hframe.lt_physTop
      simp only [physTop] at htop
      rw [Nat.shiftRight_eq_div_pow]
      omega
    rw [List.map_cons, entriesOf, ih fun u hu ↦ hvs u (List.mem_cons_of_mem v hu), idx2fn_va2idx hframe,
      toInt32, if_pos hsmall, pg2pidAt, if_pos (hframe.tracked_iff.mp htracked), h.owners v hv, List.map_cons]

/-- The loops report the tracked pages that are allocated and come to their end. -/
theorem dumpLoop_eq (h : CountInv s givenTo) (hinv : AllocInv kernelEnd s l)
    (howners : ∀ v ∈ s.allocated, givenTo v ≠ -1) (m : KernelMemory) (n : ℕ) :
    dumpLoop s.allocator m n 0 0 =
      ⟨(s.reported.take n).map (fun v ↦ (((v2p v >>> 12 : ℕ) : ℤ), givenTo v)) ++
        List.replicate (n - s.reported.length) (-1, -1), true⟩ := by
  have hcounted : counted s.allocator n 0 = min n s.reported.length := by
    simp only [counted, h.length_reported]
    omega
  have howned : ownedFrom s.allocator.pg2pid 0 = s.reported.map va2idx ∨ s.reported = [] := by
    by_cases hphase : s.phase = .kinit2
    · exact .inl (h.ownedFrom_eq hinv hphase howners)
    · right
      rw [AllocRun.reported, trackedPages_eq_empty hinv hphase, Finset.sort_empty]
  have hstops : stops s.allocator m (min n s.reported.length) 0 0 =
      ((s.reported.take n).map va2idx) := by
    rcases howned with howned | hnone
    · rw [stops_of_owned, howned, ← List.map_take, ← List.take_eq_take_min]
      rw [howned, List.length_map]
      exact Nat.min_le_right _ _
    · rw [hnone, List.length_nil, Nat.min_zero, List.take_nil]
      rfl
  have hlength : ((s.reported.take n).map va2idx).length = min n s.reported.length := by
    rw [List.length_map, List.length_take]
  have hrest : n - min n s.reported.length = n - s.reported.length := by omega
  have htracked (v : ℕ) (hv : v ∈ s.reported.take n) : v ∈ s.trackedPages :=
    (Finset.mem_sort _).mp (List.mem_of_mem_take hv)
  rw [Kalloc.dumpLoop_eq, hcounted, hstops, if_pos hlength, hrest, h.entriesOf_eq hinv m htracked]

end CountInv

/-- The arguments of a call with buffers for `n` elements in user memory, which ends at
`KERNBASE`. -/
structure Proc.Buffers (p : Proc) (n frames pids : ℕ) : Prop where
  user : p.sz ≤ kernBase
  first : p.argint 0 = some frames
  second : p.argint 1 = some pids
  third : p.argint 2 = some n
  positive : 1 ≤ n
  frames_ne : frames ≠ 0
  pids_ne : pids ≠ 0
  frames_le : frames + 4 * n ≤ p.sz
  pids_le : pids + 4 * n ≤ p.sz

theorem Proc.argptr_eq {p : Proc} {k n array : ℕ} (hargint : p.argint k = some array)
    (huser : p.sz ≤ kernBase) (hpos : 1 ≤ n) (hne : array ≠ 0) (hle : array + 4 * n ≤ p.sz) :
    p.argptr k (toInt32 (n * 4 % 2 ^ 32)) = some array := by
  simp only [kernBase] at huser
  have hmod : n * 4 % 2 ^ 32 = 4 * n := by
    rw [Nat.mod_eq_of_lt (by omega)]
    omega
  have hint : toInt32 (n * 4 % 2 ^ 32) = (4 * n : ℕ) := by
    rw [hmod, toInt32, if_pos (by omega)]
  rw [Proc.argptr, hargint, Option.bind_some, hint, Int.toNat_natCast, if_neg]
  rw [Nat.mod_eq_of_lt (by omega)]
  omega

theorem Proc.Buffers.accepts {p : Proc} {n frames pids : ℕ} (h : p.Buffers n frames pids) :
    p.Accepts n frames pids := by
  have huser := h.user
  have hle := h.frames_le
  have hpos := h.positive
  simp only [kernBase] at huser
  refine ⟨h.third, ?_, ?_, ?_, h.frames_ne, h.pids_ne⟩
  · exact Proc.argptr_eq h.first h.user h.positive h.frames_ne h.frames_le
  · exact Proc.argptr_eq h.second h.user h.positive h.pids_ne h.pids_le
  · rw [toInt32, if_pos (by omega)]
    omega

/-- The counter is right, and a call with buffers for `n` elements completes: it reports the `n`
highest tracked pages that are allocated and who they were given to, and then `-1`. -/
def ReportsAllocation (s : AllocRun × (ℕ → ℤ)) : Prop :=
  s.1.allocator.allocatedCount = s.1.trackedPages.card ∧
    ∀ (p : Proc) (m : KernelMemory) (n frames pids : ℕ), p.Buffers n frames pids →
      sysDumpPhysmem p s.1.allocator m = some ⟨frames, pids,
        ⟨(s.1.reported.take n).map (fun v ↦ (((v2p v >>> 12 : ℕ) : ℤ), s.2 v)) ++
          List.replicate (n - s.1.reported.length) (-1, -1), true⟩⟩

/-- `dump_physmem` reports the true allocation in every state reached in which no allocated page
was taken for the mark of free frames. -/
theorem dump_reports_allocation {kernelEnd : ℕ} {s : AllocRun × (ℕ → ℤ)}
    (hs : (owningMachine kernelEnd).Reachable s) (howners : ∀ v ∈ s.1.allocated, s.2 v ≠ -1) :
    ReportsAllocation s := by
  have h := CountInv.of_reachable hs
  obtain ⟨l, hinv⟩ := AllocInv.of_reachable (Machine.Reachable.of_observed hs)
  refine ⟨h.count, fun p m n frames pids hbuffers ↦ ?_⟩
  have haccepts := hbuffers.accepts
  refine sysDumpPhysmem_eq_some_iff.mpr ⟨n, haccepts, ?_⟩
  rw [haccepts.toNat_eq, h.dumpLoop_eq hinv howners m]

/-! ## One page -/

/-- After the boot the highest page can be taken for any process number. -/
theorem exists_one_page (pid : ℤ) :
    ∃ s : AllocRun × (ℕ → ℤ), (owningMachine 0x80115000).Reachable s ∧ s.1.phase = .kinit2 ∧
      s.1.allocated = {AllocRun.pageAt 0} ∧ s.2 (AllocRun.pageAt 0) = pid := by
  obtain ⟨s, hs, hphase, hallocated⟩ := AllocRun.exists_booted 0x80115000 (by decide) (by decide)
  obtain ⟨givenTo, hobserved⟩ := Machine.Reachable.exists_observed givenAfter hs
  obtain ⟨l, h⟩ := AllocInv.of_reachable hs
  have hfree (i : ℕ) : AllocRun.pageAt i ∉ s.allocated := by simp [hallocated]
  obtain ⟨hmem, -⟩ := AllocRun.pg2pid_pageAt h hphase (by decide) (hfree 0)
  obtain ⟨-, howner⟩ := AllocRun.pg2pid_pageAt h hphase (by decide) (hfree 1)
  have hindex : va2idx (AllocRun.pageAt 0) = 0 := by decide
  let junk : ℕ → ℤ → ℤ := fun _ _ ↦ 0
  have hsuits : s.allocator.suits junk pid (AllocRun.pageAt 0) = true := by
    apply Allocator.suits_of_neighbours (by decide)
    · rw [hindex]
      exact .inr (.inl howner)
    · simp [hindex]
  obtain ⟨a, ha, -⟩ := h.kalloc_highest junk pid hmem hsuits fun v hv _ ↦
    AllocRun.le_pageAt_zero hphase ((h.given v).mp (.inl hv))
  refine ⟨({ s with allocator := a, allocated := insert (AllocRun.pageAt 0) s.allocated },
    Function.update givenTo (AllocRun.pageAt 0) pid), ?_, hphase, ?_, ?_⟩
  · apply hobserved.next (l := .kalloc pid junk)
    simp [AllocRun.machine, Machine.observed, AllocRun.step, ha, givenAfter]
  · rw [hallocated, insert_empty_eq]
  · simp only [Function.update_self]

/-- A process that asks for two elements in its second and third page. -/
def twoElements : Proc where
  sz := 0x4000
  esp := 0x3000
  word addr := if addr = 0x3004 then 0x1000 else if addr = 0x3008 then 0x2000 else 2
  sz_lt := wrappingProc.sz_lt
  word_lt addr := by
    split
    · decide
    · split <;> decide

theorem twoElements_buffers : twoElements.Buffers 2 0x1000 0x2000 :=
  ⟨by decide, by decide, by decide, by decide, by decide, by decide, by decide, by decide,
    by decide⟩

/-- One word, a zero, is mapped behind the table. -/
def zeroBehind : KernelMemory := ⟨maxFrameNum + 1, fun _ _ ↦ 0, Nat.le_succ _⟩

/-- The page of process `5` is reported, and nothing else. -/
theorem dump_reports_allocation_one_page :
    ∃ s : AllocRun × (ℕ → ℤ), (owningMachine 0x80115000).Reachable s ∧
      sysDumpPhysmem twoElements s.1.allocator zeroBehind =
        some ⟨0x1000, 0x2000, ⟨[(0xdfff, 5), (-1, -1)], true⟩⟩ := by
  obtain ⟨s, hs, hphase, hallocated, howner⟩ := exists_one_page 5
  have howners : ∀ v ∈ s.1.allocated, s.2 v ≠ -1 := by
    intro v hv
    rw [hallocated, Finset.mem_singleton] at hv
    rw [hv, howner]
    decide
  have hreported : s.1.reported = [AllocRun.pageAt 0] := by
    rw [AllocRun.reported, AllocRun.trackedPages, hallocated, Finset.filter_singleton,
      if_pos (by decide), Finset.sort_singleton]
  refine ⟨s, hs, ?_⟩
  rw [(dump_reports_allocation hs howners).2 _ _ _ _ _ twoElements_buffers, hreported]
  simp only [List.take_succ_cons, List.take_nil, List.map_cons, List.map_nil, howner]
  rfl

/-- A page taken for the mark of free frames is counted and never found, and the search reports a word
behind the table. -/
theorem dump_misses_allocation :
    ¬∀ s, (owningMachine 0x80115000).Reachable s → ReportsAllocation s := by
  intro hclaim
  obtain ⟨s, hs, hphase, hallocated, howner⟩ := exists_one_page (-1)
  have h := CountInv.of_reachable hs
  obtain ⟨l, hinv⟩ := AllocInv.of_reachable (Machine.Reachable.of_observed hs)
  have htracked : s.1.trackedPages = {AllocRun.pageAt 0} := by
    rw [AllocRun.trackedPages, hallocated, Finset.filter_singleton, if_pos (by decide)]
  have howned : ownedFrom s.1.allocator.pg2pid 0 = [] := by
    refine List.filter_eq_nil_iff.mpr fun i hi ↦ ?_
    have hlt : i < maxFrameNum := by
      have hrange := (List.mem_range'_1.mp hi).2
      omega
    rw [decide_eq_true_eq, not_not]
    by_cases hpage : AllocRun.pageAt i ∈ s.1.trackedPages
    · have hzero : AllocRun.pageAt i = AllocRun.pageAt 0 := by
        rw [← Finset.mem_singleton, ← htracked]
        exact hpage
      have hrecorded := h.owners _ hpage
      rw [AllocRun.va2idx_pageAt hlt, hzero, howner] at hrecorded
      exact hrecorded
    · have hfree : AllocRun.pageAt i ∉ s.1.allocated := fun hmem ↦
        hpage (AllocRun.mem_trackedPages.mpr ⟨hmem, AllocRun.tracked_pageAt hlt⟩)
      exact (AllocRun.pg2pid_pageAt hinv hphase hlt hfree).2
  have hcall := (hclaim s hs).2 _ zeroBehind _ _ _ twoElements_buffers
  obtain ⟨n, haccepts, hdump⟩ := sysDumpPhysmem_eq_some_iff.mp hcall
  have hn : 2 = n := Option.some.inj (twoElements_buffers.third.symm.trans haccepts.third)
  have hscan : scanOwned (pg2pidAt s.1.allocator zeroBehind 0) (maxFrameNum + 1) 0 = some maxFrameNum :=
    (Nat.add_comm 1 maxFrameNum ▸ scanOwned_of_free zeroBehind 0 le_rfl (by rwa [Nat.sub_self]) :)
  have hcounted : (0 : ℤ) < s.1.allocator.allocatedCount := by
    rw [h.count, htracked, Finset.card_singleton]
    exact Int.one_pos
  have hreported : s.1.reported = [AllocRun.pageAt 0] := by
    rw [AllocRun.reported, htracked, Finset.sort_singleton]
  have htwo : (toInt32 2).toNat = 2 := rfl
  rw [← hn, htwo, hreported, dumpLoop, Nat.cast_zero, if_pos hcounted, Nat.mul_zero, Nat.sub_zero,
    show zeroBehind.mapped = maxFrameNum + 1 from rfl, hscan] at hdump
  -- the word has another value than the owner
  have hpid := congrArg (fun d : Dump ↦ d.entries.head?.map Prod.snd) hdump
  rw [List.take_of_length_le (Nat.le_succ 1), List.map_singleton, howner] at hpid
  have hword : pg2pidAt s.1.allocator zeroBehind (0 + 1) maxFrameNum = 0 := if_neg (Nat.lt_irrefl _)
  exact absurd ((Option.some.inj hpid).trans hword) (by decide)

end CS537.Kalloc
