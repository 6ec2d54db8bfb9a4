import CS537.Kalloc.SafeRuns

/-!
# The bounds of the ownership table

`kalloc` and `kfree` record owners for tracked pages only, so that they write inside of `pg2pid`.
`safe_guard` also reads the entries of the neighbours, and the lower neighbour of the last tracked
frame and those of the untracked frames have none.  A call stays inside the table exactly when
`select_page` finds a page before it comes to these frames.
-/

namespace CS537.Kalloc

open Foundation

/-- The indices of `pg2pid` that `safe_guard` reads for the frame `index`. -/
def safeGuardAccesses (index : ℤ) : List ℤ :=
  if index = 0 then [index + 1] else [index + 1, index - 1]

/-- The free pages that the loop of `select_page` looks at. -/
def examined (next : ℕ → Option ℕ) (safe : ℕ → Bool) : ℕ → Option ℕ → List ℕ
  | 0, _ => []
  | _ + 1, none => []
  | fuel + 1, some r => r :: if safe r then [] else examined next safe fuel (next r)

namespace Allocator

/-- The indices of `pg2pid` that `select_page` reads. -/
def selectPageAccesses (a : Allocator) (junk : ℕ → ℤ → ℤ) (pid : ℤ) : List ℤ :=
  (examined a.kmem.next (a.safe junk pid) (numFrames + 1) a.kmem.freelist).flatMap
    fun r ↦ safeGuardAccesses (va2idx r)

/-- The indices of `pg2pid` that `kalloc` reads and writes. -/
def kallocAccesses (a : Allocator) (junk : ℕ → ℤ → ℤ) (pid : ℤ) : List ℤ :=
  (if pid = -2 then [] else a.selectPageAccesses junk pid) ++
    match a.takePage junk pid with
    | some (r, _) => if tracked r then [(va2idx r : ℤ)] else []
    | none => []

end Allocator

/-- The indices of `pg2pid` that `kfree` writes. -/
def kfreeAccesses (kernelEnd v : ℕ) : List ℤ :=
  if v % pgSize ≠ 0 ∨ v < kernelEnd ∨ v2p v ≥ physTop then []
  else if tracked v then [(va2idx v : ℤ)] else []

/-- All these indices lie in `pg2pid`. -/
def InTable (accesses : List ℤ) : Prop := ∀ i ∈ accesses, 0 ≤ i ∧ i < maxFrameNum

theorem inTable_append {l m : List ℤ} : InTable (l ++ m) ↔ InTable l ∧ InTable m :=
  List.forall_mem_append

theorem inTable_flatMap {l : List ℕ} {f : ℕ → List ℤ} :
    InTable (l.flatMap f) ↔ ∀ r ∈ l, InTable (f r) := by
  simp only [InTable, List.mem_flatMap, forall_exists_index, and_imp]
  exact ⟨fun h r hr i hi ↦ h i r hr hi, fun h i r hr hi ↦ h r hr i hi⟩

/-- `safe_guard` stays in the table when the frame is not the last tracked one nor below it. -/
theorem inTable_safeGuardAccesses {index : ℕ} :
    InTable (safeGuardAccesses index) ↔ index + 1 < maxFrameNum := by
  unfold safeGuardAccesses InTable
  split
  next h =>
    simp only [List.mem_singleton, forall_eq]
    omega
  next h =>
    simp only [List.mem_cons, List.not_mem_nil, or_false, forall_eq_or_imp, forall_eq]
    omega

/-- The write that records the owner of a page. -/
theorem inTable_recorded {r : ℕ} (hframe : Frame r) :
    InTable (if tracked r then [(va2idx r : ℤ)] else []) := by
  split
  next htracked =>
    have hindex := hframe.tracked_iff.mp htracked
    simp only [InTable, List.mem_singleton, forall_eq]
    omega
  next => simp [InTable]

theorem Frame.va2idx_le {va vb : ℕ} (ha : Frame va) (hb : Frame vb) (h : va ≤ vb) :
    va2idx vb ≤ va2idx va := by
  have haeq := ha.eq_add
  have hbeq := hb.eq_add
  rw [ha.va2idx_eq, hb.va2idx_eq]
  have hdiv : v2p va / pgSize ≤ v2p vb / pgSize := Nat.div_le_div_right (by omega)
  omega

/-! ## The pages examined -/

/-- The loop looks at the pages up to the first safe one. -/
theorem examined_eq {next : ℕ → Option ℕ} {safe : ℕ → Bool} {p : Option ℕ} {s t : List ℕ} {r : ℕ}
    {fuel : ℕ} (h : Linked next p (s ++ r :: t)) (hr : safe r = true)
    (hs : ∀ z ∈ s, safe z = false) (hfuel : s.length < fuel) :
    examined next safe fuel p = s ++ [r] := by
  induction s generalizing p fuel with
  | nil =>
    obtain ⟨fuel, rfl⟩ := Nat.exists_eq_succ_of_ne_zero (Nat.ne_zero_of_lt hfuel)
    obtain ⟨rfl, -⟩ := h
    simp [examined, hr]
  | cons a s ih =>
    obtain ⟨fuel, rfl⟩ := Nat.exists_eq_succ_of_ne_zero (Nat.ne_zero_of_lt hfuel)
    obtain ⟨rfl, hnext⟩ := h
    have hrest := ih hnext (fun z hz ↦ hs z (List.mem_cons_of_mem a hz))
      (Nat.lt_of_succ_lt_succ hfuel)
    simp [examined, hs a List.mem_cons_self, hrest]

/-- The search depends on the pages examined only. -/
theorem findSafe_congr {next : ℕ → Option ℕ} {safe safe' : ℕ → Bool} {fuel : ℕ}
    {prev p : Option ℕ} (h : ∀ z ∈ examined next safe fuel p, safe' z = safe z) :
    findSafe next safe' fuel prev p = findSafe next safe fuel prev p := by
  induction fuel generalizing prev p with
  | zero => rfl
  | succ fuel ih =>
    cases p with
    | none => rfl
    | some r =>
      have hr : safe' r = safe r := h r List.mem_cons_self
      cases hsafe : safe r with
      | true => simp [findSafe, hr, hsafe]
      | false =>
        have hrest := @ih (some r) (next r) fun z hz ↦
          h z (by simp [examined, hsafe, hz])
        simp [findSafe, hr, hsafe, hrest]

namespace Allocator

variable {a : Allocator} {l : List ℕ} {junk junk' : ℕ → ℤ → ℤ} {pid : ℤ}

/-- Inside the table `safe_guard` does not depend on what lies around it. -/
theorem safe_congr {r : ℕ} (h : InTable (safeGuardAccesses (va2idx r))) :
    a.safe junk' pid r = a.safe junk pid r := by
  have hread : ∀ i : ℤ, 0 ≤ i ∧ i < maxFrameNum →
      readPid a.pg2pid (junk' r) i = readPid a.pg2pid (junk r) i := by
    intro i hi
    rw [readPid, readPid, if_pos hi, if_pos hi]
  unfold safeGuardAccesses at h
  unfold safe safeGuard
  by_cases hzero : (va2idx r : ℤ) = 0
  · rw [if_pos hzero] at h
    rw [if_pos hzero, if_pos hzero, hread _ (h _ List.mem_cons_self)]
  · rw [if_neg hzero] at h
    have hbelow := h _ (List.mem_cons_of_mem _ List.mem_cons_self)
    rw [hread _ (h _ List.mem_cons_self), hread _ hbelow]

/-- A call that stays inside the table does not depend on what lies around it. -/
theorem kalloc_congr (h : InTable (a.kallocAccesses junk pid)) :
    a.kalloc junk' pid = a.kalloc junk pid := by
  have htake : a.takePage junk' pid = a.takePage junk pid := by
    unfold takePage
    by_cases hpid : pid = -2
    · rw [if_pos hpid, if_pos hpid]
    · rw [kallocAccesses, if_neg hpid] at h
      have hread := inTable_flatMap.mp (inTable_append.mp h).1
      rw [if_neg hpid, if_neg hpid, selectPage, selectPage,
        findSafe_congr fun z hz ↦ safe_congr (hread z hz)]
  rw [kalloc, kalloc, htake]

/-- A call that finds a page stays inside the table if and only if it finds one of index below
`MAX_FRAME_NUM - 1`, or looks at none. -/
theorem inTable_kallocAccesses_iff (h : FreeList a.kmem l)
    (hsuits : ∃ r ∈ l, a.suits junk pid r = true) :
    InTable (a.kallocAccesses junk pid) ↔
      pid = -2 ∨ ∃ r ∈ l, va2idx r + 1 < maxFrameNum ∧ a.suits junk pid r = true := by
  rcases takePage_spec h junk pid with ⟨-, hall⟩ | ⟨s, r, t, htake, rfl, hr, hs⟩
  · obtain ⟨v, hv, hsuit⟩ := hsuits
    rw [hall v hv] at hsuit
    exact absurd hsuit Bool.false_ne_true
  · have hrecorded := inTable_recorded (h.frames r (by simp))
    rw [kallocAccesses, htake, inTable_append, and_iff_left hrecorded]
    by_cases hpid : pid = -2
    · simp [hpid, InTable]
    · have hsafe : a.suits junk pid = a.safe junk pid := by
        funext v
        simp [suits, hpid]
      rw [hsafe] at hr hs ⊢
      have hlength := h.length_le
      have hfuel : s.length < numFrames + 1 := by
        rw [List.length_append, List.length_cons] at hlength
        omega
      rw [if_neg hpid, or_iff_right hpid, selectPageAccesses, examined_eq h.linked hr hs hfuel,
        inTable_flatMap]
      constructor
      · intro hread
        exact ⟨r, by simp, inTable_safeGuardAccesses.mp (hread r (by simp)), hr⟩
      · rintro ⟨v, hv, hindex, hsafev⟩ z hz
        obtain ⟨hsdesc, htdesc, hcross⟩ := List.pairwise_append.mp h.descending
        have hvr : v ≤ r := by
          rcases List.mem_append.mp hv with hv | hv
          · exact absurd hsafev (by simp [hs v hv])
          · rcases List.mem_cons.mp hv with rfl | hv
            · exact Nat.le_refl v
            · exact Nat.le_of_lt ((List.pairwise_cons.mp htdesc).1 v hv)
        have hrz : r ≤ z := by
          rcases List.mem_append.mp hz with hz | hz
          · exact Nat.le_of_lt (hcross z hz r List.mem_cons_self)
          · rw [List.mem_singleton.mp hz]
        have hzl : z ∈ s ++ r :: t := by
          rcases List.mem_append.mp hz with hz | hz
          · exact List.mem_append_left _ hz
          · rw [List.mem_singleton.mp hz]
            simp
        have hle := (h.frames v hv).va2idx_le (h.frames z hzl) (hvr.trans hrz)
        rw [inTable_safeGuardAccesses]
        omega

end Allocator

/-! ## Runs -/

/-- A page given to the allocator and not allocated. -/
def AllocRun.Free (kernelEnd : ℕ) (s : AllocRun) (v : ℕ) : Prop :=
  Given kernelEnd s.phase v ∧ v ∉ s.allocated

theorem AllocInv.free_iff {kernelEnd : ℕ} {s : AllocRun} {l : List ℕ} (h : AllocInv kernelEnd s l)
    {v : ℕ} : s.Free kernelEnd v ↔ v ∈ l := by
  rw [AllocRun.Free, ← h.given v]
  constructor
  · exact fun ⟨hv, hfree⟩ ↦ hv.resolve_right hfree
  · exact fun hv ↦ ⟨.inl hv, h.disjoint v hv⟩

namespace AllocRun

variable {kernelEnd : ℕ} {s : AllocRun}

/-- In every state reached `kfree` stays inside `pg2pid`, and `kalloc(pid)` with a page for `pid`
does exactly when the process is unknown or one of its pages is above the last tracked frame. -/
theorem table_bounds (hs : (machine kernelEnd).Reachable s) :
    (∀ v < 2 ^ 32, InTable (kfreeAccesses kernelEnd v)) ∧
    ∀ junk pid, (∃ r, s.Free kernelEnd r ∧ s.allocator.suits junk pid r = true) →
      (InTable (s.allocator.kallocAccesses junk pid) ↔
        pid = -2 ∨ ∃ r, s.Free kernelEnd r ∧ va2idx r + 1 < maxFrameNum ∧
          s.allocator.suits junk pid r = true) := by
  obtain ⟨l, h⟩ := AllocInv.of_reachable hs
  constructor
  · intro v hv
    unfold kfreeAccesses
    split
    · simp [InTable]
    next hok =>
      push Not at hok
      exact inTable_recorded ⟨hok.1, hv, hok.2.2⟩
  · intro junk pid hsuits
    simp only [h.free_iff] at hsuits ⊢
    exact Allocator.inTable_kallocAccesses_iff h.free hsuits

/-! ## All pages above the last tracked frame taken -/

/-- A page of the memory given is one of those counted from the top. -/
theorem eq_pageAt {v : ℕ} (hframe : Frame v) : v = pageAt (va2idx v) := by
  have heq := hframe.eq_add
  have htop := hframe.lt_physTop
  have haligned := hframe.aligned
  rw [hframe.va2idx_eq]
  simp only [pageAt, numFrames, physTop, pgSize, kernBase] at *
  omega

/-- The `n` highest pages can be handed out to unknown processes. -/
theorem exists_taken {n : ℕ} (hn : n < maxFrameNum) :
    ∃ s, (machine 0x80115000).Reachable s ∧ s.phase = .kinit2 ∧
      ∀ v, v ∈ s.allocated ↔ ∃ i < n, v = pageAt i := by
  induction n with
  | zero =>
    obtain ⟨s, hs, hphase, hallocated⟩ := exists_booted 0x80115000 (by decide) (by decide)
    exact ⟨s, hs, hphase, by simp [hallocated]⟩
  | succ n ih =>
    obtain ⟨s, hs, hphase, hallocated⟩ := ih (by omega)
    obtain ⟨l, h⟩ := AllocInv.of_reachable hs
    have hfree : pageAt n ∉ s.allocated := by
      rw [hallocated]
      rintro ⟨i, hi, heq⟩
      simp only [pageAt, pgSize, maxFrameNum] at heq hn
      omega
    have hmem := (pg2pid_pageAt h hphase (by omega) hfree).1
    have hmax : ∀ v ∈ l, v ≤ pageAt n := by
      intro v hv
      have hindex : n ≤ va2idx v := by
        by_contra hlt
        refine h.disjoint v hv ((hallocated v).mpr ⟨va2idx v, by omega, ?_⟩)
        exact eq_pageAt (h.free.frames v hv)
      rw [eq_pageAt (h.free.frames v hv)]
      simp only [pageAt, pgSize]
      omega
    obtain ⟨a, ha, -⟩ := h.kalloc_highest (fun _ _ ↦ 0) (-2) hmem (by simp [Allocator.suits])
      fun v hv _ ↦ hmax v hv
    refine ⟨{ s with allocator := a, allocated := insert (pageAt n) s.allocated }, ?_, hphase, ?_⟩
    · apply hs.next (l := .kalloc (-2) fun _ _ ↦ 0)
      simp [machine, step, ha]
    · intro v
      rw [Finset.mem_insert, hallocated]
      constructor
      · rintro (rfl | ⟨i, hi, rfl⟩)
        · exact ⟨n, Nat.lt_succ_self n, rfl⟩
        · exact ⟨i, Nat.lt_succ_of_lt hi, rfl⟩
      · rintro ⟨i, hi, rfl⟩
        rcases Nat.lt_succ_iff_lt_or_eq.mp hi with hi | rfl
        · exact .inr ⟨i, hi, rfl⟩
        · exact .inl rfl

/-- After the `16383` highest pages are taken, the search for a page of process `1` looks beyond
the table, though there is a page for it. -/
theorem table_bounds_violated :
    ¬∀ s, (machine 0x80115000).Reachable s → ∀ junk pid,
      (∃ r, s.Free 0x80115000 r ∧ s.allocator.suits junk pid r = true) →
        InTable (s.allocator.kallocAccesses junk pid) := by
  intro hclaim
  obtain ⟨s, hs, hphase, hallocated⟩ := exists_taken (n := 16383) (by decide)
  obtain ⟨l, h⟩ := AllocInv.of_reachable hs
  let junk : ℕ → ℤ → ℤ := fun _ _ ↦ -1
  -- a page whose neighbours are not in the table
  have hindex : va2idx 0x80800000 = 55295 := by decide
  have hfree : s.Free 0x80115000 0x80800000 := by
    constructor
    · rw [hphase]
      exact .inr (mem_pagesBetween.mpr (by decide))
    · rw [hallocated]
      rintro ⟨i, hi, heq⟩
      simp only [pageAt, pgSize] at heq
      omega
  have hsafe : s.allocator.safe junk 1 0x80800000 = true := by
    refine safeGuard_iff.mpr ⟨?_, fun _ ↦ ?_⟩
    · rw [hindex]
      exact .inr (.inl rfl)
    · rw [hindex]
      exact .inr (.inl rfl)
  have hsuits : s.allocator.suits junk 1 0x80800000 = true := by
    rw [Allocator.suits, hsafe, Bool.or_true]
  have hinside := hclaim s hs junk 1 ⟨_, hfree, hsuits⟩
  rcases (Allocator.inTable_kallocAccesses_iff h.free ⟨_, h.free_iff.mp hfree, hsuits⟩).mp hinside
    with hpid | ⟨r, hr, hlt, -⟩
  · simp at hpid
  · refine h.disjoint r hr ((hallocated r).mpr ⟨va2idx r, ?_, eq_pageAt (h.free.frames r hr)⟩)
    simp only [maxFrameNum] at hlt
    omega

/-- After the boot the highest page suits the first process. -/
theorem table_bounds_booted :
    ∃ s, (machine 0x80115000).Reachable s ∧ s.phase = .kinit2 ∧
      ∀ junk, InTable (s.allocator.kallocAccesses junk 1) := by
  obtain ⟨s, hs, hphase, hallocated⟩ := exists_booted 0x80115000 (by decide) (by decide)
  obtain ⟨l, h⟩ := AllocInv.of_reachable hs
  have hfree (i : ℕ) : pageAt i ∉ s.allocated := by simp [hallocated]
  obtain ⟨-, howner⟩ := pg2pid_pageAt h hphase (by decide) (hfree 1)
  have hpage : s.Free 0x80115000 (pageAt 0) := ⟨given_pageAt hphase (by decide), hfree 0⟩
  have hindex : va2idx (pageAt 0) = 0 := by decide
  refine ⟨s, hs, hphase, fun junk ↦ ?_⟩
  have hsuits : s.allocator.suits junk 1 (pageAt 0) = true := by
    apply Allocator.suits_of_neighbours (by decide)
    · rw [hindex]
      exact .inr (.inl howner)
    · simp [hindex]
  exact ((table_bounds hs).2 junk 1 ⟨_, hpage, hsuits⟩).mpr
    (.inr ⟨_, hpage, by decide, hsuits⟩)

end AllocRun

end CS537.Kalloc
