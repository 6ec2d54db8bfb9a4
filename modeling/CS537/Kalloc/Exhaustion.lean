import CS537.Kalloc.SafeKalloc

/-!
# Running out of pages

The callers of `kalloc` test its result for zero.  A call for the unknown process leaves its
critical section with the null pointer when the free list is empty; the other calls search the
list until a page is safe, without a test for its end.
-/

namespace CS537.Kalloc

namespace Allocator

variable {a : Allocator} {l : List ℕ} {junk : ℕ → ℤ → ℤ} {pid : ℤ}

/-- The critical section of `kalloc`, with address zero for the null pointer. -/
def takeOrNull (a : Allocator) (junk : ℕ → ℤ → ℤ) (pid : ℤ) : Option (ℕ × Kmem) :=
  if pid = -2 then
    match a.kmem.freelist with
    | some r => some (r, { a.kmem with freelist := a.kmem.next r })
    | none => some (0, a.kmem)
  else a.selectPage junk pid

/-- `kalloc`, with the bookkeeping that it also does for the null pointer. -/
def kallocOrNull (a : Allocator) (junk : ℕ → ℤ → ℤ) (pid : ℤ) : Option (ℕ × Allocator) :=
  (a.takeOrNull junk pid).bind fun taken ↦ recordOwner { a with kmem := taken.2 } taken.1 pid

/-- The null pointer counts as a tracked page, but has no entry in `pg2pid`. -/
theorem recordOwner_null (a : Allocator) (pid : ℤ) : a.recordOwner 0 pid = none := by
  have htracked : tracked 0 = true := by decide
  have hindex : ¬va2idx 0 < maxFrameNum := by decide
  rw [recordOwner, if_pos htracked, setOwner, if_neg hindex, Option.map_none]

/-- No call ends with the null pointer. -/
theorem kallocOrNull_eq (a : Allocator) (junk : ℕ → ℤ → ℤ) (pid : ℤ) :
    a.kallocOrNull junk pid = a.kalloc junk pid := by
  unfold kallocOrNull kalloc takeOrNull takePage
  by_cases hpid : pid = -2
  · rw [if_pos hpid, if_pos hpid]
    cases a.kmem.freelist with
    | some r => rfl
    | none =>
      rw [Option.map_none, Option.bind_none]
      exact (Option.bind_some _ _).trans (recordOwner_null _ pid)
  · rw [if_neg hpid, if_neg hpid]

/-- There is no free page that `kalloc(pid)` could hand out. -/
def Exhausted (a : Allocator) (junk : ℕ → ℤ → ℤ) (pid : ℤ) (l : List ℕ) : Prop :=
  l = [] ∨ pid ≠ -2 ∧ ∀ r ∈ l, a.safe junk pid r = false

/-- `kalloc(pid)` returns zero and changes nothing. -/
def FailsCleanly (a : Allocator) (junk : ℕ → ℤ → ℤ) (pid : ℤ) : Prop :=
  a.kallocOrNull junk pid = some (0, a)

theorem suits_eq_false_of_exhausted (h : a.Exhausted junk pid l) :
    ∀ r ∈ l, a.suits junk pid r = false := by
  intro r hr
  rcases h with rfl | ⟨hpid, hunsafe⟩
  · exact absurd hr List.not_mem_nil
  · rw [suits, hunsafe r hr, decide_eq_false hpid, Bool.or_false]

/-- Without such a page the call leaves the table of owners or follows the null pointer. -/
theorem kalloc_of_exhausted (hlist : FreeList a.kmem l) (h : a.Exhausted junk pid l) :
    a.kalloc junk pid = none := by
  have hunsuited := suits_eq_false_of_exhausted h
  rcases kalloc_spec hlist junk pid with ⟨hnone, -⟩ | ⟨s, r, t, a', -, hsplit, hr, -⟩
  · exact hnone
  · have hmem : r ∈ l := by
      rw [hsplit]
      exact List.mem_append_right s List.mem_cons_self
    rw [hunsuited r hmem] at hr
    exact absurd hr Bool.false_ne_true

/-- A call that finds no page never fails cleanly. -/
theorem exhausted_kalloc_not_clean (a : Allocator) (l : List ℕ) (junk : ℕ → ℤ → ℤ) (pid : ℤ)
    (hlist : FreeList a.kmem l) (h : a.Exhausted junk pid l) :
    a.kallocOrNull junk pid = none ∧ ¬a.FailsCleanly junk pid := by
  have hnone : a.kallocOrNull junk pid = none := by
    rw [kallocOrNull_eq]
    exact kalloc_of_exhausted hlist h
  refine ⟨hnone, fun hclean ↦ ?_⟩
  rw [FailsCleanly, hnone] at hclean
  exact absurd hclean.symm (Option.some_ne_none _)

/-- All pages were handed out to process `1`. -/
def outOfPages : Allocator where
  kmem := { freelist := none, next := fun _ ↦ none }
  pg2pid _ := 1
  allocatedCount := maxFrameNum
  initflag := true

theorem exhausted_kalloc_not_clean_outOfPages :
    outOfPages.kallocOrNull (fun _ _ ↦ 0) (-2) = none ∧
      ¬outOfPages.FailsCleanly (fun _ _ ↦ 0) (-2) :=
  exhausted_kalloc_not_clean outOfPages [] _ (-2) ⟨rfl, List.Pairwise.nil, by simp⟩ (.inl rfl)

/-- All pages but the second highest were handed out to process `1`. -/
def onePageLeft : Allocator where
  kmem := { freelist := some 0x8DFFE000, next := fun _ ↦ none }
  pg2pid i := if i = 1 then -1 else 1
  allocatedCount := maxFrameNum - 1
  initflag := true

theorem freeList_onePageLeft : FreeList onePageLeft.kmem [0x8DFFE000] := by
  refine ⟨⟨rfl, rfl⟩, List.pairwise_singleton _ _, fun va hva ↦ ?_⟩
  rw [List.mem_singleton] at hva
  subst hva
  exact ⟨by decide, by decide, by decide⟩

/-- Neither the empty list nor one unsafe page makes `kalloc` return zero. -/
theorem exhausted_kalloc_fails :
    (FreeList outOfPages.kmem [] ∧ outOfPages.kallocOrNull (fun _ _ ↦ 0) (-2) = none) ∧
    (FreeList onePageLeft.kmem [0x8DFFE000] ∧
      onePageLeft.Exhausted (fun _ _ ↦ 0) 2 [0x8DFFE000] ∧
      onePageLeft.kallocOrNull (fun _ _ ↦ 0) 2 = none) := by
  have hempty : FreeList outOfPages.kmem [] := ⟨rfl, List.Pairwise.nil, by simp⟩
  have hunsafe : onePageLeft.Exhausted (fun _ _ ↦ 0) 2 [0x8DFFE000] := by
    refine .inr ⟨by decide, fun r hr ↦ ?_⟩
    rw [List.mem_singleton] at hr
    subst hr
    decide
  refine ⟨⟨hempty, ?_⟩, freeList_onePageLeft, hunsafe, ?_⟩
  · rw [kallocOrNull_eq]
    exact kalloc_of_exhausted hempty (.inl rfl)
  · rw [kallocOrNull_eq]
    exact kalloc_of_exhausted freeList_onePageLeft hunsafe

end Allocator

end CS537.Kalloc
