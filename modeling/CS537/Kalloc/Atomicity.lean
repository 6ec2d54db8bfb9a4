import CS537.Foundation.Linearization
import CS537.Kalloc.SafeRuns
import Mathlib.Data.List.Permutation

/-!
# Concurrent calls of the isolating allocator

Only the critical section of a call holds `kmem.lock`.  `kalloc` records the owner of its page after
the release, and `kfree` marks its page before it acquires the lock, so that `safe_guard` may read
entries of `pg2pid` that the free list is ahead of or behind.  As long as no such entry changes the
answer for a page that is examined, the calls amount to a sequential order of themselves: that of
their critical sections.
-/

namespace CS537.Kalloc

open Foundation

/-- A call, made once; `junk` is what its reads outside of `pg2pid` give. -/
inductive ConcCall where
  | kalloc (pid : ℤ) (junk : ℕ → ℤ → ℤ)
  | kfree (v : ℕ)

/-- How far a call has come.  `owner` is the entry that the mark of `kfree` replaced. -/
inductive CallState where
  | start
  | taken (r : ℕ)
  | returned (r : ℕ)
  | marked (owner : ℤ)
  | freed
  deriving DecidableEq

/-- The allocator with its calls; a page is allocated from the return of `kalloc` to the call of
`kfree`. -/
structure Concurrent (n : ℕ) where
  allocator : Allocator
  allocated : Finset ℕ
  threads : Fin n → CallState

namespace Concurrent

variable {n : ℕ}

/-- One step of a call between two points at which the lock is acquired or released. -/
def step (kernelEnd : ℕ) (calls : Fin n → ConcCall) (s : Concurrent n) (t : Fin n) :
    Option (Concurrent n) :=
  match calls t, s.threads t with
  | .kalloc pid junk, .start =>
    (s.allocator.takePage junk pid).map fun taken ↦
      { s with
        allocator := { s.allocator with kmem := taken.2 }
        threads := Function.update s.threads t (.taken taken.1) }
  | .kalloc pid _, .taken r =>
    (s.allocator.recordOwner r pid).map fun recorded ↦
      { allocator := recorded.2
        allocated := insert r s.allocated
        threads := Function.update s.threads t (.returned r) }
  | .kfree v, .start =>
    if v ∈ s.allocated then
      (s.allocator.kfreeMark kernelEnd v).map fun a ↦
        { allocator := a
          allocated := s.allocated.erase v
          threads := Function.update s.threads t (.marked (s.allocator.pg2pid (va2idx v))) }
    else none
  | .kfree v, .marked _ =>
    (s.allocator.kfreeInsert v).map fun a ↦
      { s with allocator := a, threads := Function.update s.threads t .freed }
  | _, _ => none

/-- A whole call. -/
def callStep (kernelEnd : ℕ) (calls : Fin n → ConcCall) (s : Concurrent n) (t : Fin n) :
    Option (Concurrent n) :=
  match calls t, s.threads t with
  | .kalloc pid junk, .start =>
    (s.allocator.kalloc junk pid).map fun taken ↦
      { allocator := taken.2
        allocated := insert taken.1 s.allocated
        threads := Function.update s.threads t (.returned taken.1) }
  | .kfree v, .start =>
    if v ∈ s.allocated then
      (s.allocator.kfree kernelEnd v).map fun a ↦
        { allocator := a
          allocated := s.allocated.erase v
          threads := Function.update s.threads t .freed }
    else none
  | _, _ => none

def interleaved (kernelEnd : ℕ) (calls : Fin n → ConcCall) (s₀ : Concurrent n) :
    Machine (Concurrent n) (Fin n) where
  init s := s = s₀
  step := step kernelEnd calls

def sequential (kernelEnd : ℕ) (calls : Fin n → ConcCall) (s₀ : Concurrent n) :
    Machine (Concurrent n) (Fin n) where
  init s := s = s₀
  step := callStep kernelEnd calls

/-- No call has been made, and the allocator is in order. -/
structure Quiet (kernelEnd : ℕ) (s : Concurrent n) (l : List ℕ) : Prop where
  free : FreeList s.allocator.kmem l
  disjoint : ∀ v ∈ l, v ∉ s.allocated
  frames : ∀ v, v ∈ l ∨ v ∈ s.allocated → Frame v ∧ kernelEnd ≤ v
  start : ∀ t, s.threads t = .start

/-! ## Updates that are early or late -/

/-- The page of a call between its critical section and its update of `pg2pid`, with the owner
that it has in the order of the critical sections. -/
def pendingOf (call : ConcCall) : CallState → Option (ℕ × ℤ)
  | .taken r =>
    match call with
    | .kalloc pid _ => some (r, pid)
    | .kfree _ => none
  | .marked owner =>
    match call with
    | .kalloc _ _ => none
    | .kfree v => some (v, owner)
  | _ => none

variable (calls : Fin n → ConcCall)

/-- Call `t` has page `r` pending, which then belongs to `owner`. -/
def Pending (s : Concurrent n) (t : Fin n) (r : ℕ) (owner : ℤ) : Prop :=
  pendingOf (calls t) (s.threads t) = some (r, owner)

/-- The table of owners with the late entries of `kalloc` made, and the early ones of `kfree` not
made. -/
structure SettledTable (s : Concurrent n) (table : ℕ → ℤ) : Prop where
  pending : ∀ t r owner, s.Pending calls t r owner → tracked r = true → table (va2idx r) = owner
  others : ∀ i, (∀ t r owner, s.Pending calls t r owner → tracked r = true → va2idx r ≠ i) →
    table i = s.allocator.pg2pid i

end Concurrent

/-- The critical section of `kalloc(pid)` examines the free page `r`: no page before it suits. -/
def Allocator.Examines (a : Allocator) (junk : ℕ → ℤ → ℤ) (pid : ℤ) (r : ℕ) : Prop :=
  ∃ u w, FreeList a.kmem (u ++ r :: w) ∧ ∀ z ∈ u, a.suits junk pid z = false

namespace Concurrent

variable {n : ℕ} (calls : Fin n → ConcCall)

/-- If the step is the critical section of a `kalloc`, then `safe_guard` answers for every page
examined as it would on the settled table. -/
def ReadsSettled (s : Concurrent n) (t : Fin n) : Prop :=
  ∀ pid junk, calls t = .kalloc pid junk → s.threads t = .start →
    ∀ table, s.SettledTable calls table → ∀ r, s.allocator.Examines junk pid r →
      { s.allocator with pg2pid := table }.suits junk pid r = s.allocator.suits junk pid r

end Concurrent

/-- The call has passed its critical section. -/
def CallState.effective : CallState → Prop
  | .taken _ | .returned _ | .freed => True
  | .start | .marked _ => False

/-- What has become of a call in the order of the critical sections. -/
def CallState.settled : CallState → CallState
  | .taken r => .returned r
  | .marked _ => .start
  | .start => .start
  | .returned r => .returned r
  | .freed => .freed

namespace Allocator

variable {kernelEnd : ℕ} {a a' : Allocator} {r r' : ℕ} {pid : ℤ}

theorem recordOwner_spec (h : a.recordOwner r pid = some (r', a')) :
    a'.kmem = a.kmem ∧ a'.pg2pid = ownersAfter a.pg2pid r pid := by
  unfold recordOwner at h
  unfold ownersAfter
  split at h
  next htracked =>
    obtain ⟨b, hb, heq⟩ := Option.map_eq_some_iff.mp h
    obtain ⟨rfl, rfl⟩ := Prod.mk.inj heq
    unfold setOwner at hb
    split at hb
    · obtain rfl := Option.some.inj hb
      exact ⟨rfl, (if_pos htracked).symm⟩
    · simp at hb
  next htracked =>
    obtain ⟨rfl, rfl⟩ := Prod.mk.inj (Option.some.inj h)
    exact ⟨rfl, (if_neg htracked).symm⟩

theorem ownersAfter_self {pg2pid : ℕ → ℤ} (h : tracked r = true) :
    ownersAfter pg2pid r pid (va2idx r) = pid := by
  rw [ownersAfter, if_pos h, Function.update_self]

theorem ownersAfter_of_ne {pg2pid : ℕ → ℤ} {i : ℕ} (h : tracked r = true → va2idx r ≠ i) :
    ownersAfter pg2pid r pid i = pg2pid i := by
  unfold ownersAfter
  split
  next htracked => exact Function.update_of_ne (h htracked).symm _ _
  next => rfl

/-- The first free page that suits is the same for two allocators with the same free list that
agree on the pages examined. -/
theorem kalloc_of_agree {b : Allocator} {l : List ℕ} {junk : ℕ → ℤ → ℤ} {kmem : Kmem}
    (ha : FreeList a.kmem l) (hb : FreeList b.kmem l)
    (hagree : ∀ z, a.Examines junk pid z → b.suits junk pid z = a.suits junk pid z)
    (htake : a.takePage junk pid = some (r, kmem)) :
    ∃ b' l', b.kalloc junk pid = some (r, b') ∧ FreeList kmem l' ∧ FreeList b'.kmem l' ∧
      b'.pg2pid = ownersAfter b.pg2pid r pid ∧ l.Perm (r :: l') := by
  rcases takePage_spec ha junk pid with ⟨hnone, -⟩ | ⟨u, r₁, w, hsome, rfl, hsuits, hu⟩
  · rw [hnone] at htake
    exact absurd htake.symm (Option.some_ne_none _)
  · obtain ⟨rfl, rfl⟩ := Prod.mk.inj (Option.some.inj (htake.symm.trans hsome))
    have hr : b.suits junk pid r = true := (hagree r ⟨u, w, ha, hu⟩).trans hsuits
    have hbefore : ∀ z ∈ u, b.suits junk pid z = false := by
      intro z hz
      obtain ⟨u₁, u₂, rfl⟩ := List.append_of_mem hz
      rw [List.append_assoc, List.cons_append] at ha
      have hex : a.Examines junk pid z :=
        ⟨u₁, u₂ ++ r :: w, ha, fun y hy ↦ hu y (List.mem_append_left _ hy)⟩
      rw [hagree z hex]
      exact hu z hz
    rcases kalloc_spec hb junk pid with ⟨-, hall⟩ | ⟨u', r', w', b', hb', heq, hr', hu', hfree, howners⟩
    · rw [hall r (by simp)] at hr
      exact absurd hr Bool.false_ne_true
    · -- Both are the first page of the list that suits.
      have hfind : (u ++ r :: w).find? (b.suits junk pid) = some r :=
        List.find?_eq_some_iff_append.mpr ⟨hr, u, w, rfl, fun z hz ↦ by simp [hbefore z hz]⟩
      have hfind' : (u ++ r :: w).find? (b.suits junk pid) = some r' :=
        List.find?_eq_some_iff_append.mpr ⟨hr', u', w', heq, fun z hz ↦ by simp [hu' z hz]⟩
      obtain rfl := Option.some.inj (hfind.symm.trans hfind')
      have hr_u : r ∉ u := fun hmem ↦ by
        rw [hbefore r hmem] at hr
        exact absurd hr Bool.false_ne_true
      have hr_u' : r ∉ u' := fun hmem ↦ by
        rw [hu' r hmem] at hr
        exact absurd hr Bool.false_ne_true
      have hlists : u ++ w = u' ++ w' := by
        have herase := congrArg (List.erase · r) heq
        simpa only [List.erase_append_right _ hr_u, List.erase_append_right _ hr_u',
          List.erase_cons_head] using herase
      refine ⟨b', u ++ w, hb', ha.unlink, ?_, howners, List.perm_middle⟩
      rw [hlists]
      exact hfree

end Allocator

namespace Concurrent

variable {n : ℕ} {calls : Fin n → ConcCall} {kernelEnd : ℕ} {s s' q : Concurrent n} {l : List ℕ}
  {t u : Fin n} {place : CallState} {r v : ℕ} {owner : ℤ}

/-! ## Pages become pending and are settled -/

/-- Page `r` becomes pending for call `t`, which had no page pending. -/
structure BecomesPending (calls : Fin n → ConcCall) (s s' : Concurrent n) (t : Fin n) (r : ℕ)
    (owner : ℤ) : Prop where
  iff : ∀ u v o, s'.Pending calls u v o ↔ s.Pending calls u v o ∨ u = t ∧ v = r ∧ o = owner
  none : ∀ v o, ¬s.Pending calls t v o

theorem becomesPending_of_update (place : CallState) (hthreads : s'.threads = Function.update s.threads t place)
    (hnone : pendingOf (calls t) (s.threads t) = none)
    (hsome : pendingOf (calls t) place = some (r, owner)) :
    BecomesPending calls s s' t r owner := by
  have hbefore (v : ℕ) (o : ℤ) : ¬s.Pending calls t v o := by
    rw [Pending, hnone]
    exact Option.some_ne_none _ ∘ Eq.symm
  refine ⟨fun u v o ↦ ?_, hbefore⟩
  by_cases hut : u = t
  · subst hut
    rw [Pending, hthreads, Function.update_self, hsome, Option.some.injEq, Prod.mk.injEq]
    constructor
    · rintro ⟨rfl, rfl⟩
      exact .inr ⟨rfl, rfl, rfl⟩
    · rintro (hp | ⟨-, rfl, rfl⟩)
      · exact absurd hp (hbefore v o)
      · exact ⟨rfl, rfl⟩
  · rw [Pending, Pending, hthreads, Function.update_of_ne hut]
    exact ⟨.inl, fun hp ↦ hp.resolve_right fun heq ↦ hut heq.1⟩

namespace BecomesPending

variable {table table' : ℕ → ℤ}

theorem new (h : BecomesPending calls s s' t r owner) : s'.Pending calls t r owner :=
  (h.iff t r owner).mpr (.inr ⟨rfl, rfl, rfl⟩)

theorem old (h : BecomesPending calls s s' t r owner) {o : ℤ} (hp : s.Pending calls u v o) :
    s'.Pending calls u v o :=
  (h.iff u v o).mpr (.inl hp)

/-- The settled table after a page has become pending. -/
theorem settledTable (h : BecomesPending calls s s' t r owner) (htable : s.SettledTable calls table)
    (hindex : ∀ u v o, s.Pending calls u v o → va2idx v ≠ va2idx r)
    (hself : tracked r = true → table' (va2idx r) = owner)
    (hothers : ∀ i, (tracked r = true → va2idx r ≠ i) → table' i = table i ∧
      s'.allocator.pg2pid i = s.allocator.pg2pid i) : s'.SettledTable calls table' := by
  refine ⟨fun u v o hp htracked ↦ ?_, fun i hi ↦ ?_⟩
  · rcases (h.iff u v o).mp hp with hp | ⟨rfl, rfl, rfl⟩
    · rw [(hothers _ fun _ ↦ (hindex u v o hp).symm).1]
      exact htable.pending u v o hp htracked
    · exact hself htracked
  · obtain ⟨heq, hpg2pid⟩ := hothers i (hi t r owner h.new)
    rw [heq, hpg2pid]
    exact htable.others i fun u v o hp ↦ hi u v o (h.old hp)

/-- The settled table after a pending page has been settled: `s'` is the state before. -/
theorem settledTable_back (h : BecomesPending calls s s' t r owner)
    (htable : s'.SettledTable calls table)
    (hindex : ∀ u v o, s.Pending calls u v o → va2idx v ≠ va2idx r)
    (hself : tracked r = true → table' (va2idx r) = s.allocator.pg2pid (va2idx r))
    (hothers : ∀ i, (tracked r = true → va2idx r ≠ i) → table' i = table i ∧
      s.allocator.pg2pid i = s'.allocator.pg2pid i) : s.SettledTable calls table' := by
  refine ⟨fun u v o hp htracked ↦ ?_, fun i hi ↦ ?_⟩
  · rw [(hothers _ fun _ ↦ (hindex u v o hp).symm).1]
    exact htable.pending u v o (h.old hp) htracked
  · by_cases hr : tracked r = true ∧ va2idx r = i
    · obtain ⟨htracked, rfl⟩ := hr
      exact hself htracked
    · obtain ⟨heq, hpg2pid⟩ := hothers i fun htracked heq ↦ hr ⟨htracked, heq⟩
      rw [heq, hpg2pid]
      refine htable.others i fun u v o hp htracked heq ↦ ?_
      rcases (h.iff u v o).mp hp with hp | ⟨-, rfl, -⟩
      · exact hi u v o hp htracked heq
      · exact hr ⟨htracked, heq⟩

end BecomesPending

/-- The pages that are allocated in the order of the critical sections: those that are allocated,
and those that are pending. -/
structure Holds (calls : Fin n → ConcCall) (s : Concurrent n) (held : Finset ℕ) : Prop where
  mem_iff : ∀ v, v ∈ held ↔ v ∈ s.allocated ∨ ∃ t owner, s.Pending calls t v owner
  apart : ∀ t r owner, s.Pending calls t r owner → r ∉ s.allocated
  unique : ∀ t u r owner owner', s.Pending calls t r owner → s.Pending calls u r owner' → t = u

namespace Holds

variable {held held' : Finset ℕ}

theorem mem_of_pending (h : s.Holds calls held) (hp : s.Pending calls t r owner) : r ∈ held :=
  (h.mem_iff r).mpr (.inr ⟨t, owner, hp⟩)

theorem becomesPending (h : s.Holds calls held) (hpending : BecomesPending calls s s' t r owner)
    (hnew : ∀ u o, ¬s.Pending calls u r o) (hr : r ∈ held') (hr' : r ∉ s'.allocated)
    (hothers : ∀ v, v ≠ r → (v ∈ s'.allocated ↔ v ∈ s.allocated) ∧ (v ∈ held' ↔ v ∈ held)) :
    s'.Holds calls held' := by
  refine ⟨fun v ↦ ?_, fun u v o hp ↦ ?_, fun u₁ u₂ v o₁ o₂ hp₁ hp₂ ↦ ?_⟩
  · by_cases hvr : v = r
    · rw [hvr]
      exact iff_of_true hr (.inr ⟨t, owner, hpending.new⟩)
    · obtain ⟨hallocated, hheld⟩ := hothers v hvr
      rw [hheld, hallocated, h.mem_iff v]
      refine or_congr_right ⟨fun ⟨u, o, hp⟩ ↦ ⟨u, o, hpending.old hp⟩, fun ⟨u, o, hp⟩ ↦ ?_⟩
      exact ⟨u, o, ((hpending.iff u v o).mp hp).resolve_right fun heq ↦ hvr heq.2.1⟩
  · by_cases hvr : v = r
    · rwa [hvr]
    · rw [(hothers v hvr).1]
      exact h.apart u v o (((hpending.iff u v o).mp hp).resolve_right fun heq ↦ hvr heq.2.1)
  · rcases (hpending.iff u₁ v o₁).mp hp₁ with hp₁ | ⟨rfl, rfl, -⟩
    · rcases (hpending.iff u₂ v o₂).mp hp₂ with hp₂ | ⟨-, rfl, -⟩
      · exact h.unique u₁ u₂ v o₁ o₂ hp₁ hp₂
      · exact absurd hp₁ (hnew u₁ o₁)
    · rcases (hpending.iff u₂ v o₂).mp hp₂ with hp₂ | ⟨rfl, -, -⟩
      · exact absurd hp₂ (hnew u₂ o₂)
      · rfl

/-- A page that was pending in `s'` has been settled in `s`. -/
theorem settled (h : s'.Holds calls held) (hpending : BecomesPending calls s s' t r owner)
    (hr : r ∈ held' ↔ r ∈ s.allocated)
    (hothers : ∀ v, v ≠ r → (v ∈ s.allocated ↔ v ∈ s'.allocated) ∧ (v ∈ held' ↔ v ∈ held)) :
    s.Holds calls held' := by
  have hne {u : Fin n} {v : ℕ} {o : ℤ} (hp : s.Pending calls u v o) : v ≠ r := by
    rintro rfl
    have hut := h.unique u t v o owner (hpending.old hp) hpending.new
    exact hpending.none v o (hut ▸ hp)
  refine ⟨fun v ↦ ?_, fun u v o hp ↦ ?_,
    fun u₁ u₂ v o₁ o₂ hp₁ hp₂ ↦ h.unique u₁ u₂ v o₁ o₂ (hpending.old hp₁) (hpending.old hp₂)⟩
  · by_cases hvr : v = r
    · rw [hvr, hr]
      exact ⟨.inl, fun hv ↦ hv.resolve_right fun ⟨u, o, hp⟩ ↦ hne hp rfl⟩
    · obtain ⟨hallocated, hheld⟩ := hothers v hvr
      rw [hheld, hallocated, h.mem_iff v]
      refine or_congr_right ⟨fun ⟨u, o, hp⟩ ↦ ?_, fun ⟨u, o, hp⟩ ↦ ⟨u, o, hpending.old hp⟩⟩
      exact ⟨u, o, ((hpending.iff u v o).mp hp).resolve_right fun heq ↦ hvr heq.2.1⟩
  · rw [(hothers v (hne hp)).1]
    exact h.apart u v o (hpending.old hp)

end Holds

/-! ## The order of the critical sections -/

/-- The states of the interleaved calls and of those in the order of the critical sections. -/
structure Ordered (kernelEnd : ℕ) (calls : Fin n → ConcCall) (s q : Concurrent n) (l : List ℕ) :
    Prop where
  free : FreeList s.allocator.kmem l
  freeSeq : FreeList q.allocator.kmem l
  table : s.SettledTable calls q.allocator.pg2pid
  holds : s.Holds calls q.allocated
  disjoint : ∀ v ∈ l, v ∉ q.allocated
  frames : ∀ v, v ∈ l ∨ v ∈ q.allocated → Frame v ∧ kernelEnd ≤ v
  marked : ∀ t v owner, s.threads t = .marked owner → calls t = .kfree v → tracked v = true →
    s.allocator.pg2pid (va2idx v) = -1
  threads : ∀ t, q.threads t = (s.threads t).settled

namespace Ordered

theorem notMem_of_pending (h : Ordered kernelEnd calls s q l) (hp : s.Pending calls t r owner) :
    r ∉ l := fun hr ↦ h.disjoint r hr (h.holds.mem_of_pending hp)

/-- The frame of a pending page is another than that of another page. -/
theorem index_ne (h : Ordered kernelEnd calls s q l) (hp : s.Pending calls t r owner)
    (hv : v ∈ l ∨ v ∈ q.allocated) (hne : r ≠ v) : va2idx r ≠ va2idx v := fun heq ↦
  hne ((h.frames r (.inr (h.holds.mem_of_pending hp))).1.va2idx_inj (h.frames v hv).1 heq)

theorem settled_update {threads threads' : Fin n → CallState} {place place' : CallState}
    (h : ∀ u, threads' u = (threads u).settled) (hplace : place' = place.settled) (u : Fin n) :
    Function.update threads' t place' u = (Function.update threads t place u).settled := by
  by_cases hut : u = t
  · subst hut
    rw [Function.update_self, Function.update_self, hplace]
  · rw [Function.update_of_ne hut, Function.update_of_ne hut, h u]

/-- A step that leaves the mark of a page leaves it marked. -/
theorem marked_update (h : Ordered kernelEnd calls s q l)
    (hthreads : s'.threads = Function.update s.threads t place)
    (hplace : ∀ owner v, place = .marked owner → calls t = .kfree v → tracked v = true →
      s'.allocator.pg2pid (va2idx v) = -1)
    (hpg2pid : ∀ u v o, u ≠ t → s.Pending calls u v o →
      s'.allocator.pg2pid (va2idx v) = s.allocator.pg2pid (va2idx v))
    (u : Fin n) (v : ℕ) (owner : ℤ) (hu : s'.threads u = .marked owner) (hcall : calls u = .kfree v)
    (htracked : tracked v = true) : s'.allocator.pg2pid (va2idx v) = -1 := by
  rw [hthreads] at hu
  by_cases hut : u = t
  · subst hut
    rw [Function.update_self] at hu
    exact hplace owner v hu hcall htracked
  · rw [Function.update_of_ne hut] at hu
    have hp : s.Pending calls u v owner := by rw [Pending, hu, hcall]; rfl
    rw [hpg2pid u v owner hut hp]
    exact h.marked u v owner hu hcall htracked

theorem start (h : s.Quiet kernelEnd l) : Ordered kernelEnd calls s s l := by
  have hnone (t : Fin n) (r : ℕ) (owner : ℤ) : ¬s.Pending calls t r owner := by
    rw [Pending, h.start t]
    exact Option.some_ne_none _ ∘ Eq.symm
  refine ⟨h.free, h.free, ⟨fun t r owner hp ↦ absurd hp (hnone t r owner), fun _ _ ↦ rfl⟩,
    ⟨fun v ↦ ?_, fun t r owner hp ↦ absurd hp (hnone t r owner),
      fun t u r owner _ hp ↦ absurd hp (hnone t r owner)⟩,
    h.disjoint, h.frames, fun t v owner ht ↦ ?_, fun t ↦ ?_⟩
  · exact ⟨.inl, fun hv ↦ hv.resolve_right fun ⟨t, owner, hp⟩ ↦ hnone t v owner hp⟩
  · rw [h.start t] at ht
    exact CallState.noConfusion ht
  · rw [h.start t]
    rfl

/-- The critical section of `kalloc`, at which the whole call takes effect. -/
theorem take (h : Ordered kernelEnd calls s q l) {pid : ℤ} {junk : ℕ → ℤ → ℤ}
    (hcall : calls t = .kalloc pid junk) (ht : s.threads t = .start)
    (hsettled : s.ReadsSettled calls t) {kmem : Kmem}
    (htake : s.allocator.takePage junk pid = some (r, kmem)) :
    ∃ q' l', q.callStep kernelEnd calls t = some q' ∧ Ordered kernelEnd calls
      { s with
        allocator := { s.allocator with kmem := kmem }
        threads := Function.update s.threads t (.taken r) } q' l' := by
  have hagree (z : ℕ) (hz : s.allocator.Examines junk pid z) :
      q.allocator.suits junk pid z = s.allocator.suits junk pid z :=
    hsettled pid junk hcall ht _ h.table z hz
  obtain ⟨b, l', hkalloc, hfree, hfreeSeq, howners, hperm⟩ :=
    Allocator.kalloc_of_agree h.free h.freeSeq hagree htake
  have hr : r ∈ l := hperm.symm.subset List.mem_cons_self
  have hsub (v : ℕ) (hv : v ∈ l') : v ∈ l := hperm.symm.subset (List.mem_cons_of_mem r hv)
  have hr' : r ∉ l' := (List.nodup_cons.mp (hperm.nodup_iff.mp h.free.linked.nodup)).1
  have hrq : r ∉ q.allocated := h.disjoint r hr
  have hnew (u : Fin n) (o : ℤ) : ¬s.Pending calls u r o := fun hp ↦ h.notMem_of_pending hp hr
  have hq' : q.callStep kernelEnd calls t = some
      { allocator := b
        allocated := insert r q.allocated
        threads := Function.update q.threads t (.returned r) } := by
    have htq : q.threads t = .start := by rw [h.threads t, ht]; rfl
    rw [callStep, hcall, htq]
    simp only [hkalloc, Option.map_some]
  have hpending : BecomesPending calls s
      { s with
        allocator := { s.allocator with kmem := kmem }
        threads := Function.update s.threads t (.taken r) } t r pid :=
    becomesPending_of_update _ rfl (by rw [ht]; rfl) (by rw [hcall]; rfl)
  refine ⟨_, l', hq', hfree, hfreeSeq, ?_, ?_, fun v hv ↦ ?_, fun v hv ↦ h.frames v ?_,
    h.marked_update rfl (fun _ _ hplace ↦ CallState.noConfusion hplace) fun _ _ _ _ _ ↦ rfl,
    settled_update h.threads rfl⟩
  · refine hpending.settledTable h.table
      (fun u v o hp ↦ h.index_ne hp (.inl hr) fun heq ↦ hnew u o (heq ▸ hp)) ?_ fun i hi ↦ ⟨?_, rfl⟩
    · rw [howners]
      exact Allocator.ownersAfter_self
    · rw [howners]
      exact Allocator.ownersAfter_of_ne hi
  · refine h.holds.becomesPending hpending hnew (Finset.mem_insert_self r _)
      (fun hmem ↦ hrq ((h.holds.mem_iff r).mpr (.inl hmem))) fun v hvr ↦ ⟨Iff.rfl, ?_⟩
    exact Finset.mem_insert.trans (or_iff_right hvr)
  · rw [Finset.mem_insert, not_or]
    exact ⟨ne_of_mem_of_not_mem hv hr', h.disjoint v (hsub v hv)⟩
  · rcases hv with hv | hv
    · exact .inl (hsub v hv)
    · rcases Finset.mem_insert.mp hv with rfl | hv
      · exact .inl hr
      · exact .inr hv

/-- The end of `kalloc`, which records the owner late. -/
theorem record (h : Ordered kernelEnd calls s q l) {pid : ℤ} {junk : ℕ → ℤ → ℤ}
    (hcall : calls t = .kalloc pid junk) (ht : s.threads t = .taken r) {r' : ℕ} {a : Allocator}
    (hrecord : s.allocator.recordOwner r pid = some (r', a)) :
    Ordered kernelEnd calls
      { allocator := a
        allocated := insert r s.allocated
        threads := Function.update s.threads t (.returned r) } q l := by
  obtain ⟨hkmem, howners⟩ := Allocator.recordOwner_spec hrecord
  have hp : s.Pending calls t r pid := by rw [Pending, ht, hcall]; rfl
  have hrq : r ∈ q.allocated := h.holds.mem_of_pending hp
  have hpending : BecomesPending calls
      { allocator := a
        allocated := insert r s.allocated
        threads := Function.update s.threads t (.returned r) } s t r pid := by
    refine becomesPending_of_update (.taken r) ?_ ?_ (by rw [hcall]; rfl)
    · rw [Function.update_idem, ← ht, Function.update_eq_self]
    · change pendingOf _ (Function.update s.threads t _ t) = none
      rw [Function.update_self]
      rfl
  have hindex (u : Fin n) (v : ℕ) (o : ℤ) (hut : u ≠ t) (hu : s.Pending calls u v o) :
      va2idx v ≠ va2idx r :=
    h.index_ne hu (.inr hrq) fun heq ↦ hut (h.holds.unique u t v o pid hu (heq ▸ hp))
  refine ⟨hkmem ▸ h.free, h.freeSeq, ?_, ?_, h.disjoint, h.frames,
    h.marked_update rfl (fun _ _ hplace ↦ CallState.noConfusion hplace) fun u v o hut hu ↦ ?_, ?_⟩
  · refine hpending.settledTable_back h.table (fun u v o hu ↦ ?_) (fun htracked ↦ ?_)
      fun i hi ↦ ⟨rfl, ?_⟩
    · exact hindex u v o (fun heq ↦ hpending.none v o (heq ▸ hu)) (hpending.old hu)
    · rw [h.table.pending t r pid hp htracked, howners, Allocator.ownersAfter_self htracked]
    · rw [howners, Allocator.ownersAfter_of_ne hi]
  · refine h.holds.settled hpending (iff_of_true hrq (Finset.mem_insert_self r _)) fun v hvr ↦
      ⟨?_, Iff.rfl⟩
    exact Finset.mem_insert.trans (or_iff_right hvr)
  · rw [howners]
    exact Allocator.ownersAfter_of_ne fun _ ↦ (hindex u v o hut hu).symm
  · have hplace : q.threads t = (CallState.returned r).settled := by rw [h.threads t, ht]; rfl
    have hupdate := settled_update (t := t) h.threads hplace
    rwa [Function.update_eq_self] at hupdate

/-- The mark of `kfree`, which comes early. -/
theorem mark (h : Ordered kernelEnd calls s q l) (hcall : calls t = .kfree v)
    (ht : s.threads t = .start) (hv : v ∈ s.allocated) {a : Allocator}
    (hmark : s.allocator.kfreeMark kernelEnd v = some a) :
    Ordered kernelEnd calls
      { allocator := a
        allocated := s.allocated.erase v
        threads := Function.update s.threads t (.marked (s.allocator.pg2pid (va2idx v))) } q l := by
  have hvq : v ∈ q.allocated := (h.holds.mem_iff v).mpr (.inl hv)
  have hvl : v ∉ l := fun hl ↦ h.disjoint v hl hvq
  obtain ⟨hframe, hend⟩ := h.frames v (.inr hvq)
  obtain ⟨a', hmark', hfree, howners⟩ := Allocator.kfreeMark_spec h.free hvl hframe hend
  obtain rfl := Option.some.inj (hmark.symm.trans hmark')
  have hnew (u : Fin n) (o : ℤ) : ¬s.Pending calls u v o := fun hp ↦ h.holds.apart u v o hp hv
  have hindex (u : Fin n) (w : ℕ) (o : ℤ) (hu : s.Pending calls u w o) : va2idx w ≠ va2idx v :=
    h.index_ne hu (.inr hvq) fun heq ↦ hnew u o (heq ▸ hu)
  have hpending : BecomesPending calls s
      { allocator := a
        allocated := s.allocated.erase v
        threads := Function.update s.threads t (.marked (s.allocator.pg2pid (va2idx v))) } t v
      (s.allocator.pg2pid (va2idx v)) :=
    becomesPending_of_update _ rfl (by rw [ht]; rfl) (by rw [hcall]; rfl)
  refine ⟨hfree, h.freeSeq, ?_, ?_, h.disjoint, h.frames, h.marked_update rfl ?_ ?_, ?_⟩
  · refine hpending.settledTable h.table hindex (fun _ ↦ ?_) fun i hi ↦ ⟨rfl, ?_⟩
    · exact h.table.others _ fun u w o hu _ ↦ hindex u w o hu
    · rw [howners, Allocator.ownersAfter_of_ne hi]
  · refine h.holds.becomesPending hpending hnew hvq (Finset.notMem_erase v _) fun w hwv ↦
      ⟨?_, Iff.rfl⟩
    exact Finset.mem_erase.trans (and_iff_right hwv)
  · intro owner w _ hcall' htracked
    obtain rfl : v = w := ConcCall.kfree.inj (hcall.symm.trans hcall')
    rw [howners, Allocator.ownersAfter_self htracked]
  · intro u w o _ hu
    rw [howners, Allocator.ownersAfter_of_ne fun _ ↦ (hindex u w o hu).symm]
  · have hplace : q.threads t =
        (CallState.marked (s.allocator.pg2pid (va2idx v))).settled := by rw [h.threads t, ht]; rfl
    have hupdate := settled_update (t := t) h.threads hplace
    rwa [Function.update_eq_self] at hupdate

/-- The critical section of `kfree`, at which the whole call takes effect. -/
theorem insert (h : Ordered kernelEnd calls s q l) (hcall : calls t = .kfree v)
    (ht : s.threads t = .marked owner) {a : Allocator}
    (hinsert : s.allocator.kfreeInsert v = some a) :
    ∃ q' l', q.callStep kernelEnd calls t = some q' ∧ Ordered kernelEnd calls
      { s with allocator := a, threads := Function.update s.threads t .freed } q' l' := by
  have hp : s.Pending calls t v owner := by rw [Pending, ht, hcall]; rfl
  have hvq : v ∈ q.allocated := h.holds.mem_of_pending hp
  have hvl : v ∉ l := h.notMem_of_pending hp
  obtain ⟨hframe, hend⟩ := h.frames v (.inr hvq)
  obtain ⟨a', l', hinsert', hfree, hperm, howners⟩ := Allocator.kfreeInsert_spec h.free hvl hframe
  obtain rfl := Option.some.inj (hinsert.symm.trans hinsert')
  obtain ⟨b, l'', hkfree, hfreeSeq, hpermSeq, hownersSeq⟩ :=
    Allocator.kfree_spec h.freeSeq hvl hframe hend
  -- Descending lists of the same pages are equal.
  obtain rfl : l' = l'' := by
    refine (hperm.trans hpermSeq.symm).eq_of_pairwise (fun a b _ _ hab hba ↦ ?_)
      hfree.descending hfreeSeq.descending
    exact absurd hab (lt_asymm hba)
  have hmem (w : ℕ) : w ∈ l' ↔ w = v ∨ w ∈ l := by rw [hperm.mem_iff, List.mem_cons]
  have hq' : q.callStep kernelEnd calls t = some
      { allocator := b
        allocated := q.allocated.erase v
        threads := Function.update q.threads t .freed } := by
    have htq : q.threads t = .start := by rw [h.threads t, ht]; rfl
    rw [callStep, hcall, htq]
    simp only [if_pos hvq, hkfree, Option.map_some]
  have hpending : BecomesPending calls
      { s with allocator := a, threads := Function.update s.threads t .freed } s t v owner := by
    refine becomesPending_of_update (.marked owner) ?_ ?_ (by rw [hcall]; rfl)
    · rw [Function.update_idem, ← ht, Function.update_eq_self]
    · change pendingOf _ (Function.update s.threads t _ t) = none
      rw [Function.update_self]
      rfl
  refine ⟨_, l', hq', hfree, hfreeSeq, ?_, ?_, fun w hw ↦ ?_, fun w hw ↦ h.frames w ?_,
    h.marked_update rfl (fun _ _ hplace ↦ CallState.noConfusion hplace) fun _ _ _ _ _ ↦ by
      rw [howners], settled_update h.threads rfl⟩
  · refine hpending.settledTable_back h.table (fun u w o hu ↦ ?_) (fun htracked ↦ ?_)
      fun i hi ↦ ⟨?_, by rw [howners]⟩
    · have hut : u ≠ t := fun heq ↦ hpending.none w o (heq ▸ hu)
      have hu := hpending.old hu
      exact h.index_ne hu (.inr hvq) fun heq ↦
        hut (h.holds.unique u t w o owner hu (heq ▸ hp))
    · rw [hownersSeq, Allocator.ownersAfter_self htracked, howners,
        h.marked t v owner ht hcall htracked]
    · rw [hownersSeq, Allocator.ownersAfter_of_ne hi]
  · refine h.holds.settled hpending (iff_of_false (Finset.notMem_erase v _)
      (h.holds.apart t v owner hp)) fun w hwv ↦ ⟨Iff.rfl, ?_⟩
    exact Finset.mem_erase.trans (and_iff_right hwv)
  · rw [Finset.mem_erase]
    rintro ⟨hwv, hallocated⟩
    exact h.disjoint w (((hmem w).mp hw).resolve_left hwv) hallocated
  · rcases hw with hw | hw
    · rcases (hmem w).mp hw with rfl | hw
      · exact .inr hvq
      · exact .inl hw
    · exact .inr (Finset.mem_of_mem_erase hw)

theorem pg2pid_eq (h : Ordered kernelEnd calls s q l)
    (hnone : ∀ t r owner, ¬s.Pending calls t r owner) :
    q.allocator.pg2pid = s.allocator.pg2pid := by
  funext i
  exact h.table.others i fun t r owner hp ↦ absurd hp (hnone t r owner)

end Ordered

/-- A call that has taken effect, or not, stays so when its place changes. -/
theorem effective_keep (hthreads : s'.threads = Function.update s.threads t place)
    (h : place.effective ↔ (s.threads t).effective) (u : Fin n) :
    (s'.threads u).effective ↔ (s.threads u).effective := by
  rw [hthreads]
  by_cases hut : u = t
  · rw [hut, Function.update_self]
    exact h
  · rw [Function.update_of_ne hut]

theorem effective_gain (hthreads : s'.threads = Function.update s.threads t place)
    (h : place.effective) (u : Fin n) :
    (s'.threads u).effective ↔ (s.threads u).effective ∨ u = t := by
  rw [hthreads]
  by_cases hut : u = t
  · rw [hut, Function.update_self]
    exact iff_of_true h (.inr rfl)
  · rw [Function.update_of_ne hut]
    exact (or_iff_left hut).symm

/-- What the order of the critical sections makes of a step: nothing, or the whole call. -/
theorem ordered_step {q : Concurrent n} (s₀ : Concurrent n) (h : Ordered kernelEnd calls s q l)
    (hsettled : s.ReadsSettled calls t) (hs : s.step kernelEnd calls t = some s') :
    ((∃ l, Ordered kernelEnd calls s' q l) ∧
        ∀ u, (s'.threads u).effective ↔ (s.threads u).effective) ∨
      Machine.TakesEffect (interleaved kernelEnd calls s₀) (sequential kernelEnd calls s₀)
        (fun s q ↦ ∃ l, Ordered kernelEnd calls s q l) (fun s u ↦ (s.threads u).effective)
        s q t s' := by
  cases hcall : calls t with
  | kalloc pid junk =>
    cases ht : s.threads t with
    | start =>
      simp only [step, hcall, ht] at hs
      obtain ⟨⟨r, kmem⟩, htake, rfl⟩ := Option.map_eq_some_iff.mp hs
      obtain ⟨q', l', hq', h'⟩ := h.take hcall ht hsettled htake
      exact .inr ⟨by rw [ht]; exact not_false, effective_gain rfl trivial, q', hq', l', h'⟩
    | taken r =>
      simp only [step, hcall, ht] at hs
      obtain ⟨⟨r', a⟩, hrecord, rfl⟩ := Option.map_eq_some_iff.mp hs
      exact .inl ⟨⟨l, h.record hcall ht hrecord⟩, effective_keep rfl (by rw [ht]; exact Iff.rfl)⟩
    | returned r => simp [step, hcall, ht] at hs
    | marked owner => simp [step, hcall, ht] at hs
    | freed => simp [step, hcall, ht] at hs
  | kfree v =>
    cases ht : s.threads t with
    | start =>
      simp only [step, hcall, ht] at hs
      split at hs
      next hv =>
        obtain ⟨a, hmark, rfl⟩ := Option.map_eq_some_iff.mp hs
        exact .inl ⟨⟨l, h.mark hcall ht hv hmark⟩, effective_keep rfl (by rw [ht]; exact Iff.rfl)⟩
      next => simp at hs
    | marked owner =>
      simp only [step, hcall, ht] at hs
      obtain ⟨a, hinsert, rfl⟩ := Option.map_eq_some_iff.mp hs
      obtain ⟨q', l', hq', h'⟩ := h.insert hcall ht hinsert
      exact .inr ⟨by rw [ht]; exact not_false, effective_gain rfl trivial, q', hq', l', h'⟩
    | taken r => simp [step, hcall, ht] at hs
    | returned r => simp [step, hcall, ht] at hs
    | freed => simp [step, hcall, ht] at hs

/-- Every call has come to its end. -/
def Finished (s : Concurrent n) : Prop :=
  ∀ t, (∃ r, s.threads t = .returned r) ∨ s.threads t = .freed

theorem Finished.settled (calls : Fin n → ConcCall) (h : s.Finished) (t : Fin n) :
    (s.threads t).settled = s.threads t ∧ (s.threads t).effective ∧
      pendingOf (calls t) (s.threads t) = none := by
  rcases h t with ⟨r, ht⟩ | ht
  · rw [ht]
    exact ⟨rfl, trivial, rfl⟩
  · rw [ht]
    exact ⟨rfl, trivial, rfl⟩

/-- Some sequential order of all calls returns the same pages and leaves the same free list and the
same owners. -/
def SomeOrder (kernelEnd : ℕ) (calls : Fin n → ConcCall) (s₀ s : Concurrent n) : Prop :=
  ∃ order q l, order.Nodup ∧ (∀ t, t ∈ order) ∧
    (sequential kernelEnd calls s₀).run s₀ order = some q ∧ q.threads = s.threads ∧
    q.allocator.pg2pid = s.allocator.pg2pid ∧ FreeList s.allocator.kmem l ∧
    FreeList q.allocator.kmem l

/-- If `safe_guard` never answers otherwise because of an update that is late or early, then the
calls amount to one of their sequential orders. -/
theorem calls_atomic_of_readsSettled {n : ℕ} (kernelEnd : ℕ) (calls : Fin n → ConcCall)
    (s₀ s : Concurrent n) (l : List ℕ) (hquiet : s₀.Quiet kernelEnd l)
    (hs : (interleaved kernelEnd calls s₀).ReachableVia (ReadsSettled calls) s)
    (hfinished : s.Finished) : SomeOrder kernelEnd calls s₀ s := by
  have hinit (s : Concurrent n) (hs : s = s₀) :
      (∃ l, Ordered kernelEnd calls s s₀ l) ∧ ∀ t, ¬(s.threads t).effective := by
    rw [hs]
    refine ⟨⟨l, Ordered.start hquiet⟩, fun t ↦ ?_⟩
    rw [hquiet.start t]
    exact not_false
  have hstep (s q : Concurrent n) (t : Fin n) (s' : Concurrent n)
      (h : ∃ l, Ordered kernelEnd calls s q l) (hsettled : s.ReadsSettled calls t)
      (hs : (interleaved kernelEnd calls s₀).step s t = some s') :=
    ordered_step s₀ h.choose_spec hsettled hs
  obtain ⟨order, q, hrun, ⟨l', h⟩, hnodup, hmem⟩ := hs.exists_order hstep hinit
  have hthreads : q.threads = s.threads := by
    funext t
    rw [h.threads t]
    exact (hfinished.settled calls t).1
  have hpg2pid : q.allocator.pg2pid = s.allocator.pg2pid := by
    refine h.pg2pid_eq fun t r owner hp ↦ ?_
    rw [Pending, (hfinished.settled calls t).2.2] at hp
    exact absurd hp.symm (Option.some_ne_none _)
  exact ⟨order, q, l', hnodup, fun t ↦ (hmem t).mpr (hfinished.settled calls t).2.1,
    hrun, hthreads, hpg2pid, h.free, h.freeSeq⟩

/-- The pages with indices 0, 1 and 3 are free, and no owner is known. -/
def threeFree : Concurrent 2 where
  allocator :=
    { kmem :=
        { freelist := some 0x8DFFF000
          next := fun va ↦
            if va = 0x8DFFF000 then some 0x8DFFE000
            else if va = 0x8DFFE000 then some 0x8DFFC000 else none }
      pg2pid := fun _ ↦ -2
      allocatedCount := 0
      initflag := true }
  allocated := ∅
  threads := fun _ ↦ .start

theorem quiet_threeFree : threeFree.Quiet kernBase [0x8DFFF000, 0x8DFFE000, 0x8DFFC000] := by
  have hframes : ∀ v ∈ [0x8DFFF000, 0x8DFFE000, 0x8DFFC000], Frame v ∧ kernBase ≤ v := by
    intro v hv
    simp only [List.mem_cons, List.not_mem_nil, or_false] at hv
    rcases hv with rfl | rfl | rfl <;> exact ⟨⟨by decide, by decide, by decide⟩, by decide⟩
  refine ⟨⟨⟨rfl, rfl, rfl, rfl⟩, by decide, fun v hv ↦ (hframes v hv).1⟩,
    fun v _ ↦ Finset.notMem_empty v, fun v hv ↦ hframes v ?_, fun _ ↦ rfl⟩
  exact hv.resolve_right (Finset.notMem_empty v)

/-- Two calls that take their pages one after the other before either records its owner. -/
def twoKallocs (pid pid' : ℤ) (t : Fin 2) : ConcCall :=
  if t = 0 then .kalloc pid fun _ _ ↦ 0 else .kalloc pid' fun _ _ ↦ 0

/-- The pages that the two calls have returned. -/
def pagesReturned (s : Concurrent 2) : CallState × CallState := (s.threads 0, s.threads 1)

theorem finished_of_pagesReturned {s : Concurrent 2} {r r' : ℕ}
    (h : s.pagesReturned = (.returned r, .returned r')) : s.Finished := by
  obtain ⟨h0, h1⟩ := Prod.mk.inj h
  intro t
  match t with
  | 0 => exact .inl ⟨r, h0⟩
  | 1 => exact .inl ⟨r', h1⟩

/-- For the unknown process no entry is read. -/
theorem calls_atomic_of_readsSettled_unknown :
    ∃ s, (interleaved kernBase (twoKallocs (-2) (-2)) threeFree).run threeFree [0, 1, 1, 0] = some s ∧
      SomeOrder kernBase (twoKallocs (-2) (-2)) threeFree s := by
  have hrun : ((interleaved kernBase (twoKallocs (-2) (-2)) threeFree).run threeFree
      [0, 1, 1, 0]).map pagesReturned = some (.returned 0x8DFFF000, .returned 0x8DFFE000) := by
    decide
  obtain ⟨s, hs, hpages⟩ := Option.map_eq_some_iff.mp hrun
  have hsettled (t : Fin 2) (s : Concurrent 2) : s.ReadsSettled (twoKallocs (-2) (-2)) t := by
    intro pid junk hcall _ table _ r _
    have hpid : pid = -2 := by
      unfold twoKallocs at hcall
      rw [ite_self] at hcall
      exact (ConcCall.kalloc.inj hcall).1.symm
    rw [Allocator.suits, Allocator.suits, decide_eq_true hpid, Bool.true_or, Bool.true_or]
  have hreach : (interleaved kernBase (twoKallocs (-2) (-2)) threeFree).ReachableVia
      (ReadsSettled (twoKallocs (-2) (-2))) s :=
    .run (.init rfl) (fun t _ s ↦ hsettled t s) hs
  exact ⟨s, hs, calls_atomic_of_readsSettled kernBase _ threeFree s _ quiet_threeFree hreach
    (finished_of_pagesReturned hpages)⟩

/-- Two processes are handed adjacent pages, which neither order of the two calls would do. -/
theorem adjacent_pages_not_atomic :
    threeFree.Quiet kernBase [0x8DFFF000, 0x8DFFE000, 0x8DFFC000] ∧
    ∃ s, (interleaved kernBase (twoKallocs 1 2) threeFree).run threeFree [0, 1, 0, 1] = some s ∧
      s.pagesReturned = (.returned 0x8DFFF000, .returned 0x8DFFE000) ∧ s.Finished ∧
      ¬SomeOrder kernBase (twoKallocs 1 2) threeFree s := by
  have hrun : ((interleaved kernBase (twoKallocs 1 2) threeFree).run threeFree
      [0, 1, 0, 1]).map pagesReturned = some (.returned 0x8DFFF000, .returned 0x8DFFE000) := by
    decide
  obtain ⟨s, hs, hpages⟩ := Option.map_eq_some_iff.mp hrun
  refine ⟨quiet_threeFree, s, hs, hpages, finished_of_pagesReturned hpages, ?_⟩
  rintro ⟨order, q, -, hnodup, hall, hq, hthreads, -⟩
  have hq' : ((sequential kernBase (twoKallocs 1 2) threeFree).run threeFree order).map
      pagesReturned = some (.returned 0x8DFFF000, .returned 0x8DFFE000) := by
    rw [hq, Option.map_some, pagesReturned, hthreads]
    exact congrArg some hpages
  have horder : order.Perm [0, 1] :=
    (List.perm_ext_iff_of_nodup hnodup (by decide)).mpr fun t ↦
      iff_of_true (hall t) ((by decide : ∀ t : Fin 2, t ∈ [0, 1]) t)
  rcases List.perm_pair.mp horder with rfl | rfl
  · exact absurd hq' (by decide)
  · exact absurd hq' (by decide)

end Concurrent

end CS537.Kalloc
