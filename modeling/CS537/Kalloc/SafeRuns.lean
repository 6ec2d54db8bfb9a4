import CS537.Foundation.Machine
import CS537.Kalloc.SafeKalloc
import Mathlib.Data.Finset.Basic

/-!
# Runs of the isolating allocator

A run is made of completed calls: `kinit1` and `kinit2`, once each and in this order, `kalloc` with
any process number, `kfree` of an allocated page, and stores of their owners to allocated pages.
In every state reached the free list is a descending linked list, the free and the allocated pages
are together those given by `kinit1` and `kinit2`, and adjacent frames with owners have the same
owner.
-/

namespace CS537.Kalloc

open Foundation

/-- How far the initialisation has come. -/
inductive Phase where
  | off
  | kinit1
  | kinit2
  deriving DecidableEq

/-- The allocator with the pages that are allocated. -/
structure AllocRun where
  allocator : Allocator
  allocated : Finset ℕ
  phase : Phase

/-- The calls; `junk` is what reads outside of `pg2pid` give. -/
inductive AllocCall where
  | kinit1
  | kinit2
  | kalloc (pid : ℤ) (junk : ℕ → ℤ → ℤ)
  | kfree (v : ℕ)
  | store (v : ℕ) (link : Option ℕ)

/-- The end of the memory mapped by the entry page table. -/
def entryEnd : ℕ := p2v (4 * 1024 * 1024)

/-- The pages given by the calls made in `main`. -/
def Given (kernelEnd : ℕ) : Phase → ℕ → Prop
  | .off, _ => False
  | .kinit1, v => v ∈ pagesBetween kernelEnd entryEnd
  | .kinit2, v => v ∈ pagesBetween kernelEnd entryEnd ∨ v ∈ pagesBetween entryEnd (p2v physTop)

namespace AllocRun

variable (kernelEnd : ℕ)

/-- The statics of the kernel when it is entered; the pages hold anything. -/
structure Entry (s : AllocRun) : Prop where
  freelist : s.allocator.kmem.freelist = none
  pg2pid : ∀ i, s.allocator.pg2pid i = 0
  allocatedCount : s.allocator.allocatedCount = 0
  initflag : s.allocator.initflag = false
  allocated : s.allocated = ∅
  phase : s.phase = .off

/-- One completed call. -/
def step (s : AllocRun) : AllocCall → Option AllocRun
  | .kinit1 =>
    if s.phase = .off then
      (s.allocator.kinit1 kernelEnd kernelEnd entryEnd).map fun a ↦
        { s with allocator := a, phase := .kinit1 }
    else none
  | .kinit2 =>
    if s.phase = .kinit1 then
      (s.allocator.kinit2 kernelEnd entryEnd (p2v physTop)).map fun a ↦
        { s with allocator := a, phase := .kinit2 }
    else none
  | .kalloc pid junk =>
    (s.allocator.kalloc junk pid).map fun taken ↦
      { s with allocator := taken.2, allocated := insert taken.1 s.allocated }
  | .kfree v =>
    if v ∈ s.allocated then
      (s.allocator.kfree kernelEnd v).map fun a ↦
        { s with allocator := a, allocated := s.allocated.erase v }
    else none
  | .store v link =>
    if v ∈ s.allocated then
      let kmem :=
        { s.allocator.kmem with next := Function.update s.allocator.kmem.next v link }
      some { s with allocator := { s.allocator with kmem := kmem } }
    else none

/-- What a completed call does. -/
inductive StepsTo (s : AllocRun) : AllocCall → AllocRun → Prop where
  | kinit1 {a : Allocator} (hphase : s.phase = .off)
    (ha : s.allocator.kinit1 kernelEnd kernelEnd entryEnd = some a) :
    StepsTo s .kinit1 { s with allocator := a, phase := .kinit1 }
  | kinit2 {a : Allocator} (hphase : s.phase = .kinit1)
    (ha : s.allocator.kinit2 kernelEnd entryEnd (p2v physTop) = some a) :
    StepsTo s .kinit2 { s with allocator := a, phase := .kinit2 }
  | kalloc {pid : ℤ} {junk : ℕ → ℤ → ℤ} {r : ℕ} {a : Allocator}
    (ha : s.allocator.kalloc junk pid = some (r, a)) :
    StepsTo s (.kalloc pid junk) { s with allocator := a, allocated := insert r s.allocated }
  | kfree {v : ℕ} {a : Allocator} (hv : v ∈ s.allocated)
    (ha : s.allocator.kfree kernelEnd v = some a) :
    StepsTo s (.kfree v) { s with allocator := a, allocated := s.allocated.erase v }
  | store {v : ℕ} {link : Option ℕ} (hv : v ∈ s.allocated) :
    StepsTo s (.store v link) { s with allocator := { s.allocator with
      kmem := { s.allocator.kmem with next := Function.update s.allocator.kmem.next v link } } }

variable {kernelEnd} in
theorem step_cases {s s' : AllocRun} {call : AllocCall} (hs : s.step kernelEnd call = some s') :
    s.StepsTo kernelEnd call s' := by
  cases call with
  | kinit1 =>
    simp only [step] at hs
    split at hs
    next hphase =>
      obtain ⟨a, ha, rfl⟩ := Option.map_eq_some_iff.mp hs
      exact .kinit1 hphase ha
    next => simp at hs
  | kinit2 =>
    simp only [step] at hs
    split at hs
    next hphase =>
      obtain ⟨a, ha, rfl⟩ := Option.map_eq_some_iff.mp hs
      exact .kinit2 hphase ha
    next => simp at hs
  | kalloc pid junk =>
    obtain ⟨⟨r, a⟩, ha, rfl⟩ := Option.map_eq_some_iff.mp hs
    exact .kalloc ha
  | kfree v =>
    simp only [step] at hs
    split at hs
    next hv =>
      obtain ⟨a, ha, rfl⟩ := Option.map_eq_some_iff.mp hs
      exact .kfree hv ha
    next => simp at hs
  | store v link =>
    simp only [step] at hs
    split at hs
    next hv =>
      obtain rfl := Option.some.inj hs
      exact .store hv
    next => simp at hs

def machine : Machine AllocRun AllocCall where
  init := Entry
  step := step kernelEnd

end AllocRun

/-! ## The pages given -/

theorem mem_pagesBetween {vstart vend v : ℕ} :
    v ∈ pagesBetween vstart vend ↔
      v % pgSize = 0 ∧ pgRoundUp vstart ≤ v ∧ v + pgSize ≤ vend := by
  have hround : pgRoundUp vstart % pgSize = 0 := Nat.mul_mod_left _ _
  simp only [pagesBetween, List.mem_map, List.mem_range, pgSize] at hround ⊢
  constructor
  · rintro ⟨i, hi, rfl⟩
    omega
  · rintro ⟨haligned, hle, hend⟩
    exact ⟨(v - pgRoundUp vstart) / 4096, by omega, by omega⟩

theorem nodup_pagesBetween (vstart vend : ℕ) : (pagesBetween vstart vend).Nodup := by
  refine List.Nodup.map (fun i j heq ↦ ?_) List.nodup_range
  simp only [pgSize] at heq
  omega

theorem lt_uint_of_mem_pagesBetween {vstart vend v : ℕ} (hend : vend < 2 ^ 32)
    (hv : v ∈ pagesBetween vstart vend) : v < 2 ^ 32 := by
  have hle := (mem_pagesBetween.mp hv).2.2
  omega

/-- `kinit2` gives new pages. -/
theorem not_given_of_mem_pagesBetween {kernelEnd v : ℕ}
    (hv : v ∈ pagesBetween entryEnd (p2v physTop)) : ¬Given kernelEnd .kinit1 v := by
  intro hgiven
  have hround : pgRoundUp entryEnd = entryEnd := by decide
  have hle := (mem_pagesBetween.mp hv).2.1
  have hle' := (mem_pagesBetween.mp hgiven).2.2
  simp only [hround, pgSize] at hle hle'
  omega

/-! ## The invariant -/

/-- The invariant of the runs, for the list of free pages. -/
structure AllocInv (kernelEnd : ℕ) (s : AllocRun) (l : List ℕ) : Prop where
  free : FreeList s.allocator.kmem l
  disjoint : ∀ v ∈ l, v ∉ s.allocated
  given : ∀ v, v ∈ l ∨ v ∈ s.allocated ↔ Given kernelEnd s.phase v
  frames : ∀ v, Given kernelEnd s.phase v → Frame v ∧ kernelEnd ≤ v
  isolated : Isolated s.allocator.pg2pid
  marked : ∀ v ∈ l, tracked v = true → s.allocator.pg2pid (va2idx v) = -1

namespace Allocator

/-- A frame that was free stays so, and those freed become so. -/
theorem ownersFreed_eq {pages : List ℕ} {pg2pid : ℕ → ℤ} {v : ℕ} (htracked : tracked v = true)
    (h : v ∈ pages ∨ pg2pid (va2idx v) = -1) : ownersFreed pg2pid pages (va2idx v) = -1 := by
  induction pages generalizing pg2pid with
  | nil => simpa [ownersFreed] using h
  | cons u pages ih =>
    rw [ownersFreed_cons]
    apply ih
    by_cases hindex : va2idx v = va2idx u
    · by_cases hu : tracked u = true
      · right
        rw [ownersAfter, if_pos hu, hindex, Function.update_self]
      · rcases h with h | h
        · rcases List.mem_cons.mp h with rfl | h
          · exact absurd htracked hu
          · exact .inl h
        · right
          rw [ownersAfter, if_neg hu, h]
    · rcases h with h | h
      · rcases List.mem_cons.mp h with rfl | h
        · exact absurd rfl hindex
        · exact .inl h
      · right
        unfold ownersAfter
        split
        · rw [Function.update_of_ne hindex, h]
        · exact h

end Allocator

theorem Isolated.ownersFreed {pg2pid : ℕ → ℤ} (h : Isolated pg2pid) (pages : List ℕ) :
    Isolated (Allocator.ownersFreed pg2pid pages) := by
  have hfree : ¬Owned (-1) := fun hown ↦ hown.1 rfl
  induction pages generalizing pg2pid with
  | nil => exact h
  | cons v pages ih =>
    rw [Allocator.ownersFreed_cons]
    apply ih
    unfold Allocator.ownersAfter
    split
    · exact h.update_of_not_owned hfree
    · exact h

namespace AllocInv

variable {kernelEnd : ℕ} {s s' : AllocRun} {l : List ℕ}

theorem entry (h : s.Entry) : AllocInv kernelEnd s [] where
  free := ⟨h.freelist, List.Pairwise.nil, by simp⟩
  disjoint := by simp
  given v := by simp [h.allocated, h.phase, Given]
  frames v hv := by simp [h.phase, Given] at hv
  isolated i _ _ _ := by rw [h.pg2pid, h.pg2pid]
  marked := by simp

/-- Freeing new pages, as `kinit1` and `kinit2` do. -/
theorem addPages (h : AllocInv kernelEnd s l) {pages : List ℕ} {a : Allocator} {phase : Phase}
    (hs : pages.foldlM (Allocator.kfree kernelEnd) s.allocator = some a)
    (hlt : ∀ v ∈ pages, v < 2 ^ 32) (hnodup : pages.Nodup)
    (hnew : ∀ v ∈ pages, ¬Given kernelEnd s.phase v)
    (hgiven : ∀ v, Given kernelEnd phase v ↔ v ∈ pages ∨ Given kernelEnd s.phase v)
    (initflag : Bool) :
    ∃ l', AllocInv kernelEnd
      { s with allocator := { a with initflag := initflag }, phase := phase } l' := by
  have hpages := Allocator.frames_of_foldlM_kfree hlt hs
  have hdisjoint : ∀ v ∈ pages, v ∉ l := fun v hv hl ↦ hnew v hv ((h.given v).mp (.inl hl))
  obtain ⟨a', l', hfold, hfree, hmem, howners⟩ :=
    Allocator.foldlM_kfree_spec h.free hpages hnodup hdisjoint
  obtain rfl := Option.some.inj (hs.symm.trans hfold)
  refine ⟨l', hfree, fun v hv ↦ ?_, fun v ↦ ?_, fun v hv ↦ ?_, ?_, fun v hv htracked ↦ ?_⟩
  · rcases (hmem v).mp hv with hv | hv
    · exact fun hallocated ↦ hnew v hv ((h.given v).mp (.inr hallocated))
    · exact h.disjoint v hv
  · have hold := h.given v
    rw [hmem, hgiven, ← hold, or_assoc]
  · rcases (hgiven v).mp hv with hv | hv
    · exact hpages v hv
    · exact h.frames v hv
  · change Isolated a.pg2pid
    rw [howners]
    exact h.isolated.ownersFreed pages
  · change a.pg2pid (va2idx v) = -1
    rw [howners]
    apply Allocator.ownersFreed_eq htracked
    rcases (hmem v).mp hv with hv | hv
    · exact .inl hv
    · exact .inr (h.marked v hv htracked)

theorem kinit1 (h : AllocInv kernelEnd s l) (hphase : s.phase = .off) {a : Allocator}
    (hs : s.allocator.kinit1 kernelEnd kernelEnd entryEnd = some a) :
    ∃ l', AllocInv kernelEnd { s with allocator := a, phase := .kinit1 } l' := by
  have hlt : ∀ v ∈ pagesBetween kernelEnd entryEnd, v < 2 ^ 32 := fun v ↦
    lt_uint_of_mem_pagesBetween (by decide)
  exact h.addPages hs hlt (nodup_pagesBetween _ _) (by simp [hphase, Given])
    (by simp [hphase, Given]) a.initflag

theorem kinit2 (h : AllocInv kernelEnd s l) (hphase : s.phase = .kinit1) {a : Allocator}
    (hs : s.allocator.kinit2 kernelEnd entryEnd (p2v physTop) = some a) :
    ∃ l', AllocInv kernelEnd { s with allocator := a, phase := .kinit2 } l' := by
  obtain ⟨a, hfold, rfl⟩ := Option.map_eq_some_iff.mp hs
  have hlt : ∀ v ∈ pagesBetween entryEnd (p2v physTop), v < 2 ^ 32 := fun v ↦
    lt_uint_of_mem_pagesBetween (by decide)
  refine h.addPages hfold hlt (nodup_pagesBetween _ _) ?_ ?_ true
  · intro v hv
    rw [hphase]
    exact not_given_of_mem_pagesBetween hv
  · intro v
    rw [hphase]
    exact or_comm

theorem kalloc (h : AllocInv kernelEnd s l) {pid : ℤ} {junk : ℕ → ℤ → ℤ} {r : ℕ} {a : Allocator}
    (hs : s.allocator.kalloc junk pid = some (r, a)) :
    ∃ l', AllocInv kernelEnd
      { s with allocator := a, allocated := insert r s.allocated } l' := by
  rcases Allocator.kalloc_spec h.free junk pid with
    ⟨hnone, -⟩ | ⟨u, r', t, a', hsome, rfl, hsuits, -, hfree, howners⟩
  · rw [hnone] at hs
    simp at hs
  · obtain ⟨rfl, rfl⟩ := Prod.mk.inj (Option.some.inj (hs.symm.trans hsome))
    have hnodup := h.free.linked.nodup
    have hmem (v : ℕ) : v ∈ u ++ r :: t ↔ v = r ∨ v ∈ u ++ t := by
      rw [List.perm_middle.mem_iff, List.mem_cons]
    have hr : r ∉ u ++ t := (List.nodup_cons.mp (List.perm_middle.nodup_iff.mp hnodup)).1
    have hframe : Frame r := h.free.frames r ((hmem r).mpr (.inl rfl))
    refine ⟨u ++ t, hfree, fun v hv ↦ ?_, fun v ↦ ?_, h.frames, ?_, fun v hv htracked ↦ ?_⟩
    · have hne : v ≠ r := fun heq ↦ hr (heq ▸ hv)
      have hold := h.disjoint v ((hmem v).mpr (.inr hv))
      simp [hne, hold]
    · have hold := h.given v
      rw [hmem] at hold
      rw [← hold, Finset.mem_insert]
      tauto
    · change Isolated a.pg2pid
      rw [howners]
      unfold Allocator.ownersAfter
      split
      next htracked =>
        have hindex := hframe.tracked_iff.mp htracked
        by_cases hpid : pid = -2
        · exact h.isolated.update_of_not_owned fun hown ↦ hown.2 hpid
        · have hsafe : s.allocator.safe junk pid r = true := by
            simpa [Allocator.suits, hpid] using hsuits
          obtain ⟨habove, hbelow⟩ := neighbours_of_safeGuard hsafe hindex
          exact h.isolated.update (fun i hi _ ↦ habove i hi) (fun hi _ ↦ hbelow hi)
      next => exact h.isolated
    · have hold := h.marked v ((hmem v).mpr (.inr hv)) htracked
      have hindex : va2idx v ≠ va2idx r := by
        intro heq
        have hvr := (h.free.frames v ((hmem v).mpr (.inr hv))).va2idx_inj hframe heq
        exact hr (hvr ▸ hv)
      change a.pg2pid (va2idx v) = -1
      rw [howners]
      unfold Allocator.ownersAfter
      split
      · rw [Function.update_of_ne hindex, hold]
      · exact hold

theorem kfree (h : AllocInv kernelEnd s l) {v : ℕ} (hv : v ∈ s.allocated) {a : Allocator}
    (hs : s.allocator.kfree kernelEnd v = some a) :
    ∃ l', AllocInv kernelEnd
      { s with allocator := a, allocated := s.allocated.erase v } l' := by
  have hl : v ∉ l := fun hl ↦ h.disjoint v hl hv
  obtain ⟨hframe, hend⟩ := h.frames v ((h.given v).mp (.inr hv))
  obtain ⟨a', l', hsome, hfree, hperm, howners⟩ := Allocator.kfree_spec h.free hl hframe hend
  obtain rfl := Option.some.inj (hs.symm.trans hsome)
  have hmem (u : ℕ) : u ∈ l' ↔ u = v ∨ u ∈ l := by rw [hperm.mem_iff, List.mem_cons]
  have hfreed : Allocator.ownersAfter s.allocator.pg2pid v (-1) =
      Allocator.ownersFreed s.allocator.pg2pid [v] := by
    rw [Allocator.ownersFreed_cons, Allocator.ownersFreed_nil]
  refine ⟨l', hfree, fun u hu ↦ ?_, fun u ↦ ?_, h.frames, ?_, fun u hu htracked ↦ ?_⟩
  · rcases (hmem u).mp hu with rfl | hu
    · exact Finset.notMem_erase u s.allocated
    · exact fun hallocated ↦ h.disjoint u hu (Finset.mem_of_mem_erase hallocated)
  · rw [hmem, ← h.given u, Finset.mem_erase]
    by_cases huv : u = v
    · simp [huv, hv]
    · simp [huv]
  · change Isolated a.pg2pid
    rw [howners, hfreed]
    exact h.isolated.ownersFreed [v]
  · change a.pg2pid (va2idx u) = -1
    rw [howners, hfreed]
    apply Allocator.ownersFreed_eq htracked
    rcases (hmem u).mp hu with rfl | hu
    · exact .inl List.mem_cons_self
    · exact .inr (h.marked u hu htracked)

/-- A store of the owner of an allocated page. -/
theorem store (h : AllocInv kernelEnd s l) {v : ℕ} (hv : v ∈ s.allocated) (link : Option ℕ) :
    AllocInv kernelEnd
      { s with allocator := { s.allocator with
          kmem := { s.allocator.kmem with
            next := Function.update s.allocator.kmem.next v link } } } l := by
  have hl : v ∉ l := fun hl ↦ h.disjoint v hl hv
  exact ⟨⟨h.free.linked.update_of_notMem hl link, h.free.descending, h.free.frames⟩, h.disjoint,
    h.given, h.frames, h.isolated, h.marked⟩

/-- Every completed call keeps the invariant. -/
theorem step (h : AllocInv kernelEnd s l) {call : AllocCall} (hs : s.step kernelEnd call = some s') :
    ∃ l', AllocInv kernelEnd s' l' := by
  cases AllocRun.step_cases hs with
  | kinit1 hphase ha => exact h.kinit1 hphase ha
  | kinit2 hphase ha => exact h.kinit2 hphase ha
  | kalloc ha => exact h.kalloc ha
  | kfree hv ha => exact h.kfree hv ha
  | store hv => exact ⟨l, h.store hv _⟩

theorem of_reachable (hs : (AllocRun.machine kernelEnd).Reachable s) :
    ∃ l, AllocInv kernelEnd s l := by
  apply hs.invariant
  · exact fun s h ↦ ⟨[], entry h⟩
  · intro s call s' _ h _ hstep
    obtain ⟨l, hl⟩ := h
    exact hl.step hstep

/-- `kalloc` returns the highest free page that suits, if there is one. -/
theorem kalloc_highest (h : AllocInv kernelEnd s l) (junk : ℕ → ℤ → ℤ) (pid : ℤ) {r : ℕ}
    (hr : r ∈ l) (hsuits : s.allocator.suits junk pid r = true)
    (hmax : ∀ v ∈ l, s.allocator.suits junk pid v = true → v ≤ r) :
    ∃ a, s.allocator.kalloc junk pid = some (r, a) ∧
      a.pg2pid = Allocator.ownersAfter s.allocator.pg2pid r pid := by
  rcases Allocator.kalloc_spec h.free junk pid with
    ⟨-, hall⟩ | ⟨u, r', t, a, hsome, rfl, hsuits', hu, -, howners⟩
  · exact absurd hsuits (by simp [hall r hr])
  · have hle : r' ≤ r := hmax r' (by simp) hsuits'
    have heq : r = r' := by
      rcases List.mem_append.mp hr with hr | hr
      · exact absurd hsuits (by simp [hu r hr])
      · rcases List.mem_cons.mp hr with heq | hr
        · exact heq
        · have hlt := (List.pairwise_cons.mp (List.pairwise_append.mp h.free.descending).2.1).1 r hr
          omega
    subst heq
    exact ⟨a, hsome, howners⟩

end AllocInv

namespace AllocRun

variable {kernelEnd : ℕ} {s : AllocRun}

/-- The free-list law.  In every state reached the free list is a linked list, strictly descending
by address, and the free and the allocated pages are disjoint and together the pages given.
`kalloc` returns the highest free page if the process is unknown, and otherwise the highest free
page for which `safe_guard` holds; it takes this page only out of the list. -/
theorem free_list_law (hs : (machine kernelEnd).Reachable s) :
    ∃ l, Linked s.allocator.kmem.next s.allocator.kmem.freelist l ∧ l.Pairwise (· > ·) ∧
      (∀ v ∈ l, v ∉ s.allocated) ∧
      (∀ v, v ∈ l ∨ v ∈ s.allocated ↔ Given kernelEnd s.phase v) ∧
      ∀ junk pid,
        ((∃ v ∈ l, pid = -2 ∨ s.allocator.safe junk pid v = true) →
          (s.allocator.kalloc junk pid).isSome) ∧
        ∀ r a, s.allocator.kalloc junk pid = some (r, a) →
          r ∈ l ∧ (pid = -2 ∨ s.allocator.safe junk pid r = true) ∧
          (∀ v ∈ l, pid = -2 ∨ s.allocator.safe junk pid v = true → v ≤ r) ∧
          Linked a.kmem.next a.kmem.freelist (l.erase r) := by
  obtain ⟨l, h⟩ := AllocInv.of_reachable hs
  refine ⟨l, h.free.linked, h.free.descending, h.disjoint, h.given, fun junk pid ↦ ?_⟩
  have hsuits (v : ℕ) : s.allocator.suits junk pid v = true ↔
      pid = -2 ∨ s.allocator.safe junk pid v = true := by
    simp [Allocator.suits]
  simp only [← hsuits]
  rcases Allocator.kalloc_spec h.free junk pid with
    ⟨hnone, hall⟩ | ⟨u, r, t, a, hsome, rfl, hr, hu, hfree, -⟩
  · rw [hnone]
    refine ⟨?_, by simp⟩
    rintro ⟨v, hv, hsafe⟩
    exact absurd hsafe (by simp [hall v hv])
  · rw [hsome]
    refine ⟨fun _ ↦ rfl, ?_⟩
    rintro r' a' ⟨⟩
    have hnodup := h.free.linked.nodup
    have hru : r ∉ u := fun hmem ↦
      List.disjoint_of_nodup_append hnodup hmem List.mem_cons_self
    refine ⟨by simp, hr, fun v hv hsafe ↦ ?_, ?_⟩
    · rcases List.mem_append.mp hv with hv | hv
      · exact absurd hsafe (by simp [hu v hv])
      · rcases List.mem_cons.mp hv with rfl | hv
        · exact Nat.le_refl v
        · exact Nat.le_of_lt
            ((List.pairwise_cons.mp (List.pairwise_append.mp h.free.descending).2.1).1 v hv)
    · rw [List.erase_append_right _ hru, List.erase_cons_head]
      exact hfree.linked

/-- Isolation against Rowhammer: in every state reached, two adjacent tracked frames that are
neither free nor unknown belong to the same process. -/
theorem rowhammer_isolation (hs : (machine kernelEnd).Reachable s) {i : ℕ}
    (hi : i + 1 < maxFrameNum)
    (hown : s.allocator.pg2pid i ≠ -1 ∧ s.allocator.pg2pid i ≠ -2)
    (hown' : s.allocator.pg2pid (i + 1) ≠ -1 ∧ s.allocator.pg2pid (i + 1) ≠ -2) :
    s.allocator.pg2pid i = s.allocator.pg2pid (i + 1) := by
  obtain ⟨l, h⟩ := AllocInv.of_reachable hs
  exact h.isolated i hi hown hown'

/-! ## The initialisation completes -/

theorem frame_of_mem_pagesBetween {vstart vend v : ℕ} (hv : v ∈ pagesBetween vstart vend)
    (hstart : kernBase ≤ pgRoundUp vstart) (hend : vend ≤ p2v physTop) : Frame v := by
  obtain ⟨haligned, hle, hlast⟩ := mem_pagesBetween.mp hv
  have htop : p2v physTop = 0x8E000000 := by decide
  simp only [kernBase, pgSize] at haligned hstart hlast
  refine ⟨haligned, by omega, ?_⟩
  simp only [v2p, uintSub, kernBase, physTop]
  omega

theorem freerange_completes {a : Allocator} {l : List ℕ} (h : FreeList a.kmem l) {vstart vend : ℕ}
    (hstart : kernBase ≤ pgRoundUp vstart) (hend : vend ≤ p2v physTop)
    (hkernel : kernelEnd ≤ pgRoundUp vstart) (hnew : ∀ v ∈ pagesBetween vstart vend, v ∉ l) :
    ∃ a', a.freerange kernelEnd vstart vend = some a' := by
  have hpages : ∀ v ∈ pagesBetween vstart vend, Frame v ∧ kernelEnd ≤ v := fun v hv ↦
    ⟨frame_of_mem_pagesBetween hv hstart hend, hkernel.trans (mem_pagesBetween.mp hv).2.1⟩
  obtain ⟨a', -, hfold, -⟩ :=
    Allocator.foldlM_kfree_spec h hpages (nodup_pagesBetween _ _) hnew
  exact ⟨a', hfold⟩

/-- A kernel that ends in the memory mapped at its entry completes `kinit1`. -/
theorem kinit1_completes {a : Allocator} {l : List ℕ} (h : FreeList a.kmem l)
    (hbase : kernBase ≤ kernelEnd) (hend : kernelEnd ≤ entryEnd)
    (hnew : ∀ v ∈ pagesBetween kernelEnd entryEnd, v ∉ l) :
    ∃ a', a.kinit1 kernelEnd kernelEnd entryEnd = some a' := by
  have hround : kernelEnd ≤ pgRoundUp kernelEnd := by
    have hentry : entryEnd = 0x80400000 := by decide
    rw [hentry] at hend
    simp only [pgRoundUp, pgSize]
    omega
  exact freerange_completes h (hbase.trans hround) (by decide) hround hnew

theorem kinit2_completes {a : Allocator} {l : List ℕ} (h : FreeList a.kmem l)
    (hend : kernelEnd ≤ entryEnd) (hnew : ∀ v ∈ pagesBetween entryEnd (p2v physTop), v ∉ l) :
    ∃ a', a.kinit2 kernelEnd entryEnd (p2v physTop) = some a' := by
  have hround : pgRoundUp entryEnd = entryEnd := by decide
  have hstart : kernBase ≤ pgRoundUp entryEnd := by
    rw [hround]
    decide
  rw [← hround] at hend
  obtain ⟨a', ha'⟩ := freerange_completes h hstart (Nat.le_refl _) hend hnew
  exact ⟨_, by rw [Allocator.kinit2, ha', Option.map_some]⟩

/-- A kernel that ends in the memory mapped at its entry boots. -/
theorem exists_booted (kernelEnd : ℕ) (hbase : kernBase ≤ kernelEnd) (hend : kernelEnd ≤ entryEnd) :
    ∃ s, (machine kernelEnd).Reachable s ∧ s.phase = .kinit2 ∧ s.allocated = ∅ := by
  let s₀ : AllocRun := ⟨⟨⟨none, fun _ ↦ none⟩, fun _ ↦ 0, 0, false⟩, ∅, .off⟩
  have h₀ : (machine kernelEnd).Reachable s₀ := .init ⟨rfl, fun _ ↦ rfl, rfl, rfl, rfl, rfl⟩
  obtain ⟨l₀, hinv₀⟩ := AllocInv.of_reachable h₀
  obtain ⟨a₁, hkinit1⟩ := kinit1_completes hinv₀.free hbase hend
    fun v _ hv ↦ (hinv₀.given v).mp (.inl hv)
  let s₁ : AllocRun := ⟨a₁, ∅, .kinit1⟩
  have h₁ : (machine kernelEnd).Reachable s₁ := by
    apply h₀.next (l := .kinit1)
    simp [machine, step, s₀, s₁, hkinit1]
  obtain ⟨l₁, hinv₁⟩ := AllocInv.of_reachable h₁
  obtain ⟨a₂, hkinit2⟩ := kinit2_completes hinv₁.free hend fun v hv hl ↦
    not_given_of_mem_pagesBetween hv ((hinv₁.given v).mp (.inl hl))
  have h₂ : (machine kernelEnd).Reachable ⟨a₂, ∅, .kinit2⟩ := by
    apply h₁.next (l := .kinit2)
    simp [machine, step, s₁, hkinit2]
  exact ⟨_, h₂, rfl, rfl⟩

theorem free_list_law_booted :
    ∃ s, (machine 0x80115000).Reachable s ∧ s.phase = .kinit2 ∧
      ∃ l, Linked s.allocator.kmem.next s.allocator.kmem.freelist l ∧ l.Pairwise (· > ·) ∧
        ∀ v, v ∈ l ↔ Given 0x80115000 .kinit2 v := by
  obtain ⟨s, hs, hphase, hallocated⟩ := exists_booted 0x80115000 (by decide) (by decide)
  obtain ⟨l, hlinked, hdesc, -, hgiven, -⟩ := free_list_law hs
  refine ⟨s, hs, hphase, l, hlinked, hdesc, fun v ↦ ?_⟩
  rw [← hphase, ← hgiven, hallocated]
  simp

/-! ## Two pages for one process -/

/-- The page whose index is `i`, for a tracked index. -/
def pageAt (i : ℕ) : ℕ := 0x8DFFF000 - pgSize * i

theorem pageAt_mem_pagesBetween {i : ℕ} (hi : i < maxFrameNum) :
    pageAt i ∈ pagesBetween entryEnd (p2v physTop) := by
  have htop : p2v physTop = 0x8E000000 := by decide
  have hround : pgRoundUp entryEnd = 0x80400000 := by decide
  rw [mem_pagesBetween]
  simp only [maxFrameNum, pageAt, pgSize] at *
  omega

theorem given_pageAt (hphase : s.phase = .kinit2) {i : ℕ} (hi : i < maxFrameNum) :
    Given kernelEnd s.phase (pageAt i) := by
  rw [hphase]
  exact .inr (pageAt_mem_pagesBetween hi)

theorem le_pageAt_zero {v : ℕ} (hphase : s.phase = .kinit2) (hgiven : Given kernelEnd s.phase v) :
    v ≤ pageAt 0 := by
  have htop : p2v physTop = 0x8E000000 := by decide
  have hentry : entryEnd = 0x80400000 := by decide
  rw [hphase] at hgiven
  simp only [Given, mem_pagesBetween, pgSize] at hgiven
  simp only [pageAt, pgSize]
  omega

theorem frame_pageAt {i : ℕ} (hi : i < maxFrameNum) : Frame (pageAt i) := by
  simp only [maxFrameNum] at hi
  refine ⟨?_, ?_, ?_⟩
  · simp only [pageAt, pgSize]
    omega
  · simp only [pageAt, pgSize]
    omega
  · simp only [v2p, uintSub, pageAt, pgSize, kernBase, physTop]
    omega

theorem va2idx_pageAt {i : ℕ} (hi : i < maxFrameNum) : va2idx (pageAt i) = i := by
  have hpa : v2p (pageAt i) = 0xDFFF000 - pgSize * i := by
    simp only [v2p, uintSub, pageAt, pgSize, kernBase, maxFrameNum] at hi ⊢
    omega
  have hframes : numFrames = 57344 := by decide
  rw [(frame_pageAt hi).va2idx_eq, hpa, hframes]
  simp only [pgSize, maxFrameNum] at hi ⊢
  omega

theorem tracked_pageAt {i : ℕ} (hi : i < maxFrameNum) : tracked (pageAt i) = true := by
  rw [(frame_pageAt hi).tracked_iff, va2idx_pageAt hi]
  exact hi

/-- After the boot a page that is not allocated is marked as free. -/
theorem pg2pid_pageAt {l : List ℕ} (h : AllocInv kernelEnd s l) (hphase : s.phase = .kinit2) {i : ℕ}
    (hi : i < maxFrameNum) (hfree : pageAt i ∉ s.allocated) :
    pageAt i ∈ l ∧ s.allocator.pg2pid i = -1 := by
  have hgiven := @given_pageAt kernelEnd s hphase i hi
  have hmem : pageAt i ∈ l := ((h.given _).mpr hgiven).resolve_right hfree
  have hmarked := h.marked _ hmem (tracked_pageAt hi)
  rw [va2idx_pageAt hi] at hmarked
  exact ⟨hmem, hmarked⟩

/-- Two pages in a row go to process `5`, and their frames are adjacent. -/
theorem rowhammer_isolation_two_pages :
    ∃ s, (machine 0x80115000).Reachable s ∧ s.allocator.pg2pid 0 = 5 ∧
      s.allocator.pg2pid 0 = s.allocator.pg2pid 1 := by
  obtain ⟨s, hs, hphase, hallocated⟩ := exists_booted 0x80115000 (by decide) (by decide)
  obtain ⟨l, h⟩ := AllocInv.of_reachable hs
  have hfree (i : ℕ) : pageAt i ∉ s.allocated := by simp [hallocated]
  obtain ⟨hmem, -⟩ := pg2pid_pageAt h hphase (by decide) (hfree 0)
  obtain ⟨-, howner⟩ := pg2pid_pageAt h hphase (by decide) (hfree 1)
  have hindex₀ : va2idx (pageAt 0) = 0 := by decide
  have hindex₁ : va2idx (pageAt 1) = 1 := by decide
  let junk : ℕ → ℤ → ℤ := fun _ _ ↦ 0
  have hsuits : s.allocator.suits junk 5 (pageAt 0) = true := by
    apply Allocator.suits_of_neighbours (by decide)
    · rw [hindex₀]
      exact .inr (.inl howner)
    · simp [hindex₀]
  obtain ⟨a, ha, howners⟩ := h.kalloc_highest junk 5 hmem hsuits fun v hv _ ↦
    le_pageAt_zero hphase ((h.given v).mp (.inl hv))
  let s₁ : AllocRun := { s with allocator := a, allocated := insert (pageAt 0) s.allocated }
  have hs₁ : (machine 0x80115000).Reachable s₁ := by
    apply hs.next (l := .kalloc 5 junk)
    simp [machine, step, ha, s₁]
  obtain ⟨l₁, h₁⟩ := AllocInv.of_reachable hs₁
  have hfree₁ (i : ℕ) (hi : pageAt i ≠ pageAt 0) : pageAt i ∉ s₁.allocated := by
    simp [s₁, hallocated, hi]
  obtain ⟨hmem₁, -⟩ := pg2pid_pageAt h₁ hphase (by decide) (hfree₁ 1 (by decide))
  obtain ⟨-, howner₁⟩ := pg2pid_pageAt h₁ hphase (by decide) (hfree₁ 2 (by decide))
  have htracked : tracked (pageAt 0) = true := by decide
  have htracked₁ : tracked (pageAt 1) = true := by decide
  have hself : a.pg2pid 0 = 5 := by
    rw [howners, Allocator.ownersAfter, if_pos htracked, hindex₀, Function.update_self]
  have hsuits₁ : a.suits junk 5 (pageAt 1) = true := by
    apply Allocator.suits_of_neighbours (by decide)
    · rw [hindex₁]
      exact .inr (.inl howner₁)
    · intro i hi
      rw [hindex₁] at hi
      obtain rfl : i = 0 := by omega
      exact .inl hself
  have hmax : ∀ v ∈ l₁, v ≤ pageAt 1 := by
    intro v hv
    have hgiven : Given 0x80115000 s₁.phase v := (h₁.given v).mp (.inl hv)
    have hle := le_pageAt_zero hphase hgiven
    have hne : v ≠ pageAt 0 := by
      rintro rfl
      exact h₁.disjoint _ hv (Finset.mem_insert_self _ _)
    have haligned := (h₁.free.frames v hv).aligned
    simp only [pageAt, pgSize] at *
    omega
  obtain ⟨a₁, ha₁, howners₁⟩ := h₁.kalloc_highest junk 5 hmem₁ hsuits₁ fun v hv _ ↦ hmax v hv
  have hs₂ : (machine 0x80115000).Reachable
      { s₁ with allocator := a₁, allocated := insert (pageAt 1) s₁.allocated } := by
    apply hs₁.next (l := .kalloc 5 junk)
    simp [machine, step, ha₁, s₁]
  have hself₁ : a₁.pg2pid 1 = 5 := by
    rw [howners₁, Allocator.ownersAfter, if_pos htracked₁, hindex₁, Function.update_self]
  have hother₁ : a₁.pg2pid 0 = 5 := by
    rw [howners₁, Allocator.ownersAfter, if_pos htracked₁, hindex₁,
      Function.update_of_ne (by decide)]
    exact hself
  refine ⟨_, hs₂, hother₁, rowhammer_isolation hs₂ (by decide) ?_ ?_⟩
  · change a₁.pg2pid 0 ≠ -1 ∧ a₁.pg2pid 0 ≠ -2
    rw [hother₁]
    decide
  · change a₁.pg2pid 1 ≠ -1 ∧ a₁.pg2pid 1 ≠ -2
    rw [hself₁]
    decide

end AllocRun

end CS537.Kalloc
