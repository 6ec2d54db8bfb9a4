import CS537.Scheduler.Law
import Mathlib.Data.Fintype.EquivFin

/-!
# The pool of queue nodes

`allocproc` takes a slot and then a queue node; `wait` gives both back, and so must a `fork2` that
fails.  As long as no `copyuvm` fails, the nodes in use are those of the slots in use, one each, so
that a slot can always be given a node.  A `fork2` whose `copyuvm` fails gives back the slot alone.
-/

namespace CS537.Scheduler

open Foundation

variable {ncpu : ℕ}

namespace Kernel

/-- No `setpri`, and no `fork2` fails after the return of `allocproc`. -/
def CopiesMemory (k : Kernel ncpu) (s : Section ncpu) : Prop :=
  k.NoSetpri s ∧ ∀ c, s ≠ .copyuvmDone c false

/-- The slot is in use and `allocproc` has returned it. -/
def HasNode (k : Kernel ncpu) (p : Slot) : Prop :=
  (k.ptable.proc p).state ≠ .unused ∧
    ∀ q f, k.forking q = some f → f.allocated = false → f.np ≠ p

/-- The nodes in use are the nodes of the slots in use, one each, and as long as a slot has none
there is a node to be had. -/
structure PoolMatches (k : Kernel ncpu) : Prop where
  owns : ∀ p, k.HasNode p → ∃ n, (k.ptable.proc p).qNode = some n ∧
    (k.ptable.node n).proc = some p ∧ (k.ptable.node n).inuse = true
  owned : ∀ n, (k.ptable.node n).inuse = true →
    ∃! p, k.HasNode p ∧ (k.ptable.proc p).qNode = some n
  room : (∃ p, ¬k.HasNode p) → ∃ n, (k.ptable.node n).inuse = false

end Kernel

theorem PTable.takeNode_eq (t : PTable) (np : Slot) {n : Node}
    (hn : ((List.finRange nproc).find? fun n ↦ (t.node n).inuse = false) = some n) :
    t.takeNode np =
      (t.setNode n { t.node n with inuse := true, proc := some np, next := none }).setProc np
        { t.proc np with
          ticks := fun _ ↦ 0, qtail := fun _ ↦ 0, putIn := none, qNode := some n } := by
  unfold PTable.takeNode
  simp only [hn]

/-- The slots without a node, the children of `fork2` and the nodes in use. -/
structure PoolInv (k : Kernel ncpu) : Prop where
  unused : ∀ p, (k.ptable.proc p).state = .unused → (k.ptable.proc p).qNode = none
  waiting : ∀ q f, k.forking q = some f → f.allocated = false → (k.ptable.proc f.np).qNode = none
  given : ∀ q f, k.forking q = some f → f.allocated = true → (k.ptable.proc f.np).qNode ≠ none
  forked : ∀ p, (k.ptable.proc p).state = .embryo → ∃ q f, k.forking q = some f ∧ f.np = p
  used : ∀ n, (k.ptable.node n).inuse = true → ∃ p, (k.ptable.proc p).qNode = some n

namespace PoolInv

variable {k k' : Kernel ncpu} {s : Section ncpu} {p np : Slot} {f : Fork}

/-- As many nodes as slots: where a slot has no node, a node is free. -/
theorem exists_free (h : PoolInv k) (hp : (k.ptable.proc p).qNode = none) :
    ∃ n, (k.ptable.node n).inuse = false := by
  by_contra hnone
  have hall : ∀ n, (k.ptable.node n).inuse = true := by
    simpa using hnone
  choose owner howner using fun n ↦ h.used n (hall n)
  have hinjective : Function.Injective owner := by
    intro m n hmn
    have hm := howner m
    rw [hmn, howner n] at hm
    exact (Option.some.inj hm).symm
  obtain ⟨n, hn⟩ := Finite.surjective_of_injective hinjective p
  have hnode := howner n
  rw [hn, hp] at hnode
  cases hnode

/-- A slot has no node if and only if it is not in use or waits for one. -/
theorem hasNode_iff (h : PoolInv k) (howned : k.ptable.Owned) (p : Slot) :
    k.HasNode p ↔ (k.ptable.proc p).qNode ≠ none := by
  constructor
  · intro hp
    by_cases halive : (k.ptable.proc p).state.Alive
    · exact howned.alive p halive
    · have hembryo : (k.ptable.proc p).state = .embryo := by
        by_contra hne
        exact halive ⟨hp.1, hne⟩
      obtain ⟨q, f, hf, hnp⟩ := h.forked p hembryo
      rw [← hnp]
      apply h.given q f hf
      by_contra hallocated
      exact hp.2 q f hf (Bool.not_eq_true _ ▸ hallocated) hnp
  · intro hp
    refine ⟨fun hunused ↦ hp (h.unused p hunused), fun q f hf hallocated hnp ↦ hp ?_⟩
    rw [← hnp]
    exact h.waiting q f hf hallocated

theorem poolMatches (h : PoolInv k) (howned : k.ptable.Owned) : k.PoolMatches where
  owns p hp := by
    obtain ⟨n, hn⟩ := Option.ne_none_iff_exists'.mp ((h.hasNode_iff howned p).mp hp)
    exact ⟨n, hn, howned.owner p n hn⟩
  owned n hn := by
    obtain ⟨p, hp⟩ := h.used n hn
    have hnode : k.HasNode p := by
      rw [h.hasNode_iff howned, hp]
      exact Option.some_ne_none n
    exact ⟨p, ⟨hnode, hp⟩, fun q hq ↦ howned.unique hq.2 hp⟩
  room := by
    intro hp
    obtain ⟨p, hp⟩ := hp
    rw [h.hasNode_iff howned, not_not] at hp
    exact h.exists_free hp

/-! ## The sections -/

/-- Sections that take and give back nothing. -/
theorem frame (h : PoolInv k) (hfork : k'.forking = k.forking)
    (hqNode : ∀ p, (k'.ptable.proc p).qNode = (k.ptable.proc p).qNode)
    (hunused : ∀ p, (k'.ptable.proc p).state = .unused → (k.ptable.proc p).state = .unused)
    (hembryo : ∀ p, (k'.ptable.proc p).state = .embryo → (k.ptable.proc p).state = .embryo)
    (hinuse : ∀ n, (k'.ptable.node n).inuse = (k.ptable.node n).inuse) : PoolInv k' where
  unused p hp := (hqNode p).trans (h.unused p (hunused p hp))
  waiting q f hf := by
    rw [hqNode]
    exact h.waiting q f (hfork ▸ hf)
  given q f hf := by
    rw [hqNode]
    exact h.given q f (hfork ▸ hf)
  forked p hp := by
    rw [hfork]
    exact h.forked p (hembryo p hp)
  used n hn := by
    rw [hinuse] at hn
    obtain ⟨p, hp⟩ := h.used n hn
    exact ⟨p, (hqNode p).trans hp⟩

theorem rouses {t : PTable} (h : PoolInv k) (hrouses : k.ptable.Rouses t) :
    PoolInv (k.setTable t) := by
  have hstate : ∀ p, (t.proc p).state ≠ .runnable → (t.proc p).state = (k.ptable.proc p).state := by
    intro p hp
    exact (hrouses.state p).resolve_right fun hwoken ↦ hp hwoken.2
  refine h.frame rfl hrouses.qNode ?_ ?_ ?_
  · intro p hp
    exact (hstate p (by simp [Kernel.setTable] at hp; simp [hp])).symm.trans hp
  · intro p hp
    exact (hstate p (by simp [Kernel.setTable] at hp; simp [hp])).symm.trans hp
  · intro n
    rw [Kernel.setTable, hrouses.node]

/-- `wait` gives back the slot and the node of the child. -/
theorem reap {q : Slot} {t : PTable} (h : PoolInv k) (hprocs : ProcsInv k)
    (hzombie : (k.ptable.proc q).state = .zombie)
    (ht : k.ptable.reap q = some t) : PoolInv (k.setTable t) := by
  obtain ⟨n, hn, rfl⟩ := Option.map_eq_some_iff.mp ht
  have hchild : ∀ r f, k.forking r = some f → f.np ≠ q := by
    intro r f hf hnp
    have hembryo := hprocs.embryo r f hf
    rw [hnp, hzombie] at hembryo
    cases hembryo
  constructor
  · intro r hr
    by_cases hrq : r = q
    · simp [Kernel.setTable, hrq]
    · simp only [Kernel.setTable, PTable.setProc_proc_of_ne hrq, PTable.setNode_proc] at hr ⊢
      exact h.unused r hr
  · intro r f hf hallocated
    simp only [Kernel.setTable, PTable.setProc_proc_of_ne (hchild r f hf), PTable.setNode_proc]
    exact h.waiting r f hf hallocated
  · intro r f hf hallocated
    simp only [Kernel.setTable, PTable.setProc_proc_of_ne (hchild r f hf), PTable.setNode_proc]
    exact h.given r f hf hallocated
  · intro r hr
    have hrq : r ≠ q := by
      intro hrq
      simp [Kernel.setTable, hrq] at hr
    simp only [Kernel.setTable, PTable.setProc_proc_of_ne hrq, PTable.setNode_proc] at hr
    exact h.forked r hr
  · intro m hm
    have hmn : m ≠ n := by
      intro hmn
      simp [Kernel.setTable, hmn] at hm
    simp only [Kernel.setTable, PTable.setProc_node, PTable.setNode_node_of_ne hmn] at hm
    obtain ⟨r, hr⟩ := h.used m hm
    have hrq : r ≠ q := by
      intro hrq
      rw [hrq, hn] at hr
      exact hmn (Option.some.inj hr).symm
    exact ⟨r, by simpa [Kernel.setTable, hrq] using hr⟩

/-- `fork2` takes a slot, which has no node. -/
theorem forkTaken {pri : Level} (h : PoolInv k) (hp : k.forking p = none)
    (hunused : (k.ptable.proc np).state = .unused) : PoolInv (k.forkTaken p np pri) := by
  have hqNode : ∀ q, ((k.forkTaken p np pri).ptable.proc q).qNode = (k.ptable.proc q).qNode := by
    apply PTable.setProc_keeps Proc.qNode
    rfl
  have hother : ∀ q f, k.forking q = some f → (k.forkTaken p np pri).forking q = some f := by
    intro q f hf
    have hqp : q ≠ p := fun hqp ↦ by simp [hqp, hp] at hf
    exact (Function.update_of_ne hqp _ _).trans hf
  have hforking : ∀ q f, (k.forkTaken p np pri).forking q = some f →
      f = ⟨np, pri, false⟩ ∨ k.forking q = some f := by
    intro q f hf
    simp only [Kernel.forkTaken, Function.update_apply] at hf
    split at hf
    · exact .inl (Option.some.inj hf).symm
    · exact .inr hf
  constructor
  · intro q hq
    rw [hqNode]
    by_cases hqnp : q = np
    · simp [Kernel.forkTaken, hqnp] at hq
    · simp only [Kernel.forkTaken, PTable.setProc_proc_of_ne hqnp] at hq
      exact h.unused q hq
  · intro q f hf hallocated
    rw [hqNode]
    rcases hforking q f hf with rfl | hf
    · exact h.unused np hunused
    · exact h.waiting q f hf hallocated
  · intro q f hf hallocated
    rw [hqNode]
    rcases hforking q f hf with rfl | hf
    · cases hallocated
    · exact h.given q f hf hallocated
  · intro q hq
    by_cases hqnp : q = np
    · exact ⟨p, ⟨np, pri, false⟩, by simp [Kernel.forkTaken], hqnp.symm⟩
    · simp only [Kernel.forkTaken, PTable.setProc_proc_of_ne hqnp] at hq
      obtain ⟨r, f, hf, hnp⟩ := h.forked q hq
      exact ⟨r, f, hother r f hf, hnp⟩
  · intro n hn
    obtain ⟨q, hq⟩ := h.used n hn
    exact ⟨q, (hqNode q).trans hq⟩

/-- `allocproc` finds a free node for its slot. -/
theorem forkAllocated (h : PoolInv k) (hprocs : ProcsInv k) (hf : k.forking p = some f)
    (hallocated : f.allocated = false) : PoolInv (k.forkAllocated p f) := by
  have hnone := h.waiting p f hf hallocated
  obtain ⟨m, hm⟩ := h.exists_free hnone
  obtain ⟨n, hn⟩ : ∃ n, ((List.finRange nproc).find? fun n ↦ (k.ptable.node n).inuse = false) =
      some n := by
    rw [← Option.isSome_iff_exists, List.find?_isSome]
    exact ⟨m, List.mem_finRange m, by simpa using hm⟩
  have htaken := k.ptable.takeNode_eq f.np hn
  have hself : ((k.forkAllocated p f).ptable.proc f.np).qNode = some n := by
    rw [Kernel.forkAllocated, htaken, PTable.setProc_proc_self]
  have hother : ∀ q, q ≠ f.np → (k.forkAllocated p f).ptable.proc q = k.ptable.proc q := by
    intro q hq
    rw [Kernel.forkAllocated, htaken, PTable.setProc_proc_of_ne hq, PTable.setNode_proc]
  have hstate : ∀ q, ((k.forkAllocated p f).ptable.proc q).state = (k.ptable.proc q).state :=
    PTable.takeNode_state f.np
  have hforking : ∀ q g, (k.forkAllocated p f).forking q = some g →
      g = { f with allocated := true } ∨ q ≠ p ∧ k.forking q = some g := by
    intro q g hg
    simp only [Kernel.forkAllocated, Function.update_apply] at hg
    split at hg
    · exact .inl (Option.some.inj hg).symm
    · next hqp => exact .inr ⟨hqp, hg⟩
  have hchild : ∀ q g, q ≠ p → k.forking q = some g → g.np ≠ f.np :=
    fun q g hqp hg hnp ↦ hqp (hprocs.forks q p g f hg hf hnp)
  constructor
  · intro q hq
    rw [hstate] at hq
    have hqnp : q ≠ f.np := by
      intro hqnp
      rw [hqnp, hprocs.embryo p f hf] at hq
      cases hq
    rw [hother q hqnp]
    exact h.unused q hq
  · intro q g hg hg'
    rcases hforking q g hg with rfl | ⟨hqp, hg⟩
    · cases hg'
    · rw [hother _ (hchild q g hqp hg)]
      exact h.waiting q g hg hg'
  · intro q g hg hg'
    rcases hforking q g hg with rfl | ⟨hqp, hg⟩
    · rw [hself]
      exact Option.some_ne_none n
    · rw [hother _ (hchild q g hqp hg)]
      exact h.given q g hg hg'
  · intro q hq
    rw [hstate] at hq
    obtain ⟨r, g, hg, hnp⟩ := h.forked q hq
    by_cases hrp : r = p
    · obtain rfl := Option.some.inj (hf.symm.trans (hrp ▸ hg))
      exact ⟨p, { f with allocated := true }, by simp [Kernel.forkAllocated], hnp⟩
    · exact ⟨r, g, (Function.update_of_ne hrp _ _).trans hg, hnp⟩
  · intro m hm
    by_cases hmn : m = n
    · exact ⟨f.np, hmn ▸ hself⟩
    · have hinuse : (k.ptable.node m).inuse = true := by
        rw [Kernel.forkAllocated, htaken, PTable.setProc_node, PTable.setNode_node_of_ne hmn] at hm
        exact hm
      obtain ⟨q, hq⟩ := h.used m hinuse
      have hqnp : q ≠ f.np := by
        intro hqnp
        rw [hqnp, hnone] at hq
        cases hq
      exact ⟨q, by rw [hother q hqnp, hq]⟩

/-- `fork2` ends with its child in use, or without a node. -/
theorem endFork {t : PTable} (h : PoolInv k) (hf : k.forking p = some f)
    (hqNode : ∀ q, (t.proc q).qNode = (k.ptable.proc q).qNode)
    (hstate : ∀ q, q ≠ f.np → (t.proc q).state = (k.ptable.proc q).state)
    (hchild : (t.proc f.np).state ≠ .embryo)
    (hunused : (t.proc f.np).state = .unused → f.allocated = false)
    (hinuse : ∀ n, (t.node n).inuse = (k.ptable.node n).inuse) : PoolInv (k.endFork p t) := by
  have hforking : ∀ q g, (k.endFork p t).forking q = some g → k.forking q = some g := by
    intro q g hg
    simp only [Kernel.endFork, Function.update_apply] at hg
    split at hg
    · cases hg
    · exact hg
  constructor
  · intro q hq
    refine (hqNode q).trans ?_
    by_cases hqnp : q = f.np
    · subst hqnp
      exact h.waiting p f hf (hunused hq)
    · exact h.unused q ((hstate q hqnp).symm.trans hq)
  · intro q g hg hallocated
    exact (hqNode g.np).trans (h.waiting q g (hforking q g hg) hallocated)
  · intro q g hg hallocated hnone
    exact h.given q g (hforking q g hg) hallocated ((hqNode g.np).symm.trans hnone)
  · intro q hq
    have hqnp : q ≠ f.np := by
      intro hqnp
      exact hchild (hqnp ▸ hq)
    obtain ⟨r, g, hg, hnp⟩ := h.forked q ((hstate q hqnp).symm.trans hq)
    have hrp : r ≠ p := by
      intro hrp
      rw [hrp, hf] at hg
      rw [Option.some.inj hg] at hqnp
      exact hqnp hnp.symm
    exact ⟨r, g, (Function.update_of_ne hrp _ _).trans hg, hnp⟩
  · intro n hn
    obtain ⟨q, hq⟩ := h.used n ((hinuse n).symm.trans hn)
    exact ⟨q, (hqNode q).trans hq⟩

theorem effect (h : PoolInv k) (hprocs : ProcsInv k) (he : k.Effect s k')
    (hcopies : ∀ c, s ≠ .copyuvmDone c false) : PoolInv k' := by
  cases he with
  | idle => exact h
  | rouse hrouses => exact h.rouses hrouses
  | @stop _ c p u v hc hrouses hv halive =>
    have hu := h.rouses hrouses
    refine hu.frame rfl ?_ ?_ ?_ ?_
    · apply PTable.setProc_keeps Proc.qNode
      rw [hv]
    · intro q hq
      by_cases hqp : q = p
      · simp only [Kernel.sched, hqp, PTable.setProc_proc_self] at hq
        exact absurd hq halive.1
      · simpa [Kernel.sched, Kernel.setTable, hqp] using hq
    · intro q hq
      by_cases hqp : q = p
      · simp only [Kernel.sched, hqp, PTable.setProc_proc_self] at hq
        exact absurd hq halive.2
      · simpa [Kernel.sched, Kernel.setTable, hqp] using hq
    · exact fun n ↦ rfl
  | reap _ hq ht => exact h.reap hprocs (PTable.reapable_eq hq).2 ht
  | take hp hunused => exact h.forkTaken hp hunused
  | node hf hallocated => exact h.forkAllocated hprocs hf hallocated
  | drop hf hdrop =>
    apply h.endFork hf
    · apply PTable.setProc_keeps Proc.qNode
      rfl
    · exact fun q hq ↦ by rw [PTable.setState, PTable.setProc_proc_of_ne hq]
    · simp [PTable.setState]
    · intro _
      by_contra hallocated
      obtain ⟨c, hs⟩ := hdrop (Bool.not_eq_false _ ▸ hallocated)
      exact hcopies c hs
    · exact fun n ↦ rfl
  | complete hf _ ht =>
    obtain ⟨n, hn, rfl⟩ := Option.map_eq_some_iff.mp ht
    apply h.endFork hf
    · apply PTable.setProc_keeps Proc.qNode
      rfl
    · exact fun q hq ↦ by rw [PTable.setProc_proc_of_ne hq, PTable.setNode_proc]
    · simp
    · simp
    · apply PTable.setNode_keeps QueueNode.inuse
      rfl

/-- The pass moves nodes between the queues only. -/
theorem pass {L : Level → List Node} {c : Fin ncpu} (h : PoolInv k) (hinv : KernelInv k L)
    (hs : k.step (.schedule c) = some k') : PoolInv k' := by
  obtain ⟨t, -, hrefresh, -, -, hsame, hnodes⟩ := hinv.queues.refreshQ_resynced
  have hmoved : PoolInv (k.setTable t) := by
    refine h.frame rfl ?_ ?_ ?_ ?_
    · exact fun p ↦ by rw [Kernel.setTable, hsame p]
    · exact fun p hp ↦ by rwa [Kernel.setTable, hsame p] at hp
    · exact fun p hp ↦ by rwa [Kernel.setTable, hsame p] at hp
    · exact fun n ↦ (hnodes n).2
  cases hinv.pass hs with
  | idle ht =>
    obtain rfl := Option.some.inj (hrefresh.symm.trans ht)
    exact hmoved.frame rfl (fun _ ↦ rfl) (fun _ ↦ id) (fun _ ↦ id) fun _ ↦ rfl
  | @run _ _ p n l ht =>
    obtain rfl := Option.some.inj (hrefresh.symm.trans ht)
    refine hmoved.frame rfl ?_ ?_ ?_ ?_
    · apply PTable.setProc_keeps Proc.qNode
      rfl
    · intro q hq
      by_cases hqp : q = p
      · simp [PTable.dispatched, hqp] at hq
      · simpa [PTable.dispatched, Kernel.setTable, hqp] using hq
    · intro q hq
      by_cases hqp : q = p
      · simp [PTable.dispatched, hqp] at hq
      · simpa [PTable.dispatched, Kernel.setTable, hqp] using hq
    · apply PTable.setNode_keeps QueueNode.inuse
      rfl

theorem userinit : PoolInv (Kernel.userinit : Kernel ncpu) where
  unused p hp := by
    rw [KernelInv.userinit_proc] at hp ⊢
    split at hp
    · cases hp
    · next hne => rw [if_neg hne]; rfl
  waiting _ _ hf := nomatch hf
  given _ _ hf := nomatch hf
  forked p hp := by
    rw [KernelInv.userinit_proc] at hp
    split at hp <;> cases hp
  used n hn := by
    have hn0 : n = 0 := by
      by_contra hne
      simp [Kernel.userinit, Function.update_of_ne hne, Kernel.freeNode] at hn
    refine ⟨PTable.initproc, ?_⟩
    rw [KernelInv.userinit_proc, if_pos rfl, hn0]

end PoolInv

theorem poolInv_of_reachable {k : Kernel 1}
    (hk : (Kernel.machine 1).ReachableVia Kernel.CopiesMemory k) : PoolInv k := by
  apply hk.invariant
  · intro k hinit
    obtain rfl : k = Kernel.userinit := hinit
    exact .userinit
  · intro k s k' hreach h hok hs
    obtain ⟨⟨L, hinv⟩, -⟩ := oneCpu_inv (hreach.mono fun _ _ ↦ And.left)
    rcases Kernel.step_effect hs with ⟨c, rfl⟩ | ⟨pid, pri, rfl⟩ | he
    · exact h.pass hinv hs
    · exact hok.1.elim
    · exact h.effect hinv.procs he hok.2

/-- The pool of queue nodes on one processor: as long as no `fork2` fails in `copyuvm`, the nodes in
use match the slots in use in every state, a node is free for every slot that waits for one, and a
`fork2` that fails in `kalloc` leaves the nodes as they were. -/
theorem pool_matches {k : Kernel 1}
    (hk : (Kernel.machine 1).ReachableVia Kernel.CopiesMemory k) :
    k.PoolMatches ∧ ∀ c k', k.step (.kallocDone c false) = some k' →
      k'.ptable.node = k.ptable.node ∧ k'.PoolMatches := by
  have hmatches : ∀ u : Kernel 1, (Kernel.machine 1).ReachableVia Kernel.CopiesMemory u →
      u.PoolMatches := by
    intro u hu
    obtain ⟨⟨L, hinv⟩, -⟩ := oneCpu_inv (hu.mono fun _ _ ↦ And.left)
    exact (poolInv_of_reachable hu).poolMatches hinv.queues.owned
  refine ⟨hmatches k hk, fun c k' hs ↦ ⟨?_, ?_⟩⟩
  · obtain ⟨pf, -, rfl⟩ := Option.map_eq_some_iff.mp hs
    rfl
  · apply hmatches k'
    exact .step (l := .kallocDone c false) hk ⟨trivial, by simp⟩ hs

/-- The first `fork2` of init fails in `kalloc`. -/
theorem pool_matches_kalloc_failed :
    ∃ k k', (Kernel.machine 1).run Kernel.userinit [.schedule 0, .fork2 0 2] = some k ∧
      k.step (.kallocDone 0 false) = some k' ∧ k.PoolMatches ∧
      k'.ptable.node = k.ptable.node ∧ k'.PoolMatches := by
  have hrun : (((Kernel.machine 1).run Kernel.userinit [.schedule 0, .fork2 0 2]).bind fun k ↦
      k.step (.kallocDone 0 false)).isSome = true := by decide +kernel
  obtain ⟨k', hrun⟩ := Option.isSome_iff_exists.mp hrun
  obtain ⟨k, hk, hs⟩ := Option.bind_eq_some_iff.mp hrun
  have hok : ∀ s ∈ [(.schedule 0 : Section 1), .fork2 0 2], ∀ k : Kernel 1,
      k.CopiesMemory s := by
    simp [Kernel.CopiesMemory, Kernel.NoSetpri]
  have hreach : (Kernel.machine 1).ReachableVia Kernel.CopiesMemory k :=
    Machine.ReachableVia.run (.init rfl) hok hk
  obtain ⟨hmatches, hfailed⟩ := pool_matches hreach
  obtain ⟨hnode, hmatches'⟩ := hfailed 0 k' hs
  exact ⟨k, k', hk, hs, hmatches, hnode, hmatches'⟩

/-- The first `fork2` of init fails in `copyuvm`: its node stays in use. -/
theorem node_leaked :
    ∃ k, (Kernel.machine 1).ReachableVia Kernel.NoSetpri k ∧ (∀ p, k.forking p = none) ∧
      ¬k.PoolMatches := by
  have hrun : ((Kernel.machine 1).run Kernel.userinit
      [.schedule 0, .fork2 0 2, .kallocDone 0 true, .copyuvmDone 0 false]).map (fun k ↦
        ((List.finRange nproc).all fun p ↦ (k.forking p).isNone,
          (List.finRange nproc).all fun p ↦
            (k.ptable.proc p).state = .unused ∨ (k.ptable.proc p).qNode ≠ some 1,
          (k.ptable.node 1).inuse)) = some (true, true, true) := by decide +kernel
  obtain ⟨k, hk, hvalues⟩ := Option.map_eq_some_iff.mp hrun
  simp only [Prod.mk.injEq, List.all_eq_true, List.mem_finRange, true_implies,
    decide_eq_true_eq, Option.isNone_iff_eq_none] at hvalues
  obtain ⟨hforking, hnodes, hinuse⟩ := hvalues
  have hok : ∀ s ∈ [(.schedule 0 : Section 1), .fork2 0 2, .kallocDone 0 true,
      .copyuvmDone 0 false], ∀ k : Kernel 1, k.NoSetpri s := by
    simp [Kernel.NoSetpri]
  refine ⟨k, Machine.ReachableVia.run (.init rfl) hok hk, hforking, fun hmatches ↦ ?_⟩
  obtain ⟨p, ⟨hp, hn⟩, -⟩ := hmatches.owned 1 hinuse
  exact (hnodes p).elim hp.1 fun hne ↦ hne hn

end CS537.Scheduler
