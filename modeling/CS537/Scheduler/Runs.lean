import CS537.Scheduler.Effects

/-!
# Runs of the kernel

The invariant of the queues holds in every state of a run, on any number of processors, as long as
no section reaps a process that is still queued and none calls `setpri`.  On one processor the
pass that follows a dispatch comes before anything else can happen to the process, so that no
queued process is ever reaped.
-/

namespace CS537.Scheduler

open Foundation

variable {ncpu : ℕ}

/-- The queues are in order, and the processors and the calls of `fork2` hold the processes they
work on. -/
structure KernelInv (k : Kernel ncpu) (L : Level → List Node) : Prop where
  queues : QueueInv k.ptable L k.lastPicked
  running : ∀ c p, k.cpuProc c = some p → (k.ptable.proc p).state = .running
  distinct : ∀ c c' p, k.cpuProc c = some p → k.cpuProc c' = some p → c = c'
  embryo : ∀ p f, k.forking p = some f → (k.ptable.proc f.np).state = .embryo
  forks : ∀ p p' f f', k.forking p = some f → k.forking p' = some f' → f.np = f'.np → p = p'

namespace KernelInv

variable {k k' : Kernel ncpu} {L L' : Level → List Node} {c : Fin ncpu} {p : Slot}

theorem procs (h : KernelInv k L) : ProcsInv k :=
  ⟨h.running, h.distinct, h.embryo, h.forks⟩

theorem of_procs (hqueues : QueueInv k.ptable L k.lastPicked) (hprocs : ProcsInv k) :
    KernelInv k L :=
  ⟨hqueues, hprocs.running, hprocs.distinct, hprocs.embryo, hprocs.forks⟩

/-! ## The pass -/

/-- A pass of an idle processor: the queues are brought up to date, and the next process is
dispatched unless none is runnable. -/
structure Passed (k : Kernel ncpu) (c : Fin ncpu) (t : PTable) (k' : Kernel ncpu)
    (L' : Level → List Node) : Prop where
  refresh : k.ptable.refreshQ = some t
  queues : QueueInv t L' none
  resynced : t.Resynced
  state : ∀ p, (t.proc p).state = (k.ptable.proc p).state
  inv : KernelInv k' L'
  next : ∀ p, k'.cpuProc c = some p → t.NextToRun p
  idle : k'.cpuProc c = none → ∀ p, (t.proc p).state ≠ .runnable

theorem schedule (h : KernelInv k L) (hc : k.cpuProc c = none) :
    ∃ t k' L', k.schedule c = some k' ∧ Passed k c t k' L' := by
  obtain ⟨t, L', hrefresh, hqueues, hsync, hsame, -⟩ := h.queues.refreshQ_resynced
  have hstate : ∀ p, (t.proc p).state = (k.ptable.proc p).state := fun p ↦ by rw [hsame p]
  have hholds : ∀ p, k.ptable.Holds p t := fun p ↦ PTable.holds_of_eq (hstate p)
  cases hpick : t.pick with
  | none =>
    refine ⟨t, { k with ptable := t, lastPicked := none }, L', ?_,
      ⟨hrefresh, hqueues, hsync, hstate, .of_procs hqueues (h.procs.of_holds rfl rfl hholds), ?_,
        fun _ ↦ hqueues.not_runnable hsync hpick⟩⟩
    · simp [Kernel.schedule, hrefresh, hpick]
    · intro p hp
      exact absurd (hc.symm.trans hp) (by simp)
  | some picked =>
    obtain ⟨l, n⟩ := picked
    obtain ⟨p, hproc, hnode, hputIn, hnext⟩ := hqueues.nextToRun hsync hpick
    obtain ⟨t', hdispatch, hqueues', hrunning, hother⟩ :=
      hqueues.dispatch hproc hnode hputIn (PTable.pick_eq_some hpick).1
    have hrunnable : (k.ptable.proc p).state = .runnable := (hstate p).symm.trans hnext.runnable
    have hprocs := h.procs.dispatch (c := c) hrunnable hrunning fun q hq ↦
      PTable.holds_of_eq (by rw [hother q hq, hstate])
    refine ⟨t, { k with
        ptable := t'
        cpuProc := Function.update k.cpuProc c (some p)
        lastPicked := some p }, L', ?_,
      ⟨hrefresh, hqueues, hsync, hstate, .of_procs hqueues' hprocs, ?_, ?_⟩⟩
    · simp [Kernel.schedule, hrefresh, hpick, hdispatch]
    · intro q hq
      dsimp only at hq
      rw [Function.update_self] at hq
      rwa [← Option.some.inj hq]
    · intro hnone
      simp at hnone

/-- What a pass does: it brings the queues up to date and dispatches the process picked. -/
inductive Pass (k : Kernel ncpu) (c : Fin ncpu) : Kernel ncpu → Prop
  | idle {t : PTable} {L : Level → List Node} : k.ptable.refreshQ = some t → QueueInv t L none →
      t.pick = none → Pass k c { k with ptable := t, lastPicked := none }
  | run {t : PTable} {L : Level → List Node} {p : Slot} {n : Node} {l : Level} :
      k.ptable.refreshQ = some t → QueueInv t L none → t.pick = some (l, n) →
      (t.node n).proc = some p → (t.proc p).qNode = some n → (t.proc p).putIn = some l →
      Pass k c { k with
        ptable := t.dispatched p n l
        cpuProc := Function.update k.cpuProc c (some p)
        lastPicked := some p }

theorem pass (h : KernelInv k L) (hs : k.step (.schedule c) = some k') : Pass k c k' := by
  obtain ⟨-, hs⟩ := Option.ite_none_right_eq_some.mp hs
  obtain ⟨t, L', hrefresh, hqueues, hsync, -⟩ := h.queues.refreshQ_resynced
  rw [Kernel.schedule, hrefresh, Option.bind_some] at hs
  cases hpick : t.pick with
  | none =>
    rw [hpick] at hs
    obtain rfl := Option.some.inj hs
    exact .idle hrefresh hqueues hpick
  | some picked =>
    obtain ⟨l, n⟩ := picked
    obtain ⟨p, hproc, hnode, hputIn, -⟩ := hqueues.nextToRun hsync hpick
    simp only [hpick, PTable.dispatch_eq hproc hnode, Option.map_some] at hs
    obtain rfl := Option.some.inj hs
    exact .run hrefresh hqueues hpick hproc hnode hputIn

/-! ## The invariant of the runs -/

theorem userinit_proc (p : Slot) :
    (Kernel.userinit : Kernel ncpu).ptable.proc p =
      if p = PTable.initproc then
        { Kernel.freeProc with state := .runnable, pid := 1, priority := 3, qNode := some 0 }
      else Kernel.freeProc := by
  simp only [Kernel.userinit, Function.update_apply]

theorem userinit_queues : QueueInv (Kernel.userinit : Kernel ncpu).ptable (fun _ ↦ []) none := by
  have hputIn : ∀ p, ((Kernel.userinit : Kernel ncpu).ptable.proc p).putIn = none := by
    intro p
    rw [userinit_proc]
    split <;> rfl
  refine
    { linked := fun _ ↦ rfl
      tail := fun _ ↦ rfl
      disjoint := fun _ _ _ _ hn ↦ nomatch hn
      queued := fun l n ↦ by simp [hputIn]
      owner := fun p n hn ↦ ?_
      alive := fun p hp ↦ ?_
      parked := fun p _ ↦ hputIn p
      synced := fun p l hl ↦ by simp [hputIn] at hl
      first := fun p l hl ↦ by simp [hputIn] at hl
      order := fun _ ↦ .nil
      past := fun _ _ hn ↦ nomatch hn }
  · rw [userinit_proc] at hn
    split at hn
    · next hp =>
      obtain rfl := Option.some.inj hn
      simp [hp, Kernel.userinit]
    · cases hn
  · rw [userinit_proc] at hp ⊢
    split at hp
    · next hp' => simp [hp']
    · exact absurd rfl hp.1

theorem userinit : KernelInv (Kernel.userinit : Kernel ncpu) fun _ ↦ [] :=
  .of_procs userinit_queues .userinit

theorem step {s : Section ncpu} (h : KernelInv k L) (hok : k.ReapsUnqueued s)
    (hs : k.step s = some k') : ∃ L', KernelInv k' L' := by
  rcases Kernel.step_effect hs with ⟨c, rfl⟩ | ⟨pid, pri, rfl⟩ | he
  · obtain ⟨hc, hs⟩ := Option.ite_none_right_eq_some.mp hs
    obtain ⟨t, k'', L', hrun, hpassed⟩ := h.schedule hc
    obtain rfl := Option.some.inj (hrun.symm.trans hs)
    exact ⟨L', hpassed.inv⟩
  · exact hok.elim
  · have hundisturbed := h.procs.undisturbed h.queues.owned he hok.reaps
    refine ⟨L, .of_procs ?_ (h.procs.effect he)⟩
    rw [he.cpuProc.1]
    exact h.queues.undisturbed hundisturbed

end KernelInv

/-- The invariant holds in every state reached. -/
theorem kernelInv_of_reachable {k : Kernel ncpu}
    (hk : (Kernel.machine ncpu).ReachableVia Kernel.ReapsUnqueued k) : ∃ L, KernelInv k L := by
  apply hk.invariant
  · intro k hinit
    obtain rfl : k = Kernel.userinit := hinit
    exact ⟨_, .userinit⟩
  · intro k s k' _ hinv hok hs
    obtain ⟨L, hinv⟩ := hinv
    exact hinv.step hok hs

end CS537.Scheduler
