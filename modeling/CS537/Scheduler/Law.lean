import CS537.Scheduler.Runs

/-!
# The scheduling law

On one processor every pass finds the queues in order and dispatches the process that the
multi-level queue discipline demands.  On several processors the queues are in order as long as no
process is reaped between its last dispatch and the next `refresh_q`; otherwise the pass meets a
node that has been given back.
-/

namespace CS537.Scheduler

open Foundation

/-! ## One processor -/

namespace Kernel

variable {ncpu : ℕ} {k k' : Kernel ncpu}

/-- The processors run at most the process dispatched last. -/
def RunsLastPicked (k : Kernel ncpu) : Prop :=
  ∀ c p, k.cpuProc c = some p → k.lastPicked = some p

/-- A pass of an idle processor gives it the process that it notes. -/
theorem schedule_lastPicked {c : Fin ncpu} {p : Slot} (hc : k.cpuProc c = none)
    (hs : k.schedule c = some k') (hp : k'.cpuProc c = some p) : k'.lastPicked = some p := by
  obtain ⟨t, -, hs⟩ := Option.bind_eq_some_iff.mp hs
  split at hs
  · obtain rfl := Option.some.inj hs
    exact absurd (hc.symm.trans hp) (by simp)
  · obtain ⟨run, -, rfl⟩ := Option.map_eq_some_iff.mp hs
    simpa using hp

theorem runsLastPicked_step {k k' : Kernel 1} {s : Section 1} (h : k.RunsLastPicked)
    (hs : k.step s = some k') : k'.RunsLastPicked := by
  intro c p hp
  rcases step_effect hs with ⟨c', rfl⟩ | ⟨pid, pri, rfl⟩ | he
  · obtain ⟨hc', hs⟩ := Option.ite_none_right_eq_some.mp hs
    obtain rfl : c' = c := Subsingleton.elim c' c
    exact schedule_lastPicked hc' hs hp
  · obtain ⟨r, -, rfl⟩ := Option.map_eq_some_iff.mp hs
    exact h c p hp
  · rw [he.cpuProc.1]
    exact h c p (he.cpuProc.2 c p hp)

end Kernel

/-- The process that reaps is the one dispatched last, so that those reaped are in no queue. -/
theorem KernelInv.reapsUnqueued {ncpu : ℕ} {k : Kernel ncpu} {L : Level → List Node}
    (h : KernelInv k L) (hlast : k.RunsLastPicked) {s : Section ncpu} (hs : k.NoSetpri s) :
    k.ReapsUnqueued s := by
  cases s with
  | wait c =>
    intro p q hp hq
    have hc := Kernel.cpuProc_of_myproc hp
    have hzombie := (PTable.reapable_eq hq).2
    cases hputIn : (k.ptable.proc q).putIn with
    | none => rfl
    | some l =>
      have hne : k.lastPicked ≠ some q := by
        intro hpicked
        obtain rfl := Option.some.inj ((hlast c p hc).symm.trans hpicked)
        have hrunning := h.running c p hc
        rw [hzombie] at hrunning
        cases hrunning
      have hrunnable := (h.queues.synced q l hputIn hne).1
      rw [hzombie] at hrunnable
      cases hrunnable
  | setpri pid pri => exact hs
  | _ => trivial

/-- On one processor the invariant needs no assumption about `wait`. -/
theorem oneCpu_inv {k : Kernel 1} (hk : (Kernel.machine 1).ReachableVia Kernel.NoSetpri k) :
    (∃ L, KernelInv k L) ∧ k.RunsLastPicked := by
  apply hk.invariant
  · intro k hinit
    obtain rfl : k = Kernel.userinit := hinit
    exact ⟨⟨_, .userinit⟩, fun _ _ hp ↦ nomatch hp⟩
  · intro k s k' _ hinv hok hs
    obtain ⟨⟨L, hinv⟩, hlast⟩ := hinv
    exact ⟨hinv.step (hinv.reapsUnqueued hlast hok) hs, Kernel.runsLastPicked_step hlast hs⟩

/-- The law of the multi-level queue on one processor: in every state of a run in which the
processor is idle, the pass brings the queues in order, with the runnable processes of each
priority in its queue, and dispatches the next process to run, unless none is runnable. -/
theorem mlq_law {k : Kernel 1} (hk : (Kernel.machine 1).ReachableVia Kernel.NoSetpri k)
    (hidle : k.cpuProc 0 = none) :
    ∃ t k', k.ptable.refreshQ = some t ∧ (∀ l, ∃ ns, t.LevelQueue l ns) ∧
      k.step (.schedule 0) = some k' ∧ (∀ p, k'.cpuProc 0 = some p → t.NextToRun p) ∧
      (k'.cpuProc 0 = none → ∀ p, (t.proc p).state ≠ .runnable) := by
  obtain ⟨⟨L, hinv⟩, -⟩ := oneCpu_inv hk
  obtain ⟨t, k', L', hrun, hpassed⟩ := hinv.schedule hidle
  refine ⟨t, k', hpassed.refresh, fun l ↦ ⟨L' l, hpassed.queues.levelQueue hpassed.resynced l⟩,
    ?_, hpassed.next, hpassed.idle⟩
  rw [Kernel.step, if_pos hidle, hrun]

local instance neZeroFour : NeZero 4 := ⟨by decide⟩

/-- Init creates a process and yields to it. -/
def forkAndYield : List (Section 1) :=
  [.schedule 0, .fork2 0 2, .kallocDone 0 true, .copyuvmDone 0 true, .yield 0]

theorem mlq_law_forkAndYield :
    ∃ k t k', (Kernel.machine 1).run Kernel.userinit forkAndYield = some k ∧
      k.ptable.refreshQ = some t ∧ (∀ l, ∃ ns, t.LevelQueue l ns) ∧
      k.step (.schedule 0) = some k' ∧ (∀ p, k'.cpuProc 0 = some p → t.NextToRun p) ∧
      (k'.cpuProc 0 = none → ∀ p, (t.proc p).state ≠ .runnable) := by
  have hrun : ((Kernel.machine 1).run Kernel.userinit forkAndYield).map (fun k ↦ k.cpuProc 0) =
      some none := by decide +kernel
  obtain ⟨k, hk, hidle⟩ := Option.map_eq_some_iff.mp hrun
  have hok : ∀ s ∈ forkAndYield, ∀ k : Kernel 1, k.NoSetpri s := by
    simp [forkAndYield, Kernel.NoSetpri]
  have hreach : (Kernel.machine 1).ReachableVia Kernel.NoSetpri k :=
    Machine.ReachableVia.run (.init rfl) hok hk
  obtain ⟨t, k', hlaw⟩ := mlq_law hreach hidle
  exact ⟨k, t, k', hk, hlaw⟩

/-! ## Several processors -/

/-- The node has been given back or belongs to a slot that is not in use. -/
def PTable.DeadNode (t : PTable) (n : Node) : Prop :=
  (t.node n).inuse = false ∨ ∃ p, (t.node n).proc = some p ∧ (t.proc p).state = .unused

/-- As long as `wait` reaps only processes that are in no queue, every pass on every processor
finds queues without dead nodes and dispatches a process that is runnable. -/
theorem no_dead_node {ncpu : ℕ} {k : Kernel ncpu}
    (hk : (Kernel.machine ncpu).ReachableVia Kernel.ReapsUnqueued k) {c : Fin ncpu}
    (hidle : k.cpuProc c = none) :
    ∃ t k', k.ptable.refreshQ = some t ∧ k.step (.schedule c) = some k' ∧
      (∀ l, ∃ ns, Linked t.next (t.qHead l) ns ∧ ∀ n ∈ ns, ¬t.DeadNode n) ∧
      ∀ p, k'.cpuProc c = some p → (t.proc p).state = .runnable := by
  obtain ⟨L, hinv⟩ := kernelInv_of_reachable hk
  obtain ⟨t, k', L', hrun, hpassed⟩ := hinv.schedule hidle
  refine ⟨t, k', hpassed.refresh, by rw [Kernel.step, if_pos hidle, hrun], fun l ↦ ?_,
    fun p hp ↦ (hpassed.next p hp).runnable⟩
  refine ⟨L' l, hpassed.queues.linked l, fun n hn hdead ↦ ?_⟩
  obtain ⟨p, hproc, hnode, hstate, -⟩ :=
    (hpassed.queues.levelQueue hpassed.resynced l).only n hn
  rcases hdead with hfree | ⟨q, hq, hunused⟩
  · rw [(hpassed.queues.owner p n hnode).2] at hfree
    cases hfree
  · obtain rfl := Option.some.inj (hproc.symm.trans hq)
    rw [hstate] at hunused
    cases hunused

local instance neZeroTwo : NeZero 2 := ⟨by decide⟩

/-- A child exits on the second processor, which passes through the scheduler once more. -/
def exited : List (Section 2) :=
  [.schedule 0, .fork2 0 3, .kallocDone 0 true, .copyuvmDone 0 true, .schedule 1, .exit 1,
    .schedule 1]

/-- The parent, running on the first processor, reaps the child after that pass. -/
theorem no_dead_node_exited :
    ∃ k, (Kernel.machine 2).run Kernel.userinit (exited ++ [.wait 0]) = some k ∧
      ∃ t k', k.ptable.refreshQ = some t ∧ k.step (.schedule 1) = some k' ∧
        (∀ l, ∃ ns, Linked t.next (t.qHead l) ns ∧ ∀ n ∈ ns, ¬t.DeadNode n) ∧
        ∀ p, k'.cpuProc 1 = some p → (t.proc p).state = .runnable := by
  have hrun : ((Kernel.machine 2).run Kernel.userinit exited).bind (fun u ↦
      ((u.step (.wait 0)).map fun k ↦
        (((u.myproc 0).bind u.ptable.reapable).map fun q ↦ (u.ptable.proc q).putIn,
          k.cpuProc 1))) = some (some none, none) := by decide +kernel
  obtain ⟨u, hu, hrun⟩ := Option.bind_eq_some_iff.mp hrun
  obtain ⟨k, hwait, hk⟩ := Option.map_eq_some_iff.mp hrun
  obtain ⟨hputIn, hidle⟩ := Prod.mk.inj hk
  have hok : ∀ s ∈ exited, ∀ k : Kernel 2, k.ReapsUnqueued s := by
    simp [exited, Kernel.ReapsUnqueued]
  have hreach : (Kernel.machine 2).ReachableVia Kernel.ReapsUnqueued u :=
    Machine.ReachableVia.run (.init rfl) hok hu
  have hreaps : u.ReapsUnqueued (.wait 0) := by
    intro p q hp hq
    rw [hp, Option.bind_some, hq] at hputIn
    exact Option.some.inj hputIn
  refine ⟨k, ?_, no_dead_node (.step hreach hreaps hwait) hidle⟩
  rw [Machine.run_append, hu, Option.bind_some]
  exact Option.bind_eq_some_iff.mpr ⟨k, hwait, rfl⟩

/-- The parent reaps the child before the next `refresh_q`: the pass picks the node that has been
given back. -/
theorem dead_node_picked :
    ∃ k t, (Kernel.machine 2).ReachableVia Kernel.NoSetpri k ∧ k.cpuProc 1 = none ∧
      k.ptable.refreshQ = some t ∧ ∃ n, t.qHead 3 = some n ∧ t.pick = some (3, n) ∧
        t.DeadNode n := by
  have hrun : ((Kernel.machine 2).run Kernel.userinit (exited.dropLast ++ [.wait 0])).bind (fun k ↦
      k.ptable.refreshQ.map fun t ↦
        (k.cpuProc 1, t.qHead 3, t.pick, (t.node 1).inuse)) =
      some (none, some 1, some (3, 1), false) := by decide +kernel
  obtain ⟨k, hk, hrun⟩ := Option.bind_eq_some_iff.mp hrun
  obtain ⟨t, ht, hvalues⟩ := Option.map_eq_some_iff.mp hrun
  simp only [Prod.mk.injEq] at hvalues
  obtain ⟨hidle, hhead, hpick, hinuse⟩ := hvalues
  have hok : ∀ s ∈ exited.dropLast ++ [.wait 0], ∀ k : Kernel 2, k.NoSetpri s := by
    simp [exited, Kernel.NoSetpri]
  have hreach : (Kernel.machine 2).ReachableVia Kernel.NoSetpri k :=
    Machine.ReachableVia.run (.init rfl) hok hk
  exact ⟨k, t, hreach, hidle, ht, 1, hhead, hpick, .inl hinuse⟩

end CS537.Scheduler
