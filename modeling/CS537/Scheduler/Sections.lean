import CS537.Scheduler.Pass

/-!
# The sections keep the queues in order

Between two passes the sections only change states, wake sleeping processes and give out or take
back slots and nodes.  None of them touches a process that waits in a queue, as long as `wait`
reaps no process that is still queued and `setpri` is not called.
-/

namespace CS537.Scheduler

open Foundation

namespace PTable

variable {t t' u : PTable} {p q : Slot} {n : Node} {l : Level}

/-- The tables differ in sleeping processes that have been woken, and in fields that do not concern
the queues. -/
structure Wakes (t t' : PTable) : Prop where
  node : t'.node = t.node
  qHead : t'.qHead = t.qHead
  qTail : t'.qTail = t.qTail
  clock : t'.clock = t.clock
  qNode : ∀ p, (t'.proc p).qNode = (t.proc p).qNode
  putIn : ∀ p, (t'.proc p).putIn = (t.proc p).putIn
  priority : ∀ p, (t'.proc p).priority = (t.proc p).priority
  state : ∀ p, (t'.proc p).state = (t.proc p).state ∨
    (t.proc p).state = .sleeping ∧ (t'.proc p).state = .runnable

namespace Wakes

theorem refl (t : PTable) : t.Wakes t where
  node := rfl
  qHead := rfl
  qTail := rfl
  clock := rfl
  qNode _ := rfl
  putIn _ := rfl
  priority _ := rfl
  state _ := .inl rfl

theorem trans (h : t.Wakes t') (h' : t'.Wakes u) : t.Wakes u where
  node := h'.node.trans h.node
  qHead := h'.qHead.trans h.qHead
  qTail := h'.qTail.trans h.qTail
  clock := h'.clock.trans h.clock
  qNode p := (h'.qNode p).trans (h.qNode p)
  putIn p := (h'.putIn p).trans (h.putIn p)
  priority p := (h'.priority p).trans (h.priority p)
  state p := by
    rcases h'.state p with heq | ⟨hsleeping, hrunnable⟩
    · rw [heq]
      exact h.state p
    · right
      rcases h.state p with heq | ⟨-, hwoken⟩
      · exact ⟨heq ▸ hsleeping, hrunnable⟩
      · rw [hwoken] at hsleeping
        cases hsleeping

/-- Only sleeping processes change their states. -/
theorem state_eq (h : t.Wakes t') (hne : (t.proc p).state ≠ .sleeping) :
    (t'.proc p).state = (t.proc p).state :=
  (h.state p).resolve_right fun hwoken ↦ hne hwoken.1

theorem alive_iff (h : t.Wakes t') : (t'.proc p).state.Alive ↔ (t.proc p).state.Alive := by
  rcases h.state p with heq | ⟨hsleeping, hrunnable⟩
  · rw [heq]
  · simp [hsleeping, hrunnable, ProcState.Alive]

/-- Writing one process. -/
theorem setProc {v : Proc} (hqNode : v.qNode = (t.proc p).qNode)
    (hputIn : v.putIn = (t.proc p).putIn) (hpriority : v.priority = (t.proc p).priority)
    (hstate : v.state = (t.proc p).state ∨ (t.proc p).state = .sleeping ∧ v.state = .runnable) :
    t.Wakes (t.setProc p v) where
  node := rfl
  qHead := rfl
  qTail := rfl
  clock := rfl
  qNode := setProc_keeps Proc.qNode hqNode
  putIn := setProc_keeps Proc.putIn hputIn
  priority := setProc_keeps Proc.priority hpriority
  state q := by
    by_cases hq : q = p
    · rwa [hq, setProc_proc_self]
    · rw [setProc_proc_of_ne hq]
      exact .inl rfl

end Wakes

/-- Moreover nothing but the states, the parents and the marks of killed processes differs. -/
structure Rouses (t t' : PTable) : Prop extends t.Wakes t' where
  same : ∀ p, t'.proc p =
    { t.proc p with
      state := (t'.proc p).state
      parent := (t'.proc p).parent
      killed := (t'.proc p).killed }

namespace Rouses

theorem refl (t : PTable) : t.Rouses t where
  toWakes := .refl t
  same _ := rfl

theorem trans (h : t.Rouses t') (h' : t'.Rouses u) : t.Rouses u where
  toWakes := h.toWakes.trans h'.toWakes
  same p := by rw [h'.same p, h.same p]

theorem setProc {v : Proc}
    (hv : v = { t.proc p with state := v.state, parent := v.parent, killed := v.killed })
    (hstate : v.state = (t.proc p).state ∨ (t.proc p).state = .sleeping ∧ v.state = .runnable) :
    t.Rouses (t.setProc p v) where
  toWakes := Wakes.setProc (by rw [hv]) (by rw [hv]) (by rw [hv]) hstate
  same q := by
    by_cases hq : q = p
    · rw [hq, setProc_proc_self]
      exact hv
    · rw [setProc_proc_of_ne hq]

end Rouses

theorem rouses_wakeup1 (t : PTable) (chan : Option Chan) : t.Rouses (t.wakeup1 chan) where
  node := rfl
  qHead := rfl
  qTail := rfl
  clock := rfl
  qNode p := by simp only [wakeup1]; split <;> rfl
  putIn p := by simp only [wakeup1]; split <;> rfl
  priority p := by simp only [wakeup1]; split <;> rfl
  state p := by
    simp only [wakeup1]
    split
    · next h => exact .inr ⟨h.1, rfl⟩
    · exact .inl rfl
  same p := by simp only [wakeup1]; split <;> rfl

theorem rouses_kill (t : PTable) (pid : ℤ) : t.Rouses (t.kill pid).2 := by
  unfold kill
  cases t.findPid pid with
  | none => exact .refl t
  | some p =>
    by_cases hs : (t.proc p).state = .sleeping
    · exact Rouses.setProc rfl (.inr ⟨hs, if_pos hs⟩)
    · exact Rouses.setProc rfl (.inl (if_neg hs))

theorem rouses_abandonOne (curproc : Slot) (t : PTable) (p : Slot) :
    t.Rouses (abandonOne curproc t p) := by
  unfold abandonOne
  split
  · have hparent : t.Rouses (t.setProc p { t.proc p with parent := some initproc }) :=
      Rouses.setProc rfl (.inl rfl)
    simp only
    split
    · exact hparent.trans (rouses_wakeup1 _ _)
    · exact hparent
  · exact .refl t

theorem rouses_abandon (curproc : Slot) (ps : List Slot) (t : PTable) :
    t.Rouses (ps.foldl (abandonOne curproc) t) := by
  induction ps generalizing t with
  | nil => exact .refl t
  | cons p ps ih => exact (rouses_abandonOne curproc t p).trans (ih _)

/-- Up to its last write `exit` only wakes processes and gives them another parent. -/
theorem exists_exit (t : PTable) (curproc : Slot) :
    ∃ u, t.Rouses u ∧ t.exit curproc = u.setState curproc .zombie :=
  ⟨_, (rouses_wakeup1 t _).trans (rouses_abandon curproc (List.finRange nproc) _), rfl⟩

/-! ## The queues are left alone -/

namespace Owned

variable {np : Slot}

theorem rouses (h : t.Owned) (hrouses : t.Rouses t') : t.Undisturbed t' where
  owned :=
    { owner := fun p n hn ↦ by
        rw [hrouses.node]
        exact h.owner p n ((hrouses.qNode p).symm.trans hn)
      alive := fun p hp ↦ by
        rw [hrouses.qNode]
        exact h.alive p (hrouses.alive_iff.mp hp)
      parked := fun p hp ↦ by
        rw [hrouses.putIn]
        exact h.parked p fun halive ↦ hp (hrouses.alive_iff.mpr halive) }
  qHead := hrouses.qHead
  qTail := hrouses.qTail
  clock := hrouses.clock
  putIn := hrouses.putIn
  qNode p _ := hrouses.qNode p
  priority p _ := hrouses.priority p
  runnable p _ hs := (hrouses.state_eq (by simp [hs])).trans hs
  next p n _ _ := by rw [hrouses.node]
  putTime p n _ _ := by rw [hrouses.node]
  slice p n _ _ := by rw [hrouses.node]
  counters p := by rw [hrouses.same p]; exact .inl ⟨rfl, rfl⟩

/-- A process that is not runnable changes its state. -/
theorem setProc {v : Proc} (h : t.Owned) (hrunnable : (t.proc p).state ≠ .runnable)
    (hqNode : v.qNode = (t.proc p).qNode) (hputIn : v.putIn = (t.proc p).putIn)
    (hpriority : v.priority = (t.proc p).priority)
    (halive : v.state.Alive ↔ (t.proc p).state.Alive)
    (hcounters : v.ticks = (t.proc p).ticks ∧ v.qtail = (t.proc p).qtail ∨
      (t.proc p).putIn = none ∧ v.ticks = (fun _ ↦ 0) ∧ v.qtail = fun _ ↦ 0) : t.Undisturbed (t.setProc p v) := by
  have hqNodes : ∀ q, ((t.setProc p v).proc q).qNode = (t.proc q).qNode :=
    setProc_keeps Proc.qNode hqNode
  have hputIns : ∀ q, ((t.setProc p v).proc q).putIn = (t.proc q).putIn :=
    setProc_keeps Proc.putIn hputIn
  have halives : ∀ q, ((t.setProc p v).proc q).state.Alive ↔ (t.proc q).state.Alive := by
    intro q
    by_cases hq : q = p
    · rwa [hq, setProc_proc_self]
    · rw [setProc_proc_of_ne hq]
  refine
    { owned := ?_, qHead := rfl, qTail := rfl, clock := rfl, putIn := hputIns,
      qNode := fun q _ ↦ hqNodes q,
      priority := fun q _ ↦ setProc_keeps Proc.priority hpriority q, runnable := ?_,
      next := fun _ _ _ _ ↦ rfl, putTime := fun _ _ _ _ ↦ rfl, slice := fun _ _ _ _ ↦ rfl,
      counters := ?_ }
  · refine ⟨fun q n hn ↦ h.owner q n ((hqNodes q).symm.trans hn), fun q hq ↦ ?_, fun q hq ↦ ?_⟩
    · rw [hqNodes]
      exact h.alive q ((halives q).mp hq)
    · rw [hputIns]
      exact h.parked q fun halive ↦ hq ((halives q).mpr halive)
  · intro q _ hq
    have hqp : q ≠ p := fun hqp ↦ hrunnable (hqp ▸ hq)
    rwa [setProc_proc_of_ne hqp]
  · intro q
    by_cases hq : q = p
    · rwa [hq, setProc_proc_self]
    · rw [setProc_proc_of_ne hq]
      exact .inl ⟨rfl, rfl⟩

/-- Writing a process that is in no queue together with a node that no other process has. -/
theorem setNode_setProc {v : QueueNode} {w : Proc} (h : t.Owned)
    (hputIn : (t.proc p).putIn = none) (hn : ∀ q, q ≠ p → (t.proc q).qNode ≠ some n)
    (hw : w.putIn = none) (hnode : ∀ m, w.qNode = some m → m = n)
    (howner : w.qNode = some n → v.proc = some p ∧ v.inuse = true)
    (halive : w.state.Alive → w.qNode ≠ none)
    (hcounters : w.ticks = (t.proc p).ticks ∧ w.qtail = (t.proc p).qtail ∨
      (t.proc p).putIn = none ∧ w.ticks = (fun _ ↦ 0) ∧ w.qtail = fun _ ↦ 0) :
    t.Undisturbed ((t.setNode n v).setProc p w) := by
  have hother : ∀ q, q ≠ p → ((t.setNode n v).setProc p w).proc q = t.proc q :=
    fun q hq ↦ setProc_proc_of_ne hq w
  have hself : ((t.setNode n v).setProc p w).proc p = w := setProc_proc_self _ p w
  have hnodes : ∀ m, m ≠ n → ((t.setNode n v).setProc p w).node m = t.node m :=
    fun m hm ↦ setNode_node_of_ne hm v
  have hputIns : ∀ q, (((t.setNode n v).setProc p w).proc q).putIn = (t.proc q).putIn :=
    setProc_keeps Proc.putIn (hw.trans hputIn.symm)
  have hqueued : ∀ q, (t.proc q).putIn ≠ none → q ≠ p := by
    intro q hq hqp
    exact hq (hqp ▸ hputIn)
  have hqueuedNode : ∀ q m, (t.proc q).putIn ≠ none → (t.proc q).qNode = some m →
      ((t.setNode n v).setProc p w).node m = t.node m := by
    intro q m hq hm
    apply hnodes
    intro hmn
    exact hn q (hqueued q hq) (hmn ▸ hm)
  refine
    { owned := ?_, qHead := rfl, qTail := rfl, clock := rfl, putIn := hputIns, qNode := ?_,
      next := ?_, priority := ?_, runnable := ?_, putTime := ?_, slice := ?_, counters := ?_ }
  · refine ⟨fun q m hm ↦ ?_, fun q hq ↦ ?_, fun q hq ↦ ?_⟩
    · by_cases hqp : q = p
      · subst hqp
        rw [hself] at hm
        obtain rfl := hnode m hm
        rw [setProc_node, setNode_node_self]
        exact howner hm
      · rw [hother q hqp] at hm
        rw [hnodes m fun hmn ↦ hn q hqp (hmn ▸ hm)]
        exact h.owner q m hm
    · by_cases hqp : q = p
      · rw [hqp, hself] at hq ⊢
        exact halive hq
      · rw [hother q hqp] at hq ⊢
        exact h.alive q hq
    · rw [hputIns]
      by_cases hqp : q = p
      · rwa [hqp]
      · rw [hother q hqp] at hq
        exact h.parked q hq
  · intro q hq
    rw [hother q (hqueued q hq)]
  · intro q m hq hm
    rw [hqueuedNode q m hq hm]
  · intro q hq
    rw [hother q (hqueued q hq)]
  · intro q hq hs
    rwa [hother q (hqueued q hq)]
  · intro q m hq hm
    rw [hqueuedNode q m hq hm]
  · intro q m hq hm
    rw [hqueuedNode q m hq hm]
  · intro q
    by_cases hqp : q = p
    · rwa [hqp, hself]
    · rw [hother q hqp]
      exact .inl ⟨rfl, rfl⟩

/-- `wait` reaps a process that is in no queue. -/
theorem reap (h : t.Owned) (hputIn : (t.proc p).putIn = none) (ht' : t.reap p = some t') :
    t.Undisturbed t' := by
  obtain ⟨n, hn, rfl⟩ := Option.map_eq_some_iff.mp ht'
  apply h.setNode_setProc hputIn
  · exact fun q hq hqn ↦ hq (h.unique hqn hn)
  · exact hputIn
  · exact fun m hm ↦ nomatch hm
  · exact fun hm ↦ nomatch hm
  · exact fun halive ↦ absurd rfl halive.1
  · exact .inl ⟨rfl, rfl⟩

/-- `allocproc` gives the child a node that was not in use. -/
theorem takeNode (h : t.Owned) (hstate : (t.proc np).state = .embryo) :
    t.Undisturbed (t.takeNode np) := by
  have hputIn := h.parked np (by simp [hstate, ProcState.Alive])
  unfold PTable.takeNode
  simp only
  cases hfind : (List.finRange nproc).find? fun n ↦ (t.node n).inuse = false with
  | none =>
    exact h.setProc (by simp [hstate]) rfl hputIn.symm rfl Iff.rfl (.inr ⟨hputIn, rfl, rfl⟩)
  | some n =>
    have hfree : (t.node n).inuse = false := by simpa using List.find?_some hfind
    apply h.setNode_setProc hputIn
    · intro q _ hq
      rw [(h.owner q n hq).2] at hfree
      cases hfree
    · rfl
    · exact fun m hm ↦ (Option.some.inj hm).symm
    · exact fun _ ↦ ⟨rfl, rfl⟩
    · exact fun _ ↦ Option.some_ne_none n
    · exact .inr ⟨hputIn, rfl, rfl⟩

/-- The child of `fork2` becomes runnable. -/
theorem completeFork {curproc : Slot} {pri : Level} (h : t.Owned)
    (hstate : (t.proc np).state = .embryo) (ht' : t.completeFork curproc np pri = some t') :
    t.Undisturbed t' := by
  have hputIn := h.parked np (by simp [hstate, ProcState.Alive])
  obtain ⟨n, hn, rfl⟩ := Option.map_eq_some_iff.mp ht'
  apply h.setNode_setProc hputIn
  · exact fun q hq hqn ↦ hq (h.unique hqn hn)
  · exact hputIn
  · exact fun m hm ↦ Option.some.inj (hm.symm.trans hn)
  · exact fun _ ↦ ⟨rfl, (h.owner np n hn).2⟩
  · intro _
    rw [hn]
    exact Option.some_ne_none n
  · exact .inl ⟨rfl, rfl⟩

end Owned

end PTable

end CS537.Scheduler
