import CS537.Scheduler.Refresh

/-!
# The choice of a process

Once the queues are up to date they hold the runnable processes of each priority, the process
whose last `put_tail_q` is the oldest first.  The scheduler dispatches the first process of the
highest queue that is not empty.
-/

namespace CS537.Scheduler

open Foundation

namespace PTable

variable {t : PTable} {p q : Slot} {n : Node} {l l' : Level}

/-- The queue of a level is the linked list of the nodes `ns`, which are the nodes of the runnable
processes of this priority, once each. -/
structure LevelQueue (t : PTable) (l : Level) (ns : List Node) : Prop where
  linked : Linked t.next (t.qHead l) ns
  nodup : ns.Nodup
  tail : t.qTail l = ns.getLast?
  empty : t.qHead l = none ↔ t.qTail l = none
  only : ∀ n ∈ ns, ∃ p, (t.node n).proc = some p ∧ (t.proc p).qNode = some n ∧
    (t.proc p).state = .runnable ∧ (t.proc p).priority = l ∧ (t.proc p).putIn = some l
  every : ∀ p, (t.proc p).state = .runnable → (t.proc p).priority = l →
    ∃ n ∈ ns, (t.proc p).qNode = some n

/-- The time of the last `put_tail_q` of a process. -/
def lastPut (t : PTable) (p : Slot) : Option ℕ :=
  (t.proc p).qNode.map fun n ↦ (t.node n).putTime

/-- `p` is the process to be run: runnable, of the highest priority and, among the runnable
processes of its priority, the one put into the queue first. -/
structure NextToRun (t : PTable) (p : Slot) : Prop where
  runnable : (t.proc p).state = .runnable
  highest : ∀ q, (t.proc q).state = .runnable → (t.proc q).priority ≤ (t.proc p).priority
  oldest : ∀ q, q ≠ p → (t.proc q).state = .runnable →
    (t.proc q).priority = (t.proc p).priority →
    ∃ a b, t.lastPut p = some a ∧ t.lastPut q = some b ∧ a < b

theorem mem_levels : ∀ l : Level, l ∈ ([3, 2, 1, 0] : List Level) := by decide

theorem pick_eq_none (h : t.pick = none) (l : Level) : t.qHead l = none := by
  have hnone := List.findSome?_eq_none_iff.mp h l (mem_levels l)
  simpa using hnone

/-- The level picked is the highest whose queue is not empty. -/
theorem pick_eq_some (h : t.pick = some (l, n)) :
    t.qHead l = some n ∧ ∀ l', l < l' → t.qHead l' = none := by
  obtain ⟨above, a, below, hlevels, hhead, habove⟩ := List.findSome?_eq_some_iff.mp h
  obtain ⟨m, hm, heq⟩ := Option.map_eq_some_iff.mp hhead
  obtain ⟨rfl, rfl⟩ := Prod.mk.inj heq
  refine ⟨hm, fun l' hl' ↦ ?_⟩
  have hdescending : ([3, 2, 1, 0] : List Level).Pairwise (· > ·) := by decide
  have hmem := mem_levels l'
  rw [hlevels] at hdescending hmem
  have hbelow : ∀ x ∈ below, a > x :=
    (List.pairwise_cons.mp (List.pairwise_append.mp hdescending).2.1).1
  have hl'above : l' ∈ above := by
    rcases List.mem_append.mp hmem with hl | hl
    · exact hl
    · rcases List.mem_cons.mp hl with rfl | hl
      · exact absurd hl' (lt_irrefl _)
      · exact absurd (hbelow l' hl) (not_lt_of_gt hl')
  simpa using habove l' hl'above

end PTable

/-- The table after the dispatch of `p`, the process of the node `n` at the level `l`. -/
def PTable.dispatched (t : PTable) (p : Slot) (n : Node) (l : Level) : PTable :=
  (t.setNode n { t.node n with ticks := (t.node n).ticks + 1 }).setProc p
    { t.proc p with
      ticks := Function.update (t.proc p).ticks l ((t.proc p).ticks l + 1)
      state := .running
      chan := none }

theorem PTable.dispatch_eq {t : PTable} {p : Slot} {n : Node} {l : Level}
    (hproc : (t.node n).proc = some p) (hnode : (t.proc p).qNode = some n) :
    t.dispatch l n = some (p, t.dispatched p n l) := by
  simp [PTable.dispatch, hproc, hnode, PTable.dispatched]

/-- A dispatch leaves the queues alone. -/
theorem PTable.Owned.dispatched {t : PTable} {p : Slot} {n : Node} {l : Level} (h : t.Owned)
    (hn : (t.proc p).qNode = some n) : t.SameQueues (t.dispatched p n l) := by
  have hnodes : ∀ q, ((t.dispatched p n l).proc q).qNode = (t.proc q).qNode :=
    setProc_keeps Proc.qNode rfl
  have hputIns : ∀ q, ((t.dispatched p n l).proc q).putIn = (t.proc q).putIn :=
    setProc_keeps Proc.putIn rfl
  have howners : ∀ m, ((t.dispatched p n l).node m).proc = (t.node m).proc :=
    setNode_keeps QueueNode.proc rfl
  have hinuses : ∀ m, ((t.dispatched p n l).node m).inuse = (t.node m).inuse :=
    setNode_keeps QueueNode.inuse rfl
  have hlinks : ∀ m, ((t.dispatched p n l).node m).next = (t.node m).next :=
    setNode_keeps QueueNode.next rfl
  have hother : ∀ q, q ≠ p → (t.dispatched p n l).proc q = t.proc q :=
    fun q hq ↦ setProc_proc_of_ne hq _
  refine ⟨⟨fun q m hm ↦ ?_, fun q hq ↦ ?_, fun q hq ↦ ?_⟩, rfl, rfl, hputIns,
    fun q _ ↦ hnodes q, fun _ m _ _ ↦ hlinks m⟩
  · rw [howners, hinuses]
    exact h.owner q m ((hnodes q).symm.trans hm)
  · rw [hnodes]
    by_cases hqp : q = p
    · simp [hqp, hn]
    · rw [hother q hqp] at hq
      exact h.alive q hq
  · rw [hputIns]
    by_cases hqp : q = p
    · simp [PTable.dispatched, hqp, ProcState.Alive] at hq
    · rw [hother q hqp] at hq
      exact h.parked q hq

/-- Every process is where its state and its priority demand. -/
def PTable.Resynced (t : PTable) : Prop :=
  ∀ p, (t.proc p).putIn =
    if (t.proc p).state = .runnable then some (t.proc p).priority else none

namespace QueueInv

variable {t t' : PTable} {L : Level → List Node} {d : Option Slot} {p q : Slot} {n : Node}
  {l : Level}

/-- `refresh_q` brings every process to its place and changes nothing else of it. -/
theorem refreshQ_resynced (h : QueueInv t L d) :
    ∃ t' L', t.refreshQ = some t' ∧ QueueInv t' L' none ∧ t'.Resynced ∧
      (∀ p, t'.proc p =
        { t.proc p with putIn := (t'.proc p).putIn, qtail := (t'.proc p).qtail }) ∧
      ∀ n, (t'.node n).proc = (t.node n).proc ∧ (t'.node n).inuse = (t.node n).inuse := by
  obtain ⟨t', L', hrun, hall, hinv⟩ := h.refreshQ
  refine ⟨t', L', hrun, hinv, fun p ↦ ?_, fun p ↦ ?_, fun n ↦ ⟨hall.owner n, hall.inuse n⟩⟩
  · rw [hall.self p (List.mem_finRange p)]
  · rw [hall.self p (List.mem_finRange p)]

/-- The queues after `refresh_q`. -/
theorem levelQueue (h : QueueInv t L none) (hsync : t.Resynced) (l : Level) :
    t.LevelQueue l (L l) where
  linked := h.linked l
  nodup := (h.linked l).nodup
  tail := h.tail l
  empty := by
    rw [← (h.linked l).head?_eq, h.tail l, List.head?_eq_none_iff, List.getLast?_eq_none_iff]
  only n hn := by
    obtain ⟨p, hp, hputIn⟩ := (h.queued l n).mp hn
    obtain ⟨hstate, hpriority, -⟩ := h.synced p l hputIn (by simp)
    exact ⟨p, (h.owner p n hp).1, hp, hstate, hpriority, hputIn⟩
  every p hstate hpriority := by
    have hputIn : (t.proc p).putIn = some l := by rw [hsync p, if_pos hstate, hpriority]
    obtain ⟨n, hn, hmem⟩ := h.exists_node hputIn
    exact ⟨n, hmem, hn⟩

/-- Without a head no process is runnable. -/
theorem not_runnable (h : QueueInv t L none) (hsync : t.Resynced) (hpick : t.pick = none)
    (p : Slot) : (t.proc p).state ≠ .runnable := by
  intro hstate
  obtain ⟨n, hn, -⟩ := (h.levelQueue hsync (t.proc p).priority).every p hstate rfl
  have hhead := (h.linked (t.proc p).priority).head?_eq.trans (PTable.pick_eq_none hpick _)
  rw [List.head?_eq_none_iff] at hhead
  simp [hhead] at hn

/-- The process of the node picked is the next to run. -/
theorem nextToRun (h : QueueInv t L none) (hsync : t.Resynced) (hpick : t.pick = some (l, n)) :
    ∃ p, (t.node n).proc = some p ∧ (t.proc p).qNode = some n ∧ (t.proc p).putIn = some l ∧
      t.NextToRun p := by
  obtain ⟨hhead, habove⟩ := PTable.pick_eq_some hpick
  obtain ⟨rest, hL⟩ : ∃ rest, L l = n :: rest :=
    List.head?_eq_some_iff.mp ((h.linked l).head?_eq.trans hhead)
  have hqueue := h.levelQueue hsync
  obtain ⟨p, hproc, hnode, hstate, hpriority, hputIn⟩ := (hqueue l).only n (by simp [hL])
  refine ⟨p, hproc, hnode, hputIn, hstate, fun q hq ↦ ?_, fun q hqp hq hsame ↦ ?_⟩
  · rw [hpriority]
    by_contra hlt
    obtain ⟨m, hm, -⟩ := (hqueue (t.proc q).priority).every q hq rfl
    have hempty := (h.linked _).head?_eq.trans (habove _ (not_le.mp hlt))
    rw [List.head?_eq_none_iff] at hempty
    simp [hempty] at hm
  · obtain ⟨m, hm, hqnode⟩ := (hqueue l).every q hq (hsame.trans hpriority)
    have hmn : m ≠ n := by
      intro hmn
      exact hqp (h.owner_unique (hmn ▸ hqnode) hnode)
    have hrest : m ∈ rest := by
      rw [hL, List.mem_cons] at hm
      exact hm.resolve_left hmn
    have horder := h.order l
    rw [hL, List.pairwise_cons] at horder
    exact ⟨_, _, by rw [PTable.lastPut, hnode]; rfl, by rw [PTable.lastPut, hqnode]; rfl,
      horder.1 m hrest⟩

/-- The process dispatched is distinguished from then on. -/
theorem dispatch (h : QueueInv t L none) (hproc : (t.node n).proc = some p)
    (hnode : (t.proc p).qNode = some n) (hputIn : (t.proc p).putIn = some l)
    (hhead : t.qHead l = some n) :
    ∃ t', t.dispatch l n = some (p, t') ∧ QueueInv t' L (some p) ∧
      (t'.proc p).state = .running ∧ ∀ q, q ≠ p → t'.proc q = t.proc q := by
  obtain ⟨-, hpriority, hslice⟩ := h.synced p l hputIn (by simp)
  have hfirst : (L l).head? = some n := (h.linked l).head?_eq.trans hhead
  have hsame := h.owned.dispatched hnode (l := l)
  refine ⟨_, PTable.dispatch_eq hproc hnode, ?_, by simp [PTable.dispatched],
    fun q hq ↦ by simp [PTable.dispatched, hq]⟩
  have hnodes : ∀ q, ((t.dispatched p n l).proc q).qNode = (t.proc q).qNode :=
    PTable.setProc_keeps Proc.qNode rfl
  have hpriorities : ∀ q, ((t.dispatched p n l).proc q).priority = (t.proc q).priority :=
    PTable.setProc_keeps Proc.priority rfl
  have hstamps : ∀ m, ((t.dispatched p n l).node m).putTime = (t.node m).putTime :=
    PTable.setNode_keeps QueueNode.putTime rfl
  refine { toQueues := hsame.queues h.toQueues h.queued, queued := hsame.lists h.queued,
           owner := hsame.owned.owner, alive := hsame.owned.alive,
           parked := hsame.owned.parked, synced := ?_, first := ?_, order := ?_, past := ?_ }
  · intro q l' hq hqp
    have hqp : q ≠ p := fun heq ↦ hqp (heq ▸ rfl)
    have hproc : (t.dispatched p n l).proc q = t.proc q := PTable.setProc_proc_of_ne hqp _
    rw [hproc] at hq ⊢
    obtain ⟨hstate, hpri, hlt⟩ := h.synced q l' hq (by simp)
    refine ⟨hstate, hpri, fun m hm ↦ ?_⟩
    have hmn : m ≠ n := fun hmn ↦ hqp (h.owner_unique (hmn ▸ hm) hnode)
    have hticks : ((t.dispatched p n l).node m).ticks = (t.node m).ticks := by
      simp [PTable.dispatched, hmn]
    rw [hticks]
    exact hlt m hm
  · intro q l' hq hqp
    obtain rfl : p = q := Option.some.inj hqp
    rw [hsame.putIn, hputIn] at hq
    obtain rfl : l = l' := Option.some.inj hq
    rw [hnodes, hpriorities]
    refine ⟨hfirst.trans hnode.symm, hpriority, fun m hm ↦ ?_⟩
    obtain rfl : n = m := Option.some.inj (hnode.symm.trans hm)
    have hlt := hslice n hnode
    simpa [PTable.dispatched] using Nat.succ_le_of_lt hlt
  · intro l'
    simp only [hstamps]
    exact h.order l'
  · intro l' m hm
    rw [hstamps]
    exact h.past l' m hm

end QueueInv

end CS537.Scheduler
