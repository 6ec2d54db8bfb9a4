import CS537.Foundation.LinkedList
import CS537.Scheduler.Model
import Mathlib.Data.List.Pairwise

/-!
# The ready queues

`QueueInv t L d` relates the process table to the lists of the nodes in its queues.  The queues are
brought up to date only by `refresh_q`; in between, the process `d` dispatched by the last pass may
have stopped to be runnable or used up its time slice, but it is still the head of its queue, and
every other queued process belongs where it is.
-/

namespace CS537.Scheduler

open Foundation

/-- The states in which a process has a queue node. -/
def ProcState.Alive (state : ProcState) : Prop := state ≠ .unused ∧ state ≠ .embryo

namespace PTable

variable {t : PTable} {p q : Slot} {m n : Node} {l : Level}

def next (t : PTable) (n : Node) : Option Node := (t.node n).next

/-! ## Reading after writing -/

@[simp]
theorem setProc_proc_self (t : PTable) (p : Slot) (v : Proc) : (t.setProc p v).proc p = v := by
  simp [setProc]

@[simp]
theorem setProc_proc_of_ne (h : q ≠ p) (v : Proc) : (t.setProc p v).proc q = t.proc q := by
  simp [setProc, h]

@[simp]
theorem setNode_node_self (t : PTable) (n : Node) (v : QueueNode) : (t.setNode n v).node n = v := by
  simp [setNode]

@[simp]
theorem setNode_node_of_ne (h : m ≠ n) (v : QueueNode) : (t.setNode n v).node m = t.node m := by
  simp [setNode, h]

/-- A field that a write to a process keeps. -/
theorem setProc_keeps {α : Type} (f : Proc → α) {v : Proc} (h : f v = f (t.proc p)) (q : Slot) :
    f ((t.setProc p v).proc q) = f (t.proc q) := by
  by_cases hq : q = p
  · rw [hq, setProc_proc_self, h]
  · rw [setProc_proc_of_ne hq]

/-- A field that a write to a node keeps. -/
theorem setNode_keeps {α : Type} (f : QueueNode → α) {v : QueueNode} (h : f v = f (t.node n))
    (m : Node) : f ((t.setNode n v).node m) = f (t.node m) := by
  by_cases hm : m = n
  · rw [hm, setNode_node_self, h]
  · rw [setNode_node_of_ne hm]

@[simp] theorem setProc_node (v : Proc) : (t.setProc p v).node = t.node := rfl
@[simp] theorem setProc_qHead (v : Proc) : (t.setProc p v).qHead = t.qHead := rfl
@[simp] theorem setProc_qTail (v : Proc) : (t.setProc p v).qTail = t.qTail := rfl
@[simp] theorem setProc_clock (v : Proc) : (t.setProc p v).clock = t.clock := rfl
@[simp] theorem setNode_proc (v : QueueNode) : (t.setNode n v).proc = t.proc := rfl
@[simp] theorem setNode_qHead (v : QueueNode) : (t.setNode n v).qHead = t.qHead := rfl
@[simp] theorem setNode_qTail (v : QueueNode) : (t.setNode n v).qTail = t.qTail := rfl
@[simp] theorem setNode_clock (v : QueueNode) : (t.setNode n v).clock = t.clock := rfl

/-- The tables agree up to the queues, the `put_in` and the counters of `p`. -/
structure SameBut (t : PTable) (p : Slot) (t' : PTable) : Prop where
  self : t'.proc p = { t.proc p with putIn := (t'.proc p).putIn, qtail := (t'.proc p).qtail }
  other : ∀ q, q ≠ p → t'.proc q = t.proc q
  owner : ∀ n, (t'.node n).proc = (t.node n).proc
  inuse : ∀ n, (t'.node n).inuse = (t.node n).inuse

/-! ## The operations as list operations -/

/-- The queues are the linked lists `L`, which share no node. -/
structure Queues (t : PTable) (L : Level → List Node) : Prop where
  linked : ∀ l, Linked t.next (t.qHead l) (L l)
  tail : ∀ l, t.qTail l = (L l).getLast?
  disjoint : ∀ l l', l ≠ l' → ∀ n ∈ L l, n ∉ L l'

theorem next_setNode (v : QueueNode) :
    (t.setNode n v).next = Function.update t.next n v.next := by
  funext m
  by_cases hm : m = n
  · subst hm
    simp [next]
  · simp [next, hm]

@[simp]
theorem next_setProc (v : Proc) : (t.setProc p v).next = t.next := rfl

theorem next_linkTail_of_none (h : t.qTail l = none) : (t.linkTail n l).next = t.next := by
  simp only [linkTail, h]
  rfl

theorem next_linkTail_of_some (h : t.qTail l = some m) :
    (t.linkTail n l).next = Function.update t.next m (some n) := by
  simp only [linkTail, h]
  exact next_setNode _

variable {L : Level → List Node}

@[simp]
theorem linkTail_proc : (t.linkTail n l).proc = t.proc := by
  unfold linkTail
  cases t.qTail l <;> rfl

@[simp]
theorem linkTail_clock : (t.linkTail n l).clock = t.clock := by
  unfold linkTail
  cases t.qTail l <;> rfl

/-- `linkTail` writes no field of a node but the link. -/
theorem linkTail_keeps {α : Type} (f : QueueNode → α)
    (hf : ∀ v next, f { v with next := next } = f v) (m : Node) :
    f ((t.linkTail n l).node m) = f (t.node m) := by
  unfold linkTail
  cases t.qTail l with
  | none => rfl
  | some tail => exact setNode_keeps f (hf _ _) m

theorem qTail_linkTail : (t.linkTail n l).qTail = Function.update t.qTail l (some n) := by
  unfold PTable.linkTail
  cases t.qTail l <;> rfl

/-- `linkTail` appends a node that is in no queue. -/
theorem Queues.linkTail (h : t.Queues L) (hnext : t.next n = none) (hn : ∀ l, n ∉ L l) :
    (t.linkTail n l).Queues (Function.update L l (L l ++ [n])) where
  linked := by
    intro l'
    cases htail : t.qTail l with
    | none =>
      have hnil : L l = [] := List.getLast?_eq_none_iff.mp ((h.tail l).symm.trans htail)
      rw [next_linkTail_of_none htail]
      simp only [PTable.linkTail, htail]
      by_cases hl : l' = l
      · subst hl
        simp [hnil, hnext]
      · rw [Function.update_of_ne hl, Function.update_of_ne hl]
        exact h.linked l'
    | some tail =>
      obtain ⟨init, hinit⟩ := List.getLast?_eq_some_iff.mp ((h.tail l).symm.trans htail)
      have hmem : tail ∈ L l := by simp [hinit]
      rw [next_linkTail_of_some htail]
      simp only [PTable.linkTail, htail, setNext, setNode_qHead]
      by_cases hl : l' = l
      · subst hl
        have hlinked := h.linked l'
        have hnot := hn l'
        rw [hinit] at hlinked hnot
        have hconcat := hlinked.concat hnot
        rw [← hnext, Function.update_eq_self] at hconcat
        rw [Function.update_self, hinit, List.append_assoc]
        exact hconcat
      · rw [Function.update_of_ne hl]
        exact (h.linked l').update_of_notMem (h.disjoint l l' (Ne.symm hl) tail hmem) _
  tail := by
    intro l'
    rw [qTail_linkTail]
    by_cases hl : l' = l
    · subst hl
      simp
    · rw [Function.update_of_ne hl, Function.update_of_ne hl]
      exact h.tail l'
  disjoint := by
    intro l₁ l₂ hne m hm
    have hcases : ∀ l', m ∈ Function.update L l (L l ++ [n]) l' → m ∈ L l' ∨ l' = l ∧ m = n := by
      intro l' hm
      by_cases hl : l' = l
      · subst hl
        simpa using hm
      · rw [Function.update_of_ne hl] at hm
        exact .inl hm
    intro hm'
    rcases hcases l₁ hm with h₁ | ⟨hl₁, hmn⟩
    · rcases hcases l₂ hm' with h₂ | ⟨-, hmn⟩
      · exact h.disjoint l₁ l₂ hne m h₁ h₂
      · exact hn l₁ (hmn ▸ h₁)
    · rcases hcases l₂ hm' with h₂ | ⟨hl₂, -⟩
      · exact hn l₂ (hmn ▸ h₂)
      · exact hne (hl₁.trans hl₂.symm)

/-- Taking the first node out of its queue. -/
theorem Queues.unlinkHead {rest : List Node} (h : t.Queues L) (hl : L l = n :: rest) :
    (t.unlinkHead n l).Queues (Function.update L l rest) where
  linked := by
    intro l'
    by_cases hll : l' = l
    · subst hll
      have hlinked := h.linked l'
      rw [hl, linked_cons] at hlinked
      simp only [PTable.unlinkHead, Function.update_self]
      exact hlinked.2
    · simp only [PTable.unlinkHead, Function.update_of_ne hll]
      exact h.linked l'
  tail := by
    intro l'
    have hhead : t.qHead l = some n := (h.linked l).head?_eq.symm.trans (by rw [hl]; rfl)
    have htail : t.qTail l = (n :: rest).getLast? := (h.tail l).trans (by rw [hl])
    have hnodup : (n :: rest).Nodup := hl ▸ (h.linked l).nodup
    simp only [PTable.unlinkHead, hhead]
    by_cases hll : l' = l
    · subst hll
      rw [Function.update_self]
      cases rest with
      | nil => simp [htail]
      | cons m rest =>
        have hne : t.qTail l' ≠ some n := by
          rw [htail, List.getLast?_cons_cons]
          intro heq
          exact (List.nodup_cons.mp hnodup).1 (List.mem_of_getLast? heq)
        rw [if_neg hne, htail, List.getLast?_cons_cons]
    · rw [Function.update_of_ne hll, ← h.tail l']
      split
      · rw [Function.update_of_ne hll]
      · rfl
  disjoint := by
    have hsub : ∀ l', ∀ m ∈ Function.update L l rest l', m ∈ L l' := by
      intro l' m hm
      by_cases hll : l' = l
      · subst hll
        rw [Function.update_self] at hm
        exact hl ▸ List.mem_cons_of_mem n hm
      · rwa [Function.update_of_ne hll] at hm
    exact fun l₁ l₂ hne m h₁ h₂ ↦ h.disjoint l₁ l₂ hne m (hsub l₁ m h₁) (hsub l₂ m h₂)

theorem Queues.setPutIn {putIn : Option Level} (h : t.Queues L) : (t.setPutIn p putIn).Queues L :=
  ⟨h.linked, h.tail, h.disjoint⟩

/-- The table after the process `p` with the node `n` has joined the queue of `l`. -/
def joined (t : PTable) (n : Node) (p : Slot) (l : Level) : PTable :=
  ((t.startSlice n p l).linkTail n l).setPutIn p (some l)

theorem joined_proc_self :
    (t.joined n p l).proc p =
      { t.proc p with
        putIn := some l
        qtail := Function.update (t.proc p).qtail l ((t.proc p).qtail l + 1) } := by
  simp [joined, setPutIn, startSlice]

theorem joined_proc_of_ne (hq : q ≠ p) : (t.joined n p l).proc q = t.proc q := by
  simp [joined, setPutIn, startSlice, hq]

/-- The fields of the nodes but the links. -/
theorem joined_node_keeps {α : Type} (f : QueueNode → α)
    (hf : ∀ v next, f { v with next := next } = f v) (m : Node) :
    f ((t.joined n p l).node m) =
      f (if m = n then { t.node n with ticks := 0, putTime := t.clock } else t.node m) := by
  have hlink : f ((t.joined n p l).node m) = f ((t.startSlice n p l).node m) :=
    linkTail_keeps f hf m
  rw [hlink]
  by_cases hm : m = n
  · subst hm
    simp [startSlice, hf { t.node m with ticks := 0, putTime := t.clock } none]
  · simp [startSlice, hm]

theorem joined_clock : (t.joined n p l).clock = t.clock + 1 := by
  simp [joined, setPutIn, startSlice]

theorem sameBut_joined : t.SameBut p (t.joined n p l) where
  self := by rw [joined_proc_self]
  other q hq := joined_proc_of_ne hq
  owner m := by
    rw [joined_node_keeps QueueNode.proc fun _ _ ↦ rfl]
    split <;> simp_all
  inuse m := by
    rw [joined_node_keeps QueueNode.inuse fun _ _ ↦ rfl]
    split <;> simp_all

/-- `put_tail_q` on a node that is in no queue, once the process of the node is known. -/
theorem Queues.putTailQ (h : t.Queues L) (hn : ∀ l', n ∉ L l') :
    ((t.startSlice n p l).linkTail n l).Queues (Function.update L l (L l ++ [n])) := by
  have hstart : (t.startSlice n p l).Queues L := by
    refine ⟨fun l' ↦ ?_, h.tail, h.disjoint⟩
    apply ((h.linked l').update_of_notMem (hn l') none).congr
    exact fun m _ ↦ congrFun (next_setNode _) m
  apply hstart.linkTail _ hn
  simp [startSlice, next]

theorem Queues.joined (h : t.Queues L) (hn : ∀ l', n ∉ L l') :
    (t.joined n p l).Queues (Function.update L l (L l ++ [n])) :=
  (h.putTailQ hn).setPutIn

theorem sliceLimit_pos (l : Level) : 0 < sliceLimit l := by
  have := l.isLt
  unfold sliceLimit
  omega

/-- `rm_from_q` of the first node. -/
theorem rmFromQ_head {rest : List Node} (h : t.Queues L) (hl : L l = n :: rest) :
    t.rmFromQ (some n) (some l) = some (t.unlinkHead n l) := by
  have hhead : t.qHead l = some n := (h.linked l).head?_eq.symm.trans (by rw [hl]; rfl)
  simp [rmFromQ, hhead]

end PTable

/-! ## Operations that leave the queues alone -/

namespace PTable

/-- The lists hold the nodes of the processes that have been put into the queues. -/
def Lists (t : PTable) (L : Level → List Node) : Prop :=
  ∀ l n, n ∈ L l ↔ ∃ p, (t.proc p).qNode = some n ∧ (t.proc p).putIn = some l

/-- Every process that needs a node has one of its own, and the others are in no queue. -/
structure Owned (t : PTable) : Prop where
  owner : ∀ p n, (t.proc p).qNode = some n →
    (t.node n).proc = some p ∧ (t.node n).inuse = true
  alive : ∀ p, (t.proc p).state.Alive → (t.proc p).qNode ≠ none
  parked : ∀ p, ¬(t.proc p).state.Alive → (t.proc p).putIn = none

/-- Two processes never have the same node. -/
theorem Owned.unique {t : PTable} (h : t.Owned) {p q : Slot} {n : Node}
    (hp : (t.proc p).qNode = some n) (hq : (t.proc q).qNode = some n) : p = q := by
  have hproc := (h.owner p n hp).1.symm.trans (h.owner q n hq).1
  exact Option.some.inj hproc

namespace SameBut

variable {t t' : PTable} {p : Slot} {m n : Node} {l : Level}

/-- A field that has nothing to do with the queues. -/
theorem keeps {α : Type} (h : t.SameBut p t') (f : Proc → α)
    (hf : ∀ v putIn qtail, f { v with putIn := putIn, qtail := qtail } = f v) (q : Slot) :
    f (t'.proc q) = f (t.proc q) := by
  by_cases hq : q = p
  · rw [hq, h.self, hf]
  · rw [h.other q hq]

theorem qNode_eq (h : t.SameBut p t') : ∀ q, (t'.proc q).qNode = (t.proc q).qNode :=
  h.keeps Proc.qNode fun _ _ _ ↦ rfl

theorem state_eq (h : t.SameBut p t') : ∀ q, (t'.proc q).state = (t.proc q).state :=
  h.keeps Proc.state fun _ _ _ ↦ rfl

/-- The nodes of the other processes stay in their queues. -/
theorem exists_iff (h : t.SameBut p t') (hn : (t.proc p).qNode = some n) (hm : m ≠ n) :
    (∃ q, (t'.proc q).qNode = some m ∧ (t'.proc q).putIn = some l) ↔
      ∃ q, (t.proc q).qNode = some m ∧ (t.proc q).putIn = some l := by
  apply exists_congr
  intro q
  rw [h.qNode_eq]
  apply and_congr_right
  intro hq
  have hqp : q ≠ p := by
    intro hqp
    rw [hqp, hn] at hq
    exact hm (Option.some.inj hq).symm
  rw [h.other q hqp]

theorem owned (h : t.SameBut p t') (howned : t.Owned)
    (hparked : ¬(t.proc p).state.Alive → (t'.proc p).putIn = none) : t'.Owned where
  owner q m hm := by
    rw [h.owner, h.inuse]
    exact howned.owner q m ((h.qNode_eq q).symm.trans hm)
  alive q hq := by
    rw [h.qNode_eq]
    exact howned.alive q (h.state_eq q ▸ hq)
  parked q hq := by
    rw [h.state_eq] at hq
    by_cases hqp : q = p
    · rw [hqp] at hq ⊢
      exact hparked hq
    · rw [h.other q hqp]
      exact howned.parked q hq

end SameBut

/-- The tables have the same queues with the same processes. -/
structure SameQueues (t t' : PTable) : Prop where
  owned : t'.Owned
  qHead : t'.qHead = t.qHead
  qTail : t'.qTail = t.qTail
  putIn : ∀ p, (t'.proc p).putIn = (t.proc p).putIn
  qNode : ∀ p, (t.proc p).putIn ≠ none → (t'.proc p).qNode = (t.proc p).qNode
  next : ∀ p n, (t.proc p).putIn ≠ none → (t.proc p).qNode = some n →
    (t'.node n).next = (t.node n).next

namespace SameQueues

variable {t t' u : PTable} {L : Level → List Node}

theorem trans (h : t.SameQueues t') (h' : t'.SameQueues u) : t.SameQueues u := by
  have hkept : ∀ p, (t.proc p).putIn ≠ none → (t'.proc p).putIn ≠ none := by
    intro p hp
    rwa [h.putIn]
  exact
    { owned := h'.owned
      qHead := h'.qHead.trans h.qHead
      qTail := h'.qTail.trans h.qTail
      putIn := fun p ↦ (h'.putIn p).trans (h.putIn p)
      qNode := fun p hp ↦ (h'.qNode p (hkept p hp)).trans (h.qNode p hp)
      next := fun p n hp hn ↦
        (h'.next p n (hkept p hp) ((h.qNode p hp).trans hn)).trans (h.next p n hp hn) }

theorem queues (h : t.SameQueues t') (hqueues : t.Queues L) (hlists : t.Lists L) :
    t'.Queues L where
  linked l := by
    rw [h.qHead]
    apply (hqueues.linked l).congr
    intro n hn
    obtain ⟨p, hp, hl⟩ := (hlists l n).mp hn
    exact h.next p n (by simp [hl]) hp
  tail l := by rw [h.qTail, hqueues.tail l]
  disjoint := hqueues.disjoint

theorem lists (h : t.SameQueues t') (hlists : t.Lists L) : t'.Lists L := by
  intro l n
  rw [hlists]
  apply exists_congr
  intro p
  rw [h.putIn]
  apply and_congr_left
  intro hl
  rw [h.qNode p (by simp [hl])]

end SameQueues

/-- Moreover the processes in the queues are as runnable as before; the counters of a process that
is in none may have been cleared. -/
structure Undisturbed (t t' : PTable) : Prop extends t.SameQueues t' where
  clock : t'.clock = t.clock
  priority : ∀ p, (t.proc p).putIn ≠ none → (t'.proc p).priority = (t.proc p).priority
  runnable : ∀ p, (t.proc p).putIn ≠ none → (t.proc p).state = .runnable →
    (t'.proc p).state = .runnable
  putTime : ∀ p n, (t.proc p).putIn ≠ none → (t.proc p).qNode = some n →
    (t'.node n).putTime = (t.node n).putTime
  slice : ∀ p n, (t.proc p).putIn ≠ none → (t.proc p).qNode = some n →
    (t'.node n).ticks = (t.node n).ticks
  counters : ∀ p, (t'.proc p).ticks = (t.proc p).ticks ∧ (t'.proc p).qtail = (t.proc p).qtail ∨
    (t.proc p).putIn = none ∧ (t'.proc p).ticks = (fun _ ↦ 0) ∧ (t'.proc p).qtail = fun _ ↦ 0

namespace Undisturbed

variable {t t' u : PTable} {L : Level → List Node}

theorem trans (h : t.Undisturbed t') (h' : t'.Undisturbed u) : t.Undisturbed u := by
  have hkept : ∀ p, (t.proc p).putIn ≠ none → (t'.proc p).putIn ≠ none := by
    intro p hp
    rwa [h.putIn]
  have hnode : ∀ p n, (t.proc p).putIn ≠ none → (t.proc p).qNode = some n →
      (t'.proc p).qNode = some n := by
    intro p n hp hn
    rwa [h.qNode p hp]
  exact
    { toSameQueues := h.toSameQueues.trans h'.toSameQueues
      clock := h'.clock.trans h.clock
      priority := fun p hp ↦ (h'.priority p (hkept p hp)).trans (h.priority p hp)
      runnable := fun p hp hs ↦ h'.runnable p (hkept p hp) (h.runnable p hp hs)
      putTime := fun p n hp hn ↦
        (h'.putTime p n (hkept p hp) (hnode p n hp hn)).trans (h.putTime p n hp hn)
      slice := fun p n hp hn ↦
        (h'.slice p n (hkept p hp) (hnode p n hp hn)).trans (h.slice p n hp hn)
      counters := fun p ↦ by
        rcases h'.counters p with ⟨hticks, hqtail⟩ | hzero
        · rw [hticks, hqtail]
          exact h.counters p
        · exact .inr ⟨(h.putIn p).symm.trans hzero.1, hzero.2⟩ }

/-- The times of the nodes in the queues. -/
theorem stamp (h : t.Undisturbed t') (hlists : t.Lists L) (l : Level) :
    ∀ n ∈ L l, (t'.node n).putTime = (t.node n).putTime := by
  intro n hn
  obtain ⟨p, hp, hl⟩ := (hlists l n).mp hn
  exact h.putTime p n (by simp [hl]) hp

end Undisturbed

end PTable

/-! ## The invariant -/

/-- The queues hold the nodes listed by `L`, and every queued process but `d` is where
`refresh_q` would leave it. -/
structure QueueInv (t : PTable) (L : Level → List Node) (d : Option Slot) : Prop extends
    t.Queues L where
  queued : ∀ l n, n ∈ L l ↔ ∃ p, (t.proc p).qNode = some n ∧ (t.proc p).putIn = some l
  owner : ∀ p n, (t.proc p).qNode = some n →
    (t.node n).proc = some p ∧ (t.node n).inuse = true
  alive : ∀ p, (t.proc p).state.Alive → (t.proc p).qNode ≠ none
  parked : ∀ p, ¬(t.proc p).state.Alive → (t.proc p).putIn = none
  synced : ∀ p l, (t.proc p).putIn = some l → d ≠ some p →
    (t.proc p).state = .runnable ∧ (t.proc p).priority = l ∧
      ∀ n, (t.proc p).qNode = some n → (t.node n).ticks < PTable.sliceLimit l
  first : ∀ p l, (t.proc p).putIn = some l → d = some p →
    (L l).head? = (t.proc p).qNode ∧ (t.proc p).priority = l ∧
      ∀ n, (t.proc p).qNode = some n → (t.node n).ticks ≤ PTable.sliceLimit l
  order : ∀ l, (L l).Pairwise fun m n ↦ (t.node m).putTime < (t.node n).putTime
  past : ∀ l, ∀ n ∈ L l, (t.node n).putTime < t.clock

namespace QueueInv

variable {t t' : PTable} {L : Level → List Node} {d : Option Slot} {p q : Slot} {n : Node}
  {l : Level}

theorem owned (h : QueueInv t L d) : t.Owned :=
  ⟨h.owner, h.alive, h.parked⟩

/-- Two processes never have the same node. -/
theorem owner_unique (h : QueueInv t L d) (hp : (t.proc p).qNode = some n)
    (hq : (t.proc q).qNode = some n) : p = q :=
  h.owned.unique hp hq

/-- A queued process has a node in the list of its queue. -/
theorem exists_node (h : QueueInv t L d) (hputIn : (t.proc p).putIn = some l) :
    ∃ n, (t.proc p).qNode = some n ∧ n ∈ L l := by
  have halive : (t.proc p).state.Alive := by
    by_contra hdead
    simp [h.parked p hdead] at hputIn
  obtain ⟨n, hn⟩ := Option.ne_none_iff_exists'.mp (h.alive p halive)
  exact ⟨n, hn, (h.queued l n).mpr ⟨p, hn, hputIn⟩⟩

/-- The node of a process is in the queue the process was put in and in no other. -/
theorem mem_iff (h : QueueInv t L d) (hn : (t.proc p).qNode = some n) :
    n ∈ L l ↔ (t.proc p).putIn = some l := by
  rw [h.queued]
  constructor
  · intro hq
    obtain ⟨q, hq, hputIn⟩ := hq
    rwa [h.owner_unique hn hq]
  · exact fun hputIn ↦ ⟨p, hn, hputIn⟩

/-- Nothing distinguishes a process that is in no queue. -/
theorem forget (h : QueueInv t L (some p)) (hputIn : (t.proc p).putIn = none) :
    QueueInv t L none := by
  have hne : ∀ q l, (t.proc q).putIn = some l → (some p : Option Slot) ≠ some q := by
    intro q l hq heq
    rw [← Option.some.inj heq, hputIn] at hq
    cases hq
  exact { h with
    synced := fun q l hq _ ↦ h.synced q l hq (hne q l hq)
    first := fun q l _ heq ↦ nomatch heq }

theorem undisturbed (h : QueueInv t L d) (hu : t.Undisturbed t') : QueueInv t' L d where
  toQueues := hu.queues h.toQueues h.queued
  queued := hu.lists h.queued
  owner := hu.owned.owner
  alive := hu.owned.alive
  parked := hu.owned.parked
  synced p l hl hd := by
    rw [hu.putIn] at hl
    have hqueued : (t.proc p).putIn ≠ none := by simp [hl]
    obtain ⟨hstate, hp, hslice⟩ := h.synced p l hl hd
    refine ⟨hu.runnable p hqueued hstate, (hu.priority p hqueued).trans hp, fun n hn ↦ ?_⟩
    rw [hu.qNode p hqueued] at hn
    rw [hu.slice p n hqueued hn]
    exact hslice n hn
  first p l hl hd := by
    rw [hu.putIn] at hl
    have hqueued : (t.proc p).putIn ≠ none := by simp [hl]
    obtain ⟨hfirst, hp, hslice⟩ := h.first p l hl hd
    refine ⟨hfirst.trans (hu.qNode p hqueued).symm, (hu.priority p hqueued).trans hp,
      fun n hn ↦ ?_⟩
    rw [hu.qNode p hqueued] at hn
    rw [hu.slice p n hqueued hn]
    exact hslice n hn
  order l := by
    have hstamp := hu.stamp h.queued l
    apply (h.order l).imp_of_mem
    intro m n hm hn hlt
    rwa [hstamp m hm, hstamp n hn]
  past l n hn := by
    rw [hu.stamp h.queued l n hn, hu.clock]
    exact h.past l n hn

/-- What moving the node of `p` into or out of a queue may do to the table. -/
theorem move {L' : Level → List Node} {d' : Option Slot} {putIn : Option Level}
    {qtail : Level → ℕ} (h : QueueInv t L d) (hn : (t.proc p).qNode = some n)
    (hd : ∀ q, d' = some q ↔ d = some q ∧ q ≠ p) (hqueues : t'.Queues L')
    (hself : t'.proc p = { t.proc p with putIn := putIn, qtail := qtail })
    (hother : ∀ q, q ≠ p → t'.proc q = t.proc q)
    (hnode : ∀ m, (t'.node m).proc = (t.node m).proc ∧ (t'.node m).inuse = (t.node m).inuse)
    (hkept : ∀ m, m ≠ n → (t'.node m).ticks = (t.node m).ticks ∧
      (t'.node m).putTime = (t.node m).putTime)
    (hmem : ∀ l m, m ≠ n → (m ∈ L' l ↔ m ∈ L l)) (hmoved : ∀ l, n ∈ L' l ↔ putIn = some l)
    (hfirst : ∀ q l, d' = some q → (t.proc q).putIn = some l → (L' l).head? = (L l).head?)
    (hsynced : ∀ l, putIn = some l → (t.proc p).state = .runnable ∧ (t.proc p).priority = l ∧
      (t'.node n).ticks < PTable.sliceLimit l)
    (horder : ∀ l, (L' l).Pairwise fun m n ↦ (t'.node m).putTime < (t'.node n).putTime)
    (hpast : ∀ l, ∀ n ∈ L' l, (t'.node n).putTime < t'.clock) : QueueInv t' L' d' := by
  have hputIn : (t'.proc p).putIn = putIn := by rw [hself]
  have hsame : t.SameBut p t' :=
    { self := by rw [hself]
      other := hother
      owner := fun m ↦ (hnode m).1
      inuse := fun m ↦ (hnode m).2 }
  have hqNode := hsame.qNode_eq
  have hstate := hsame.state_eq
  have hne : ∀ q m, q ≠ p → (t.proc q).qNode = some m → m ≠ n := by
    intro q m hq hm hmn
    exact hq (h.owner_unique (hmn ▸ hm) hn)
  have howned : t'.Owned := by
    refine hsame.owned h.owned fun halive ↦ ?_
    rw [hputIn]
    cases hl : putIn with
    | none => rfl
    | some l =>
      rw [(hsynced l hl).1] at halive
      simp [ProcState.Alive] at halive
  refine { toQueues := hqueues, order := horder, past := hpast, queued := ?_, synced := ?_,
           first := ?_, owner := howned.owner, alive := howned.alive, parked := howned.parked }
  · intro l m
    by_cases hm : m = n
    · subst hm
      rw [hmoved]
      constructor
      · intro hl
        exact ⟨p, (hqNode p).trans hn, hputIn.trans hl⟩
      · intro hq
        obtain ⟨q, hq, hl⟩ := hq
        rw [hqNode] at hq
        rwa [h.owner_unique hq hn, hputIn] at hl
    · rw [hmem l m hm, h.queued, hsame.exists_iff hn hm]
  · intro q l hl hdq
    by_cases hqp : q = p
    · subst hqp
      rw [hputIn] at hl
      obtain ⟨hrunnable, hpriority, hslice⟩ := hsynced l hl
      refine ⟨(hstate q).trans hrunnable, by rw [hself]; exact hpriority, fun m hm ↦ ?_⟩
      rw [hqNode, hn] at hm
      rwa [← Option.some.inj hm]
    · rw [hother q hqp] at hl ⊢
      have hdq' : d ≠ some q := fun heq ↦ hdq ((hd q).mpr ⟨heq, hqp⟩)
      obtain ⟨hrunnable, hpriority, hslice⟩ := h.synced q l hl hdq'
      refine ⟨hrunnable, hpriority, fun m hm ↦ ?_⟩
      rw [(hkept m (hne q m hqp hm)).1]
      exact hslice m hm
  · intro q l hl hdq
    obtain ⟨hdq', hqp⟩ := (hd q).mp hdq
    rw [hother q hqp] at hl ⊢
    obtain ⟨hhead, hpriority, hslice⟩ := h.first q l hl hdq'
    refine ⟨(hfirst q l hdq hl).trans hhead, hpriority, fun m hm ↦ ?_⟩
    rw [(hkept m (hne q m hqp hm)).1]
    exact hslice m hm

/-- The dispatched process leaves its queue. -/
theorem dequeue (h : QueueInv t L (some p)) (hputIn : (t.proc p).putIn = some l)
    (hn : (t.proc p).qNode = some n) :
    t.rmFromQ (t.proc p).qNode (some l) = some (t.unlinkHead n l) ∧
      QueueInv ((t.unlinkHead n l).setPutIn p none) (Function.update L l (L l).tail) none := by
  obtain ⟨hfirst, -, -⟩ := h.first p l hputIn rfl
  rw [hn] at hfirst
  obtain ⟨rest, hL⟩ : ∃ rest, L l = n :: rest := List.head?_eq_some_iff.mp hfirst
  have hnodup : (n :: rest).Nodup := hL ▸ (h.linked l).nodup
  have hsub : ∀ l', (Function.update L l rest l').Sublist (L l') := by
    intro l'
    by_cases hl : l' = l
    · rw [hl, Function.update_self, hL]
      exact List.sublist_cons_self n rest
    · rw [Function.update_of_ne hl]
  refine ⟨by rw [hn, PTable.rmFromQ_head h.toQueues hL], ?_⟩
  rw [hL, List.tail_cons]
  have hself : ((t.unlinkHead n l).setPutIn p none).proc p =
      { t.proc p with putIn := none, qtail := (t.proc p).qtail } :=
    PTable.setProc_proc_self _ _ _
  apply h.move hn ?_ (h.toQueues.unlinkHead hL).setPutIn hself
  · intro q hq
    simp [PTable.setPutIn, hq, PTable.unlinkHead]
  · exact fun m ↦ ⟨rfl, rfl⟩
  · exact fun m _ ↦ ⟨rfl, rfl⟩
  · intro l' m hm
    by_cases hl : l' = l
    · rw [hl, Function.update_self, hL, List.mem_cons]
      simp [hm]
    · rw [Function.update_of_ne hl]
  · intro l'
    simp only [reduceCtorEq, iff_false]
    by_cases hl : l' = l
    · rw [hl, Function.update_self]
      exact (List.nodup_cons.mp hnodup).1
    · rw [Function.update_of_ne hl]
      exact h.disjoint l l' (Ne.symm hl) n (by simp [hL])
  · exact fun q l' heq ↦ nomatch heq
  · exact fun l' heq ↦ nomatch heq
  · exact fun l' ↦ (h.order l').sublist (hsub l')
  · exact fun l' m hm ↦ h.past l' m ((hsub l').subset hm)
  · simp

/-- A runnable process that is in no queue joins the queue of its priority. -/
theorem enqueue (h : QueueInv t L d) (hstate : (t.proc p).state = .runnable)
    (hputIn : (t.proc p).putIn = none) (hd : d ≠ some p) (hn : (t.proc p).qNode = some n)
    (hl : (t.proc p).priority = l) :
    t.enqueue p = some (t.joined n p l) ∧
      QueueInv (t.joined n p l) (Function.update L l (L l ++ [n])) d := by
  have hout : ∀ l', n ∉ L l' := by
    intro l' hmem
    rw [h.mem_iff hn, hputIn] at hmem
    cases hmem
  have howner := (h.owner p n hn).1
  have hticks : ∀ m, m ≠ n → ((t.joined n p l).node m).ticks = (t.node m).ticks := by
    intro m hm
    rw [PTable.joined_node_keeps QueueNode.ticks fun _ _ ↦ rfl, if_neg hm]
  have hstamp : ∀ m, m ≠ n → ((t.joined n p l).node m).putTime = (t.node m).putTime := by
    intro m hm
    rw [PTable.joined_node_keeps QueueNode.putTime fun _ _ ↦ rfl, if_neg hm]
  have hnew : ((t.joined n p l).node n).putTime = t.clock := by
    rw [PTable.joined_node_keeps QueueNode.putTime fun _ _ ↦ rfl, if_pos rfl]
  have hold : ∀ l', ∀ m ∈ L l', m ≠ n := fun l' m hm heq ↦ hout l' (heq ▸ hm)
  refine ⟨by simp [PTable.enqueue, PTable.putTailQ, hn, howner, hl, PTable.joined], ?_⟩
  apply h.move hn ?_ (h.toQueues.joined hout) PTable.joined_proc_self
  · exact fun q hq ↦ PTable.joined_proc_of_ne hq
  · exact fun m ↦ ⟨PTable.sameBut_joined.owner m, PTable.sameBut_joined.inuse m⟩
  · exact fun m hm ↦ ⟨hticks m hm, hstamp m hm⟩
  · intro l' m hm
    by_cases hll : l' = l
    · subst hll
      simp [hm]
    · rw [Function.update_of_ne hll]
  · intro l'
    by_cases hll : l' = l
    · subst hll
      simp
    · rw [Function.update_of_ne hll]
      simp [hout l', Ne.symm hll]
  · intro q l' hdq hq
    by_cases hll : l' = l
    · obtain ⟨m, hm, hmem⟩ := h.exists_node hq
      subst hll
      rw [Function.update_self, List.head?_append_of_ne_nil _ (List.ne_nil_of_mem hmem)]
    · rw [Function.update_of_ne hll]
  · intro l' hl'
    refine ⟨hstate, hl.trans (Option.some.inj hl'), ?_⟩
    rw [PTable.joined_node_keeps QueueNode.ticks fun _ _ ↦ rfl, if_pos rfl]
    exact PTable.sliceLimit_pos l'
  · intro l'
    have hpairwise : (L l').Pairwise fun m n' ↦ ((t.joined n p l).node m).putTime <
        ((t.joined n p l).node n').putTime := by
      apply (h.order l').imp_of_mem
      intro m m' hm hm' hlt
      rwa [hstamp m (hold l' m hm), hstamp m' (hold l' m' hm')]
    by_cases hll : l' = l
    · subst hll
      rw [Function.update_self]
      apply List.pairwise_append.mpr
      refine ⟨hpairwise, List.pairwise_singleton _ _, fun m hm m' hm' ↦ ?_⟩
      rw [List.mem_singleton.mp hm', hnew, hstamp m (hold l' m hm)]
      exact h.past l' m hm
    · rwa [Function.update_of_ne hll]
  · intro l' m hm
    rw [PTable.joined_clock]
    by_cases hmn : m = n
    · rw [hmn, hnew]
      exact Nat.lt_succ_self _
    · have hmem : m ∈ L l' := by
        by_cases hll : l' = l
        · subst hll
          simpa [hmn] using hm
        · rwa [Function.update_of_ne hll] at hm
      rw [hstamp m hmn]
      exact Nat.lt_succ_of_lt (h.past l' m hmem)
  · intro q
    constructor
    · intro hq
      exact ⟨hq, fun hqp ↦ hd (hqp ▸ hq)⟩
    · exact And.left

end QueueInv

end CS537.Scheduler
