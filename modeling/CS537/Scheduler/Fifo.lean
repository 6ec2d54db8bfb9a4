import CS537.Scheduler.Queue
import Mathlib.Data.Fintype.Card
import Mathlib.Data.List.Basic

/-!
# Queue operations as list operations

`put_tail_q` appends to the list of a queue.  `rm_from_q` takes a node out of it at any place, but
when the node is the last of several it leaves `q_tail` pointing to the node: the queue has lost
its tail, although its list, followed from `q_head`, looks right.
-/

namespace CS537.Scheduler

open Foundation

namespace PTable

variable {t : PTable} {p : Slot} {m n x : Node} {l : Level} {ns s u : List Node}
  {L : Level → List Node}

/-- The queue of a level is well formed and holds the nodes `ns`. -/
structure FifoQueue (t : PTable) (l : Level) (ns : List Node) : Prop where
  linked : Linked t.next (t.qHead l) ns
  acyclic : ns.Nodup
  tail : t.qTail l = ns.getLast?
  empty : (t.qHead l = none ↔ ns = []) ∧ (t.qTail l = none ↔ ns = [])

/-- The node is the last of several. -/
def LastOfMany (ns : List Node) (n : Node) : Prop := 2 ≤ ns.length ∧ ns.getLast? = some n

theorem fifoQueue_of_linked (hlinked : Linked t.next (t.qHead l) ns)
    (htail : t.qTail l = ns.getLast?) : t.FifoQueue l ns where
  linked := hlinked
  acyclic := hlinked.nodup
  tail := htail
  empty := by
    rw [← hlinked.head?_eq, htail, List.head?_eq_none_iff, List.getLast?_eq_none_iff]
    exact ⟨Iff.rfl, Iff.rfl⟩

theorem Queues.fifoQueue (h : t.Queues L) (l : Level) : t.FifoQueue l (L l) :=
  fifoQueue_of_linked (h.linked l) (h.tail l)

/-! ## `rm_from_q` -/

/-- A queue has no more nodes than there are. -/
theorem FifoQueue.length_le (h : t.FifoQueue l ns) : ns.length ≤ nproc := by
  calc
    ns.length ≤ Fintype.card Node := h.acyclic.length_le_card
    _ = nproc := Fintype.card_fin nproc

/-- The walk ends at the end of the list when the node is not there. -/
theorem unlinkAfter_of_notMem {q : Option Node} {fuel : ℕ} (h : Linked t.next q (x :: ns))
    (hn : n ∉ ns) (hfuel : ns.length < fuel) : t.unlinkAfter (some n) fuel x = some t := by
  induction ns generalizing q x fuel with
  | nil =>
    obtain ⟨fuel, rfl⟩ := Nat.exists_eq_succ_of_ne_zero (Nat.ne_zero_of_lt hfuel)
    have hnext : (t.node x).next = none := h.2
    simp only [unlinkAfter, hnext]
  | cons y ns ih =>
    obtain ⟨fuel, rfl⟩ := Nat.exists_eq_succ_of_ne_zero (Nat.ne_zero_of_lt hfuel)
    have hlinked : Linked t.next (t.next x) (y :: ns) := h.2
    have hnext : (t.node x).next = some y := hlinked.1
    have hyn : ¬(some y = some n) := by
      intro heq
      apply hn
      rw [Option.some.inj heq]
      exact List.mem_cons_self
    simp only [unlinkAfter, hnext, if_neg hyn]
    apply ih hlinked
    · exact fun hmem ↦ hn (List.mem_cons_of_mem y hmem)
    · exact Nat.lt_of_succ_lt_succ hfuel

/-- The walk stops before the node and unlinks it. -/
theorem unlinkAfter_of_append {q : Option Node} {fuel : ℕ} {y : Node}
    (h : Linked t.next q (y :: (s ++ n :: u))) (hs : n ∉ s) (hfuel : s.length < fuel) :
    ∃ w x, y :: s = w ++ [x] ∧
      t.unlinkAfter (some n) fuel y = some (t.setNext x (t.node n).next) := by
  induction s generalizing q y fuel with
  | nil =>
    obtain ⟨fuel, rfl⟩ := Nat.exists_eq_succ_of_ne_zero (Nat.ne_zero_of_lt hfuel)
    have hnext : (t.node y).next = some n := h.2.1
    exact ⟨[], y, rfl, by simp only [unlinkAfter, hnext, if_pos]⟩
  | cons z s ih =>
    obtain ⟨fuel, rfl⟩ := Nat.exists_eq_succ_of_ne_zero (Nat.ne_zero_of_lt hfuel)
    have hlinked : Linked t.next (t.next y) (z :: (s ++ n :: u)) := h.2
    have hnext : (t.node y).next = some z := hlinked.1
    have hzn : ¬(some z = some n) := by
      intro heq
      apply hs
      rw [Option.some.inj heq]
      exact List.mem_cons_self
    have hsn : n ∉ s := fun hmem ↦ hs (List.mem_cons_of_mem z hmem)
    obtain ⟨w, x, hsplit, hrun⟩ := ih hlinked hsn (Nat.lt_of_succ_lt_succ hfuel)
    refine ⟨y :: w, x, by rw [hsplit]; rfl, ?_⟩
    simp only [unlinkAfter, hnext, if_neg hzn]
    exact hrun

/-- `rm_from_q` of a node that is not in the queue. -/
theorem FifoQueue.rmFromQ_of_notMem (h : t.FifoQueue l ns) (hn : n ∉ ns) :
    t.rmFromQ (some n) (some l) = some t := by
  have hlinked := h.linked
  cases ns with
  | nil =>
    have hhead : t.qHead l = none := hlinked
    simp only [rmFromQ, Option.bind_some, hhead]
  | cons x ns =>
    have hhead : t.qHead l = some x := hlinked.1
    have hxn : ¬(some x = some n) := by
      intro heq
      apply hn
      rw [Option.some.inj heq]
      exact List.mem_cons_self
    simp only [rmFromQ, Option.bind_some, hhead, if_neg hxn]
    apply unlinkAfter_of_notMem hlinked
    · exact fun hmem ↦ hn (List.mem_cons_of_mem x hmem)
    · exact h.length_le

/-- `rm_from_q` of the first node. -/
theorem FifoQueue.rmFromQ_head (h : t.FifoQueue l (n :: ns)) :
    t.rmFromQ (some n) (some l) = some (t.unlinkHead n l) := by
  have hhead : t.qHead l = some n := h.linked.1
  simp only [rmFromQ, Option.bind_some, hhead, if_pos]

/-- `rm_from_q` of a later node writes the link of the node before it and nothing else. -/
theorem FifoQueue.rmFromQ_inner (h : t.FifoQueue l (s ++ x :: n :: u)) :
    t.rmFromQ (some n) (some l) = some (t.setNext x (t.node n).next) := by
  have hnodup := h.acyclic
  obtain ⟨y, v, hyv⟩ : ∃ y v, s ++ [x] = y :: v := List.exists_cons_of_ne_nil (by simp)
  have hlist : s ++ x :: n :: u = y :: (v ++ n :: u) := by
    calc
      s ++ x :: n :: u = (s ++ [x]) ++ n :: u := by simp
      _ = y :: (v ++ n :: u) := by rw [hyv]; rfl
  have hlength := h.length_le
  rw [hlist] at h hnodup hlength
  have hlinked := h.linked
  have hhead : t.qHead l = some y := hlinked.1
  have hdisjoint : n ∉ y :: v := by
    intro hmem
    have hsplit : ((y :: v) ++ n :: u).Nodup := hnodup
    exact List.disjoint_of_nodup_append hsplit hmem List.mem_cons_self
  have hyn : ¬(some y = some n) := by
    intro heq
    apply hdisjoint
    rw [Option.some.inj heq]
    exact List.mem_cons_self
  have hfuel : v.length < nproc := by
    simp only [List.length_cons, List.length_append] at hlength
    omega
  have hvn : n ∉ v := fun hmem ↦ hdisjoint (List.mem_cons_of_mem y hmem)
  obtain ⟨w, x', hsplit, hrun⟩ := unlinkAfter_of_append hlinked hvn hfuel
  have hx : x = x' := by
    have hlast := hyv.trans hsplit
    have := congrArg List.getLast? hlast
    simpa using this
  simp only [rmFromQ, Option.bind_some, hhead, if_neg hyn]
  rw [hx]
  exact hrun

theorem FifoQueue.unlinkHead (h : t.FifoQueue l (n :: ns)) :
    (t.unlinkHead n l).FifoQueue l ns := by
  have hhead : t.qHead l = some n := h.linked.1
  have htail := h.tail
  apply fifoQueue_of_linked
  · simp only [PTable.unlinkHead, Function.update_self]
    exact h.linked.2
  · simp only [PTable.unlinkHead, hhead]
    cases ns with
    | nil => simp [htail]
    | cons m ns =>
      have hne : t.qTail l ≠ some n := by
        rw [htail, List.getLast?_cons_cons]
        intro heq
        exact (List.nodup_cons.mp h.acyclic).1 (List.mem_of_getLast? heq)
      rw [if_neg hne, htail, List.getLast?_cons_cons]

/-- Unlinking a node that is neither the first nor the last. -/
theorem FifoQueue.setNext (h : t.FifoQueue l (s ++ x :: n :: u)) (hu : u ≠ []) :
    (t.setNext x (t.node n).next).FifoQueue l (s ++ x :: u) := by
  apply fifoQueue_of_linked
  · have hnext : (t.setNext x (t.node n).next).next =
        Function.update t.next x (t.next n) := next_setNode _
    rw [hnext]
    exact h.linked.removeAfter
  · obtain ⟨v, y, rfl⟩ := (List.eq_nil_or_concat u).resolve_left hu
    have hlast : ∀ w : List Node, (w ++ v.concat y).getLast? = some y := by
      intro w
      rw [List.concat_eq_append, ← List.append_assoc, List.getLast?_concat]
    calc
      t.qTail l = (s ++ [x, n] ++ v.concat y).getLast? := by rw [h.tail]; simp
      _ = (s ++ [x] ++ v.concat y).getLast? := by rw [hlast, hlast]
      _ = (s ++ x :: v.concat y).getLast? := by simp

/-- Unlinking the last of several nodes keeps the tail. -/
theorem FifoQueue.not_fifoQueue_setNext (h : t.FifoQueue l (s ++ [x, n])) :
    ¬(t.setNext x (t.node n).next).FifoQueue l (s ++ [x]) := by
  intro hqueue
  have htail : t.qTail l = some x := by
    have hqtail : t.qTail l = (s ++ [x]).getLast? := hqueue.tail
    rwa [List.getLast?_concat] at hqtail
  have hlast : t.qTail l = some n := by
    simpa using h.tail
  have hxn : x = n := Option.some.inj (htail.symm.trans hlast)
  have hnodup := h.acyclic
  rw [hxn] at hnodup
  simp [List.nodup_append] at hnodup

theorem erase_inner (h : (s ++ x :: n :: u).Nodup) :
    (s ++ x :: n :: u).erase n = s ++ x :: u := by
  have hn : n ∉ s ++ [x] := by
    intro hmem
    have hsplit : ((s ++ [x]) ++ n :: u).Nodup := by simpa using h
    exact List.disjoint_of_nodup_append hsplit hmem List.mem_cons_self
  calc
    (s ++ x :: n :: u).erase n = ((s ++ [x]) ++ n :: u).erase n := by simp
    _ = (s ++ [x]) ++ (n :: u).erase n := List.erase_append_right _ hn
    _ = s ++ x :: u := by simp

/-- Where a node stands in a list. -/
theorem cases_position (ns : List Node) (n : Node) :
    n ∉ ns ∨ (∃ u, ns = n :: u) ∨ ∃ s x u, ns = s ++ x :: n :: u := by
  by_cases hn : n ∈ ns
  · obtain ⟨s, u, rfl⟩ := List.append_of_mem hn
    rcases List.eq_nil_or_concat s with rfl | ⟨s, x, rfl⟩
    · exact .inr (.inl ⟨u, rfl⟩)
    · exact .inr (.inr ⟨s, x, u, by simp⟩)
  · exact .inl hn

/-- `rm_from_q` takes the node out of the list, unless it is the last of several. -/
theorem FifoQueue.rmFromQ_iff (h : t.FifoQueue l ns) (n : Node) :
    (∃ t', t.rmFromQ (some n) (some l) = some t' ∧ t'.FifoQueue l (ns.erase n)) ↔
      ¬LastOfMany ns n := by
  rcases cases_position ns n with hn | ⟨u, rfl⟩ | ⟨s, x, u, rfl⟩
  · have hlast : ¬LastOfMany ns n := fun hlast ↦ hn (List.mem_of_getLast? hlast.2)
    simp only [hlast, not_false_eq_true, iff_true, List.erase_of_not_mem hn]
    exact ⟨t, h.rmFromQ_of_notMem hn, h⟩
  · have hlast : ¬LastOfMany (n :: u) n := by
      intro hlast
      cases u with
      | nil => exact absurd hlast.1 (by simp)
      | cons m u =>
        have hmem := List.mem_of_getLast? ((List.getLast?_cons_cons).symm.trans hlast.2)
        exact (List.nodup_cons.mp h.acyclic).1 hmem
    simp only [hlast, not_false_eq_true, iff_true, List.erase_cons_head]
    exact ⟨_, h.rmFromQ_head, h.unlinkHead⟩
  · rw [erase_inner h.acyclic, h.rmFromQ_inner]
    cases u with
    | nil =>
      have hlast : LastOfMany (s ++ [x, n]) n := by
        constructor <;> simp
      simp only [hlast, not_true_eq_false, iff_false]
      intro hqueue
      obtain ⟨t', ht', hqueue⟩ := hqueue
      rw [← Option.some.inj ht'] at hqueue
      exact h.not_fifoQueue_setNext hqueue
    | cons m u =>
      have hlast : ¬LastOfMany (s ++ x :: n :: m :: u) n := by
        intro hlast
        have hu : (m :: u).getLast? = some n := by
          have := hlast.2
          rw [List.getLast?_append] at this
          simpa [List.getLast?_cons_cons] using this
        have hnodup : (n :: m :: u).Nodup :=
          (List.nodup_cons.mp (List.nodup_append.mp h.acyclic).2.1).2
        exact (List.nodup_cons.mp hnodup).1 (List.mem_of_getLast? hu)
      simp only [hlast, not_false_eq_true, iff_true]
      exact ⟨_, rfl, h.setNext (List.cons_ne_nil m u)⟩

/-! ## `put_tail_q` -/

/-- `linkTail` appends a node that is not in the queue. -/
theorem FifoQueue.linkTail (h : t.FifoQueue l ns) (hnext : t.next n = none) (hn : n ∉ ns) :
    (t.linkTail n l).FifoQueue l (ns ++ [n]) := by
  apply fifoQueue_of_linked
  · cases htail : t.qTail l with
    | none =>
      have hnil : ns = [] := h.empty.2.mp htail
      rw [next_linkTail_of_none htail]
      simp [PTable.linkTail, htail, hnil, hnext]
    | some tail =>
      obtain ⟨init, rfl⟩ := List.getLast?_eq_some_iff.mp (h.tail.symm.trans htail)
      have hconcat := h.linked.concat hn
      rw [← hnext, Function.update_eq_self] at hconcat
      rw [next_linkTail_of_some htail, List.append_assoc]
      simp only [PTable.linkTail, htail]
      exact hconcat
  · rw [qTail_linkTail, Function.update_self, List.getLast?_concat]

theorem FifoQueue.putTailQ (h : t.FifoQueue l ns) (hproc : (t.node n).proc ≠ none)
    (hn : n ∉ ns) :
    ∃ t', t.putTailQ (some n) l = some t' ∧ t'.FifoQueue l (ns ++ [n]) := by
  obtain ⟨p, hp⟩ := Option.ne_none_iff_exists'.mp hproc
  have hstart : (t.startSlice n p l).FifoQueue l ns := by
    apply fifoQueue_of_linked
    · apply (h.linked.update_of_notMem hn none).congr
      exact fun m _ ↦ congrFun (next_setNode _) m
    · exact h.tail
  refine ⟨(t.startSlice n p l).linkTail n l, by simp [PTable.putTailQ, hp], ?_⟩
  apply hstart.linkTail _ hn
  simp [startSlice, next]

/-! ## All queues -/

/-- Unlinking an inner node leaves the other queues. -/
theorem Queues.setNext (h : t.Queues L) (hl : L l = s ++ x :: n :: u) (hu : u ≠ []) :
    (t.setNext x (t.node n).next).Queues (Function.update L l (s ++ x :: u)) where
  linked := by
    intro l'
    have hnext : (t.setNext x (t.node n).next).next =
        Function.update t.next x (t.next n) := next_setNode _
    by_cases hll : l' = l
    · subst hll
      rw [Function.update_self]
      exact ((hl ▸ h.fifoQueue l').setNext hu).linked
    · rw [Function.update_of_ne hll, hnext]
      apply (h.linked l').update_of_notMem
      exact h.disjoint l l' (Ne.symm hll) x (by simp [hl])
  tail := by
    intro l'
    by_cases hll : l' = l
    · subst hll
      rw [Function.update_self]
      exact ((hl ▸ h.fifoQueue l').setNext hu).tail
    · rw [Function.update_of_ne hll]
      exact h.tail l'
  disjoint := by
    have hsub : ∀ l', ∀ m ∈ Function.update L l (s ++ x :: u) l', m ∈ L l' := by
      intro l' m hm
      by_cases hll : l' = l
      · subst hll
        rw [Function.update_self] at hm
        rw [hl]
        simp only [List.mem_append, List.mem_cons] at hm ⊢
        tauto
      · rwa [Function.update_of_ne hll] at hm
    exact fun l₁ l₂ hne m h₁ h₂ ↦ h.disjoint l₁ l₂ hne m (hsub l₁ m h₁) (hsub l₂ m h₂)

/-- `rm_from_q` of a node that is not the last of several. -/
theorem Queues.rmFromQ (h : t.Queues L) (hn : ¬LastOfMany (L l) n) :
    ∃ t', t.rmFromQ (some n) (some l) = some t' ∧
      t'.Queues (Function.update L l ((L l).erase n)) ∧ t'.proc = t.proc ∧
      (∀ m, t'.node m = { t.node m with next := (t'.node m).next }) ∧
      ∀ m, m ∉ L l → (t'.node m).next = (t.node m).next := by
  have hqueue := h.fifoQueue l
  rcases cases_position (L l) n with hmem | ⟨u, hl⟩ | ⟨s, x, u, hl⟩
  · refine ⟨t, hqueue.rmFromQ_of_notMem hmem, ?_, rfl, fun _ ↦ rfl, fun _ _ ↦ rfl⟩
    rwa [List.erase_of_not_mem hmem, Function.update_eq_self]
  · refine ⟨t.unlinkHead n l, (hl ▸ hqueue).rmFromQ_head, ?_, rfl, fun _ ↦ rfl, fun _ _ ↦ rfl⟩
    rw [hl, List.erase_cons_head]
    exact h.unlinkHead hl
  · have hu : u ≠ [] := by
      rintro rfl
      apply hn
      constructor <;> simp [hl]
    refine ⟨t.setNext x (t.node n).next, (hl ▸ hqueue).rmFromQ_inner, ?_, rfl, ?_, ?_⟩
    · rw [hl, erase_inner (hl ▸ hqueue.acyclic)]
      exact h.setNext hl hu
    · intro m
      by_cases hm : m = x
      · simp [PTable.setNext, hm]
      · simp [PTable.setNext, hm]
    · intro m hm
      have hmx : m ≠ x := by
        intro hmx
        apply hm
        simp [hl, hmx]
      simp [PTable.setNext, hmx]

end PTable

/-- A call of one of the queue operations. -/
inductive QueueCall where
  | putTailQ (n : Node) (priority : Level)
  | rmFromQ (n : Node) (priority : Level)

namespace QueueCall

/-- The call on the process table. -/
def run (t : PTable) : QueueCall → Option PTable
  | putTailQ n l => t.putTailQ (some n) l
  | rmFromQ n l => t.rmFromQ (some n) (some l)

/-- The call on the lists. -/
def fifo (L : Level → List Node) : QueueCall → Level → List Node
  | putTailQ n l => Function.update L l (L l ++ [n])
  | rmFromQ n l => Function.update L l ((L l).erase n)

/-- A node is put only while it is in no queue, and not removed as the last of several. -/
def Fits (L : Level → List Node) : QueueCall → Prop
  | putTailQ n _ => ∀ l, n ∉ L l
  | rmFromQ n l => ¬PTable.LastOfMany (L l) n

/-- Every call of a sequence fits the lists that it meets. -/
def AllFit (L : Level → List Node) : List QueueCall → Prop
  | [] => True
  | call :: calls => call.Fits L ∧ AllFit (call.fifo L) calls

end QueueCall

namespace PTable

variable {t : PTable} {n : Node} {l : Level} {L : Level → List Node}

theorem Queues.putTailQ_node (h : t.Queues L) (hproc : (t.node n).proc ≠ none)
    (hn : ∀ l', n ∉ L l') :
    ∃ t', t.putTailQ (some n) l = some t' ∧ t'.Queues (Function.update L l (L l ++ [n])) ∧
      ∀ m, (t'.node m).proc = (t.node m).proc := by
  obtain ⟨p, hp⟩ := Option.ne_none_iff_exists'.mp hproc
  refine ⟨(t.startSlice n p l).linkTail n l, by simp [PTable.putTailQ, hp], h.putTailQ hn, ?_⟩
  exact sameBut_joined.owner

/-- A sequence of calls that fit does to the queues what it does to the lists. -/
theorem Queues.run_calls {calls : List QueueCall} (h : t.Queues L)
    (hproc : ∀ n l, .putTailQ n l ∈ calls → (t.node n).proc ≠ none)
    (hfit : QueueCall.AllFit L calls) :
    ∃ t', calls.foldlM QueueCall.run t = some t' ∧ t'.Queues (calls.foldl QueueCall.fifo L) := by
  induction calls generalizing t L with
  | nil => exact ⟨t, rfl, h⟩
  | cons call calls ih =>
    obtain ⟨hcall, hrest⟩ := hfit
    obtain ⟨u, hu, hqueues, howner⟩ : ∃ u, call.run t = some u ∧ u.Queues (call.fifo L) ∧
        ∀ m, (u.node m).proc = (t.node m).proc := by
      cases call with
      | putTailQ n l => exact h.putTailQ_node (hproc n l List.mem_cons_self) hcall
      | rmFromQ n l =>
        obtain ⟨u, hu, hqueues, -, hnodes, -⟩ := h.rmFromQ hcall
        exact ⟨u, hu, hqueues, fun m ↦ by rw [hnodes m]⟩
    have hproc' : ∀ n l, .putTailQ n l ∈ calls → (u.node n).proc ≠ none := by
      intro n l hmem
      rw [howner]
      exact hproc n l (List.mem_cons_of_mem call hmem)
    obtain ⟨t', ht', hqueues'⟩ := ih hqueues hproc' hrest
    refine ⟨t', ?_, hqueues'⟩
    rw [List.foldlM_cons, hu]
    exact ht'

end PTable

/-- The queue operations are the operations of FIFO lists, but for the removal of the last of
several nodes: `rm_from_q` refines the removal from the list of a queue exactly when the node is
not the last of several, `put_tail_q` always refines the appending of a node, and so does any
sequence of calls without such a removal. -/
theorem queue_calls_refine_fifo (t : PTable) :
    (∀ l ns n, t.FifoQueue l ns →
      ((∃ t', t.rmFromQ (some n) (some l) = some t' ∧ t'.FifoQueue l (ns.erase n)) ↔
        ¬PTable.LastOfMany ns n)) ∧
    (∀ l ns n, t.FifoQueue l ns → (t.node n).proc ≠ none → n ∉ ns →
      ∃ t', t.putTailQ (some n) l = some t' ∧ t'.FifoQueue l (ns ++ [n])) ∧
    (∀ L, t.Queues L → ∀ calls : List QueueCall,
      (∀ n l, .putTailQ n l ∈ calls → (t.node n).proc ≠ none) → QueueCall.AllFit L calls →
      ∃ t', calls.foldlM QueueCall.run t = some t' ∧
        t'.Queues (calls.foldl QueueCall.fifo L)) := by
  refine ⟨fun l ns n hqueue ↦ hqueue.rmFromQ_iff n, ?_, ?_⟩
  · exact fun l ns n hqueue hproc hn ↦ hqueue.putTailQ hproc hn
  · exact fun L hqueues calls hproc hfit ↦ hqueues.run_calls hproc hfit

/-- A table in which the nodes `0` and `1` belong to the first two processes. -/
def twoProcs : PTable where
  proc _ := Kernel.freeProc
  node n := { Kernel.freeNode with proc := if n.val < 2 then some n else none }
  qHead _ := none
  qTail _ := none
  clock := 0

theorem queues_twoProcs : twoProcs.Queues fun _ ↦ [] :=
  ⟨fun _ ↦ rfl, fun _ ↦ rfl, fun _ _ _ _ hn ↦ nomatch hn⟩

theorem queue_calls_refine_fifo_twoProcs :
    (∃ t', twoProcs.rmFromQ (some 0) (some 3) = some t' ∧ t'.FifoQueue 3 []) ∧
    (∃ t', twoProcs.putTailQ (some 0) 3 = some t' ∧ t'.FifoQueue 3 [0]) ∧
    ∃ t', [QueueCall.putTailQ 0 3, .putTailQ 1 3, .rmFromQ 0 3].foldlM QueueCall.run twoProcs =
        some t' ∧ t'.Queues (Function.update (fun _ ↦ []) 3 [1]) := by
  have hlaw := queue_calls_refine_fifo twoProcs
  have hempty := queues_twoProcs.fifoQueue 3
  refine ⟨?_, hlaw.2.1 3 [] 0 hempty (by decide) (by simp), ?_⟩
  · exact (hlaw.1 3 [] 0 hempty).mpr (by simp [PTable.LastOfMany])
  · have hrun := hlaw.2.2 _ queues_twoProcs [.putTailQ 0 3, .putTailQ 1 3, .rmFromQ 0 3] ?_ ?_
    · simpa [QueueCall.fifo] using hrun
    · intro n l hmem
      simp only [List.mem_cons, QueueCall.putTailQ.injEq, reduceCtorEq, List.not_mem_nil,
        or_false] at hmem
      rcases hmem with ⟨rfl, -⟩ | ⟨rfl, -⟩ <;> decide
    · simp [QueueCall.AllFit, QueueCall.Fits, QueueCall.fifo, PTable.LastOfMany, nproc,
        Function.update_apply]

/-- Two nodes are put, and the last is removed: the tail of the queue still points to it. -/
theorem removed_tail_stays :
    ∃ t t', [QueueCall.putTailQ 0 3, .putTailQ 1 3].foldlM QueueCall.run twoProcs = some t ∧
      t.FifoQueue 3 [0, 1] ∧ t.rmFromQ (some 1) (some 3) = some t' ∧ t'.qHead 3 = some 0 ∧
      t'.qTail 3 = some 1 ∧ ¬t'.FifoQueue 3 ([0, 1].erase 1) := by
  have hproc : ∀ n l, .putTailQ n l ∈ [QueueCall.putTailQ 0 3, .putTailQ 1 3] →
      (twoProcs.node n).proc ≠ none := by
    intro n l hmem
    simp only [List.mem_cons, QueueCall.putTailQ.injEq, List.not_mem_nil, or_false] at hmem
    rcases hmem with ⟨rfl, -⟩ | ⟨rfl, -⟩ <;> decide
  have hfit : QueueCall.AllFit (fun _ ↦ []) [QueueCall.putTailQ 0 3, .putTailQ 1 3] := by
    simp [QueueCall.AllFit, QueueCall.Fits, QueueCall.fifo, nproc, Function.update_apply]
  obtain ⟨t, hrun, hqueues⟩ := queues_twoProcs.run_calls hproc hfit
  have hqueue : t.FifoQueue 3 [0, 1] := by
    simpa [QueueCall.fifo] using hqueues.fifoQueue 3
  have hremove := PTable.FifoQueue.rmFromQ_inner (s := []) (u := []) hqueue
  refine ⟨t, _, hrun, hqueue, hremove, hqueue.linked.1, hqueue.tail, ?_⟩
  exact PTable.FifoQueue.not_fifoQueue_setNext (s := []) hqueue

end CS537.Scheduler
