import CS537.Scheduler.Fifo
import CS537.Scheduler.Law

/-!
# `setpri`

`setpri` moves the node of a process to the tail of another queue at once, whatever the process is
doing.  This goes well as long as the slot found by the pid is in use and queued, and its node is
not the last of several.  Then the queues may hold processes that are not runnable, and `refresh_q`
has to take them out; it meets the same defect when such a node is the last of several.
-/

namespace CS537.Scheduler

open Foundation

namespace PTable

variable {t t' u : PTable} {L L' : Level → List Node} {p q : Slot} {n m : Node} {l l' : Level}
  {pid pri : ℤ}

/-- The node is the tail of the queue and not its only node. -/
def TailOfMany (t : PTable) (l : Level) (n : Node) : Prop :=
  t.qTail l = some n ∧ t.qHead l ≠ some n

theorem Queues.lastOfMany_iff (h : t.Queues L) : LastOfMany (L l) n ↔ t.TailOfMany l n := by
  have hhead := (h.linked l).head?_eq
  have hnodup := (h.linked l).nodup
  unfold LastOfMany TailOfMany
  rw [h.tail l, ← hhead]
  constructor
  · intro hlast
    refine ⟨hlast.2, fun hfirst ↦ ?_⟩
    obtain ⟨rest, hL⟩ := List.head?_eq_some_iff.mp hfirst
    rw [hL] at hlast hnodup
    cases rest with
    | nil => exact absurd hlast.1 (by simp)
    | cons x rest =>
      have hmem := List.mem_of_getLast? ((List.getLast?_cons_cons).symm.trans hlast.2)
      exact (List.nodup_cons.mp hnodup).1 hmem
  · intro hlast
    refine ⟨?_, hlast.1⟩
    by_contra hlength
    have hmem := List.mem_of_getLast? hlast.1
    obtain ⟨x, hx⟩ : ∃ x, L l = [x] := by
      apply List.length_eq_one_iff.mp
      have hpos := List.length_pos_of_mem hmem
      omega
    rw [hx, List.mem_singleton] at hmem
    exact hlast.2 (by rw [hx, hmem]; rfl)

/-- Joining a queue writes the links of the node and of the tail alone. -/
theorem joined_next_of_ne (hmn : m ≠ n) (htail : u.qTail l ≠ some m) :
    ((u.joined n p l).node m).next = (u.node m).next := by
  cases hlast : u.qTail l with
  | none => simp [joined, setPutIn, linkTail, hlast, startSlice, hmn]
  | some tail =>
    have hmt : m ≠ tail := by
      intro hmt
      rw [hlast, hmt] at htail
      exact htail rfl
    simp [joined, setPutIn, linkTail, hlast, setNext, hmt, startSlice, hmn]

theorem sameBut_of_links (hproc : u.proc = t.proc)
    (hnodes : ∀ m, u.node m = { t.node m with next := (u.node m).next }) : t.SameBut p u where
  self := by rw [hproc]
  other q _ := by rw [hproc]
  owner m := by rw [hnodes m]
  inuse m := by rw [hnodes m]

theorem sameBut_setPutIn {putIn : Option Level} : t.SameBut p (t.setPutIn p putIn) where
  self := by simp [setPutIn]
  other q hq := by simp [setPutIn, hq]
  owner _ := rfl
  inuse _ := rfl

/-- The queues hold the nodes of the processes that have been put into them; nothing is said of
the states and the priorities of these processes. -/
structure ReadyInv (t : PTable) (L : Level → List Node) : Prop extends t.Queues L where
  lists : t.Lists L
  owned : t.Owned

namespace ReadyInv

theorem sameQueues (h : t.ReadyInv L) (hsame : t.SameQueues t') : t'.ReadyInv L where
  toQueues := hsame.queues h.toQueues h.lists
  lists := hsame.lists h.lists
  owned := hsame.owned

theorem mem_iff (h : t.ReadyInv L) (hn : (t.proc p).qNode = some n) :
    n ∈ L l ↔ (t.proc p).putIn = some l := by
  rw [h.lists]
  constructor
  · intro hq
    obtain ⟨q, hq, hputIn⟩ := hq
    rwa [h.owned.unique hn hq]
  · exact fun hputIn ↦ ⟨p, hn, hputIn⟩

/-- The node of a process is taken out of its queue. -/
theorem dequeue (h : t.ReadyInv L) (hn : (t.proc p).qNode = some n)
    (hl : (t.proc p).putIn = some l) (hlast : ¬t.TailOfMany l n) :
    ∃ u, t.rmFromQ (some n) (some l) = some u ∧ u.proc = t.proc ∧
      (∀ m, u.node m = { t.node m with next := (u.node m).next }) ∧
      (∀ m, m ∉ L l → (u.node m).next = (t.node m).next) ∧
      (u.setPutIn p none).ReadyInv fun l' ↦ (L l').erase n := by
  have hout : ∀ l', l' ≠ l → n ∉ L l' := by
    intro l' hll hmem
    rw [h.mem_iff hn, hl] at hmem
    exact hll (Option.some.inj hmem).symm
  have herase : Function.update L l ((L l).erase n) = fun l' ↦ (L l').erase n := by
    funext l'
    by_cases hll : l' = l
    · rw [hll, Function.update_self]
    · rw [Function.update_of_ne hll, List.erase_of_not_mem (hout l' hll)]
  obtain ⟨u, hu, hqueues, hproc, hnodes, hlinks⟩ :=
    h.toQueues.rmFromQ (mt h.toQueues.lastOfMany_iff.mp hlast)
  rw [herase] at hqueues
  have hsame : t.SameBut p (u.setPutIn p none) :=
    (sameBut_of_links hproc hnodes).trans sameBut_setPutIn
  have hself : ((u.setPutIn p none).proc p).putIn = none := by rw [setPutIn, setProc_proc_self]
  refine ⟨u, hu, hproc, hnodes, hlinks, hqueues.setPutIn, ?_, hsame.owned h.owned fun _ ↦ hself⟩
  intro l' m
  rw [(h.linked l').nodup.mem_erase_iff, h.lists]
  by_cases hmn : m = n
  · rw [hmn]
    refine iff_of_false (fun hm ↦ hm.1 rfl) ?_
    intro hm
    obtain ⟨q, hq, hl'⟩ := hm
    rw [h.owned.unique ((hsame.qNode_eq q).symm.trans hq) hn, hself] at hl'
    cases hl'
  · rw [hsame.exists_iff hn hmn]
    exact and_iff_right hmn

/-- A process that has a node and is in no queue joins the queue of its priority. -/
theorem enqueue (h : t.ReadyInv L) (halive : (t.proc p).state.Alive)
    (hn : (t.proc p).qNode = some n) (hputIn : (t.proc p).putIn = none)
    (hl : (t.proc p).priority = l) :
    t.enqueue p = some (t.joined n p l) ∧
      (t.joined n p l).ReadyInv (Function.update L l (L l ++ [n])) := by
  have hout : ∀ l', n ∉ L l' := by
    intro l' hmem
    rw [h.mem_iff hn, hputIn] at hmem
    cases hmem
  have howner := (h.owned.owner p n hn).1
  have hsame : t.SameBut p (t.joined n p l) := sameBut_joined
  have hqNode := hsame.qNode_eq
  have hself : ((t.joined n p l).proc p).putIn = some l := by rw [joined_proc_self]
  refine ⟨by simp [PTable.enqueue, PTable.putTailQ, hn, howner, hl, PTable.joined],
    h.toQueues.joined hout, ?_, hsame.owned h.owned fun hdead ↦ absurd halive hdead⟩
  · intro l' m
    by_cases hmn : m = n
    · rw [hmn]
      have hmem : n ∈ Function.update L l (L l ++ [n]) l' ↔ l' = l := by
        by_cases hll : l' = l
        · subst hll
          simp
        · rw [Function.update_of_ne hll]
          simp [hout l', hll]
      rw [hmem]
      constructor
      · intro hll
        exact ⟨p, (hqNode p).trans hn, by rw [hself, hll]⟩
      · intro hq
        obtain ⟨q, hq, hl'⟩ := hq
        rw [hqNode] at hq
        rw [h.owned.unique hq hn, hself] at hl'
        exact (Option.some.inj hl').symm
    · have hmem : m ∈ Function.update L l (L l ++ [n]) l' ↔ m ∈ L l' := by
        by_cases hll : l' = l
        · subst hll
          simp [hmn]
        · rw [Function.update_of_ne hll]
      rw [hmem, h.lists, hsame.exists_iff hn hmn]

/-- A queued process goes to the tail of the queue of its priority. -/
theorem requeue (h : t.ReadyInv L) (hn : (t.proc p).qNode = some n)
    (hl : (t.proc p).putIn = some l) (hlast : ¬t.TailOfMany l n) (hl' : (t.proc p).priority = l') :
    ∃ u, t.rmFromQ (some n) (some l) = some u ∧ u.proc = t.proc ∧
      (∀ m, u.node m = { t.node m with next := (u.node m).next }) ∧
      (∀ m, m ≠ n → (∀ k, m ∉ L k) → ((u.joined n p l').node m).next = (t.node m).next) ∧
      u.enqueue p = some (u.joined n p l') ∧
      (u.joined n p l').ReadyInv
        (Function.update (fun k ↦ (L k).erase n) l' ((L l').erase n ++ [n])) := by
  obtain ⟨u, hu, hproc, hnodes, hlinks, hready⟩ := h.dequeue hn hl hlast
  have hself : (u.setPutIn p none).proc p = { t.proc p with putIn := none } := by
    rw [setPutIn, setProc_proc_self, hproc]
  have halive : (t.proc p).state.Alive := by
    by_contra hdead
    rw [h.owned.parked p hdead] at hl
    cases hl
  have henqueue := hready.enqueue (p := p) (n := n) (l := l') (by rwa [hself]) (by rwa [hself])
    (by rw [hself]) (by rwa [hself])
  have hjoined : (u.setPutIn p none).joined n p l' = u.joined n p l' := by
    unfold joined
    rw [startSlice_setPutIn, linkTail_setPutIn, setPutIn_setPutIn]
  rw [enqueue_setPutIn, hjoined] at henqueue
  refine ⟨u, hu, hproc, hnodes, fun m hmn hm ↦ ?_, henqueue⟩
  rw [joined_next_of_ne hmn, hlinks m (hm l)]
  intro htail
  have hlist : u.qTail l' = ((L l').erase n).getLast? := hready.tail l'
  exact hm l' (List.mem_of_mem_erase (List.mem_of_getLast? (hlist.symm.trans htail)))

end ReadyInv

/-! ## `refresh_q` -/

/-- `refresh_q` takes the node of the process out of its queue: it is no longer runnable, its
priority has changed or its slice is used up. -/
def Leaves (t : PTable) (p : Slot) (l : Level) (n : Node) : Prop :=
  (t.proc p).putIn = some l ∧ (t.proc p).qNode = some n ∧
    ((t.proc p).state ≠ .runnable ∨ l ≠ (t.proc p).priority ∨ (t.node n).ticks = sliceLimit l)

/-- No node that `refresh_q` takes out of a queue is the last of several when its turn comes. -/
def RefreshFits (t : PTable) : List Slot → Prop
  | [] => True
  | p :: ps => (∀ l n, t.Leaves p l n → ¬t.TailOfMany l n) ∧
      ∀ t', t.refreshOne p = some t' → RefreshFits t' ps

theorem ReadyInv.refreshOne (h : t.ReadyInv L) (hfits : ∀ l n, t.Leaves p l n → ¬t.TailOfMany l n) :
    ∃ t' L', t.refreshOne p = some t' ∧ t'.ReadyInv L' ∧ t.SameBut p t' ∧
      (t'.proc p).putIn =
        if (t.proc p).state = .runnable then some (t.proc p).priority else none := by
  have hnode : (t.proc p).state.Alive → ∃ n, (t.proc p).qNode = some n := fun halive ↦
    Option.ne_none_iff_exists'.mp (h.owned.alive p halive)
  cases hputIn : (t.proc p).putIn with
  | none =>
    by_cases hstate : (t.proc p).state = .runnable
    · have halive : (t.proc p).state.Alive := by simp [hstate, ProcState.Alive]
      obtain ⟨n, hn⟩ := hnode halive
      obtain ⟨henqueue, hready⟩ := h.enqueue halive hn hputIn rfl
      refine ⟨_, _, ?_, hready, sameBut_joined, ?_⟩
      · simp [PTable.refreshOne, hstate, hputIn, henqueue]
      · rw [joined_proc_self, if_pos hstate]
    · refine ⟨t, L, ?_, h, .refl t p, by rw [if_neg hstate, hputIn]⟩
      unfold PTable.refreshOne
      rw [hputIn]
      cases hs : (t.proc p).state <;> simp_all
  | some l =>
    have halive : (t.proc p).state.Alive := by
      by_contra hdead
      rw [h.owned.parked p hdead] at hputIn
      cases hputIn
    obtain ⟨n, hn⟩ := hnode halive
    by_cases hstate : (t.proc p).state = .runnable
    · by_cases hleaves : t.Leaves p l n
      · obtain ⟨u, hu, hproc, hnodes, -, henqueue, hready⟩ :=
          h.requeue hn hputIn (hfits l n hleaves) rfl
        refine ⟨_, _, ?_, hready, (sameBut_of_links hproc hnodes).trans sameBut_joined, ?_⟩
        · by_cases hl : l = (t.proc p).priority
          · have hticks : (t.node n).ticks = sliceLimit l := by
              simpa [hstate, ← hl] using hleaves.2.2
            simp [PTable.refreshOne, hstate, hputIn, ← hl, hn, hticks, hu, henqueue]
          · simp [PTable.refreshOne, hstate, hputIn, hl, hn, hu, henqueue]
        · rw [joined_proc_self, if_pos hstate]
      · have hstays : l = (t.proc p).priority ∧ (t.node n).ticks ≠ sliceLimit l := by
          simpa [Leaves, hputIn, hn, hstate] using hleaves
        refine ⟨t, L, ?_, h, .refl t p, by rw [if_pos hstate, hputIn, hstays.1]⟩
        simp [PTable.refreshOne, hstate, hputIn, ← hstays.1, hn, hstays.2]
    · have hleaves : t.Leaves p l n := ⟨hputIn, hn, .inl hstate⟩
      obtain ⟨u, hu, hproc, hnodes, -, hready⟩ := h.dequeue hn hputIn (hfits l n hleaves)
      refine ⟨_, _, ?_, hready, (sameBut_of_links hproc hnodes).trans sameBut_setPutIn, ?_⟩
      · have hunused := halive.1
        unfold PTable.refreshOne
        rw [hputIn, hn]
        cases hs : (t.proc p).state <;> simp_all
      · rw [setPutIn, setProc_proc_self, if_neg hstate]

theorem ReadyInv.refreshList {ps : List Slot} (h : t.ReadyInv L) (hps : ps.Nodup)
    (hfits : t.RefreshFits ps) :
    ∃ t' L', ps.foldlM PTable.refreshOne t = some t' ∧ QueueInv.RefreshedAll t ps t' ∧
      t'.ReadyInv L' := by
  induction ps generalizing t L with
  | nil => exact ⟨t, L, rfl, .nil t, h⟩
  | cons p ps ih =>
    obtain ⟨hp, hps⟩ := List.nodup_cons.mp hps
    obtain ⟨u, M, hstep, hu, hsame, hputIn⟩ := h.refreshOne hfits.1
    obtain ⟨t', L', hrest, hall, hready⟩ := ih hu hps (hfits.2 u hstep)
    refine ⟨t', L', ?_, .cons hp hsame hputIn hall, hready⟩
    rw [List.foldlM_cons, hstep]
    exact hrest

/-- Where the removals fit, `refresh_q` brings every process to its place. -/
theorem ReadyInv.refreshQ (h : t.ReadyInv L) (hfits : t.RefreshFits (List.finRange nproc)) :
    ∃ t' L', t.refreshQ = some t' ∧ t'.ReadyInv L' ∧ t'.Resynced ∧
      ∀ p, t'.proc p =
        { t.proc p with putIn := (t'.proc p).putIn, qtail := (t'.proc p).qtail } := by
  obtain ⟨t', L', hrun, hall, hready⟩ := h.refreshList (List.nodup_finRange nproc) hfits
  refine ⟨t', L', hrun, hready, fun p ↦ ?_, fun p ↦ ?_⟩
  · rw [hall.self p (List.mem_finRange p)]
  · rw [hall.self p (List.mem_finRange p)]

/-! ## The call -/

/-- The process has the priority `l` and its node is the tail of the queue of `l`, with a new slice;
nothing else has changed. -/
structure Repositioned (t : PTable) (p : Slot) (l : Level) (t' : PTable) : Prop where
  self : t'.proc p =
    { t.proc p with
      priority := l
      putIn := some l
      qtail := Function.update (t.proc p).qtail l ((t.proc p).qtail l + 1) }
  other : ∀ q, q ≠ p → t'.proc q = t.proc q
  queues : ∃ n L, (t.proc p).qNode = some n ∧ t.Queues L ∧
    t'.Queues (Function.update (fun k ↦ (L k).erase n) l ((L l).erase n ++ [n])) ∧
    t'.node n = { t.node n with next := none, ticks := 0, putTime := (t'.node n).putTime } ∧
    (∀ m, m ≠ n → t'.node m = { t.node m with next := (t'.node m).next }) ∧
    ∀ m, m ≠ n → (∀ k, m ∉ L k) → (t'.node m).next = (t.node m).next

/-- What is to be said of `setpri`: a bad priority or a pid that no slot in use has is refused and
nothing changes; otherwise the process of this pid goes to the tail of its new queue. -/
structure SetpriMeets (t : PTable) (pid pri : ℤ) : Prop where
  refused : (¬(0 ≤ pri ∧ pri ≤ 3) ∨ ∀ p, (t.proc p).pid = pid → (t.proc p).state = .unused) →
    t.setpri pid pri = some (-1, t)
  accepted : ∀ p (l : Level), (t.proc p).pid = pid → (t.proc p).state ≠ .unused → pri = (l : ℕ) →
    ∃ t', t.setpri pid pri = some (0, t') ∧ t.Repositioned p l t'

/-- The priority is bad, no slot has the pid, or the first slot with it is in use and queued, and
its node is not the last of several. -/
def Settable (t : PTable) (pid pri : ℤ) : Prop :=
  ¬(0 ≤ pri ∧ pri ≤ 3) ∨ t.findPid pid = none ∨
    ∃ p l n, t.findPid pid = some p ∧ (t.proc p).state ≠ .unused ∧
      (t.proc p).putIn = some l ∧ (t.proc p).qNode = some n ∧ ¬t.TailOfMany l n

/-- The pids of the slots in use are theirs alone. -/
def PidsDistinct (t : PTable) : Prop :=
  ∀ p q, (t.proc p).state ≠ .unused → (t.proc q).pid = (t.proc p).pid → q = p

def setPriority (t : PTable) (p : Slot) (l : Level) : PTable :=
  t.setProc p { t.proc p with priority := l }

theorem setpri_of_range (hpri : pri = (l : ℕ)) (hfind : t.findPid pid = some p) :
    t.setpri pid pri =
      (((t.setPriority p l).rmFromQ (t.proc p).qNode (t.proc p).putIn).bind (·.enqueue p)).map
        fun u ↦ (0, u) := by
  have hlt := l.isLt
  have hrange : 0 ≤ pri ∧ pri ≤ 3 := by omega
  have hlevel : (⟨pri.toNat, by omega⟩ : Level) = l := by
    apply Fin.ext
    simp [hpri]
  unfold setpri
  rw [dif_pos hrange, hfind]
  simp only [hlevel, setProc_proc_self]
  rfl

theorem setpri_of_findPid_none (hfind : t.findPid pid = none) :
    t.setpri pid pri = some (-1, t) := by
  unfold setpri
  split
  · rw [hfind]
  · rfl

theorem setpri_of_not_range (hpri : ¬(0 ≤ pri ∧ pri ≤ 3)) : t.setpri pid pri = some (-1, t) := by
  unfold setpri
  rw [dif_neg hpri]

theorem findPid_eq (h : t.findPid pid = some p) : (t.proc p).pid = pid := by
  simpa using List.find?_some h

theorem findPid_eq_none (h : t.findPid pid = none) (p : Slot) : (t.proc p).pid ≠ pid := by
  simpa using List.find?_eq_none.mp h p (List.mem_finRange p)

theorem Owned.setPriority (h : t.Owned) : t.SameQueues (t.setPriority p l) := by
  have hqNode : ∀ q, ((t.setPriority p l).proc q).qNode = (t.proc q).qNode :=
    setProc_keeps Proc.qNode rfl
  have hputIn : ∀ q, ((t.setPriority p l).proc q).putIn = (t.proc q).putIn :=
    setProc_keeps Proc.putIn rfl
  have hstate : ∀ q, ((t.setPriority p l).proc q).state = (t.proc q).state :=
    setProc_keeps Proc.state rfl
  refine ⟨⟨fun q m hm ↦ ?_, fun q hq ↦ ?_, fun q hq ↦ ?_⟩, rfl, rfl, hputIn,
    fun q _ ↦ hqNode q, fun _ _ _ _ ↦ rfl⟩
  · exact h.owner q m ((hqNode q).symm.trans hm)
  · rw [hqNode]
    exact h.alive q (hstate q ▸ hq)
  · rw [hputIn]
    exact h.parked q (hstate q ▸ hq)

/-- The call where it goes well. -/
theorem ReadyInv.setpri (h : t.ReadyInv L) (hpri : pri = (l : ℕ)) (hfind : t.findPid pid = some p)
    (hl' : (t.proc p).putIn = some l') (hn : (t.proc p).qNode = some n)
    (hlast : ¬t.TailOfMany l' n) :
    ∃ t' L', t.setpri pid pri = some (0, t') ∧ t.Repositioned p l t' ∧ t'.ReadyInv L' := by
  have hself : (t.setPriority p l).proc p = { t.proc p with priority := l } :=
    setProc_proc_self _ _ _
  have hready := h.sameQueues (h.owned.setPriority (p := p) (l := l))
  obtain ⟨u, hu, hproc, hnodes, hlinks, henqueue, hready'⟩ :=
    hready.requeue (p := p) (n := n) (l := l') (by rwa [hself]) (by rwa [hself]) hlast
      (by rw [hself])
  have hnext : ((u.joined n p l).node n).next = none := by
    have hlinked := hready'.linked l
    rw [Function.update_self] at hlinked
    exact hlinked.next_of_append_cons
  have hkept : ∀ {α : Type} (f : QueueNode → α), (∀ v next, f { v with next := next } = f v) →
      ∀ m, f (u.node m) = f (t.node m) := by
    intro α f hf m
    rw [hnodes m, hf]
    rfl
  refine ⟨_, _, ?_, ⟨?_, fun q hq ↦ ?_, n, L, hn, h.toQueues, hready'.toQueues, ?_, ?_, ?_⟩, hready'⟩
  · rw [setpri_of_range hpri hfind, hn, hl', hu, Option.bind_some, henqueue]
    rfl
  · rw [joined_proc_self, hproc, hself]
  · rw [joined_proc_of_ne hq, hproc, setPriority, setProc_proc_of_ne hq]
  · ext1
    · exact hnext
    · rw [sameBut_joined.owner, hkept QueueNode.proc fun _ _ ↦ rfl]
    · rw [joined_node_keeps QueueNode.ticks fun _ _ ↦ rfl, if_pos rfl]
    · rw [sameBut_joined.inuse, hkept QueueNode.inuse fun _ _ ↦ rfl]
    · rfl
  · intro m hm
    ext1
    · rfl
    · rw [sameBut_joined.owner, hkept QueueNode.proc fun _ _ ↦ rfl]
    · rw [joined_node_keeps QueueNode.ticks fun _ _ ↦ rfl, if_neg hm,
        hkept QueueNode.ticks fun _ _ ↦ rfl]
    · rw [sameBut_joined.inuse, hkept QueueNode.inuse fun _ _ ↦ rfl]
    · rw [joined_node_keeps QueueNode.putTime fun _ _ ↦ rfl, if_neg hm,
        hkept QueueNode.putTime fun _ _ ↦ rfl]
  · exact hlinks

theorem joined_qTail : (t.joined n p l).qTail = Function.update t.qTail l (some n) := by
  unfold joined setPutIn
  rw [setProc_qTail, qTail_linkTail]
  rfl

/-- A node that joins the queue of which it is still the tail points to itself. -/
theorem joined_next_self (htail : t.qTail l = some n) :
    ((t.joined n p l).node n).next = some n := by
  simp [joined, setPutIn, linkTail, htail, setNext, startSlice]

/-- The call where the node is the last of several: the tail of its old queue still points to it,
and if it is put there again, it points to itself. -/
theorem ReadyInv.not_repositioned (h : t.ReadyInv L) (hpri : pri = (l : ℕ))
    (hfind : t.findPid pid = some p) (hl' : (t.proc p).putIn = some l')
    (hlast : ∀ n, (t.proc p).qNode = some n → t.TailOfMany l' n)
    (ht' : t.setpri pid pri = some (0, t')) : ¬t.Repositioned p l t' := by
  intro hmoved
  obtain ⟨n, M, hn, hqueues, hqueues', hnode, -⟩ := hmoved.queues
  have htail := hlast n hn
  have hself : (t.setPriority p l).proc p = { t.proc p with priority := l } :=
    setProc_proc_self _ _ _
  obtain ⟨s, x, hM⟩ : ∃ s x, M l' = s ++ [x, n] := by
    obtain ⟨init, hinit⟩ := List.getLast?_eq_some_iff.mp ((hqueues.tail l').symm.trans htail.1)
    rcases List.eq_nil_or_concat init with rfl | ⟨s, x, rfl⟩
    · have hhead := (hqueues.linked l').head?_eq
      rw [hinit] at hhead
      exact absurd hhead.symm htail.2
    · exact ⟨s, x, by simp [hinit]⟩
  have hset : (t.setPriority p l).Queues M := ⟨hqueues.linked, hqueues.tail, hqueues.disjoint⟩
  have hfifo : (t.setPriority p l).FifoQueue l' (s ++ [x, n]) := hM ▸ hset.fifoQueue l'
  -- the table after the removal, whose tail is stale
  obtain ⟨u, hu⟩ : ∃ u, u = (t.setPriority p l).setNext x ((t.setPriority p l).node n).next :=
    ⟨_, rfl⟩
  have hrm := hfifo.rmFromQ_inner
  rw [← hu] at hrm
  have hstale : u.qTail l' = some n := by
    rw [hu]
    exact htail.1
  have hproc : u.proc p = { t.proc p with priority := l } := by
    rw [hu]
    exact hself
  have howner : (u.node n).proc = some p := by
    have hkept : (u.node n).proc = (t.node n).proc := by
      rw [hu]
      apply setNode_keeps QueueNode.proc
      rfl
    exact hkept.trans (h.owned.owner p n hn).1
  have hcall : t' = u.joined n p l := by
    rw [setpri_of_range hpri hfind, hn, hl', hrm, Option.bind_some] at ht'
    obtain ⟨v, hv, heq⟩ := Option.map_eq_some_iff.mp ht'
    rw [← (Prod.mk.inj heq).2]
    apply Option.some.inj
    rw [← hv]
    simp [PTable.enqueue, PTable.putTailQ, PTable.joined, hproc, hn, howner]
  by_cases hll : l = l'
  · subst hll
    have hnext := joined_next_self (p := p) hstale
    rw [← hcall, hnode] at hnext
    cases hnext
  · have hqTail := hqueues'.tail l'
    rw [hcall, joined_qTail, Function.update_of_ne (Ne.symm hll),
      Function.update_of_ne (Ne.symm hll), hstale] at hqTail
    have hmem := List.mem_of_getLast? hqTail.symm
    exact ((hqueues.linked l').nodup.mem_erase_iff.mp hmem).1 rfl

theorem ReadyInv.setpriMeets_iff (h : t.ReadyInv L) (hpids : t.PidsDistinct) :
    t.SetpriMeets pid pri ↔ t.Settable pid pri := by
  constructor
  · intro hmeets
    by_cases hrange : 0 ≤ pri ∧ pri ≤ 3
    swap
    · exact .inl hrange
    obtain ⟨l, hpri⟩ : ∃ l : Level, pri = (l : ℕ) := by
      refine ⟨⟨pri.toNat, by omega⟩, ?_⟩
      simp [hrange.1]
    cases hfind : t.findPid pid with
    | none => exact .inr (.inl hfind)
    | some p =>
      have hpid := findPid_eq hfind
      have hcall := setpri_of_range hpri hfind
      by_cases hunused : (t.proc p).state = .unused
      · have hrefused := hmeets.refused (.inr fun q hq ↦ by
          by_contra hused
          rw [hpids q p hused (hpid.trans hq.symm)] at hunused
          exact hused hunused)
        rw [hcall] at hrefused
        obtain ⟨u, -, hu⟩ := Option.map_eq_some_iff.mp hrefused
        cases hu
      · obtain ⟨t', ht', hmoved⟩ := hmeets.accepted p l hpid hunused hpri
        cases hl' : (t.proc p).putIn with
        | none => simp [hcall, hl', rmFromQ] at ht'
        | some l' =>
          by_contra hnot
          refine h.not_repositioned hpri hfind hl' (fun n hn ↦ ?_) ht' hmoved
          by_contra hlast
          exact hnot (.inr (.inr ⟨p, l', n, hfind, hunused, hl', hn, hlast⟩))
  · intro hsettable
    rcases hsettable with hrange | hfind | ⟨p, l', n, hfind, hused, hl', hn, hlast⟩
    · refine ⟨fun _ ↦ setpri_of_not_range hrange, fun p l _ _ hpri ↦ ?_⟩
      have hlt := l.isLt
      omega
    · refine ⟨fun _ ↦ setpri_of_findPid_none hfind, fun p l hpid ↦ ?_⟩
      exact absurd hpid (findPid_eq_none hfind p)
    · have hpid := findPid_eq hfind
      constructor
      · intro hrefused
        rcases hrefused with hrange | hunused
        · exact setpri_of_not_range hrange
        · exact absurd (hunused p hpid) hused
      · intro q l hq hqused hpri
        obtain rfl := hpids p q hused (hq.trans hpid.symm)
        obtain ⟨t', L', ht', hmoved, -⟩ := h.setpri hpri hfind hl' hn hlast
        exact ⟨t', ht', hmoved⟩

end PTable

/-! ## Runs with `setpri` -/

variable {ncpu : ℕ}

/-- Every call of `setpri` finds a slot that it can move, `wait` reaps no queued process, and
`refresh_q` takes no node out of a queue that is the last of several. -/
def Kernel.QueuesFit (k : Kernel ncpu) : Section ncpu → Prop
  | .setpri pid pri => k.ptable.Settable pid pri
  | .wait c => ∀ p q, k.myproc c = some p → k.ptable.reapable p = some q →
      (k.ptable.proc q).putIn = none
  | .schedule _ => k.ptable.RefreshFits (List.finRange nproc)
  | _ => True

/-- Pids are given out once. -/
structure PidsInv (k : Kernel ncpu) : Prop where
  used : ∀ p, (k.ptable.proc p).state ≠ .unused → (k.ptable.proc p).pid ≠ 0
  below : ∀ p, (k.ptable.proc p).pid < k.nextpid
  distinct : ∀ p q, (k.ptable.proc p).pid ≠ 0 → (k.ptable.proc q).pid = (k.ptable.proc p).pid →
    q = p
  pos : 0 < k.nextpid

namespace PidsInv

variable {k k' : Kernel ncpu} {s : Section ncpu}

theorem pidsDistinct (h : PidsInv k) : k.ptable.PidsDistinct :=
  fun p q hp hq ↦ h.distinct p q (h.used p hp) hq

theorem frame (h : PidsInv k) (hnext : k'.nextpid = k.nextpid)
    (hpid : ∀ p, (k'.ptable.proc p).pid = (k.ptable.proc p).pid)
    (hused : ∀ p, (k'.ptable.proc p).state ≠ .unused → (k.ptable.proc p).state ≠ .unused) :
    PidsInv k' where
  used p hp := by
    rw [hpid]
    exact h.used p (hused p hp)
  below p := by
    rw [hpid, hnext]
    exact h.below p
  distinct p q := by
    rw [hpid, hpid]
    exact h.distinct p q
  pos := by
    rw [hnext]
    exact h.pos

theorem rouses {t : PTable} (h : PidsInv k) (hrouses : k.ptable.Rouses t) :
    PidsInv (k.setTable t) := by
  refine h.frame rfl ?_ ?_
  · exact fun p ↦ by rw [Kernel.setTable, hrouses.same p]
  · intro p hp hunused
    exact hp ((hrouses.state_eq (by simp [hunused])).trans hunused)

theorem forkTaken {p np : Slot} {pri : Level} (h : PidsInv k) : PidsInv (k.forkTaken p np pri) := by
  have hself : ((k.forkTaken p np pri).ptable.proc np).pid = k.nextpid := by
    simp [Kernel.forkTaken]
  have hother : ∀ q, q ≠ np → (k.forkTaken p np pri).ptable.proc q = k.ptable.proc q :=
    fun q hq ↦ PTable.setProc_proc_of_ne hq _
  have hpos := h.pos
  constructor
  · intro q hq
    by_cases hqnp : q = np
    · rw [hqnp, hself]
      exact hpos.ne'
    · rw [hother q hqnp] at hq ⊢
      exact h.used q hq
  · intro q
    change _ < k.nextpid + 1
    by_cases hqnp : q = np
    · rw [hqnp, hself]
      omega
    · have hbelow := h.below q
      rw [hother q hqnp]
      omega
  · intro q r hq hr
    by_cases hqnp : q = np
    · by_contra hrq
      have hbelow := h.below r
      rw [hother r (hqnp ▸ hrq), hqnp, hself] at hr
      omega
    · by_cases hrnp : r = np
      · have hbelow := h.below q
        rw [hrnp, hself, hother q hqnp] at hr
        omega
      · rw [hother q hqnp] at hq hr
        rw [hother r hrnp] at hr
        exact h.distinct q r hq hr
  · change 0 < k.nextpid + 1
    omega

theorem reap {t : PTable} {q : Slot} (h : PidsInv k) (ht : k.ptable.reap q = some t) :
    PidsInv (k.setTable t) := by
  obtain ⟨n, -, rfl⟩ := Option.map_eq_some_iff.mp ht
  obtain ⟨t', ht'⟩ : ∃ t', t' = (k.ptable.setNode n { k.ptable.node n with inuse := false }).setProc
      q { k.ptable.proc q with
        pid := 0, parent := none, killed := false, state := .unused, qNode := none } := ⟨_, rfl⟩
  rw [← ht']
  have hself : (t'.proc q).pid = 0 ∧ (t'.proc q).state = .unused := by
    rw [ht', PTable.setProc_proc_self]
    exact ⟨rfl, rfl⟩
  have hother : ∀ p, p ≠ q → t'.proc p = k.ptable.proc p := by
    intro p hp
    rw [ht', PTable.setProc_proc_of_ne hp, PTable.setNode_proc]
  constructor
  · intro p hp
    have hpq : p ≠ q := fun hpq ↦ hp (hpq ▸ hself.2)
    rw [Kernel.setTable, hother p hpq] at hp ⊢
    exact h.used p hp
  · intro p
    rw [Kernel.setTable]
    by_cases hpq : p = q
    · rw [hpq, hself.1]
      exact h.pos
    · rw [hother p hpq]
      exact h.below p
  · intro p r hp hr
    rw [Kernel.setTable] at hp hr
    have hpq : p ≠ q := fun hpq ↦ hp (hpq ▸ hself.1)
    have hrq : r ≠ q := by
      intro hrq
      rw [hrq, hself.1] at hr
      exact hp hr.symm
    rw [hother p hpq] at hp hr
    rw [hother r hrq] at hr
    exact h.distinct p r hp hr
  · exact h.pos

theorem effect (h : PidsInv k) (hprocs : ProcsInv k) (he : k.Effect s k') : PidsInv k' := by
  cases he with
  | idle => exact h
  | rouse hrouses => exact h.rouses hrouses
  | @stop _ c p u v hc hrouses hv =>
    refine (h.rouses hrouses).frame rfl ?_ ?_
    · apply PTable.setProc_keeps Proc.pid
      rw [hv]
    · intro q hq
      by_cases hqp : q = p
      · have hrunning : (u.proc p).state = .running :=
          (hrouses.holds p).1 (hprocs.running c p hc)
        simp [Kernel.setTable, hqp, hrunning]
      · simpa [Kernel.sched, Kernel.setTable, hqp] using hq
  | reap _ _ ht => exact h.reap ht
  | take => exact h.forkTaken
  | @node _ p f hf =>
    refine h.frame rfl ?_ ?_
    · exact PTable.takeNode_keeps Proc.pid (fun _ _ _ _ _ ↦ rfl) f.np
    · intro q hq
      exact (PTable.takeNode_state f.np q) ▸ hq
  | @drop _ p f hf =>
    refine h.frame rfl ?_ ?_
    · apply PTable.setProc_keeps Proc.pid
      rfl
    · intro q hq
      by_cases hqnp : q = f.np
      · simp [Kernel.endFork, PTable.setState, hqnp] at hq
      · simpa [Kernel.endFork, PTable.setState, hqnp] using hq
  | @complete _ p f t hf _ ht =>
    obtain ⟨n, -, rfl⟩ := Option.map_eq_some_iff.mp ht
    refine h.frame rfl ?_ ?_
    · apply PTable.setProc_keeps Proc.pid
      rfl
    · intro q hq
      by_cases hqnp : q = f.np
      · simp [hqnp, hprocs.embryo p f hf]
      · simpa [Kernel.endFork, hqnp] using hq

end PidsInv

/-- The invariant of the runs with `setpri`. -/
structure SetpriInv (k : Kernel ncpu) : Prop where
  ready : ∃ L, k.ptable.ReadyInv L
  procs : ProcsInv k
  pids : PidsInv k

namespace SetpriInv

variable {k k' : Kernel ncpu} {s : Section ncpu} {c : Fin ncpu} {pid pri : ℤ}

/-- A pass dispatches a runnable process, although the queues held others before it. -/
theorem pass (h : SetpriInv k) (hfits : k.ptable.RefreshFits (List.finRange nproc))
    (hs : k.step (.schedule c) = some k') : SetpriInv k' := by
  obtain ⟨L, hready⟩ := h.ready
  obtain ⟨-, hs⟩ := Option.ite_none_right_eq_some.mp hs
  obtain ⟨t, L', hrefresh, hready', hsync, hsame⟩ := hready.refreshQ hfits
  have hstate : ∀ p, (t.proc p).state = (k.ptable.proc p).state := fun p ↦ by rw [hsame p]
  have hpid : ∀ p, (t.proc p).pid = (k.ptable.proc p).pid := fun p ↦ by rw [hsame p]
  rw [Kernel.schedule, hrefresh, Option.bind_some] at hs
  cases hpick : t.pick with
  | none =>
    rw [hpick] at hs
    obtain rfl := Option.some.inj hs
    refine ⟨⟨L', hready'⟩, h.procs.of_holds rfl rfl fun p ↦ PTable.holds_of_eq (hstate p),
      h.pids.frame rfl hpid fun p hp ↦ ?_⟩
    rw [← hstate p]
    exact hp
  | some picked =>
    obtain ⟨l, n⟩ := picked
    have hhead : (L' l).head? = some n :=
      (hready'.linked l).head?_eq.trans (PTable.pick_eq_some hpick).1
    obtain ⟨p, hn, hl⟩ := (hready'.lists l n).mp (List.mem_of_head? hhead)
    have hrunnable : (t.proc p).state = .runnable := by
      by_contra hne
      have hputIn := hsync p
      rw [if_neg hne, hl] at hputIn
      cases hputIn
    have hproc := (hready'.owned.owner p n hn).1
    simp only [hpick, PTable.dispatch_eq hproc hn, Option.map_some] at hs
    obtain rfl := Option.some.inj hs
    have hother : ∀ q, q ≠ p → (t.dispatched p n l).proc q = t.proc q :=
      fun q hq ↦ PTable.setProc_proc_of_ne hq _
    refine ⟨⟨L', hready'.sameQueues (hready'.owned.dispatched hn)⟩, ?_, ?_⟩
    · apply h.procs.dispatch ((hstate p).symm.trans hrunnable)
      · simp [PTable.dispatched]
      · exact fun q hq ↦ PTable.holds_of_eq (by rw [hother q hq, hstate])
    · refine h.pids.frame rfl (fun q ↦ ?_) fun q hq ↦ ?_
      · have hkept : ((t.dispatched p n l).proc q).pid = (t.proc q).pid := by
          apply PTable.setProc_keeps Proc.pid
          rfl
        exact hkept.trans (hpid q)
      · rw [← hstate q]
        by_cases hqp : q = p
        · simp [hqp, hrunnable]
        · rw [← hother q hqp]
          exact hq

theorem setpri (h : SetpriInv k) (hsettable : k.ptable.Settable pid pri)
    (hs : k.step (.setpri pid pri) = some k') : SetpriInv k' := by
  obtain ⟨r, hr, rfl⟩ := Option.map_eq_some_iff.mp hs
  have hsame : k.ptable.setpri pid pri = some (-1, k.ptable) → SetpriInv (k.setTable r.2) := by
    intro hrefused
    obtain rfl := Option.some.inj (hr.symm.trans hrefused)
    exact h
  by_cases hrange : 0 ≤ pri ∧ pri ≤ 3
  swap
  · exact hsame (PTable.setpri_of_not_range hrange)
  obtain ⟨l, hpri⟩ : ∃ l : Level, pri = (l : ℕ) := by
    refine ⟨⟨pri.toNat, by omega⟩, ?_⟩
    simp [hrange.1]
  rcases hsettable with hnot | hfind | ⟨p, l', n, hfind, -, hl', hn, hlast⟩
  · exact absurd hrange hnot
  · exact hsame (PTable.setpri_of_findPid_none hfind)
  · obtain ⟨L, hready⟩ := h.ready
    obtain ⟨t', L', ht', hmoved, hready'⟩ := hready.setpri hpri hfind hl' hn hlast
    obtain rfl := Option.some.inj (hr.symm.trans ht')
    have hkept : ∀ {α : Type} (f : Proc → α),
        (∀ v priority putIn qtail,
          f { v with priority := priority, putIn := putIn, qtail := qtail } = f v) →
        ∀ q, f (t'.proc q) = f (k.ptable.proc q) := by
      intro α f hf q
      by_cases hq : q = p
      · rw [hq, hmoved.self]
        exact hf _ _ _ _
      · rw [hmoved.other q hq]
    have hstate := hkept Proc.state fun _ _ _ _ ↦ rfl
    refine ⟨⟨L', hready'⟩,
      h.procs.of_holds rfl rfl fun q ↦ PTable.holds_of_eq (hstate q),
      h.pids.frame rfl (hkept Proc.pid fun _ _ _ _ ↦ rfl) fun q hq ↦ ?_⟩
    rw [← hstate q]
    exact hq

theorem userinit : SetpriInv (Kernel.userinit : Kernel ncpu) where
  ready := by
    have hqueues : QueueInv (Kernel.userinit : Kernel ncpu).ptable (fun _ ↦ []) none :=
      KernelInv.userinit_queues
    exact ⟨fun _ ↦ [], hqueues.toQueues, hqueues.queued, hqueues.owned⟩
  procs := .userinit
  pids := by
    have hpid : ∀ p, ((Kernel.userinit : Kernel ncpu).ptable.proc p).pid =
        if p = PTable.initproc then 1 else 0 := by
      intro p
      rw [KernelInv.userinit_proc]
      split <;> rfl
    constructor
    · intro p hp
      rw [hpid]
      rw [KernelInv.userinit_proc] at hp
      split at hp
      · next hinit => simp [hinit]
      · exact absurd rfl hp
    · intro p
      rw [hpid]
      change _ < (2 : ℤ)
      split <;> decide
    · intro p q hp hq
      simp only [hpid] at hp hq
      split at hp
      · next hinit =>
        rw [if_pos hinit] at hq
        split at hq
        · next hinit' => rw [hinit, hinit']
        · cases hq
      · exact absurd rfl hp
    · change (0 : ℤ) < 2
      decide

theorem step (h : SetpriInv k) (hok : k.QueuesFit s) (hs : k.step s = some k') :
    SetpriInv k' := by
  rcases Kernel.step_effect hs with ⟨c, rfl⟩ | ⟨pid, pri, rfl⟩ | he
  · exact h.pass hok hs
  · exact h.setpri hok hs
  · obtain ⟨L, hready⟩ := h.ready
    have hreap : ∀ c p q, s = .wait c → k.myproc c = some p → k.ptable.reapable p = some q →
        (k.ptable.proc q).putIn = none := by
      intro c p q hwait
      subst hwait
      exact hok p q
    have hundisturbed := h.procs.undisturbed hready.owned he hreap
    exact ⟨⟨L, hready.sameQueues hundisturbed.toSameQueues⟩, h.procs.effect he,
      h.pids.effect h.procs he⟩

end SetpriInv

/-- The effect of `setpri` in every state of a run, on any number of processors, in which the calls
of `setpri` and the removals of `refresh_q` fit the queues: the call does what is to be said of it
exactly when the slot that it finds is in use and queued and is not the last of several. -/
theorem setpri_meets_iff {k : Kernel ncpu}
    (hk : (Kernel.machine ncpu).ReachableVia Kernel.QueuesFit k) (pid pri : ℤ) :
    k.ptable.SetpriMeets pid pri ↔ k.ptable.Settable pid pri := by
  have hinv : SetpriInv k := by
    apply hk.invariant
    · intro k hinit
      obtain rfl : k = Kernel.userinit := hinit
      exact .userinit
    · exact fun k s k' _ h hok hs ↦ h.step hok hs
  obtain ⟨L, hready⟩ := hinv.ready
  exact hready.setpriMeets_iff hinv.pids.pidsDistinct

/-- The removals fit where there are none. -/
theorem PTable.ReadyInv.refreshFits_of_unqueued {t : PTable} {L : Level → List Node}
    {ps : List Slot} (h : t.ReadyInv L) (hps : ps.Nodup)
    (hnone : ∀ p ∈ ps, (t.proc p).putIn = none) : t.RefreshFits ps := by
  induction ps generalizing t L with
  | nil => trivial
  | cons p ps ih =>
    obtain ⟨hp, hps⟩ := List.nodup_cons.mp hps
    have hfits : ∀ l n, t.Leaves p l n → ¬t.TailOfMany l n := by
      intro l n hleaves
      exact absurd (hleaves.1.symm.trans (hnone p List.mem_cons_self)) (Option.some_ne_none l)
    obtain ⟨u, M, hstep, hu, hsame, -⟩ := h.refreshOne hfits
    refine ⟨hfits, fun t' ht' ↦ ?_⟩
    obtain rfl := Option.some.inj (hstep.symm.trans ht')
    apply ih hu hps
    intro q hq
    rw [hsame.other q fun hqp ↦ hp (hqp ▸ hq)]
    exact hnone q (List.mem_cons_of_mem p hq)

/-- Init, running for the first time, lowers its own priority. -/
theorem setpri_meets_iff_running :
    ∃ k, (Kernel.machine 1).run Kernel.userinit [.schedule 0] = some k ∧
      k.ptable.SetpriMeets 1 2 := by
  have hrun : ((Kernel.machine 1).run Kernel.userinit [.schedule 0]).map (fun k ↦
      (k.ptable.findPid 1, (k.ptable.proc 0).state, (k.ptable.proc 0).putIn,
        (k.ptable.proc 0).qNode, k.ptable.qHead 3)) =
      some (some 0, .running, some 3, some 0, some 0) := by decide +kernel
  obtain ⟨k, hk, hvalues⟩ := Option.map_eq_some_iff.mp hrun
  simp only [Prod.mk.injEq] at hvalues
  obtain ⟨hfind, hstate, hputIn, hnode, hhead⟩ := hvalues
  have hfits : (Kernel.userinit : Kernel 1).QueuesFit (.schedule 0) := by
    have hinv : SetpriInv (Kernel.userinit : Kernel 1) := .userinit
    obtain ⟨L, hready⟩ := hinv.ready
    apply hready.refreshFits_of_unqueued (List.nodup_finRange nproc)
    intro p _
    rw [KernelInv.userinit_proc]
    split <;> rfl
  obtain ⟨k', hs, hk'⟩ := Option.bind_eq_some_iff.mp hk
  obtain rfl := Option.some.inj hk'
  have hreach : (Kernel.machine 1).ReachableVia Kernel.QueuesFit k' :=
    .step (l := .schedule 0) (.init rfl) hfits hs
  refine ⟨k', hk, (setpri_meets_iff hreach 1 2).mpr ?_⟩
  exact .inr (.inr ⟨0, 3, 0, hfind, by simp [hstate], hputIn, hnode, fun htail ↦ htail.2 hhead⟩)

/-- Init has just created a process, which no pass has put into a queue yet.  Neither the pid `0`
of a slot that is not in use nor the pid of the child can be given to `setpri`. -/
theorem setpri_misses :
    ∃ k, (Kernel.machine 1).Reachable k ∧ k.cpuProc 0 = some PTable.initproc ∧
      ¬k.ptable.SetpriMeets 0 1 ∧ ¬k.ptable.SetpriMeets 2 1 := by
  have hrun : ((Kernel.machine 1).run Kernel.userinit forkAndYield.dropLast).map (fun k ↦
      (k.cpuProc 0, (k.ptable.setpri 0 1).isNone, (k.ptable.setpri 2 1).isNone,
        (k.ptable.proc 1).pid, (k.ptable.proc 1).state,
        (List.finRange nproc).all fun p ↦
          (k.ptable.proc p).pid ≠ 0 ∨ (k.ptable.proc p).state = .unused)) =
      some (some 0, true, true, 2, .runnable, true) := by decide +kernel
  obtain ⟨k, hk, hvalues⟩ := Option.map_eq_some_iff.mp hrun
  simp only [Prod.mk.injEq, Option.isNone_iff_eq_none, List.all_eq_true, List.mem_finRange,
    true_implies, decide_eq_true_eq] at hvalues
  obtain ⟨hcpu, hzero, htwo, hpid, hstate, hunused⟩ := hvalues
  have hreach : (Kernel.machine 1).Reachable k := Machine.Reachable.run (.init rfl) hk
  refine ⟨k, hreach, hcpu, fun hmeets ↦ ?_, fun hmeets ↦ ?_⟩
  · have hrefused := hmeets.refused (.inr fun p hp ↦ (hunused p).resolve_left (not_not.mpr hp))
    rw [hzero] at hrefused
    cases hrefused
  · obtain ⟨t', ht', -⟩ := hmeets.accepted 1 1 hpid (by simp [hstate]) rfl
    rw [htwo] at ht'
    cases ht'

end CS537.Scheduler
