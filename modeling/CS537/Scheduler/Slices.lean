import CS537.Scheduler.Law

/-!
# Time slices

Every tick that a process gets at a level is paid by a slice that `put_tail_q` has given it there:
the ticks never exceed the length of the slices, and what is left of the last one is kept in the
queue node of the process.  A process that has been dispatched since it was put at the tail stays
at the head of its queue until its slice is used up.
-/

namespace CS537.Scheduler

open Foundation

namespace PTable

variable {t t' : PTable} {p q : Slot} {n : Node} {l : Level}

/-- The ticks of the processes are paid by their slices; the node of a queued process tells how
much of the last slice is used. -/
structure Accounted (t : PTable) : Prop where
  paid : ∀ p l, (t.proc p).putIn ≠ some l → (t.proc p).ticks l ≤ sliceLimit l * (t.proc p).qtail l
  slice : ∀ p l n, (t.proc p).putIn = some l → (t.proc p).qNode = some n →
    (t.proc p).ticks l + sliceLimit l ≤ sliceLimit l * (t.proc p).qtail l + (t.node n).ticks

theorem Accounted.undisturbed (h : t.Accounted) (hu : t.Undisturbed t') : t'.Accounted where
  paid p l hl := by
    rw [hu.putIn] at hl
    rcases hu.counters p with ⟨hticks, hqtail⟩ | ⟨-, hticks, -⟩
    · rw [hticks, hqtail]
      exact h.paid p l hl
    · rw [hticks]
      exact Nat.zero_le _
  slice p l n hl hn := by
    rw [hu.putIn] at hl
    have hqueued : (t.proc p).putIn ≠ none := by simp [hl]
    rw [hu.qNode p hqueued] at hn
    rcases hu.counters p with ⟨hticks, hqtail⟩ | ⟨hnone, -⟩
    · rw [hticks, hqtail, hu.slice p n hqueued hn]
      exact h.slice p l n hl hn
    · exact absurd hnone hqueued

/-- The process picked uses one tick more of its slice. -/
theorem Accounted.dispatched (h : t.Accounted) (howned : t.Owned)
    (hn : (t.proc p).qNode = some n) (hl : (t.proc p).putIn = some l) :
    (t.dispatched p n l).Accounted := by
  have hself : (t.dispatched p n l).proc p =
      { t.proc p with
        ticks := Function.update (t.proc p).ticks l ((t.proc p).ticks l + 1)
        state := .running
        chan := none } := setProc_proc_self _ _ _
  have hother : ∀ q, q ≠ p → (t.dispatched p n l).proc q = t.proc q :=
    fun q hq ↦ setProc_proc_of_ne hq _
  constructor
  · intro q l' hl'
    by_cases hq : q = p
    · subst hq
      rw [hself] at hl' ⊢
      have hne : l' ≠ l := fun heq ↦ hl' (heq ▸ hl)
      simp only [Function.update_of_ne hne]
      exact h.paid q l' hl'
    · rw [hother q hq] at hl' ⊢
      exact h.paid q l' hl'
  · intro q l' m hl' hm
    by_cases hq : q = p
    · subst hq
      rw [hself] at hl' hm ⊢
      obtain rfl : l = l' := Option.some.inj (hl.symm.trans hl')
      obtain rfl : n = m := Option.some.inj (hn.symm.trans hm)
      have hslice := h.slice q l n hl hn
      have hticks : ((t.dispatched q n l).node n).ticks = (t.node n).ticks + 1 := by
        simp [PTable.dispatched]
      simp only [Function.update_self, hticks]
      omega
    · rw [hother q hq] at hl' hm ⊢
      have hmn : m ≠ n := fun hmn ↦ hq (howned.unique (hmn ▸ hm) hn)
      have hnode : (t.dispatched p n l).node m = t.node m := by simp [PTable.dispatched, hmn]
      rw [hnode]
      exact h.slice q l' m hl' hm

end PTable

namespace QueueInv

variable {t : PTable} {L : Level → List Node} {d : Option Slot} {p : Slot} {n : Node} {l : Level}

/-- The slice counter of a queued process. -/
theorem slice_le (h : QueueInv t L d) (hl : (t.proc p).putIn = some l)
    (hn : (t.proc p).qNode = some n) : (t.node n).ticks ≤ PTable.sliceLimit l := by
  by_cases hd : d = some p
  · exact (h.first p l hl hd).2.2 n hn
  · exact ((h.synced p l hl hd).2.2 n hn).le

/-- The ticks of a process at a level are bounded by the slices it has got there. -/
theorem ticks_le (h : QueueInv t L d) (ha : t.Accounted) (p : Slot) (l : Level) :
    (t.proc p).ticks l ≤ PTable.sliceLimit l * (t.proc p).qtail l := by
  by_cases hl : (t.proc p).putIn = some l
  · obtain ⟨n, hn, -⟩ := h.exists_node hl
    have hslice := ha.slice p l n hl hn
    have hle := h.slice_le hl hn
    omega
  · exact ha.paid p l hl

end QueueInv

/-! ## The slices in the pass -/

namespace Moved

variable {t t' : PTable} {L L' : Level → List Node} {d : Option Slot} {p q : Slot} {m : Node}
  {l : Level}

/-- The slice counters of the other processes stay. -/
theorem ticks_of_ne (h : Moved t L p t' L') (howned : t.Owned) (hq : q ≠ p)
    (hm : (t.proc q).qNode = some m) : (t'.node m).ticks = (t.node m).ticks := by
  have hne : ∀ n, (t.proc p).qNode = some n → m ≠ n :=
    fun n hn hmn ↦ hq (howned.unique (hmn ▸ hm) hn)
  cases h with
  | stay => rfl
  | join hn =>
    rw [PTable.joined_node_keeps QueueNode.ticks fun _ _ ↦ rfl, if_neg (hne _ hn)]
  | leave => rfl
  | rejoin hn =>
    rw [PTable.joined_node_keeps QueueNode.ticks fun _ _ ↦ rfl, if_neg (hne _ hn)]
    rfl

/-- A process that goes to the tail gets a new slice, and one that leaves has used no more than it
was given. -/
theorem accounted (h : Moved t L p t' L') (hinv : QueueInv t L d) (ha : t.Accounted) :
    t'.Accounted := by
  have hsame := h.same
  suffices hself :
      (∀ l, (t'.proc p).putIn ≠ some l →
        (t'.proc p).ticks l ≤ PTable.sliceLimit l * (t'.proc p).qtail l) ∧
      ∀ l n, (t'.proc p).putIn = some l → (t'.proc p).qNode = some n →
        (t'.proc p).ticks l + PTable.sliceLimit l ≤
          PTable.sliceLimit l * (t'.proc p).qtail l + (t'.node n).ticks by
    constructor
    · intro q l hl
      by_cases hq : q = p
      · subst hq
        exact hself.1 l hl
      · rw [hsame.other q hq] at hl ⊢
        exact ha.paid q l hl
    · intro q l m hl hm
      by_cases hq : q = p
      · subst hq
        exact hself.2 l m hl hm
      · rw [hsame.other q hq] at hl hm ⊢
        rw [h.ticks_of_ne hinv.owned hq hm]
        exact ha.slice q l m hl hm
  have hbound := hinv.ticks_le ha p
  have hnew : ∀ (u : PTable) (n : Node) (l : Level), (t.proc p).qNode = some n →
      (u.proc p).qNode = some n → (u.proc p).ticks = (t.proc p).ticks →
      (u.proc p).qtail = (t.proc p).qtail →
      (∀ l', ((u.joined n p l).proc p).putIn ≠ some l' →
        ((u.joined n p l).proc p).ticks l' ≤
          PTable.sliceLimit l' * ((u.joined n p l).proc p).qtail l') ∧
      ∀ l' m, ((u.joined n p l).proc p).putIn = some l' →
        ((u.joined n p l).proc p).qNode = some m →
        ((u.joined n p l).proc p).ticks l' + PTable.sliceLimit l' ≤
          PTable.sliceLimit l' * ((u.joined n p l).proc p).qtail l' +
            ((u.joined n p l).node m).ticks := by
    intro u n l hn hun hticks hqtail
    rw [PTable.joined_proc_self]
    simp only [hticks, hqtail]
    constructor
    · intro l' hl'
      have hne : l' ≠ l := fun heq ↦ hl' (heq ▸ rfl)
      rw [Function.update_of_ne hne]
      exact hbound l'
    · intro l' m hl' hm
      obtain rfl := Option.some.inj hl'
      have hle := hbound l
      rw [Function.update_self, Nat.mul_succ]
      omega
  cases h with
  | stay => exact ⟨fun l hl ↦ ha.paid p l hl, fun l n hl hn ↦ ha.slice p l n hl hn⟩
  | join hn => exact hnew t _ _ hn hn rfl rfl
  | leave =>
    rw [PTable.setPutIn, PTable.setProc_proc_self]
    exact ⟨fun l _ ↦ hbound l, fun l n hl ↦ absurd hl.symm (Option.some_ne_none l)⟩
  | rejoin hn =>
    apply hnew _ _ _ hn
    · rw [PTable.setPutIn, PTable.setProc_proc_self]
      exact hn
    · rw [PTable.setPutIn, PTable.setProc_proc_self]
      rfl
    · rw [PTable.setPutIn, PTable.setProc_proc_self]
      rfl

end Moved

theorem PTable.Accounted.refreshQ {t t' : PTable} {L : Level → List Node} {d : Option Slot}
    (h : t.Accounted) (hinv : QueueInv t L d) (hrun : t.refreshQ = some t') : t'.Accounted :=
  hinv.refreshQ_induction h (fun _ _ _ _ _ _ hu ha hmoved ↦ hmoved.accounted hu ha) hrun

/-- The counters hold in every state of a run on one processor. -/
theorem accounted_of_reachable {k : Kernel 1}
    (hk : (Kernel.machine 1).ReachableVia Kernel.NoSetpri k) : k.ptable.Accounted := by
  apply hk.invariant
  · intro k hinit
    obtain rfl : k = Kernel.userinit := hinit
    have hputIn : ∀ p, ((Kernel.userinit : Kernel 1).ptable.proc p).putIn = none := by
      intro p
      rw [KernelInv.userinit_proc]
      split <;> rfl
    constructor
    · intro p l _
      rw [KernelInv.userinit_proc]
      split <;> exact Nat.zero_le _
    · intro p l n hl
      rw [hputIn] at hl
      cases hl
  · intro k s k' hreach ha hok hs
    obtain ⟨⟨L, hinv⟩, hlast⟩ := oneCpu_inv hreach
    rcases Kernel.step_effect hs with ⟨c, rfl⟩ | ⟨pid, pri, rfl⟩ | he
    · cases hinv.pass hs with
      | idle hrefresh => exact ha.refreshQ hinv.queues hrefresh
      | run hrefresh hqueues _ _ hn hl =>
        exact (ha.refreshQ hinv.queues hrefresh).dispatched hqueues.owned hn hl
    · exact hok.elim
    · have hreap := (hinv.reapsUnqueued hlast hok).reaps
      exact ha.undisturbed (hinv.procs.undisturbed hinv.queues.owned he hreap)

/-! ## A process that only yields -/

/-- The process `p` with the node `n` is in the queue of `l` and has used `D` ticks of its slice; it
is the first as soon as it has used one. -/
structure PTable.Sliced (t : PTable) (p : Slot) (l : Level) (n : Node) (D : ℕ) : Prop where
  node : (t.proc p).qNode = some n
  level : (t.proc p).putIn = some l
  ticks : (t.node n).ticks = D
  head : 1 ≤ D → t.qHead l = some n

namespace PTable

variable {t t' : PTable} {p q : Slot} {n m : Node} {l l' : Level} {D : ℕ}

/-- A process that joins a queue does not become its first, unless it is the only one. -/
theorem joined_qHead {L : Level → List Node} (h : t.Queues L) (hhead : t.qHead l = some n) :
    (t.joined m q l').qHead l = some n := by
  cases htail : t.qTail l' with
  | none =>
    have hne : l ≠ l' := by
      intro hll
      have hnil : L l' = [] := List.getLast?_eq_none_iff.mp ((h.tail l').symm.trans htail)
      have hnone := (h.linked l').head?_eq
      rw [hnil, ← hll, hhead] at hnone
      cases hnone
    simp [joined, setPutIn, linkTail, startSlice, htail, hne, hhead]
  | some tail => simp [joined, setPutIn, linkTail, startSlice, htail, setNext, hhead]

namespace Sliced

theorem undisturbed (h : t.Sliced p l n D) (hu : t.Undisturbed t') : t'.Sliced p l n D := by
  have hqueued : (t.proc p).putIn ≠ none := by simp [h.level]
  constructor
  · rw [hu.qNode p hqueued, h.node]
  · rw [hu.putIn, h.level]
  · rw [hu.slice p n hqueued h.node, h.ticks]
  · rw [hu.qHead]
    exact h.head

/-- The process itself is dispatched. -/
theorem dispatched (h : t.Sliced p l n D) (hhead : t.qHead l = some n) :
    (t.dispatched p n l).Sliced p l n (D + 1) where
  node := by
    rw [PTable.dispatched, setProc_proc_self]
    exact h.node
  level := by
    rw [PTable.dispatched, setProc_proc_self]
    exact h.level
  ticks := by simp [PTable.dispatched, h.ticks]
  head _ := hhead

/-- Another process is dispatched. -/
theorem dispatched_of_ne (h : t.Sliced p l n D) (howned : t.Owned) (hq : q ≠ p)
    (hm : (t.proc q).qNode = some m) : (t.dispatched q m l').Sliced p l n D := by
  have hnm : n ≠ m := fun hnm ↦ hq (howned.unique (hnm ▸ hm) h.node)
  have hproc : (t.dispatched q m l').proc p = t.proc p := setProc_proc_of_ne (Ne.symm hq) _
  constructor
  · rw [hproc, h.node]
  · rw [hproc, h.level]
  · simp [PTable.dispatched, hnm, h.ticks]
  · exact h.head

/-- A step of `refresh_q` that does not put the process at the tail. -/
theorem moved {u u' : PTable} {L L' : Level → List Node} {d : Option Slot}
    (h : u.Sliced p l n D) (hinv : QueueInv u L d) (hmoved : Moved u L q u' L')
    (hstate : (u.proc p).state = .runnable)
    (hqtail : (u'.proc p).qtail l = (u.proc p).qtail l) : u'.Sliced p l n D := by
  have hfirst : ∀ r m l', r ≠ p → (u.proc r).qNode = some m → (L l').head? = some m →
      1 ≤ D → l' ≠ l := by
    intro r m l' hr hm hhead hD hll
    subst hll
    have hn := (hinv.linked l').head?_eq.symm.trans hhead
    rw [h.head hD] at hn
    exact hr (hinv.owner_unique hm (h.node.trans hn))
  by_cases hq : q = p
  · subst hq
    cases hmoved with
    | stay => exact h
    | join _ hnone => exact absurd (h.level.symm.trans hnone) (Option.some_ne_none l)
    | leave _ _ hne => exact absurd hstate hne
    | rejoin hm hl' =>
      obtain rfl := Option.some.inj (h.level.symm.trans hl')
      rw [joined_proc_self] at hqtail
      simp [setPutIn, unlinkHead] at hqtail
  · have hproc := hmoved.same.other p (Ne.symm hq)
    have hticks := hmoved.ticks_of_ne hinv.owned (Ne.symm hq) h.node
    refine ⟨by rw [hproc, h.node], by rw [hproc, h.level], hticks.trans h.ticks, fun hD ↦ ?_⟩
    have hhead := h.head hD
    cases hmoved with
    | stay => exact hhead
    | join => exact joined_qHead hinv.toQueues hhead
    | leave hm hl' _ hheads =>
      have hne := hfirst q _ _ hq hm hheads hD
      simp [setPutIn, unlinkHead, Function.update_of_ne (Ne.symm hne), hhead]
    | @rejoin m l' _ hm hl' _ _ _ hheads =>
      have hne := hfirst q _ _ hq hm hheads hD
      obtain ⟨rest, hL⟩ := List.head?_eq_some_iff.mp hheads
      apply joined_qHead (hinv.toQueues.unlinkHead hL).setPutIn
      simp [setPutIn, unlinkHead, Function.update_of_ne (Ne.symm hne), hhead]

end Sliced

/-- A process that has joined a queue starts a slice. -/
theorem sliced_joined (hn : (t.proc p).qNode = some n) : (t.joined n p l).Sliced p l n 0 where
  node := by
    rw [joined_proc_self]
    exact hn
  level := by rw [joined_proc_self]
  ticks := by rw [joined_node_keeps QueueNode.ticks fun _ _ ↦ rfl, if_pos rfl]
  head hD := absurd hD (Nat.not_succ_le_zero 0)

end PTable

namespace Moved

variable {t t' : PTable} {L L' : Level → List Node} {p q : Slot}

theorem qtail_joined (t : PTable) (n : Node) (p : Slot) (l l' : Level) :
    ((t.joined n p l).proc p).qtail l' = (t.proc p).qtail l' + if l' = l then 1 else 0 := by
  rw [PTable.joined_proc_self]
  by_cases hl : l' = l
  · simp [hl]
  · simp [hl]

/-- The counter of the moves to the tail tells whether the process has been put there. -/
theorem qtail_eq_or (h : Moved t L q t' L') (p : Slot) (l : Level) :
    (t'.proc p).qtail l = (t.proc p).qtail l ∨
      (t.proc p).qtail l < (t'.proc p).qtail l ∧ (t.proc p).state = .runnable ∧
        ∃ n, t'.Sliced p l n 0 := by
  by_cases hq : p = q
  · subst hq
    cases h with
    | stay => exact .inl rfl
    | leave => exact .inl (by simp [PTable.setPutIn, PTable.unlinkHead])
    | @join n l' hn _ hstate =>
      rw [qtail_joined]
      by_cases hl : l = l'
      · subst hl
        exact .inr ⟨by simp, hstate, n, PTable.sliced_joined hn⟩
      · exact .inl (by simp [hl])
    | @rejoin n l' _ hn _ hstate =>
      have hself : (((t.unlinkHead n l').setPutIn p none).proc p) =
          { t.proc p with putIn := none } := PTable.setProc_proc_self _ _ _
      rw [qtail_joined, hself]
      by_cases hl : l = l'
      · subst hl
        refine .inr ⟨by simp, hstate, n, PTable.sliced_joined ?_⟩
        rw [hself]
        exact hn
      · exact .inl (by simp [hl])
  · rw [h.same.other p hq]
    exact .inl rfl

theorem qtail_of_unspent {n : Node} {l : Level} {D : ℕ} (h : Moved t L q t' L')
    (hsliced : t.Sliced p l n D) (hD : D < PTable.sliceLimit l) :
    (t'.proc p).qtail l = (t.proc p).qtail l := by
  by_cases hq : p = q
  · subst hq
    cases h with
    | stay => rfl
    | leave => simp [PTable.setPutIn, PTable.unlinkHead]
    | join _ hnone => exact absurd (hsliced.level.symm.trans hnone) (Option.some_ne_none l)
    | rejoin hn hl _ _ hticks =>
      obtain rfl := Option.some.inj (hsliced.level.symm.trans hl)
      obtain rfl := Option.some.inj (hsliced.node.symm.trans hn)
      rw [hsliced.ticks] at hticks
      exact absurd hticks hD.ne
  · rw [h.same.other p hq]

theorem state_eq (h : Moved t L q t' L') (p : Slot) : (t'.proc p).state = (t.proc p).state :=
  h.same.state_eq p

end Moved

namespace QueueInv

variable {t t' : PTable} {L : Level → List Node} {d : Option Slot} {p : Slot} {n : Node}
  {l : Level} {D : ℕ}

theorem refreshQ_qtail_le (h : QueueInv t L d) (hrun : t.refreshQ = some t') (p : Slot)
    (l : Level) : (t.proc p).qtail l ≤ (t'.proc p).qtail l := by
  apply h.refreshQ_induction (P := fun u ↦ (t.proc p).qtail l ≤ (u.proc p).qtail l) le_rfl ?_ hrun
  intro u M e q u' M' _ hle hmoved
  rcases hmoved.qtail_eq_or p l with heq | ⟨hlt, -⟩
  · rwa [heq]
  · exact hle.trans hlt.le

/-- A runnable process that the pass does not put at the tail keeps its place and its slice. -/
theorem refreshQ_sliced (h : QueueInv t L d) (hsliced : t.Sliced p l n D)
    (hstate : (t.proc p).state = .runnable) (hrun : t.refreshQ = some t')
    (hqtail : (t'.proc p).qtail l = (t.proc p).qtail l) : t'.Sliced p l n D := by
  have hkept : (t'.proc p).state = .runnable ∧ (t.proc p).qtail l ≤ (t'.proc p).qtail l ∧
      ((t'.proc p).qtail l = (t.proc p).qtail l → t'.Sliced p l n D) := by
    apply h.refreshQ_induction (P := fun u ↦ (u.proc p).state = .runnable ∧
      (t.proc p).qtail l ≤ (u.proc p).qtail l ∧
      ((u.proc p).qtail l = (t.proc p).qtail l → u.Sliced p l n D)) _ _ hrun
    · exact ⟨hstate, le_rfl, fun _ ↦ hsliced⟩
    · intro u M e q u' M' hu hP hmoved
      obtain ⟨hs, hle, hsl⟩ := hP
      refine ⟨(hmoved.state_eq p).trans hs, ?_, fun heq ↦ ?_⟩
      · rcases hmoved.qtail_eq_or p l with heq | ⟨hlt, -⟩
        · rwa [heq]
        · exact hle.trans hlt.le
      · rcases hmoved.qtail_eq_or p l with hsame | ⟨hlt, -⟩
        · exact (hsl (hsame.symm.trans heq)).moved hu hmoved hs hsame
        · omega
  exact hkept.2.2 hqtail

/-- A runnable process whose slice is not used up is not put at the tail. -/
theorem refreshQ_unspent (h : QueueInv t L d) (hsliced : t.Sliced p l n D)
    (hstate : (t.proc p).state = .runnable) (hD : D < PTable.sliceLimit l)
    (hrun : t.refreshQ = some t') : t'.Sliced p l n D := by
  have hkept : (t'.proc p).state = .runnable ∧ t'.Sliced p l n D := by
    apply h.refreshQ_induction (P := fun u ↦ (u.proc p).state = .runnable ∧ u.Sliced p l n D)
      ⟨hstate, hsliced⟩ _ hrun
    intro u M e q u' M' hu hP hmoved
    obtain ⟨hs, hsl⟩ := hP
    exact ⟨(hmoved.state_eq p).trans hs, hsl.moved hu hmoved hs (hmoved.qtail_of_unspent hsl hD)⟩
  exact hkept.2

/-- The slice is used up: the pass puts the process at the tail. -/
theorem refreshQ_spent (h : QueueInv t L d) (hsliced : t.Sliced p l n (PTable.sliceLimit l))
    (hstate : (t.proc p).state = .runnable) (hrun : t.refreshQ = some t') :
    (t.proc p).qtail l < (t'.proc p).qtail l := by
  apply lt_of_le_of_ne (h.refreshQ_qtail_le hrun p l)
  intro heq
  have hsliced' := h.refreshQ_sliced hsliced hstate hrun heq.symm
  obtain ⟨u, L', hu, -, hinv⟩ := h.refreshQ
  obtain rfl := Option.some.inj (hrun.symm.trans hu)
  have hlt := (hinv.synced p l hsliced'.level (by simp)).2.2 n hsliced'.node
  rw [hsliced'.ticks] at hlt
  exact lt_irrefl _ hlt

/-- A process that the pass puts at the tail starts a slice. -/
theorem refreshQ_tailed (h : QueueInv t L d) (hrun : t.refreshQ = some t')
    (hqtail : (t.proc p).qtail l < (t'.proc p).qtail l) :
    (t'.proc p).state = .runnable ∧ ∃ n, t'.Sliced p l n 0 := by
  have hkept : (t.proc p).qtail l < (t'.proc p).qtail l →
      (t'.proc p).state = .runnable ∧ ∃ n, t'.Sliced p l n 0 := by
    apply h.refreshQ_induction (P := fun u ↦ (t.proc p).qtail l < (u.proc p).qtail l →
      (u.proc p).state = .runnable ∧ ∃ n, u.Sliced p l n 0) _ _ hrun
    · exact fun hlt ↦ absurd hlt (lt_irrefl _)
    · intro u M e q u' M' hu hP hmoved hlt
      rcases hmoved.qtail_eq_or p l with hsame | ⟨-, hs, hsl⟩
      · obtain ⟨hs, n, hsl⟩ := hP (hsame ▸ hlt)
        exact ⟨(hmoved.state_eq p).trans hs, n, hsl.moved hu hmoved hs hsame⟩
      · exact ⟨(hmoved.state_eq p).trans hs, hsl⟩
  exact hkept hqtail

end QueueInv

/-- Runs of a process that only yields, with the number of its dispatches since a pass has put it
at the tail of the queue of `l`: it stays runnable or on the processor, and no later pass puts it
at the tail. -/
inductive YieldRun (p : Slot) (l : Level) : Kernel 1 → ℕ → Prop
  | start {k k' : Kernel 1} : (Kernel.machine 1).ReachableVia Kernel.NoSetpri k →
      k.step (.schedule 0) = some k' →
      (k.ptable.proc p).qtail l < (k'.ptable.proc p).qtail l →
      YieldRun p l k' (if k'.lastPicked = some p then 1 else 0)
  | pass {k k' : Kernel 1} {D : ℕ} : YieldRun p l k D → k.step (.schedule 0) = some k' →
      (k'.ptable.proc p).qtail l = (k.ptable.proc p).qtail l →
      YieldRun p l k' (D + if k'.lastPicked = some p then 1 else 0)
  | other {k k' : Kernel 1} {s : Section 1} {D : ℕ} : YieldRun p l k D → k.NoSetpri s →
      (∀ c, s ≠ .schedule c) → k.step s = some k' →
      (k'.ptable.proc p).state = .runnable ∨ k'.cpuProc 0 = some p → YieldRun p l k' D

namespace YieldRun

variable {k : Kernel 1} {p : Slot} {l : Level} {D : ℕ}

theorem reachable (h : YieldRun p l k D) :
    (Kernel.machine 1).ReachableVia Kernel.NoSetpri k := by
  induction h with
  | start hk hs => exact .step (l := .schedule 0) hk trivial hs
  | pass _ hs _ ih => exact .step (l := .schedule 0) ih trivial hs
  | other _ hok _ hs _ ih => exact .step ih hok hs

/-- The pass that dispatches a process of a slice or leaves it alone. -/
theorem sliced_pass {k k' : Kernel 1} {L : Level → List Node} {t : PTable} {n : Node}
    (hinv : KernelInv k L) (hs : k.step (.schedule 0) = some k')
    (hrefresh : k.ptable.refreshQ = some t) (hstate : (t.proc p).state = .runnable)
    (hsliced : t.Sliced p l n D) :
    ((k'.ptable.proc p).state = .runnable ∨ k'.cpuProc 0 = some p) ∧
      k'.ptable.Sliced p l n (D + if k'.lastPicked = some p then 1 else 0) := by
  cases hinv.pass hs with
  | idle ht =>
    obtain rfl := Option.some.inj (hrefresh.symm.trans ht)
    exact ⟨.inl hstate, by simpa using hsliced⟩
  | @run t' L' q m l' ht hqueues hpick _ hm hl' =>
    obtain rfl := Option.some.inj (hrefresh.symm.trans ht)
    by_cases hq : q = p
    · subst hq
      obtain rfl := Option.some.inj (hsliced.node.symm.trans hm)
      obtain rfl := Option.some.inj (hsliced.level.symm.trans hl')
      refine ⟨.inr (by simp), ?_⟩
      rw [if_pos rfl]
      exact hsliced.dispatched (PTable.pick_eq_some hpick).1
    · have hne : (some q : Option Slot) ≠ some p := fun heq ↦ hq (Option.some.inj heq)
      refine ⟨.inl ?_, ?_⟩
      · rw [PTable.dispatched, PTable.setProc_proc_of_ne (Ne.symm hq)]
        exact hstate
      · rw [if_neg hne]
        exact hsliced.dispatched_of_ne hqueues.owned hq hm

theorem pass_qtail {k k' : Kernel 1} {L : Level → List Node} (hinv : KernelInv k L)
    (hs : k.step (.schedule 0) = some k') (p : Slot) :
    ∃ t, k.ptable.refreshQ = some t ∧ (k'.ptable.proc p).qtail = (t.proc p).qtail := by
  cases hinv.pass hs with
  | idle hrefresh => exact ⟨_, hrefresh, rfl⟩
  | run hrefresh =>
    refine ⟨_, hrefresh, ?_⟩
    apply PTable.setProc_keeps Proc.qtail
    rfl

/-- The slice of the process counts the dispatches. -/
theorem sliced (h : YieldRun p l k D) :
    ((k.ptable.proc p).state = .runnable ∨ k.cpuProc 0 = some p) ∧
      ∃ n, k.ptable.Sliced p l n D := by
  induction h with
  | @start k k' hk hs hlt =>
    obtain ⟨⟨L, hinv⟩, -⟩ := oneCpu_inv hk
    obtain ⟨t, hrefresh, hqtail⟩ := pass_qtail hinv hs p
    rw [hqtail] at hlt
    obtain ⟨hstate, n, hsliced⟩ := hinv.queues.refreshQ_tailed hrefresh hlt
    have hpass := sliced_pass hinv hs hrefresh hstate hsliced
    rw [Nat.zero_add] at hpass
    exact ⟨hpass.1, n, hpass.2⟩
  | @pass k k' D hrun hs heq ih =>
    obtain ⟨⟨L, hinv⟩, -⟩ := oneCpu_inv hrun.reachable
    obtain ⟨hrunnable, n, hsliced⟩ := ih
    have hidle : k.cpuProc 0 = none := (Option.ite_none_right_eq_some.mp hs).1
    have hstate : (k.ptable.proc p).state = .runnable := by
      apply hrunnable.resolve_right
      simp [hidle]
    obtain ⟨t, hrefresh, hqtail⟩ := pass_qtail hinv hs p
    rw [hqtail] at heq
    have hsliced' := hinv.queues.refreshQ_sliced hsliced hstate hrefresh heq
    obtain ⟨u, L', hu, hqueues, -, hsame, -⟩ := hinv.queues.refreshQ_resynced
    obtain rfl := Option.some.inj (hrefresh.symm.trans hu)
    have hstate' : (t.proc p).state = .runnable := by rw [hsame p, hstate]
    have hpass := sliced_pass hinv hs hrefresh hstate' hsliced'
    exact ⟨hpass.1, n, hpass.2⟩
  | @other k k' s D hrun hok hne hs hyields ih =>
    obtain ⟨⟨L, hinv⟩, hlast⟩ := oneCpu_inv hrun.reachable
    obtain ⟨-, n, hsliced⟩ := ih
    refine ⟨hyields, n, ?_⟩
    rcases Kernel.step_effect hs with ⟨c, rfl⟩ | ⟨pid, pri, rfl⟩ | he
    · exact absurd rfl (hne c)
    · exact hok.elim
    · have hreap := (hinv.reapsUnqueued hlast hok).reaps
      exact hsliced.undisturbed (hinv.procs.undisturbed hinv.queues.owned he hreap)

/-- As long as the slice of a process that only yields is not used up, the process is the first of
its queue once it has been dispatched, before and after `refresh_q`; when it is used up, the next
pass puts the process at the tail. -/
theorem stays_first (h : YieldRun p l k D) :
    D ≤ PTable.sliceLimit l ∧ (1 ≤ D → k.ptable.qHead l = (k.ptable.proc p).qNode) ∧
      (k.cpuProc 0 = none → ∃ t, k.ptable.refreshQ = some t ∧
        (1 ≤ D → D < PTable.sliceLimit l → t.qHead l = (t.proc p).qNode ∧
          ∀ n, t.pick = some (l, n) → (t.node n).proc = some p) ∧
        (D = PTable.sliceLimit l → (k.ptable.proc p).qtail l < (t.proc p).qtail l)) := by
  obtain ⟨⟨L, hinv⟩, -⟩ := oneCpu_inv h.reachable
  obtain ⟨hyields, n, hsliced⟩ := h.sliced
  refine ⟨?_, fun hD ↦ (hsliced.head hD).trans hsliced.node.symm, fun hidle ↦ ?_⟩
  · rw [← hsliced.ticks]
    exact hinv.queues.slice_le hsliced.level hsliced.node
  · have hstate : (k.ptable.proc p).state = .runnable := by
      apply hyields.resolve_right
      simp [hidle]
    obtain ⟨t, L', hrefresh, -, hqueues⟩ := hinv.queues.refreshQ
    refine ⟨t, hrefresh, fun hD hlt ↦ ?_, fun hD ↦ ?_⟩
    · have hsliced' := hinv.queues.refreshQ_unspent hsliced hstate hlt hrefresh
      refine ⟨(hsliced'.head hD).trans hsliced'.node.symm, fun m hm ↦ ?_⟩
      have hmn : m = n := by
        have hpicked := (PTable.pick_eq_some hm).1
        exact Option.some.inj (hpicked.symm.trans (hsliced'.head hD))
      rw [hmn]
      exact (hqueues.owner p n hsliced'.node).1
    · rw [hD] at hsliced
      exact hinv.queues.refreshQ_spent hsliced hstate hrefresh

end YieldRun

/-- Time slices on one processor: in every state of a run the ticks of a process at a level are
bounded by the slices that it has got there, a node in a queue has used at most its slice and less
than that when it is picked, and a process that only yields stays the first of its queue until it
has used its slice. -/
theorem time_slices {k : Kernel 1} (hk : (Kernel.machine 1).ReachableVia Kernel.NoSetpri k) :
    (∀ p l, (k.ptable.proc p).ticks l ≤ 4 * (5 - (l : ℕ)) * (k.ptable.proc p).qtail l) ∧
    (∃ L, k.ptable.Queues L ∧ ∀ l, ∀ n ∈ L l, ∃ p, (k.ptable.node n).proc = some p ∧
      (k.ptable.proc p).qNode = some n ∧ (k.ptable.proc p).putIn = some l ∧
      (k.ptable.node n).ticks ≤ 4 * (5 - (l : ℕ))) ∧
    (k.cpuProc 0 = none → ∀ t l n, k.ptable.refreshQ = some t → t.pick = some (l, n) →
      ∃ p, (t.node n).proc = some p ∧ (t.proc p).qNode = some n ∧ (t.proc p).putIn = some l ∧
        (t.node n).ticks < 4 * (5 - (l : ℕ))) ∧
    ∀ p l D, YieldRun p l k D → D ≤ 4 * (5 - (l : ℕ)) ∧
      (1 ≤ D → k.ptable.qHead l = (k.ptable.proc p).qNode) ∧
      (k.cpuProc 0 = none → ∃ t, k.ptable.refreshQ = some t ∧
        (1 ≤ D → D < 4 * (5 - (l : ℕ)) → t.qHead l = (t.proc p).qNode ∧
          ∀ n, t.pick = some (l, n) → (t.node n).proc = some p) ∧
        (D = 4 * (5 - (l : ℕ)) → (k.ptable.proc p).qtail l < (t.proc p).qtail l)) := by
  obtain ⟨⟨L, hinv⟩, -⟩ := oneCpu_inv hk
  have haccounted := accounted_of_reachable hk
  have hlimit : ∀ l : Level, 4 * (5 - (l : ℕ)) = PTable.sliceLimit l := fun l ↦ Nat.mul_comm _ _
  simp only [hlimit]
  refine ⟨fun p l ↦ hinv.queues.ticks_le haccounted p l, ⟨L, hinv.queues.toQueues, ?_⟩, ?_,
    fun p l D hrun ↦ hrun.stays_first⟩
  · intro l n hn
    obtain ⟨p, hp, hl⟩ := (hinv.queues.queued l n).mp hn
    exact ⟨p, (hinv.queues.owner p n hp).1, hp, hl, hinv.queues.slice_le hl hp⟩
  · intro _ t l n hrefresh hpick
    obtain ⟨u, L', hu, hqueues, hsync, -⟩ := hinv.queues.refreshQ_resynced
    obtain rfl := Option.some.inj (hrefresh.symm.trans hu)
    obtain ⟨p, hproc, hn, hl, -⟩ := hqueues.nextToRun hsync hpick
    exact ⟨p, hproc, hn, hl, (hqueues.synced p l hl (by simp)).2.2 n hn⟩

/-- Init is put at the tail, dispatched, and yields. -/
theorem yieldRun_init :
    ∃ k, (Kernel.machine 1).run Kernel.userinit [.schedule 0, .yield 0] = some k ∧
      k.cpuProc 0 = none ∧ YieldRun PTable.initproc 3 k 1 := by
  have hrun : ((Kernel.userinit : Kernel 1).step (.schedule 0)).bind (fun k ↦
      (k.step (.yield 0)).map fun k' ↦
        ((k.ptable.proc PTable.initproc).qtail 3, k.lastPicked,
          (k'.ptable.proc PTable.initproc).state, k'.cpuProc 0)) =
      some (1, some PTable.initproc, .runnable, none) := by decide +kernel
  obtain ⟨k, hk, hrun⟩ := Option.bind_eq_some_iff.mp hrun
  obtain ⟨k', hk', hvalues⟩ := Option.map_eq_some_iff.mp hrun
  simp only [Prod.mk.injEq] at hvalues
  obtain ⟨hqtail, hpicked, hstate, hidle⟩ := hvalues
  have hstart := YieldRun.start (p := PTable.initproc) (l := 3) (.init rfl) hk (by
    rw [hqtail]
    exact Nat.zero_lt_one)
  rw [if_pos hpicked] at hstart
  have hyield : YieldRun PTable.initproc 3 k' 1 :=
    .other (s := .yield 0) hstart trivial (by simp) hk' (.inl hstate)
  refine ⟨k', ?_, hidle, hyield⟩
  apply Option.bind_eq_some_iff.mpr
  exact ⟨k, hk, Option.bind_eq_some_iff.mpr ⟨k', hk', rfl⟩⟩

theorem time_slices_init :
    ∃ k t, (Kernel.machine 1).run Kernel.userinit [.schedule 0, .yield 0] = some k ∧
      (k.ptable.proc PTable.initproc).ticks 3 ≤ 8 * (k.ptable.proc PTable.initproc).qtail 3 ∧
      k.ptable.refreshQ = some t ∧ t.qHead 3 = (t.proc PTable.initproc).qNode := by
  obtain ⟨k, hk, hidle, hyield⟩ := yieldRun_init
  obtain ⟨hticks, -, -, hfirst⟩ := time_slices hyield.reachable
  obtain ⟨-, -, hstays⟩ := hfirst PTable.initproc 3 1 hyield
  obtain ⟨t, ht, hhead, -⟩ := hstays hidle
  exact ⟨k, t, hk, hticks PTable.initproc 3, ht, (hhead le_rfl (by decide)).1⟩

end CS537.Scheduler
