import CS537.Scheduler.Queue

/-!
# Bringing the queues up to date

One step of `refresh_q` puts one process where its state, its priority and its time slice demand.
Only the process dispatched last can have to leave a queue, and it leaves it at the head.  After
the whole pass every queue holds the runnable processes of its priority, and the pass that follows
picks the first of the highest priority.
-/

namespace CS537.Scheduler

open Foundation

namespace PTable

variable {t t' : PTable} {p : Slot} {n : Node} {l : Level}

theorem SameBut.refl (t : PTable) (p : Slot) : t.SameBut p t where
  self := rfl
  other _ _ := rfl
  owner _ := rfl
  inuse _ := rfl

theorem SameBut.trans {u : PTable} (h : t.SameBut p t') (h' : t'.SameBut p u) :
    t.SameBut p u where
  self := by rw [h'.self, h.self]
  other q hq := (h'.other q hq).trans (h.other q hq)
  owner n := (h'.owner n).trans (h.owner n)
  inuse n := (h'.inuse n).trans (h.inuse n)

theorem sameBut_unlinked : t.SameBut p ((t.unlinkHead n l).setPutIn p none) where
  self := by simp [setPutIn, unlinkHead]
  other q hq := by simp [setPutIn, unlinkHead, hq]
  owner _ := rfl
  inuse _ := rfl

/-! ## `put_in` is only written at the end of a step -/

theorem linkTail_setPutIn (putIn : Option Level) :
    (t.setPutIn p putIn).linkTail n l = (t.linkTail n l).setPutIn p putIn := by
  unfold linkTail setPutIn
  cases h : t.qTail l <;> simp [h, setProc, setNext, setNode]

theorem startSlice_setPutIn (putIn : Option Level) (q : Slot) :
    (t.setPutIn p putIn).startSlice n q l = (t.startSlice n q l).setPutIn p putIn := by
  have hproc : ∀ r, ((t.setPutIn p putIn).startSlice n q l).proc r =
      ((t.startSlice n q l).setPutIn p putIn).proc r := by
    intro r
    by_cases hr : r = p <;> by_cases hq : r = q <;> by_cases hpq : p = q <;>
      simp_all [startSlice, setPutIn, setProc, setNode, Function.update_apply]
  exact PTable.ext (funext hproc) rfl rfl rfl rfl

theorem setPutIn_setPutIn (a b : Option Level) :
    (t.setPutIn p a).setPutIn p b = t.setPutIn p b := by
  simp [setPutIn, setProc]

theorem enqueue_setPutIn (putIn : Option Level) : (t.setPutIn p putIn).enqueue p = t.enqueue p := by
  have hself : (t.setPutIn p putIn).proc p = { t.proc p with putIn := putIn } :=
    setProc_proc_self _ _ _
  have hnode : (t.setPutIn p putIn).node = t.node := rfl
  unfold enqueue putTailQ
  rw [hself, hnode]
  cases hn : (t.proc p).qNode with
  | none => rfl
  | some n =>
    cases hq : (t.node n).proc with
    | none => simp [hq]
    | some q =>
      simp only [hq, Option.bind_some, Option.map_some]
      rw [startSlice_setPutIn, linkTail_setPutIn, setPutIn_setPutIn]

end PTable

/-! ## One step -/

/-- What a step of `refresh_q` for `p` can do: the process stays where it is, joins the queue of its
priority, leaves its queue at the head, or goes from the head to the tail. -/
inductive Moved (t : PTable) (L : Level → List Node) (p : Slot) :
    PTable → (Level → List Node) → Prop
  | stay :
      (t.proc p).putIn =
        (if (t.proc p).state = .runnable then some (t.proc p).priority else none) →
      (∀ l n, (t.proc p).putIn = some l → (t.proc p).qNode = some n →
        (t.node n).ticks ≠ PTable.sliceLimit l) →
      Moved t L p t L
  | join {n : Node} {l : Level} : (t.proc p).qNode = some n → (t.proc p).putIn = none →
      (t.proc p).state = .runnable → (t.proc p).priority = l →
      Moved t L p (t.joined n p l) (Function.update L l (L l ++ [n]))
  | leave {n : Node} {l : Level} : (t.proc p).qNode = some n → (t.proc p).putIn = some l →
      (t.proc p).state ≠ .runnable → (L l).head? = some n →
      Moved t L p ((t.unlinkHead n l).setPutIn p none) (Function.update L l (L l).tail)
  | rejoin {n : Node} {l : Level} {L' : Level → List Node} : (t.proc p).qNode = some n →
      (t.proc p).putIn = some l → (t.proc p).state = .runnable → (t.proc p).priority = l →
      (t.node n).ticks = PTable.sliceLimit l → (L l).head? = some n →
      Moved t L p (((t.unlinkHead n l).setPutIn p none).joined n p l) L'

theorem Moved.same {t t' : PTable} {L L' : Level → List Node} {p : Slot}
    (h : Moved t L p t' L') : t.SameBut p t' := by
  cases h with
  | stay => exact .refl t p
  | join => exact PTable.sameBut_joined
  | leave => exact PTable.sameBut_unlinked
  | rejoin => exact PTable.sameBut_unlinked.trans PTable.sameBut_joined

theorem Moved.putIn {t t' : PTable} {L L' : Level → List Node} {p : Slot}
    (h : Moved t L p t' L') : (t'.proc p).putIn =
      if (t.proc p).state = .runnable then some (t.proc p).priority else none := by
  cases h with
  | stay hputIn => exact hputIn
  | join _ _ hstate hpriority =>
    rw [PTable.joined_proc_self, if_pos hstate, hpriority]
  | leave _ _ hstate =>
    rw [PTable.setPutIn, PTable.setProc_proc_self, if_neg hstate]
  | rejoin _ _ hstate hpriority =>
    rw [PTable.joined_proc_self, if_pos hstate, hpriority]

/-- What a step of `refresh_q` for `p` leaves. -/
structure Refreshed (t : PTable) (p : Slot) (t' : PTable) (L' : Level → List Node)
    (d' : Option Slot) : Prop where
  inv : QueueInv t' L' d'
  same : t.SameBut p t'
  putIn : (t'.proc p).putIn =
    if (t.proc p).state = .runnable then some (t.proc p).priority else none

namespace QueueInv

variable {t t' : PTable} {L : Level → List Node} {d : Option Slot} {p : Slot} {n : Node}
  {l : Level}

/-- A step for a process that is in no queue. -/
theorem refreshOne_unqueued (h : QueueInv t L d) (hd : d ≠ some p)
    (hputIn : (t.proc p).putIn = none) :
    ∃ t' L', t.refreshOne p = some t' ∧ Moved t L p t' L' ∧ QueueInv t' L' d := by
  by_cases hstate : (t.proc p).state = .runnable
  · have halive : (t.proc p).state.Alive := by simp [hstate, ProcState.Alive]
    obtain ⟨n, hn⟩ := Option.ne_none_iff_exists'.mp (h.alive p halive)
    obtain ⟨henqueue, hinv⟩ := h.enqueue hstate hputIn hd hn rfl
    have hstep : t.refreshOne p = some (t.joined n p (t.proc p).priority) := by
      simp [PTable.refreshOne, hstate, hputIn, henqueue]
    exact ⟨_, _, hstep, .join hn hputIn hstate rfl, hinv⟩
  · have hstep : t.refreshOne p = some t := by
      unfold PTable.refreshOne
      rw [hputIn]
      cases hs : (t.proc p).state <;> simp_all
    refine ⟨t, L, hstep, .stay ?_ ?_, h⟩
    · rw [if_neg hstate, hputIn]
    · simp [hputIn]

/-- A step for a queued process that belongs where it is. -/
theorem refreshOne_settled (h : QueueInv t L d) (hputIn : (t.proc p).putIn = some l)
    (hstate : (t.proc p).state = .runnable) (hpriority : (t.proc p).priority = l)
    (hslice : ∀ n, (t.proc p).qNode = some n → (t.node n).ticks ≠ PTable.sliceLimit l) :
    t.refreshOne p = some t ∧ Moved t L p t L := by
  obtain ⟨n, hn, -⟩ := h.exists_node hputIn
  refine ⟨by simp [PTable.refreshOne, hstate, hputIn, hpriority, hn, hslice n hn], .stay ?_ ?_⟩
  · rw [if_pos hstate, hputIn, hpriority]
  · intro l' m hl' hm
    rw [← Option.some.inj (hputIn.symm.trans hl')]
    exact hslice m hm

/-- A process whose slice is not used up is not distinguished either. -/
theorem settle (h : QueueInv t L (some p)) (hputIn : (t.proc p).putIn = some l)
    (hstate : (t.proc p).state = .runnable)
    (hslice : ∀ n, (t.proc p).qNode = some n → (t.node n).ticks ≠ PTable.sliceLimit l) :
    QueueInv t L none := by
  obtain ⟨-, hpriority, hle⟩ := h.first p l hputIn rfl
  refine { h with synced := fun q m hq _ ↦ ?_, first := fun q m _ heq ↦ nomatch heq }
  by_cases hqp : q = p
  · subst hqp
    obtain rfl : l = m := Option.some.inj (hputIn.symm.trans hq)
    exact ⟨hstate, hpriority, fun n hn ↦ lt_of_le_of_ne (hle n hn) (hslice n hn)⟩
  · exact h.synced q m hq fun heq ↦ hqp (Option.some.inj heq).symm

/-- A step for the process dispatched last, when it is still queued. -/
theorem refreshOne_first (h : QueueInv t L (some p)) (hputIn : (t.proc p).putIn = some l) :
    ∃ t' L', t.refreshOne p = some t' ∧ Moved t L p t' L' ∧ QueueInv t' L' none := by
  obtain ⟨n, hn, -⟩ := h.exists_node hputIn
  obtain ⟨hfirst, hpriority, -⟩ := h.first p l hputIn rfl
  obtain ⟨hrm, hinv⟩ := h.dequeue hputIn hn
  have hself : ((t.unlinkHead n l).setPutIn p none).proc p = { t.proc p with putIn := none } :=
    PTable.setProc_proc_self _ _ _
  by_cases hstate : (t.proc p).state = .runnable
  · by_cases hslice : (t.node n).ticks = PTable.sliceLimit l
    · have henqueue := hinv.enqueue (p := p) (n := n) (l := l) (by rwa [hself])
        (by rw [hself]) (by simp) (by rwa [hself]) (by rwa [hself])
      rw [PTable.enqueue_setPutIn] at henqueue
      have hstep : t.refreshOne p =
          some (((t.unlinkHead n l).setPutIn p none).joined n p l) := by
        simp [PTable.refreshOne, hstate, hputIn, hpriority, hslice, hn ▸ hrm, hn, henqueue.1]
      exact ⟨_, _, hstep, .rejoin hn hputIn hstate hpriority hslice (hfirst.trans hn), henqueue.2⟩
    · have hne : ∀ m, (t.proc p).qNode = some m → (t.node m).ticks ≠ PTable.sliceLimit l := by
        intro m hm
        rwa [← Option.some.inj (hn.symm.trans hm)]
      obtain ⟨hstep, hmoved⟩ := h.refreshOne_settled hputIn hstate hpriority hne
      exact ⟨t, L, hstep, hmoved, h.settle hputIn hstate hne⟩
  · have hstep : t.refreshOne p = some ((t.unlinkHead n l).setPutIn p none) := by
      have hunused : (t.proc p).state ≠ .unused := by
        intro hunused
        have hparked := h.parked p (by simp [hunused, ProcState.Alive])
        simp [hputIn] at hparked
      unfold PTable.refreshOne
      rw [hputIn]
      cases hs : (t.proc p).state <;> simp_all
    exact ⟨_, _, hstep, .leave hn hputIn hstate (hfirst.trans hn), hinv⟩

/-- A step of `refresh_q`: it never fails, and it distinguishes its process no more. -/
theorem refreshOne_moved (h : QueueInv t L d) (p : Slot) :
    ∃ t' L', t.refreshOne p = some t' ∧ Moved t L p t' L' ∧
      QueueInv t' L' (d.filter fun q ↦ q ≠ p) := by
  by_cases hd : d = some p
  · subst hd
    have hnone : ((some p).filter fun q ↦ decide (q ≠ p)) = none := by simp
    rw [hnone]
    cases hputIn : (t.proc p).putIn with
    | none => exact (h.forget hputIn).refreshOne_unqueued (by simp) hputIn
    | some l => exact h.refreshOne_first hputIn
  · have hsame : (d.filter fun q ↦ decide (q ≠ p)) = d := by
      cases d with
      | none => rfl
      | some q => simp [show q ≠ p from fun hqp ↦ hd (by rw [hqp])]
    rw [hsame]
    cases hputIn : (t.proc p).putIn with
    | none => exact h.refreshOne_unqueued hd hputIn
    | some l =>
      obtain ⟨hstate, hpriority, hslice⟩ := h.synced p l hputIn hd
      obtain ⟨hstep, hmoved⟩ :=
        h.refreshOne_settled hputIn hstate hpriority fun n hn ↦ (hslice n hn).ne
      exact ⟨t, L, hstep, hmoved, h⟩

theorem refreshOne (h : QueueInv t L d) (p : Slot) :
    ∃ t' L', t.refreshOne p = some t' ∧
      Refreshed t p t' L' (d.filter fun q ↦ q ≠ p) := by
  obtain ⟨t', L', hstep, hmoved, hinv⟩ := h.refreshOne_moved p
  exact ⟨t', L', hstep, hinv, hmoved.same, hmoved.putIn⟩

/-! ## The whole pass -/

/-- What the steps for the processes of a list leave. -/
structure RefreshedAll (t : PTable) (ps : List Slot) (t' : PTable) : Prop where
  self : ∀ p ∈ ps, t'.proc p =
    { t.proc p with
      putIn := if (t.proc p).state = .runnable then some (t.proc p).priority else none
      qtail := (t'.proc p).qtail }
  other : ∀ p, p ∉ ps → t'.proc p = t.proc p
  owner : ∀ n, (t'.node n).proc = (t.node n).proc
  inuse : ∀ n, (t'.node n).inuse = (t.node n).inuse

theorem RefreshedAll.nil (t : PTable) : RefreshedAll t [] t :=
  ⟨by simp, fun _ _ ↦ rfl, fun _ ↦ rfl, fun _ ↦ rfl⟩

theorem RefreshedAll.cons {u : PTable} {ps : List Slot} (hp : p ∉ ps) (hsame : t.SameBut p u)
    (hputIn : (u.proc p).putIn =
      if (t.proc p).state = .runnable then some (t.proc p).priority else none)
    (h : RefreshedAll u ps t') : RefreshedAll t (p :: ps) t' where
  self q hq := by
    rcases List.mem_cons.mp hq with rfl | hq
    · rw [h.other q hp, ← hputIn]
      exact hsame.self
    · have hqp : q ≠ p := fun hqp ↦ hp (hqp ▸ hq)
      rw [h.self q hq, hsame.other q hqp]
  other q hq := by
    rw [List.mem_cons, not_or] at hq
    exact (h.other q hq.2).trans (hsame.other q hq.1)
  owner n := (h.owner n).trans (hsame.owner n)
  inuse n := (h.inuse n).trans (hsame.inuse n)

theorem refreshList (h : QueueInv t L d) {ps : List Slot} (hps : ps.Nodup) :
    ∃ t' L', ps.foldlM PTable.refreshOne t = some t' ∧ RefreshedAll t ps t' ∧
      QueueInv t' L' (d.filter fun q ↦ q ∉ ps) := by
  induction ps generalizing t L d with
  | nil =>
    refine ⟨t, L, rfl, .nil t, ?_⟩
    have hsame : (d.filter fun q ↦ decide (q ∉ ([] : List Slot))) = d := by
      cases d <;> simp
    rwa [hsame]
  | cons p ps ih =>
    obtain ⟨hp, hps⟩ := List.nodup_cons.mp hps
    obtain ⟨u, M, hstep, hu⟩ := h.refreshOne p
    obtain ⟨t', L', hrest, hall, hinv⟩ := ih hu.inv hps
    refine ⟨t', L', ?_, .cons hp hu.same hu.putIn hall, ?_⟩
    · rw [List.foldlM_cons, hstep]
      exact hrest
    · rw [Option.filter_filter] at hinv
      convert hinv using 3
      simp [not_or]

/-- What every step keeps, the pass keeps. -/
theorem refreshQ_induction {P : PTable → Prop} (h : QueueInv t L d) (hstart : P t)
    (hstep : ∀ u M e p u' M', QueueInv u M e → P u → Moved u M p u' M' → P u')
    (hrun : t.refreshQ = some t') : P t' := by
  have hlist : ∀ (ps : List Slot) (u : PTable) (M : Level → List Node) (e : Option Slot),
      QueueInv u M e → P u → ps.foldlM PTable.refreshOne u = some t' → P t' := by
    intro ps
    induction ps with
    | nil =>
      intro u M e _ hP hrun
      rwa [← Option.some.inj hrun]
    | cons p ps ih =>
      intro u M e hu hP hrun
      obtain ⟨u', M', hone, hmoved, hu'⟩ := hu.refreshOne_moved p
      rw [List.foldlM_cons, hone] at hrun
      exact ih u' M' _ hu' (hstep u M e p u' M' hu hP hmoved) hrun
  exact hlist _ t L d h hstart hrun

/-- After the pass no process is distinguished and each is where it belongs. -/
theorem refreshQ (h : QueueInv t L d) :
    ∃ t' L', t.refreshQ = some t' ∧ RefreshedAll t (List.finRange nproc) t' ∧
      QueueInv t' L' none := by
  obtain ⟨t', L', hrun, hall, hinv⟩ := h.refreshList (List.nodup_finRange nproc)
  have hnone : (d.filter fun q ↦ decide (q ∉ List.finRange nproc)) = none := by
    cases d <;> simp
  rw [hnone] at hinv
  exact ⟨t', L', hrun, hall, hinv⟩

end QueueInv

end CS537.Scheduler
