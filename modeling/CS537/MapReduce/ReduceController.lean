import CS537.Foundation.History
import CS537.Foundation.Machine
import CS537.Foundation.Threads

/-!
# The control of the reduce phase

Reducer threads take partitions in order from a counter under `cur_partition_lock`, sort the one
they took, wait until the partition before it has been sent, and call the reducer once for each
of its keys.  A partition is sent when its semaphore is first posted: after its first reducer
call has returned, or as soon as its turn is reached when it has no key.  Here the number of keys
of each partition is a parameter and a reducer call is its start and its return, so that the
results hold whatever the partitions contain.  So is the value that the threads find in the
counter: `MR_Run` does not set it, and it is zero in the first call of a process only.
-/

open scoped BigOperators

namespace CS537.MapReduce

open Foundation

/-- Where a thread of `reduce_controller` is; `p` is its partition and `i` the index of a key. -/
inductive ReduceThread where
  | top
  | critical
  | claimed (p : ℕ)
  | sorted (p : ℕ)
  | reducing (p i : ℕ)
  | calling (p i : ℕ)
  | returned (p i : ℕ)
  | exited
  deriving DecidableEq

/-- What a step of `reduce_controller` does, for the history. -/
inductive ReduceEvent where
  | claim (p : ℕ)
  | sort (p : ℕ)
  | turn (p : ℕ)
  | callStart (p i : ℕ)
  | callReturn (p i : ℕ)
  | post (p : ℕ)
  deriving DecidableEq

/-- The parameters of the phase. -/
structure ReduceJob where
  numPartitions : ℕ
  numKeys : ℕ → ℕ

structure ReduceState (numReducers : ℕ) where
  curReducePartition : ℕ
  curPartitionLock : Option (Fin numReducers)
  sentFlag : ℕ → ℕ
  threads : Fin numReducers → ReduceThread
  history : List ReduceEvent

/-- The partition a thread works on. -/
def ReduceThread.partition : ReduceThread → Option ℕ
  | top | critical | exited => none
  | claimed p | sorted p | reducing p _ | calling p _ | returned p _ => some p

/-- Where a thread is whose partition has not had its turn. -/
def ReduceThread.Waits : ReduceThread → Prop
  | .top | .critical | .claimed _ | .sorted _ | .exited => True
  | .reducing _ _ | .calling _ _ | .returned _ _ => False

/-- The steps left to a thread whose partition does not get its turn. -/
def ReduceThread.waitingSteps : ReduceThread → ℕ
  | .top => 4
  | .critical => 3
  | .claimed _ => 2
  | .sorted _ => 1
  | _ => 0

namespace ReduceState

variable {numReducers : ℕ}

/-- Thread `t` goes on at `place`, having done `event`. -/
def goto (s : ReduceState numReducers) (t : Fin numReducers) (place : ReduceThread)
    (event : ReduceEvent) : ReduceState numReducers :=
  { s with threads := Function.update s.threads t place, history := event :: s.history }

/-- `sem_post` on the semaphore of partition `p`. -/
def semPost (s : ReduceState numReducers) (p : ℕ) : ReduceState numReducers :=
  { s with sentFlag := Function.update s.sentFlag p (s.sentFlag p + 1) }

/-- `sem_wait` on the semaphore of partition `p`, which blocks while its value is zero. -/
def semWait (s : ReduceState numReducers) (p : ℕ) : Option (ReduceState numReducers) :=
  if 0 < s.sentFlag p then
    some { s with sentFlag := Function.update s.sentFlag p (s.sentFlag p - 1) }
  else none

end ReduceState

namespace ReduceJob

variable {numReducers : ℕ} (job : ReduceJob)

/-- The state in which `MR_Run` creates the threads. -/
def start (curReducePartition : ℕ) : ReduceState numReducers where
  curReducePartition := curReducePartition
  curPartitionLock := none
  sentFlag _ := 0
  threads _ := .top
  history := []

/-- One step of thread `t` of `reduce_controller`; `none` when it has returned or is blocked. -/
def reduceStep (s : ReduceState numReducers) (t : Fin numReducers) :
    Option (ReduceState numReducers) :=
  match s.threads t with
  | .top =>
    if s.curPartitionLock = none then
      some { s with
        curPartitionLock := some t
        threads := Function.update s.threads t .critical }
    else none
  | .critical =>
    let partitionToReduce := s.curReducePartition
    if job.numPartitions ≤ partitionToReduce then
      some { s with
        curPartitionLock := none
        threads := Function.update s.threads t .exited }
    else
      some <| ReduceState.goto
        { s with curReducePartition := s.curReducePartition + 1, curPartitionLock := none }
        t (.claimed partitionToReduce) (.claim partitionToReduce)
  | .claimed p => some (s.goto t (.sorted p) (.sort p))
  | .sorted 0 => some (s.goto t (.reducing 0 0) (.turn 0))
  | .sorted (p + 1) =>
    (s.semWait p).map (·.goto t (.reducing (p + 1) 0) (.turn (p + 1)))
  | .reducing p i =>
    if i < job.numKeys p then some (s.goto t (.calling p i) (.callStart p i))
    else if job.numKeys p = 0 then some ((s.semPost p).goto t .top (.post p))
    else some { s with threads := Function.update s.threads t .top }
  | .calling p i => some (s.goto t (.returned p i) (.callReturn p i))
  | .returned p i => some ((s.semPost p).goto t (.reducing p (i + 1)) (.post p))
  | .exited => none

def reduceMachine (curReducePartition : ℕ) : Machine (ReduceState numReducers) (Fin numReducers) where
  init s := s = start curReducePartition
  step := job.reduceStep

/-- Partition `p` has been sent: the first reducer call on it has returned or, if it has no key,
its turn has been reached. -/
def Sent (h : List ReduceEvent) (p : ℕ) : Prop :=
  if job.numKeys p = 0 then .turn p ∈ h else .callReturn p 0 ∈ h

end ReduceJob

/-! ## Records of a partition -/

/-- The partition an event is about. -/
def ReduceEvent.partition : ReduceEvent → ℕ
  | claim p | sort p | turn p | callStart p _ | callReturn p _ | post p => p

/-- How often partition `p` was sorted, had its turn and was posted. -/
def record (h : List ReduceEvent) (p : ℕ) : ℕ × ℕ × ℕ :=
  (h.count (.sort p), h.count (.turn p), h.count (.post p))

theorem count_cons_of_partition_ne {e e' : ReduceEvent} (h : List ReduceEvent)
    (hne : e.partition ≠ e'.partition) : (e :: h).count e' = h.count e' := by
  refine List.count_cons_of_ne ?_
  rintro rfl
  exact hne rfl

theorem record_cons_of_ne {e : ReduceEvent} {q : ℕ} (h : List ReduceEvent)
    (hne : e.partition ≠ q) : record (e :: h) q = record h q := by
  have hsort : (e :: h).count (.sort q) = h.count (.sort q) := count_cons_of_partition_ne h hne
  have hturn : (e :: h).count (.turn q) = h.count (.turn q) := count_cons_of_partition_ne h hne
  have hpost : (e :: h).count (.post q) = h.count (.post q) := count_cons_of_partition_ne h hne
  simp only [record, hsort, hturn, hpost]

namespace ReduceJob

variable {numReducers : ℕ} {job : ReduceJob}

theorem Sent.mono {h h' : List ReduceEvent} (hsub : h ⊆ h') {p : ℕ} (hs : job.Sent h p) :
    job.Sent h' p := by
  unfold Sent at hs ⊢
  split at hs
  next hk => rw [if_pos hk]; exact hsub hs
  next hk => rw [if_neg hk]; exact hsub hs

/-- What the history says about the partition of a thread at a given place. -/
def Progress (job : ReduceJob) (h : List ReduceEvent) : ReduceThread → Prop
  | .claimed p => record h p = (0, 0, 0)
  | .sorted p => record h p = (1, 0, 0)
  | .reducing p i => record h p = (1, 1, i)
  | .calling p i => record h p = (1, 1, i) ∧ i < job.numKeys p
  | .returned p i => record h p = (1, 1, i) ∧ i < job.numKeys p ∧ .callReturn p i ∈ h
  | .top | .critical | .exited => True

/-- Facts about other partitions do not touch the progress of a thread. -/
theorem Progress.frame {h h' : List ReduceEvent} {place : ReduceThread} (hsub : h ⊆ h')
    (hrecord : ∀ p, place.partition = some p → record h' p = record h p)
    (hp : Progress job h place) : Progress job h' place := by
  cases place with
  | top | critical | exited => trivial
  | claimed p | sorted p | reducing p i => exact (hrecord p rfl).trans hp
  | calling p i => exact ⟨(hrecord p rfl).trans hp.1, hp.2⟩
  | returned p i => exact ⟨(hrecord p rfl).trans hp.1, hp.2.1, hsub hp.2.2⟩

/-- A reducer call starts on a sorted partition, when all partitions below it have been sent. -/
def CallInOrder (job : ReduceJob) (earlier : List ReduceEvent) : ReduceEvent → Prop
  | .callStart p _ => .sort p ∈ earlier ∧ ∀ q < p, job.Sent earlier q
  | _ => True

/-- The invariant of the reduce phase whose counter was `first` at the start.  Partitions are claimed
in order from `first` on and have one owner at most; the semaphore of `p` holds the posts of `p`
that partition `p + 1` has not consumed, which consumes one when it has its turn; and a posted
partition has been sent. -/
structure ReduceInv (job : ReduceJob) (first : ℕ) (s : ReduceState numReducers) : Prop where
  first_le : first ≤ s.curReducePartition
  bounded : s.curReducePartition ≤ max first job.numPartitions
  ownerLt : ∀ t p, (s.threads t).partition = some p → first ≤ p ∧ p < s.curReducePartition
  ownerUnique : ∀ t u p, (s.threads t).partition = some p → (s.threads u).partition = some p → t = u
  lockHolder : ∀ t, s.threads t = .critical ↔ s.curPartitionLock = some t
  claims : ∀ p, s.history.count (.claim p) = if first ≤ p ∧ p < s.curReducePartition then 1 else 0
  semaphores : ∀ p, s.sentFlag p + s.history.count (.turn (p + 1)) = s.history.count (.post p)
  unclaimed : ∀ p, p < first ∨ s.curReducePartition ≤ p → record s.history p = (0, 0, 0)
  working : ∀ t, Progress job s.history (s.threads t)
  finished : ∀ p, first ≤ p → p < s.curReducePartition → (∀ t, (s.threads t).partition ≠ some p) →
    ∃ k, record s.history p = (1, 1, k + 1)
  posted : ∀ p, .post p ∈ s.history → .turn p ∈ s.history ∧ job.Sent s.history p
  inOrder : EachAfter (CallInOrder job) s.history
  exhausted : ∀ t, s.threads t = .exited → job.numPartitions ≤ s.curReducePartition

theorem reduceInv_start (first : ℕ) : ReduceInv job first (start first : ReduceState numReducers) where
  first_le := le_rfl
  bounded := le_max_left _ _
  ownerLt := by simp [start, ReduceThread.partition]
  ownerUnique := by simp [start, ReduceThread.partition]
  lockHolder := by simp [start]
  claims p := (if_neg fun h ↦ absurd h.2 (Nat.not_lt.mpr h.1)).symm
  semaphores := by simp [start]
  unclaimed := by simp [start, record]
  working _ := trivial
  finished p hle hlt := absurd hlt (Nat.not_lt.mpr hle)
  posted := by simp [start]
  inOrder := trivial
  exhausted := by simp [start]

variable {first : ℕ}

/-- The turn of a partition comes after all partitions below it have been sent: it consumed a
post of the partition before it, whose turn had come earlier. -/
theorem ReduceInv.sent_of_turn {s : ReduceState numReducers} (h : ReduceInv job first s) {p : ℕ}
    (hturn : .turn p ∈ s.history) : ∀ q < p, job.Sent s.history q := by
  induction p with
  | zero => simp
  | succ p ih =>
    have hsem := h.semaphores p
    have hcount : 0 < s.history.count (.turn (p + 1)) := List.count_pos_iff.mpr hturn
    have hpost : .post p ∈ s.history := List.count_pos_iff.mp (by omega)
    obtain ⟨hprev, hsent⟩ := h.posted p hpost
    intro q hq
    rcases Nat.lt_succ_iff_lt_or_eq.mp hq with hlt | rfl
    · exact ih hprev q hlt
    · exact hsent

/-- What a step of a thread on its own partition `p` has to show: everything about the other
threads and partitions follows. -/
theorem ReduceInv.work {s s' : ReduceState numReducers} (h : ReduceInv job first s)
    {t : Fin numReducers} {p : ℕ} {place : ReduceThread}
    (ht : (s.threads t).partition = some p)
    (hthreads : s'.threads = Function.update s.threads t place)
    (hcur : s'.curReducePartition = s.curReducePartition)
    (hlock : s'.curPartitionLock = s.curPartitionLock)
    (hsub : s.history ⊆ s'.history)
    (hclaims : ∀ q, s'.history.count (.claim q) = s.history.count (.claim q))
    (hother : ∀ q, q ≠ p → record s'.history q = record s.history q)
    (hplace : place.partition = some p ∨
      place = .top ∧ ∃ k, record s'.history p = (1, 1, k + 1))
    (hprogress : Progress job s'.history place)
    (hsem : ∀ q, s'.sentFlag q + s'.history.count (.turn (q + 1)) = s'.history.count (.post q))
    (hposted : .post p ∈ s'.history → .turn p ∈ s'.history ∧ job.Sent s'.history p)
    (hinOrder : EachAfter (CallInOrder job) s'.history) : ReduceInv job first s' := by
  have hcritical : place ≠ .critical := by
    rcases hplace with hp | ⟨rfl, -⟩
    · rintro rfl
      simp [ReduceThread.partition] at hp
    · simp
  have hexited : place ≠ .exited := by
    rcases hplace with hp | ⟨rfl, -⟩
    · rintro rfl
      simp [ReduceThread.partition] at hp
    · simp
  have hself : s'.threads t = place := by rw [hthreads, Function.update_self]
  have hne (u : Fin numReducers) (hu : u ≠ t) : s'.threads u = s.threads u := by
    rw [hthreads, Function.update_of_ne hu]
  -- A partition owned after the step was owned by the same thread before it.
  have howned (u : Fin numReducers) (q : ℕ) (hq : (s'.threads u).partition = some q) :
      (s.threads u).partition = some q := by
    by_cases hu : u = t
    · subst hu
      rw [hself] at hq
      rcases hplace with hp | ⟨rfl, -⟩
      · rw [ht, ← hp, hq]
      · simp [ReduceThread.partition] at hq
    · rwa [← hne u hu]
  refine ⟨hcur ▸ h.first_le, hcur ▸ h.bounded, ?_, ?_, ?_, ?_, hsem, ?_, ?_, ?_, ?_, hinOrder, ?_⟩
  · intro u q hq
    rw [hcur]
    exact h.ownerLt u q (howned u q hq)
  · intro u v q hu hv
    exact h.ownerUnique u v q (howned u q hu) (howned v q hv)
  · intro u
    rw [hlock, ← h.lockHolder u]
    by_cases hu : u = t
    · subst hu
      rw [hself]
      refine iff_of_false hcritical ?_
      intro hc
      simp [hc, ReduceThread.partition] at ht
    · rw [hne u hu]
  · intro q
    rw [hclaims, hcur]
    exact h.claims q
  · intro q hq
    rw [hcur] at hq
    obtain ⟨hle, hlt⟩ := h.ownerLt t p ht
    rw [hother q (by omega)]
    exact h.unclaimed q hq
  · intro u
    by_cases hu : u = t
    · subst hu
      rwa [hself]
    · rw [hne u hu]
      refine (h.working u).frame hsub fun q hq ↦ hother q ?_
      rintro rfl
      exact hu (h.ownerUnique u t q hq ht)
  · intro q hle hq hfree
    rw [hcur] at hq
    by_cases hqp : q = p
    · subst hqp
      rcases hplace with hp | ⟨-, hdone⟩
      · exact absurd (hself ▸ hp) (hfree t)
      · exact hdone
    · rw [hother q hqp]
      refine h.finished q hle hq fun u hu ↦ ?_
      by_cases hut : u = t
      · subst hut
        exact hqp (Option.some.inj (hu.symm.trans ht))
      · exact hfree u (by rwa [hne u hut])
  · intro q hq
    by_cases hqp : q = p
    · subst hqp
      exact hposted hq
    · have hold : .post q ∈ s.history := by
        have hrec := congrArg (·.2.2) (hother q hqp)
        simp only [record] at hrec
        exact List.count_pos_iff.mp (hrec ▸ List.count_pos_iff.mpr hq)
      obtain ⟨hturn, hsent⟩ := h.posted q hold
      exact ⟨hsub hturn, hsent.mono hsub⟩
  · rw [hthreads, hcur]
    exact forall_update
      (P := fun x : ReduceThread ↦ x = .exited → job.numPartitions ≤ s.curReducePartition)
      (fun hx ↦ absurd hx hexited) h.exhausted

/-- The step of a thread on its own partition that adds one event to the history. -/
theorem ReduceInv.workEvent {s : ReduceState numReducers} (h : ReduceInv job first s)
    {t : Fin numReducers} {p : ℕ} {place : ReduceThread} {event : ReduceEvent}
    {sentFlag : ℕ → ℕ} (ht : (s.threads t).partition = some p) (hevent : event.partition = p)
    (hclaim : ∀ q, event ≠ .claim q)
    (hplace : place.partition = some p ∨
      place = .top ∧ ∃ k, record (event :: s.history) p = (1, 1, k + 1))
    (hprogress : Progress job (event :: s.history) place)
    (hsem : ∀ q, sentFlag q + (event :: s.history).count (.turn (q + 1)) =
      (event :: s.history).count (.post q))
    (hposted : .post p ∈ event :: s.history →
      .turn p ∈ event :: s.history ∧ job.Sent (event :: s.history) p)
    (hcall : CallInOrder job s.history event) :
    ReduceInv job first (ReduceState.goto { s with sentFlag := sentFlag } t place event) := by
  refine h.work (t := t) ht rfl rfl rfl (List.subset_cons_self _ _)
    (fun q ↦ List.count_cons_of_ne (hclaim q)) ?_ hplace hprogress hsem hposted ⟨hcall, h.inOrder⟩
  intro q hq
  exact record_cons_of_ne _ (by rw [hevent]; exact Ne.symm hq)

theorem ReduceInv.posted_cons {s : ReduceState numReducers} (h : ReduceInv job first s) {p : ℕ}
    {event : ReduceEvent} (hne : event ≠ .post p) (hpost : .post p ∈ event :: s.history) :
    .turn p ∈ event :: s.history ∧ job.Sent (event :: s.history) p := by
  rcases List.mem_cons.mp hpost with heq | hpost
  · exact absurd heq.symm hne
  · obtain ⟨hturn, hsent⟩ := h.posted p hpost
    exact ⟨List.mem_cons_of_mem _ hturn, hsent.mono (List.subset_cons_self _ _)⟩

section Steps

variable {s : ReduceState numReducers} {t : Fin numReducers} {p i : ℕ}

/-- A step between places without a partition changes nothing but the lock. -/
theorem ReduceInv.idle (h : ReduceInv job first s) {place : ReduceThread}
    {lock : Option (Fin numReducers)} (ht : (s.threads t).partition = none)
    (hplace : place.partition = none)
    (hlock : ∀ u, Function.update s.threads t place u = .critical ↔ lock = some u)
    (hexit : place = .exited → job.numPartitions ≤ s.curReducePartition) :
    ReduceInv job first
      { s with curPartitionLock := lock, threads := Function.update s.threads t place } := by
  have hpartition (u : Fin numReducers) :
      (Function.update s.threads t place u).partition = (s.threads u).partition := by
    by_cases hu : u = t
    · subst hu
      rw [Function.update_self, ht, hplace]
    · rw [Function.update_of_ne hu]
  have hprogress : Progress job s.history place := by
    cases place <;> simp [ReduceThread.partition] at hplace <;> trivial
  refine ⟨h.first_le, h.bounded, ?_, ?_, hlock, h.claims, h.semaphores, h.unclaimed, ?_, ?_, h.posted,
    h.inOrder,
    forall_update
      (P := fun x : ReduceThread ↦ x = .exited → job.numPartitions ≤ s.curReducePartition)
      hexit h.exhausted⟩
  · simpa only [hpartition] using h.ownerLt
  · simpa only [hpartition] using h.ownerUnique
  · exact forall_update hprogress h.working
  · simpa only [hpartition] using h.finished

theorem ReduceInv.acquire (h : ReduceInv job first s) (ht : s.threads t = .top)
    (hfree : s.curPartitionLock = none) :
    ReduceInv job first { s with
      curPartitionLock := some t
      threads := Function.update s.threads t .critical } := by
  refine h.idle (by rw [ht]; rfl) rfl (fun u ↦ ?_) (by simp)
  by_cases hu : u = t
  · subst hu
    simp
  · have hold := h.lockHolder u
    simp only [hfree, reduceCtorEq, iff_false] at hold
    simp [Function.update_of_ne hu, hold, Ne.symm hu]

theorem ReduceInv.exit (h : ReduceInv job first s) (ht : s.threads t = .critical)
    (hdone : job.numPartitions ≤ s.curReducePartition) :
    ReduceInv job first { s with
      curPartitionLock := none
      threads := Function.update s.threads t .exited } := by
  have hlock : s.curPartitionLock = some t := (h.lockHolder t).mp ht
  refine h.idle (by rw [ht]; rfl) rfl (fun u ↦ ?_) fun _ ↦ hdone
  by_cases hu : u = t
  · subst hu
    simp
  · have hold := h.lockHolder u
    simp [Function.update_of_ne hu, hold, hlock, Ne.symm hu]

theorem ReduceInv.claim (h : ReduceInv job first s) (ht : s.threads t = .critical)
    (hmore : s.curReducePartition < job.numPartitions) :
    ReduceInv job first (ReduceState.goto
      { s with curReducePartition := s.curReducePartition + 1, curPartitionLock := none }
      t (.claimed s.curReducePartition) (.claim s.curReducePartition)) := by
  have hlock : s.curPartitionLock = some t := (h.lockHolder t).mp ht
  have hrecord (q : ℕ) :
      record (.claim s.curReducePartition :: s.history) q = record s.history q := by
    simp [record]
  have hpartition (u : Fin numReducers) (hu : u ≠ t) :
      Function.update s.threads t (.claimed s.curReducePartition) u = s.threads u :=
    Function.update_of_ne hu _ _
  have hnew : record s.history s.curReducePartition = (0, 0, 0) :=
    h.unclaimed _ (.inr (Nat.le_refl _))
  refine ⟨Nat.le_succ_of_le h.first_le, hmore.trans_le (le_max_right _ _), ?_, ?_, ?_, ?_, ?_, ?_, ?_, ?_,
    ?_, ⟨trivial, h.inOrder⟩, ?_⟩
  · refine forall_update (P := fun x : ReduceThread ↦ ∀ q, x.partition = some q →
      first ≤ q ∧ q < s.curReducePartition + 1) ?_
      fun u q hq ↦ (h.ownerLt u q hq).imp_right Nat.lt_succ_of_lt
    rintro q ⟨⟩
    exact ⟨h.first_le, Nat.lt_succ_self _⟩
  · intro u v q hu hv
    have hcur (w : Fin numReducers) (hw : w ≠ t) :
        (s.threads w).partition ≠ some s.curReducePartition := fun hq ↦
      absurd (h.ownerLt w _ hq).2 (Nat.lt_irrefl _)
    simp only [ReduceState.goto] at hu hv
    by_cases hut : u = t <;> by_cases hvt : v = t
    · rw [hut, hvt]
    · subst hut
      rw [Function.update_self] at hu
      rw [hpartition v hvt, ← hu] at hv
      exact absurd hv (hcur v hvt)
    · subst hvt
      rw [Function.update_self] at hv
      rw [hpartition u hut, ← hv] at hu
      exact absurd hu (hcur u hut)
    · rw [hpartition u hut] at hu
      rw [hpartition v hvt] at hv
      exact h.ownerUnique u v q hu hv
  · intro u
    by_cases hu : u = t
    · subst hu
      simp [ReduceState.goto]
    · have hold := h.lockHolder u
      simp [ReduceState.goto, Function.update_of_ne hu, hold, hlock, Ne.symm hu]
  · intro q
    have hold := h.claims q
    simp only [ReduceState.goto]
    by_cases hq : q = s.curReducePartition
    · subst hq
      simpa [h.first_le] using hold
    · rw [List.count_cons_of_ne (by simpa using Ne.symm hq), hold]
      exact if_congr (by omega) rfl rfl
  · intro q
    simpa [ReduceState.goto] using h.semaphores q
  · intro q hq
    exact (hrecord q).trans (h.unclaimed q (hq.imp_right Nat.le_of_succ_le))
  · refine forall_update (P := Progress job _) ((hrecord _).trans hnew) fun u ↦ ?_
    exact (h.working u).frame (List.subset_cons_self _ _) fun q _ ↦ hrecord q
  · intro q hle hq hfree
    have hqt : q ≠ s.curReducePartition := by
      rintro rfl
      exact hfree t (by simp [ReduceState.goto, ReduceThread.partition])
    refine (hrecord q).symm ▸
      h.finished q hle (by simp only [ReduceState.goto] at hq; omega) fun u hu ↦ ?_
    have hut : u ≠ t := by
      rintro rfl
      simp [ht, ReduceThread.partition] at hu
    exact hfree u (by simpa [ReduceState.goto, hpartition u hut] using hu)
  · intro q hq
    exact h.posted_cons (by simp) hq
  · exact forall_update
      (P := fun x : ReduceThread ↦ x = .exited → job.numPartitions ≤ s.curReducePartition + 1)
      (by simp) fun u hu ↦ Nat.le_succ_of_le (h.exhausted u hu)

theorem ReduceInv.sort (h : ReduceInv job first s) (ht : s.threads t = .claimed p) :
    ReduceInv job first (s.goto t (.sorted p) (.sort p)) := by
  have hrec : record s.history p = (0, 0, 0) := by
    simpa [ht, Progress] using h.working t
  simp only [record, Prod.mk.injEq] at hrec
  refine h.workEvent (p := p) (by rw [ht]; rfl) rfl (by simp) (.inl rfl) ?_ ?_
    (h.posted_cons (by simp)) trivial
  · simp [Progress, record, hrec]
  · simpa using h.semaphores

/-- The turn of partition `0` comes without waiting. -/
theorem ReduceInv.turn_zero (h : ReduceInv job first s) (ht : s.threads t = .sorted 0) :
    ReduceInv job first (s.goto t (.reducing 0 0) (.turn 0)) := by
  have hrec : record s.history 0 = (1, 0, 0) := by
    simpa [ht, Progress] using h.working t
  simp only [record, Prod.mk.injEq] at hrec
  refine h.workEvent (p := 0) (by rw [ht]; rfl) rfl (by simp) (.inl rfl) ?_ ?_
    (h.posted_cons (by simp)) trivial
  · simp [Progress, record, hrec]
  · simpa using h.semaphores

/-- The turn of a later partition consumes a post of the partition before it. -/
theorem ReduceInv.turn_succ (h : ReduceInv job first s) (ht : s.threads t = .sorted (p + 1))
    (hpos : 0 < s.sentFlag p) :
    ReduceInv job first (ReduceState.goto
      { s with sentFlag := Function.update s.sentFlag p (s.sentFlag p - 1) }
      t (.reducing (p + 1) 0) (.turn (p + 1))) := by
  have hrec : record s.history (p + 1) = (1, 0, 0) := by
    simpa [ht, Progress] using h.working t
  simp only [record, Prod.mk.injEq] at hrec
  refine h.workEvent (p := p + 1) (by rw [ht]; rfl) rfl (by simp) (.inl rfl) ?_ ?_
    (h.posted_cons (by simp)) trivial
  · simp [Progress, record, hrec]
  · intro q
    have hsem := h.semaphores q
    by_cases hq : q = p
    · subst hq
      simp
      omega
    · simpa [Function.update_of_ne hq, List.count_cons, Ne.symm hq] using hsem

theorem ReduceInv.callStart (h : ReduceInv job first s) (ht : s.threads t = .reducing p i)
    (hi : i < job.numKeys p) :
    ReduceInv job first (s.goto t (.calling p i) (.callStart p i)) := by
  have hrec : record s.history p = (1, 1, i) := by
    simpa [ht, Progress] using h.working t
  have hcounts := hrec
  simp only [record, Prod.mk.injEq] at hcounts
  refine h.workEvent (p := p) (by rw [ht]; rfl) rfl (by simp) (.inl rfl) ?_ ?_
    (h.posted_cons (by simp)) ⟨?_, ?_⟩
  · simpa [Progress, record, hi] using hcounts
  · simpa using h.semaphores
  · exact List.count_pos_iff.mp (by omega)
  · exact h.sent_of_turn (List.count_pos_iff.mp (by omega))

theorem ReduceInv.callReturn (h : ReduceInv job first s) (ht : s.threads t = .calling p i) :
    ReduceInv job first (s.goto t (.returned p i) (.callReturn p i)) := by
  obtain ⟨hrec, hi⟩ : record s.history p = (1, 1, i) ∧ i < job.numKeys p := by
    simpa [ht, Progress] using h.working t
  simp only [record, Prod.mk.injEq] at hrec
  refine h.workEvent (p := p) (by rw [ht]; rfl) rfl (by simp) (.inl rfl) ?_ ?_
    (h.posted_cons (by simp)) trivial
  · simp [Progress, record, hrec, hi]
  · simpa using h.semaphores

theorem semaphores_post (h : ReduceInv job first s) (q : ℕ) :
    Function.update s.sentFlag p (s.sentFlag p + 1) q +
        (ReduceEvent.post p :: s.history).count (.turn (q + 1)) =
      (ReduceEvent.post p :: s.history).count (.post q) := by
  have hsem := h.semaphores q
  by_cases hq : q = p
  · subst hq
    simp
    omega
  · simpa [Function.update_of_ne hq, List.count_cons, Ne.symm hq] using hsem

/-- The post after a reducer call: the first of them sends the partition. -/
theorem ReduceInv.postCall (h : ReduceInv job first s) (ht : s.threads t = .returned p i) :
    ReduceInv job first ((s.semPost p).goto t (.reducing p (i + 1)) (.post p)) := by
  obtain ⟨hrec, hi, hret⟩ : record s.history p = (1, 1, i) ∧ i < job.numKeys p ∧
      .callReturn p i ∈ s.history := by
    simpa [ht, Progress] using h.working t
  simp only [record, Prod.mk.injEq] at hrec
  refine h.workEvent (p := p) (by rw [ht]; rfl) rfl (by simp) (.inl rfl) ?_
    (semaphores_post h) (fun _ ↦ ⟨?_, ?_⟩) trivial
  · simp [Progress, record, hrec]
  · exact List.mem_cons_of_mem _ (List.count_pos_iff.mp (by omega))
  · refine Sent.mono (List.subset_cons_self _ _) ?_
    cases i with
    | zero => simpa [Sent, Nat.ne_of_gt hi] using hret
    | succ i => exact (h.posted p (List.count_pos_iff.mp (by omega))).2

/-- The post for a partition without keys. -/
theorem ReduceInv.postEmpty (h : ReduceInv job first s) (ht : s.threads t = .reducing p i)
    (hempty : job.numKeys p = 0) :
    ReduceInv job first ((s.semPost p).goto t .top (.post p)) := by
  have hrec : record s.history p = (1, 1, i) := by
    simpa [ht, Progress] using h.working t
  simp only [record, Prod.mk.injEq] at hrec
  have hturn : .turn p ∈ s.history := List.count_pos_iff.mp (by omega)
  refine h.workEvent (p := p) (by rw [ht]; rfl) rfl (by simp) (.inr ⟨rfl, i, ?_⟩) trivial
    (semaphores_post h) (fun _ ↦ ⟨List.mem_cons_of_mem _ hturn, ?_⟩) trivial
  · simp [record, hrec]
  · simpa [Sent, hempty] using hturn

/-- The end of the loop over the keys: every key has been posted. -/
theorem ReduceInv.leave (h : ReduceInv job first s) (ht : s.threads t = .reducing p i)
    (hi : job.numKeys p ≤ i) (hkeys : job.numKeys p ≠ 0) :
    ReduceInv job first { s with threads := Function.update s.threads t .top } := by
  have hrec : record s.history p = (1, 1, i) := by
    simpa [ht, Progress] using h.working t
  obtain ⟨k, rfl⟩ : ∃ k, i = k + 1 := Nat.exists_eq_succ_of_ne_zero (by omega)
  exact h.work (t := t) (by rw [ht]; rfl) rfl rfl rfl (List.Subset.refl _) (fun _ ↦ rfl)
    (fun _ _ ↦ rfl) (.inr ⟨rfl, k, hrec⟩) trivial h.semaphores (h.posted p) h.inOrder

end Steps

/-- One step of any thread keeps the invariant. -/
theorem ReduceInv.step {s s' : ReduceState numReducers} {t : Fin numReducers}
    (h : ReduceInv job first s) (hs : job.reduceStep s t = some s') : ReduceInv job first s' := by
  unfold reduceStep at hs
  split at hs
  case h_1 ht =>
    split at hs
    next hfree =>
      obtain rfl := Option.some.inj hs
      exact h.acquire ht hfree
    next => simp at hs
  case h_2 ht =>
    simp only at hs
    split at hs
    next hdone =>
      obtain rfl := Option.some.inj hs
      exact h.exit ht hdone
    next hmore =>
      obtain rfl := Option.some.inj hs
      exact h.claim ht (Nat.lt_of_not_le hmore)
  case h_3 p ht =>
    obtain rfl := Option.some.inj hs
    exact h.sort ht
  case h_4 ht =>
    obtain rfl := Option.some.inj hs
    exact h.turn_zero ht
  case h_5 p ht =>
    unfold ReduceState.semWait at hs
    split at hs
    next hpos =>
      obtain rfl := Option.some.inj hs
      exact h.turn_succ ht hpos
    next => simp at hs
  case h_6 p i ht =>
    split at hs
    next hi =>
      obtain rfl := Option.some.inj hs
      exact h.callStart ht hi
    next hi =>
      split at hs
      next hempty =>
        obtain rfl := Option.some.inj hs
        exact h.postEmpty ht hempty
      next hkeys =>
        obtain rfl := Option.some.inj hs
        exact h.leave ht (Nat.le_of_not_lt hi) hkeys
  case h_7 p i ht =>
    obtain rfl := Option.some.inj hs
    exact h.callReturn ht
  case h_8 p i ht =>
    obtain rfl := Option.some.inj hs
    exact h.postCall ht
  case h_9 => simp at hs

theorem reduceInv_of_reachable {s : ReduceState numReducers}
    (hs : (job.reduceMachine first).Reachable s) : ReduceInv job first s := by
  apply hs.invariant
  · rintro _ rfl
    exact reduceInv_start first
  · intro s t s' _ h _ hstep
    exact h.step hstep

/-! ## Order and exclusivity -/

theorem ReduceInv.sort_count {s : ReduceState numReducers} (h : ReduceInv job first s) {p : ℕ}
    (hle : first ≤ p) (hp : p < s.curReducePartition) :
    s.history.count (.sort p) = if ∃ t, s.threads t = .claimed p then 0 else 1 := by
  have hcount : s.history.count (.sort p) = (record s.history p).1 := rfl
  by_cases howned : ∃ t, (s.threads t).partition = some p
  · obtain ⟨t, ht⟩ := howned
    have hprogress := h.working t
    have hclaimed : (∃ u, s.threads u = .claimed p) ↔ s.threads t = .claimed p := by
      constructor
      · rintro ⟨u, hu⟩
        rwa [← h.ownerUnique u t p (by rw [hu]; rfl) ht]
      · exact fun hu ↦ ⟨t, hu⟩
    rw [hcount, if_congr hclaimed rfl rfl]
    cases hplace : s.threads t with
    | top | critical | exited => simp [hplace, ReduceThread.partition] at ht
    | claimed q | sorted q | reducing q i =>
      obtain rfl : q = p := by simpa [hplace, ReduceThread.partition] using ht
      rw [hplace] at hprogress
      simp [show record s.history q = _ from hprogress]
    | calling q i | returned q i =>
      obtain rfl : q = p := by simpa [hplace, ReduceThread.partition] using ht
      rw [hplace] at hprogress
      simp [hprogress.1]
  · obtain ⟨k, hk⟩ := h.finished p hle hp fun t ht ↦ howned ⟨t, ht⟩
    have hnone : ¬∃ t, s.threads t = .claimed p := fun ⟨t, ht⟩ ↦ howned ⟨t, by rw [ht]; rfl⟩
    rw [hcount, hk, if_neg hnone]

theorem ReduceInv.sort_count_le {s : ReduceState numReducers} (h : ReduceInv job first s) (p : ℕ) :
    s.history.count (.sort p) ≤ 1 := by
  by_cases hp : first ≤ p ∧ p < s.curReducePartition
  · rw [h.sort_count hp.1 hp.2]
    split <;> simp
  · have hrec := h.unclaimed p (by omega)
    simp only [record, Prod.mk.injEq] at hrec
    omega

/-- Order and exclusivity of the reduce phase, in every interleaving and whatever the counter was at
the start: a partition is claimed and sorted once at most, and exactly once when all threads have
returned, unless the counter was past it; and when a reducer call on partition `p` starts, `p` has
been sorted and every partition before it has been sent. -/
theorem reduce_phase_ordered (hr : 0 < numReducers) {s : ReduceState numReducers}
    (hs : (job.reduceMachine first).Reachable s) :
    (∀ p, s.history.count (.claim p) ≤ 1 ∧ s.history.count (.sort p) ≤ 1) ∧
    (∀ later earlier p k, s.history = later ++ .callStart p k :: earlier →
      .sort p ∈ earlier ∧ ∀ i < p, job.Sent earlier i) ∧
    ((∀ t, s.threads t = .exited) → ∀ p < job.numPartitions, first ≤ p →
      s.history.count (.claim p) = 1 ∧ s.history.count (.sort p) = 1) := by
  have h := reduceInv_of_reachable hs
  refine ⟨fun p ↦ ⟨?_, h.sort_count_le p⟩, ?_, fun hexited p hp hle ↦ ?_⟩
  · rw [h.claims]
    split <;> simp
  · intro later earlier p k heq
    have hcall : CallInOrder job earlier (.callStart p k) := (heq ▸ h.inOrder).at
    exact hcall
  · have hcur := h.exhausted ⟨0, hr⟩ (hexited _)
    have hlt : p < s.curReducePartition := by omega
    have hnone : ¬∃ t, s.threads t = .claimed p := by simp [hexited]
    exact ⟨by rw [h.claims, if_pos ⟨hle, hlt⟩], by rw [h.sort_count hle hlt, if_neg hnone]⟩

/-- The start with two reducer threads. -/
def twoReducers : ReduceState 2 := start 0

/-- Three partitions, the first of them without keys. -/
def threePartitions : ReduceJob where
  numPartitions := 3
  numKeys p := p

/-- Thread `1` has sorted partition `1` before thread `0` sends partition `0`. -/
theorem reduce_phase_ordered_threePartitions :
    ∃ s, (threePartitions.reduceMachine 0).run twoReducers
        [0, 0, 1, 1, 1, 0, 0, 0, 1, 1] = some s ∧
      s.history.head? = some (.callStart 1 0) ∧
      ∀ later earlier, s.history = later ++ .callStart 1 0 :: earlier →
        .sort 1 ∈ earlier ∧ threePartitions.Sent earlier 0 := by
  have hrun : ((threePartitions.reduceMachine 0).run twoReducers
      [0, 0, 1, 1, 1, 0, 0, 0, 1, 1]).map (·.history.head?) =
        some (some (.callStart 1 0)) := by decide
  obtain ⟨s, hs, hhead⟩ := Option.map_eq_some_iff.mp hrun
  have hreachable : (threePartitions.reduceMachine 0).Reachable s := .run (.init rfl) hs
  obtain ⟨-, horder, -⟩ := reduce_phase_ordered (by decide) hreachable
  refine ⟨s, hs, hhead, fun later earlier heq ↦ ?_⟩
  obtain ⟨hsort, hsent⟩ := horder later earlier 1 0 heq
  exact ⟨hsort, hsent 0 Nat.one_pos⟩

/-! ## Absence of deadlock -/

/-- Thread `t` has not returned and can move. -/
def CanMove (job : ReduceJob) (s : ReduceState numReducers) (t : Fin numReducers) : Prop :=
  s.threads t ≠ .exited ∧ (job.reduceStep s t).isSome

/-- A thread with a partition can move unless it waits for its turn. -/
theorem canMove_of_partition {s : ReduceState numReducers} {t : Fin numReducers} {p : ℕ}
    (ht : (s.threads t).partition = some p) (hwait : s.threads t ≠ .sorted p) :
    CanMove job s t := by
  cases hplace : s.threads t with
  | top | critical | exited => simp [hplace, ReduceThread.partition] at ht
  | sorted q =>
    obtain rfl : q = p := by simpa [hplace, ReduceThread.partition] using ht
    exact absurd hplace hwait
  | reducing q i =>
    refine ⟨by simp [hplace], ?_⟩
    simp only [reduceStep, hplace]
    split
    · rfl
    · split <;> rfl
  | claimed q | calling q i | returned q i => exact ⟨by simp [hplace], by simp [reduceStep, hplace]⟩

/-- While a thread waits for the turn of its partition some thread can move.  The induction is on
the partition: the thread before it in the chain moves, waits in turn, or has posted. -/
theorem ReduceInv.move_of_sorted {s : ReduceState numReducers} (h : ReduceInv job 0 s) {p : ℕ}
    {t : Fin numReducers} (ht : s.threads t = .sorted p) : ∃ u, CanMove job s u := by
  induction p generalizing t with
  | zero => exact ⟨t, by simp [ht], by simp [reduceStep, ht]⟩
  | succ p ih =>
    obtain ⟨-, hcur⟩ := h.ownerLt t _ (by rw [ht]; rfl)
    by_cases howned : ∃ u, (s.threads u).partition = some p
    · obtain ⟨u, hu⟩ := howned
      by_cases hwait : s.threads u = .sorted p
      · exact ih hwait
      · exact ⟨u, canMove_of_partition hu hwait⟩
    · obtain ⟨k, hk⟩ := h.finished p (Nat.zero_le p) (by omega) fun u hu ↦ howned ⟨u, hu⟩
      have hrec : record s.history (p + 1) = (1, 0, 0) := by
        simpa [ht, Progress] using h.working t
      simp only [record, Prod.mk.injEq] at hk hrec
      have hsem := h.semaphores p
      have hpos : 0 < s.sentFlag p := by omega
      exact ⟨t, by simp [ht], by simp [reduceStep, ht, ReduceState.semWait, hpos]⟩

/-- While some thread has not returned, one that has not returned can move, if the counter began at
zero or past all partitions. -/
theorem ReduceInv.canMove {s : ReduceState numReducers} (h : ReduceInv job first s)
    (hfirst : first = 0 ∨ job.numPartitions ≤ first) (hleft : ∃ t, s.threads t ≠ .exited) :
    ∃ t, CanMove job s t := by
  obtain ⟨t, ht⟩ := hleft
  cases hplace : s.threads t with
  | exited => exact absurd hplace ht
  | top =>
    cases hlock : s.curPartitionLock with
    | none => exact ⟨t, ht, by simp [reduceStep, hplace, hlock]⟩
    | some u =>
      -- The holder of the lock is in the critical section, which never blocks.
      have hu : s.threads u = .critical := (h.lockHolder u).mpr hlock
      refine ⟨u, by simp [hu], ?_⟩
      simp only [reduceStep, hu]
      split <;> rfl
  | critical =>
    refine ⟨t, ht, ?_⟩
    simp only [reduceStep, hplace]
    split <;> rfl
  | sorted p =>
    rcases hfirst with rfl | hpast
    · exact h.move_of_sorted hplace
    · obtain ⟨hle, hlt⟩ := h.ownerLt t p (by rw [hplace]; rfl)
      have hbounded := h.bounded
      omega
  | claimed p | reducing p i | calling p i | returned p i =>
    exact ⟨t, canMove_of_partition (p := p) (by rw [hplace]; rfl) (by simp [hplace])⟩

/-- No turn comes when the counter began past the first partition: the semaphore before the first
partition claimed is never posted. -/
theorem ReduceInv.not_turn {s : ReduceState numReducers} (h : ReduceInv job first s)
    (hfirst : 0 < first) (p : ℕ) : .turn p ∉ s.history := by
  induction p with
  | zero =>
    have hrec := h.unclaimed 0 (.inl hfirst)
    simp only [record, Prod.mk.injEq] at hrec
    exact List.count_eq_zero.mp hrec.2.1
  | succ p ih =>
    intro hturn
    have hsem := h.semaphores p
    have hcount : 0 < s.history.count (.turn (p + 1)) := List.count_pos_iff.mpr hturn
    have hpost : .post p ∈ s.history := List.count_pos_iff.mp (by omega)
    exact ih (h.posted p hpost).1

theorem ReduceInv.sentFlag_eq_zero {s : ReduceState numReducers} (h : ReduceInv job first s)
    (hfirst : 0 < first) (p : ℕ) : s.sentFlag p = 0 := by
  have hsem := h.semaphores p
  have hpost : s.history.count (.post p) = 0 :=
    List.count_eq_zero.mpr fun hmem ↦ h.not_turn hfirst p (h.posted p hmem).1
  omega

theorem ReduceInv.waits {s : ReduceState numReducers} (h : ReduceInv job first s)
    (hfirst : 0 < first) (t : Fin numReducers) : (s.threads t).Waits := by
  have hprogress := h.working t
  have hturns (p : ℕ) : s.history.count (.turn p) = 0 :=
    List.count_eq_zero.mpr (h.not_turn hfirst p)
  cases hplace : s.threads t with
  | top | critical | claimed p | sorted p | exited => trivial
  | reducing p i => simp [hplace, Progress, record, hturns] at hprogress
  | calling p i | returned p i => simp [hplace, Progress, record, hturns] at hprogress

theorem ReduceInv.waitingSteps_lt {s s' : ReduceState numReducers} {t : Fin numReducers}
    (h : ReduceInv job first s) (hfirst : 0 < first) (hs : job.reduceStep s t = some s') :
    ∑ u, (s'.threads u).waitingSteps < ∑ u, (s.threads u).waitingSteps := by
  have hwaits := h.waits hfirst t
  have hdrop {place : ReduceThread} (hlt : place.waitingSteps < (s.threads t).waitingSteps) :
      ∑ u, (Function.update s.threads t place u).waitingSteps <
        ∑ u, (s.threads u).waitingSteps := sum_update_lt ReduceThread.waitingSteps s.threads hlt
  unfold reduceStep at hs
  split at hs
  case h_1 ht =>
    split at hs
    next =>
      obtain rfl := Option.some.inj hs
      exact hdrop (by rw [ht]; decide)
    next => simp at hs
  case h_2 ht =>
    simp only at hs
    split at hs
    all_goals obtain rfl := Option.some.inj hs
    next => exact hdrop (by rw [ht]; decide)
    next => exact hdrop (by rw [ht]; exact Nat.lt_succ_self 2)
  case h_3 p ht =>
    obtain rfl := Option.some.inj hs
    exact hdrop (by rw [ht]; exact Nat.lt_succ_self 1)
  case h_4 ht =>
    obtain ⟨hle, -⟩ := h.ownerLt t 0 (by rw [ht]; rfl)
    omega
  case h_5 p ht => simp [ReduceState.semWait, h.sentFlag_eq_zero hfirst p] at hs
  case h_6 p i ht => exact (ht ▸ hwaits : ReduceThread.Waits (.reducing p i)).elim
  case h_7 p i ht => exact (ht ▸ hwaits : ReduceThread.Waits (.calling p i)).elim
  case h_8 p i ht => exact (ht ▸ hwaits : ReduceThread.Waits (.returned p i)).elim
  case h_9 => simp at hs

/-- With the counter past the first partition all threads return only if there is no partition to
claim. -/
theorem ReduceInv.le_first_of_exited {s : ReduceState numReducers} (h : ReduceInv job first s)
    (hr : 0 < numReducers) (hfirst : 0 < first) (hexited : ∀ t, s.threads t = .exited) :
    job.numPartitions ≤ first := by
  by_contra hlt
  have hcur := h.exhausted ⟨0, hr⟩ (hexited _)
  obtain ⟨k, hk⟩ := h.finished first le_rfl (by omega)
    fun t ht ↦ by simp [hexited t, ReduceThread.partition] at ht
  simp only [record, Prod.mk.injEq] at hk
  exact h.not_turn hfirst first (List.count_pos_iff.mp (by omega))

/-- With the counter past the first partition the threads come to a state in which none can move. -/
theorem exists_halted (job : ReduceJob) (hfirst : 0 < first) :
    ∃ s : ReduceState numReducers, (job.reduceMachine first).Reachable s ∧
      (job.reduceMachine first).Halted s := by
  have hstep (s : ReduceState numReducers) (t : Fin numReducers) (s' : ReduceState numReducers)
      (h : ReduceInv job first s) (hs : job.reduceStep s t = some s') :
      ReduceInv job first s' ∧
        ∑ u, (s'.threads u).waitingSteps < ∑ u, (s.threads u).waitingSteps :=
    ⟨h.step hs, h.waitingSteps_lt hfirst hs⟩
  have hhalts : (job.reduceMachine first).HaltsWithin (start first : ReduceState numReducers) _ :=
    Machine.haltsWithin_measure hstep (reduceInv_start first)
  obtain ⟨ls, s, hrun, hhalted⟩ := hhalts.exists_halted
  exact ⟨s, .run (.init rfl) hrun, hhalted⟩

/-- In every state of the reduce phase in which some thread has not returned, a thread that has not
returned can move, if and only if the threads find the counter at zero or past all partitions.
Otherwise the first partition claimed waits for ever for the one before it. -/
theorem reduce_phase_live_iff (job : ReduceJob) (hr : 0 < numReducers) (first : ℕ) :
    (∀ s : ReduceState numReducers, (job.reduceMachine first).Reachable s →
      (∃ t, s.threads t ≠ .exited) →
        ∃ t, s.threads t ≠ .exited ∧ ((job.reduceMachine first).step s t).isSome) ↔
      first = 0 ∨ job.numPartitions ≤ first := by
  constructor
  · intro hlive
    by_contra hbetween
    have hpos : 0 < first := by omega
    obtain ⟨s, hs, hhalted⟩ : ∃ s : ReduceState numReducers, _ := exists_halted job hpos
    have h := reduceInv_of_reachable hs
    have hexited : ∀ t, s.threads t = .exited := by
      by_contra hleft
      obtain ⟨t, -, ht⟩ := hlive s hs (not_forall.mp hleft)
      rw [hhalted t] at ht
      cases ht
    exact hbetween (.inr (h.le_first_of_exited hr hpos hexited))
  · exact fun hfirst s hs hleft ↦ (reduceInv_of_reachable hs).canMove hfirst hleft

/-- Thread `1` waits for the turn of partition `1`; some thread can move all the same. -/
theorem reduce_phase_live_iff_threePartitions :
    ∃ s, (threePartitions.reduceMachine 0).run twoReducers [0, 0, 1, 1, 1] = some s ∧
      (threePartitions.reduceMachine 0).step s 1 = none ∧
      ∃ t, s.threads t ≠ .exited ∧ ((threePartitions.reduceMachine 0).step s t).isSome := by
  have hrun : ((threePartitions.reduceMachine 0).run twoReducers [0, 0, 1, 1, 1]).map
      (fun s ↦ (((threePartitions.reduceMachine 0).step s 1).isNone, s.threads 1)) =
        some (true, .sorted 1) := by decide
  obtain ⟨s, hs, hwaits⟩ := Option.map_eq_some_iff.mp hrun
  obtain ⟨hblocked, hplace⟩ := Prod.mk.inj hwaits
  refine ⟨s, hs, Option.isNone_iff_eq_none.mp hblocked, ?_⟩
  exact (reduce_phase_live_iff threePartitions Nat.two_pos 0).mpr (.inl rfl) s (.run (.init rfl) hs)
    ⟨1, by simp [hplace]⟩

/-- A call with one partition leaves the counter at `1`.  In the next call, with three partitions,
thread `0` claims partition `1`, thread `1` claims partition `2`, and both wait for ever. -/
theorem later_phase_deadlocks :
    ∃ s, (threePartitions.reduceMachine 1).run (start 1 : ReduceState 2) [0, 0, 0, 1, 1, 1] = some s ∧
      (∀ t, s.threads t ≠ .exited) ∧ ∀ t, (threePartitions.reduceMachine 1).step s t = none := by
  have hrun : ((threePartitions.reduceMachine 1).run (start 1 : ReduceState 2) [0, 0, 0, 1, 1, 1]).map
      (fun s ↦ (s.threads 0, s.threads 1, s.sentFlag 0, s.sentFlag 1)) =
        some (.sorted 1, .sorted 2, 0, 0) := by decide
  obtain ⟨s, hs, hstate⟩ := Option.map_eq_some_iff.mp hrun
  simp only [Prod.mk.injEq] at hstate
  obtain ⟨hfirst, hsecond, hflag₀, hflag₁⟩ := hstate
  refine ⟨s, hs, fun t ↦ ?_, fun t ↦ ?_⟩
  · match t with
    | 0 => simp [hfirst]
    | 1 => simp [hsecond]
  · match t with
    | 0 => simp [reduceMachine, reduceStep, hfirst, ReduceState.semWait, hflag₀]
    | 1 => simp [reduceMachine, reduceStep, hsecond, ReduceState.semWait, hflag₁]

end ReduceJob

end CS537.MapReduce
