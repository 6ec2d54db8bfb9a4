import CS537.Foundation.Machine
import CS537.Foundation.Threads
import CS537.MapReduce.Partition
import Mathlib.Data.Multiset.Filter
import Mathlib.Data.List.Range

/-!
# The map phase

Mapper threads take input indices from a shared counter and call the mapper on them; the mapper
calls `MR_Emit`, which appends a pair to the partition of its key.  The two critical sections,
that of `map_control` and that of `MR_Emit`, are one step each of the thread that runs them, and
a schedule interleaves the steps of all threads.  The counter is an `int` in the source and a
natural number here: it passes the number of inputs by at most the number of threads.
-/

open scoped BigOperators

namespace CS537.MapReduce

open Foundation

/-- What `MR_Run` is given for its map phase: the number of inputs, the calls of `MR_Emit` that
the mapper makes on each of them, and the partition function; `fresh` is the memory `malloc`
returns for the partitions. -/
structure MapJob where
  inputCount : ℕ
  emits : ℕ → List KvPair
  numMappers : ℕ
  partitioner : CString → ℕ → ℕ
  numPartitions : ℕ
  fresh : ℕ → PartitionData

/-- Where a mapper thread is: before the critical section of `map_control`, inside the mapper
with calls of `MR_Emit` to make, or returned.  A thread faults when it leaves an array. -/
inductive MapThread where
  | control
  | mapping (calls : List KvPair)
  | exited
  | faulted
  deriving DecidableEq

/-- The globals of the map phase and its threads; `handed` records the indices given to the
mapper. -/
structure MapState (numMappers : ℕ) where
  idx : ℕ
  partitionList : ℕ → PartitionData
  threads : Fin numMappers → MapThread
  handed : List ℕ

namespace MapJob

variable (job : MapJob)

/-- The partition `MR_Emit` chooses for a pair. -/
def partitionOf (pair : KvPair) : ℕ := job.partitioner pair.key job.numPartitions

/-- `init_partition_list` and `init_mapper_concurrency`. -/
def start : MapState job.numMappers where
  idx := 0
  partitionList i := initPartition (job.fresh i)
  threads _ := .control
  handed := []

/-- The critical section of `map_control`. -/
def claim (s : MapState job.numMappers) (t : Fin job.numMappers) : MapState job.numMappers :=
  let nextIdx := s.idx
  if job.inputCount ≤ nextIdx then
    { s with idx := s.idx + 1, threads := Function.update s.threads t .exited }
  else
    { s with
      idx := s.idx + 1
      threads := Function.update s.threads t (.mapping (job.emits nextIdx))
      handed := s.handed ++ [nextIdx] }

/-- One call of `MR_Emit` by thread `t`, which has `calls` left after it. -/
def emit (s : MapState job.numMappers) (t : Fin job.numMappers) (pair : KvPair)
    (calls : List KvPair) : MapState job.numMappers :=
  let partitionNum := job.partitionOf pair
  if partitionNum < job.numPartitions then
    match (s.partitionList partitionNum).mrEmit pair with
    | some partition =>
      { s with
        partitionList := Function.update s.partitionList partitionNum partition
        threads := Function.update s.threads t (.mapping calls) }
    | none => { s with threads := Function.update s.threads t .faulted }
  else { s with threads := Function.update s.threads t .faulted }

/-- One step of thread `t`. -/
def mapStep (s : MapState job.numMappers) (t : Fin job.numMappers) :
    Option (MapState job.numMappers) :=
  match s.threads t with
  | .control => some (job.claim s t)
  | .mapping (pair :: calls) => some (job.emit s t pair calls)
  | .mapping [] => some { s with threads := Function.update s.threads t .control }
  | .exited => none
  | .faulted => none

/-- The map phase as a machine: a label is the thread that moves. -/
def mapMachine : Machine (MapState job.numMappers) (Fin job.numMappers) where
  init s := s = job.start
  step := job.mapStep

/-- All mapper threads have been joined. -/
def Joined (s : MapState job.numMappers) : Prop := ∀ t, s.threads t = .exited

/-- The pairs of partition `p` among those that the mapper emits on the inputs below `k`. -/
def emittedBelow (k p : ℕ) : Multiset KvPair :=
  ((List.range k).flatMap job.emits).filter fun pair ↦ job.partitionOf pair = p

/-- The pairs of partition `p` among all pairs the mapper emits. -/
def emitted (p : ℕ) : Multiset KvPair := job.emittedBelow job.inputCount p

/-- The pairs of partition `p` that a thread still has to emit. -/
def pending (p : ℕ) : MapThread → Multiset KvPair
  | .mapping calls => calls.filter fun pair ↦ job.partitionOf pair = p
  | _ => 0

end MapJob

namespace MapJob

variable {job : MapJob}

theorem emittedBelow_succ (k p : ℕ) :
    job.emittedBelow (k + 1) p = job.emittedBelow k p + job.pending p (.mapping (job.emits k)) := by
  simp [emittedBelow, pending, List.range_succ]

/-- What holds in every state of the map phase: indices are handed out in order, every array is
as long as recorded, and the pairs stored and still to be emitted are those of the inputs taken. -/
structure MapInv (job : MapJob) (s : MapState job.numMappers) : Prop where
  handed : s.handed = List.range (min s.idx job.inputCount)
  sized : ∀ p, (s.partitionList p).WellSized
  conserved : ∀ p, ((s.partitionList p).stored : Multiset (Option KvPair)) +
      (∑ t, job.pending p (s.threads t)).map some =
    (job.emittedBelow (min s.idx job.inputCount) p).map some
  faultless : ∀ t, s.threads t ≠ .faulted
  exhausted : ∀ t, s.threads t = .exited → job.inputCount ≤ s.idx

theorem mapInv_start : MapInv job job.start where
  handed := by simp [start]
  sized p := PartitionData.wellSized_initPartition _
  conserved p := by simp [start, pending, emittedBelow]
  faultless t := by simp [start]
  exhausted t := by simp [start]

theorem MapInv.claim {s : MapState job.numMappers} (h : MapInv job s) {t : Fin job.numMappers}
    (ht : s.threads t = .control) : MapInv job (job.claim s t) := by
  have hzero (p : ℕ) : job.pending p (s.threads t) = 0 := by rw [ht]; rfl
  simp only [MapJob.claim]
  split
  next hdone =>
    have hmin : min (s.idx + 1) job.inputCount = min s.idx job.inputCount := by omega
    refine ⟨by simpa [hmin] using h.handed, h.sized, fun p ↦ ?_, ?_, fun _ _ ↦ ?_⟩
    · have hsum := sum_update_add (job.pending p) s.threads t .exited
      rw [hzero, add_zero, show job.pending p .exited = 0 from rfl, add_zero] at hsum
      simp only [hmin, hsum]
      exact h.conserved p
    · exact forall_update (P := fun x : MapThread ↦ x ≠ .faulted) (by simp) h.faultless
    · exact Nat.le_succ_of_le hdone
  next hmore =>
    have hmin : min (s.idx + 1) job.inputCount = s.idx + 1 := by omega
    have hmin' : min s.idx job.inputCount = s.idx := by omega
    refine ⟨?_, h.sized, fun p ↦ ?_, ?_, ?_⟩
    · simp only [hmin, List.range_succ, h.handed, hmin']
    · have hsum := sum_update_add (job.pending p) s.threads t (.mapping (job.emits s.idx))
      rw [hzero, add_zero] at hsum
      have hcons := h.conserved p
      rw [hmin'] at hcons
      simp only [hmin, hsum, Multiset.map_add, emittedBelow_succ, ← add_assoc, hcons]
    · exact forall_update (P := fun x : MapThread ↦ x ≠ .faulted) (by simp) h.faultless
    · exact forall_update (P := fun x : MapThread ↦ x = .exited → job.inputCount ≤ s.idx + 1)
        (by simp) fun u hu ↦ Nat.le_succ_of_le (h.exhausted u hu)

theorem MapInv.emit {s : MapState job.numMappers} (h : MapInv job s) {t : Fin job.numMappers}
    {pair : KvPair} {calls : List KvPair} (ht : s.threads t = .mapping (pair :: calls))
    (hpart : job.partitionOf pair < job.numPartitions) :
    MapInv job (job.emit s t pair calls) := by
  obtain ⟨next, hnext, hsized, hstored⟩ := (h.sized (job.partitionOf pair)).mrEmit pair
  simp only [MapJob.emit, if_pos hpart, hnext]
  refine ⟨h.handed, ?_, fun p ↦ ?_, ?_, ?_⟩
  · exact forall_update hsized h.sized
  · have hsum := sum_update_add (job.pending p) s.threads t (.mapping calls)
    have hcons := h.conserved p
    by_cases hp : p = job.partitionOf pair
    · -- The pair leaves the thread and enters its partition.
      subst hp
      have hpend : job.pending (job.partitionOf pair) (s.threads t) =
          {pair} + job.pending (job.partitionOf pair) (.mapping calls) := by
        simp [ht, pending]
      rw [hpend, ← add_assoc, add_right_cancel_iff] at hsum
      simp only [Function.update_self, hstored]
      rw [← hcons, ← hsum, Multiset.map_add, Multiset.map_singleton, ← Multiset.coe_add,
        Multiset.coe_singleton]
      abel
    · have hpend : job.pending p (s.threads t) = job.pending p (.mapping calls) := by
        simp [ht, pending, Ne.symm hp]
      rw [hpend, add_right_cancel_iff] at hsum
      simpa [Function.update_of_ne hp, hsum] using hcons
  · exact forall_update (P := fun x : MapThread ↦ x ≠ .faulted) (by simp) h.faultless
  · exact forall_update (P := fun x : MapThread ↦ x = .exited → job.inputCount ≤ s.idx)
      (by simp) h.exhausted

theorem MapInv.backToControl {s : MapState job.numMappers} (h : MapInv job s)
    {t : Fin job.numMappers} (ht : s.threads t = .mapping []) :
    MapInv job { s with threads := Function.update s.threads t .control } := by
  refine ⟨h.handed, h.sized, fun p ↦ ?_, ?_, ?_⟩
  · have hsum := sum_update_add (job.pending p) s.threads t .control
    have hzero : job.pending p (s.threads t) = 0 := by rw [ht]; rfl
    rw [hzero, add_zero, show job.pending p .control = 0 from rfl, add_zero] at hsum
    simpa only [hsum] using h.conserved p
  · exact forall_update (P := fun x : MapThread ↦ x ≠ .faulted) (by simp) h.faultless
  · exact forall_update (P := fun x : MapThread ↦ x = .exited → job.inputCount ≤ s.idx)
      (by simp) h.exhausted

/-- One step of any thread keeps the invariant, the partition function being in range. -/
theorem MapInv.step (hpart : ∀ key, job.partitioner key job.numPartitions < job.numPartitions)
    {s s' : MapState job.numMappers} {t : Fin job.numMappers} (h : MapInv job s)
    (hs : job.mapStep s t = some s') : MapInv job s' := by
  unfold mapStep at hs
  split at hs
  next ht =>
    obtain rfl := Option.some.inj hs
    exact h.claim ht
  next ht =>
    obtain rfl := Option.some.inj hs
    exact h.emit ht (hpart _)
  next ht =>
    obtain rfl := Option.some.inj hs
    exact h.backToControl ht
  all_goals exact absurd hs (by simp)

theorem mapInv_of_reachable
    (hpart : ∀ key, job.partitioner key job.numPartitions < job.numPartitions)
    {s : MapState job.numMappers} (hs : job.mapMachine.Reachable s) : MapInv job s := by
  apply hs.invariant
  · rintro _ rfl
    exact mapInv_start
  · intro s t s' _ h _ hstep
    exact MapInv.step hpart h hstep

/-- No step of the map phase sorts a partition. -/
theorem idxsSet_mapStep {s s' : MapState job.numMappers} {t : Fin job.numMappers}
    (hs : job.mapStep s t = some s') (p : ℕ) :
    (s'.partitionList p).idxsSet = (s.partitionList p).idxsSet := by
  unfold mapStep at hs
  split at hs
  next =>
    obtain rfl := Option.some.inj hs
    simp only [MapJob.claim]
    split <;> rfl
  next pair calls ht =>
    obtain rfl := Option.some.inj hs
    simp only [MapJob.emit]
    split
    · split
      next partition hemit =>
        by_cases hp : p = job.partitionOf pair
        · subst hp
          simpa using PartitionData.idxsSet_mrEmit hemit
        · simp [Function.update_of_ne hp]
      next => rfl
    · rfl
  next =>
    obtain rfl := Option.some.inj hs
    rfl
  all_goals exact absurd hs (by simp)

theorem MapInv.inputCount_le {s : MapState job.numMappers} (h : MapInv job s)
    (hm : 0 < job.numMappers) (hjoined : job.Joined s) : job.inputCount ≤ s.idx :=
  h.exhausted ⟨0, hm⟩ (hjoined _)

/-- When all threads have been joined each partition holds the pairs emitted for it. -/
theorem MapInv.stored_eq {s : MapState job.numMappers} (h : MapInv job s)
    (hm : 0 < job.numMappers) (hjoined : job.Joined s) (p : ℕ) :
    ((s.partitionList p).stored : Multiset (Option KvPair)) = (job.emitted p).map some := by
  have hcons := h.conserved p
  have hzero : ∑ t, job.pending p (s.threads t) = 0 :=
    Finset.sum_eq_zero fun t _ ↦ by rw [hjoined t]; rfl
  rwa [hzero, Multiset.map_zero, add_zero, Nat.min_eq_right (h.inputCount_le hm hjoined)] at hcons

/-! ## Every run of the map phase ends -/

/-- The steps a thread has left before it returns, if it takes no further input. -/
def stepsLeft : MapThread → ℕ
  | .control => 1
  | .mapping calls => calls.length + 2
  | .exited => 0
  | .faulted => 0

/-- The steps that the inputs not yet taken will need. -/
def stepsUntaken (job : MapJob) (idx : ℕ) : ℕ :=
  (((List.range job.inputCount).drop idx).map fun i ↦ (job.emits i).length + 2).sum

def mapMeasure (job : MapJob) (s : MapState job.numMappers) : ℕ :=
  job.stepsUntaken s.idx + ∑ t, stepsLeft (s.threads t)

theorem stepsUntaken_of_lt {idx : ℕ} (h : idx < job.inputCount) :
    job.stepsUntaken idx = (job.emits idx).length + 2 + job.stepsUntaken (idx + 1) := by
  unfold stepsUntaken
  rw [List.drop_eq_getElem_cons (by simpa using h)]
  simp

theorem stepsUntaken_of_le {idx : ℕ} (h : job.inputCount ≤ idx) : job.stepsUntaken idx = 0 := by
  unfold stepsUntaken
  rw [List.drop_of_length_le (by simpa using h)]
  rfl

theorem mapMeasure_lt {s s' : MapState job.numMappers} {t : Fin job.numMappers}
    (hs : job.mapStep s t = some s') : job.mapMeasure s' < job.mapMeasure s := by
  unfold mapStep at hs
  split at hs
  next ht =>
    obtain rfl := Option.some.inj hs
    simp only [MapJob.claim]
    split
    next hdone =>
      have hlt : stepsLeft .exited < stepsLeft (s.threads t) := by rw [ht]; exact Nat.one_pos
      have hsum := sum_update_lt stepsLeft s.threads hlt
      simp only [mapMeasure, stepsUntaken_of_le hdone, stepsUntaken_of_le (Nat.le_succ_of_le hdone)]
      omega
    next hmore =>
      have hsum := sum_update_add stepsLeft s.threads t (.mapping (job.emits s.idx))
      have hone : stepsLeft (s.threads t) = 1 := by rw [ht]; rfl
      have htwo : stepsLeft (.mapping (job.emits s.idx)) = (job.emits s.idx).length + 2 := rfl
      simp only [mapMeasure, stepsUntaken_of_lt (Nat.lt_of_not_le hmore)]
      omega
  next pair calls ht =>
    obtain rfl := Option.some.inj hs
    have hmapping : stepsLeft (.mapping calls) < stepsLeft (s.threads t) := by
      rw [ht]
      simp [stepsLeft]
    have hfault : stepsLeft .faulted < stepsLeft (s.threads t) := by
      rw [ht]
      simp [stepsLeft]
    simp only [MapJob.emit]
    split
    · split
      · exact Nat.add_lt_add_left (sum_update_lt stepsLeft s.threads hmapping) _
      · exact Nat.add_lt_add_left (sum_update_lt stepsLeft s.threads hfault) _
    · exact Nat.add_lt_add_left (sum_update_lt stepsLeft s.threads hfault) _
  next ht =>
    obtain rfl := Option.some.inj hs
    have hlt : stepsLeft .control < stepsLeft (s.threads t) := by
      rw [ht]
      simp [stepsLeft]
    exact Nat.add_lt_add_left (sum_update_lt stepsLeft s.threads hlt) _
  all_goals exact absurd hs (by simp)

/-- A thread that neither returned nor faulted can always move: no section of the map phase waits
for another thread. -/
theorem mapStep_eq_none_iff {s : MapState job.numMappers} {t : Fin job.numMappers} :
    job.mapStep s t = none ↔ s.threads t = .exited ∨ s.threads t = .faulted := by
  unfold mapStep
  split <;> simp_all

/-! ## The result of the map phase -/

/-- The map phase loses and duplicates nothing, in every interleaving of its critical sections:
the arrays are as long as recorded and no access leaves one; and once all threads are joined each
input has been handed out exactly once, and each partition holds exactly the pairs emitted for
it. -/
theorem map_phase_exact (hm : 0 < job.numMappers)
    (hpart : ∀ key, job.partitioner key job.numPartitions < job.numPartitions)
    {s : MapState job.numMappers} (hs : job.mapMachine.Reachable s) :
    (∀ p < job.numPartitions, (s.partitionList p).nextToFill ≤ (s.partitionList p).sizeOfList ∧
      (s.partitionList p).kvPairList.length = (s.partitionList p).sizeOfList) ∧
    (∀ t, s.threads t ≠ .faulted) ∧
    (job.Joined s →
      s.handed.Perm (List.range job.inputCount) ∧
      ∀ p < job.numPartitions,
        ((s.partitionList p).stored : Multiset (Option KvPair)) = (job.emitted p).map some) := by
  have h := mapInv_of_reachable hpart hs
  refine ⟨fun p _ ↦ ⟨(h.sized p).nextToFill_le, (h.sized p).length_eq⟩, h.faultless,
    fun hjoined ↦ ⟨?_, fun p _ ↦ h.stored_eq hm hjoined p⟩⟩
  rw [h.handed, Nat.min_eq_right (h.inputCount_le hm hjoined)]

/-- Two threads, and one input on which the mapper emits three pairs: the array doubles once. -/
def threePairs : MapJob where
  inputCount := 1
  emits _ := List.replicate 3 ⟨.ofBytes [97], .ofBytes [49]⟩
  numMappers := 2
  partitioner _ _ := 0
  numPartitions := 1
  fresh _ := ⟨[], 0, 0, 0, [], [], [], fun _ ↦ none, false⟩

local instance neZeroTwo : NeZero 2 := ⟨by decide⟩

def threePairsSchedule : List (Fin threePairs.numMappers) := ([0, 1, 0, 0, 0, 0, 0] : List (Fin 2))

theorem map_phase_exact_threePairs :
    ∃ s, threePairs.mapMachine.run threePairs.start threePairsSchedule = some s ∧
      s.handed.Perm [0] ∧ ((s.partitionList 0).stored : Multiset (Option KvPair)) =
        (threePairs.emitted 0).map some := by
  have hrun : (threePairs.mapMachine.run threePairs.start threePairsSchedule).map
      (fun s ↦ decide (∀ t, s.threads t = .exited)) = some true := by decide
  obtain ⟨s, hs, hexited⟩ := Option.map_eq_some_iff.mp hrun
  have hjoined : ∀ t, s.threads t = .exited := of_decide_eq_true hexited
  obtain ⟨-, -, hexact⟩ := map_phase_exact (by decide) (fun _ ↦ Nat.one_pos) (.run (.init rfl) hs)
  obtain ⟨hhanded, hstored⟩ := hexact hjoined
  exact ⟨s, hs, hhanded, hstored 0 Nat.one_pos⟩

end MapJob

end CS537.MapReduce
