import CS537.MapReduce.ReducePhase
import Mathlib.Algebra.BigOperators.Intervals
import Mathlib.Algebra.BigOperators.Ring.List
import Mathlib.Algebra.Group.Action.Defs

/-!
# The outcome of the reduce phase

Every run of the reduce phase ends.  It ends with the calls of all groups made, unless a partition
has exactly one key: the reducer call on such a partition ends the process.
-/

open scoped BigOperators

namespace CS537.MapReduce

open Foundation

namespace ReducePhase

/-- A thread that can move in the control can move in the phase. -/
theorem step_isSome_of_control (job : ReduceJob) {libc : Libc} {numReducers : ℕ}
    {s : ReducePhase numReducers} {t : Fin numReducers} (halive : s.crashed = false)
    (ht : (job.reduceStep s.control t).isSome) : (s.step libc job.numPartitions t).isSome := by
  have hthread : s.control.threads t = (s.threads t).control := rfl
  cases hplace : s.threads t with
  | exited => simp [ReduceJob.reduceStep, hthread, hplace, ReducerThread.control] at ht
  | top =>
    by_cases hlock : s.curPartitionLock = none
    · simp [step, halive, hplace, hlock]
    · have hlock' : s.control.curPartitionLock ≠ none := hlock
      simp [ReduceJob.reduceStep, hthread, hplace, ReducerThread.control, hlock'] at ht
  | sorted p =>
    cases p with
    | zero => simp [step, halive, hplace]
    | succ p =>
      by_cases hpos : 0 < s.sentFlag p
      · simp [step, halive, hplace, semWait, hpos]
      · have hpos' : ¬0 < s.control.sentFlag p := hpos
        simp [ReduceJob.reduceStep, hthread, hplace, ReducerThread.control, ReduceState.semWait,
          hpos'] at ht
  | critical | claimed p | reducing p i | calling p i key values | returned p i =>
    simp only [step, halive, hplace, Bool.false_eq_true, if_false]
    repeat' split
    all_goals rfl

theorem exists_control_ne_exited {numReducers : ℕ} {s : ReducePhase numReducers}
    (hleft : ∃ t, s.threads t ≠ .exited) : ∃ t, s.control.threads t ≠ .exited := by
  obtain ⟨t, ht⟩ := hleft
  refine ⟨t, fun hexited ↦ ht ?_⟩
  change (s.threads t).control = .exited at hexited
  cases hplace : s.threads t <;> simp [hplace, ReducerThread.control] at hexited ⊢

end ReducePhase

namespace ReduceInput

variable {input : ReduceInput}

/-! ## The process lives unless a partition has exactly one key -/

section Steps

variable {s s' : ReducePhase input.numReducers} {t : Fin input.numReducers} {p i : ℕ}

theorem PhaseInv.lt_numPartitions (h : input.PhaseInv s)
    (ht : (s.threads t).control.partition = some p) : p < input.numPartitions :=
  lt_of_lt_of_le (h.control.ownerLt t p ht).2 h.bounded

/-- A step ends the process only on a partition with exactly one key. -/
theorem PhaseInv.alive (h : input.PhaseInv s)
    (hmany : ∀ p < input.numPartitions, (input.groups p).length ≠ 1)
    (hs : s.step input.libc input.numPartitions t = some s') : s'.crashed = false := by
  obtain ⟨halive, hstep⟩ := ReducePhase.step_cases hs
  cases hstep with
  | @sortCrash p ht hsort =>
    obtain ⟨sorted, hsort', -⟩ := (h.loaded_of_claimed ht).sort
    exact absurd (hsort.symm.trans hsort').symm (Option.some_ne_none sorted)
  | @keyCrash p i ht hi hkey =>
    have hready := h.ready_of_sorted (h.record_reducing ht)
    have hne := hmany p (h.lt_numPartitions (t := t) (by rw [ht]; rfl))
    rw [hready.numKeys] at hi
    rw [(hready.delimited hne).keyAt hi] at hkey
    exact absurd hkey (Option.some_ne_none _)
  | @get p i key values ht =>
    obtain ⟨hrecord, hi⟩ := h.record_calling ht
    have hne := hmany p (h.lt_numPartitions (t := t) (by rw [ht]; rfl))
    have hworking := h.working t
    rw [ht] at hworking
    obtain ⟨hreading, -⟩ := hworking.2 hne
    have hget := ((h.ready_of_sorted hrecord).delimited hne).get hi hreading.cursor
    rw [← hreading.key_eq] at hget
    split at hget
    · rw [ReducePhase.callGet_of_value hget]
      exact halive
    · rw [ReducePhase.callGet_of_null hget]
      exact halive
  | _ => exact halive

/-- While the process lives and some thread has not returned, some thread can move. -/
theorem PhaseInv.canMove (h : input.PhaseInv s) (halive : s.crashed = false)
    (hleft : ∃ t, s.threads t ≠ .exited) :
    ∃ t, (s.step input.libc input.numPartitions t).isSome := by
  obtain ⟨u, -, hu⟩ := h.control.canMove (.inl rfl) (ReducePhase.exists_control_ne_exited hleft)
  exact ⟨u, ReducePhase.step_isSome_of_control input.controlJob halive hu⟩

/-- When all threads have returned, the calls of all partitions have been made, and no partition
has exactly one key. -/
theorem PhaseInv.done (h : input.PhaseInv s) (hr : 0 < input.numReducers)
    (hexited : ∀ t, s.threads t = .exited) :
    (∀ p < input.numPartitions, (input.groups p).length ≠ 1 ∧
      s.callsOn p = (input.groups p).map (callOf p)) ∧
    ∀ p, input.numPartitions ≤ p → s.callsOn p = [] := by
  have hcur : input.numPartitions ≤ s.curReducePartition :=
    h.control.exhausted ⟨0, hr⟩ (congrArg ReducerThread.control (hexited _))
  have hfree (p : ℕ) (t : Fin input.numReducers) : (s.threads t).control.partition ≠ some p := by
    rw [hexited t]
    simp [ReducerThread.control, ReduceThread.partition]
  refine ⟨fun p hp ↦ ?_, fun p hp ↦ h.waiting p (h.bounded.trans hp)⟩
  obtain ⟨hne, hcalls⟩ := h.finished p (lt_of_lt_of_le hp hcur) (hfree p)
  exact ⟨hne, by rw [hcalls, firstCalls, List.take_length]⟩

/-- When all threads have returned, all partitions can be freed. -/
theorem PhaseInv.destruct (h : input.PhaseInv s) (hr : 0 < input.numReducers)
    (hexited : ∀ t, s.threads t = .exited) (hp : p < input.numPartitions) :
    (s.partitionList p).destruct = true := by
  have hcur : input.numPartitions ≤ s.curReducePartition :=
    h.control.exhausted ⟨0, hr⟩ (congrArg ReducerThread.control (hexited _))
  obtain ⟨k, hk⟩ := h.control.finished p (Nat.zero_le p) (lt_of_lt_of_le hp hcur) fun t ↦ by
    rw [show s.control.threads t = .exited from congrArg ReducerThread.control (hexited t)]
    simp [ReduceThread.partition]
  exact (h.ready_of_sorted hk).destruct

theorem PhaseInv.start {partitionList : ℕ → PartitionData}
    (hloaded : ∀ p, input.Loaded p (partitionList p)) :
    input.PhaseInv (ReducePhase.start 0 partitionList) where
  control := ReduceJob.reduceInv_start 0
  bounded := Nat.zero_le _
  loaded p _ := hloaded p
  ready p hp := by simp [ReducePhase.start] at hp
  working _ := trivial
  waiting _ _ := rfl
  finished p hp := by simp [ReducePhase.start] at hp

end Steps

/-! ## The phase ends -/

/-- A bound on the steps that the groups of partition `p` from `i` on take. -/
def remaining (input : ReduceInput) (p i : ℕ) : ℕ :=
  (((input.groups p).drop i).map fun g ↦ g.2.length + 3).sum

/-- A bound on the steps a thread takes before it returns, if it claims no further partition. -/
def stepsLeft (input : ReduceInput) : ReducerThread → ℕ
  | .top => 2
  | .critical => 1
  | .exited => 0
  | .claimed p => input.remaining p 0 + 5
  | .sorted p => input.remaining p 0 + 4
  | .reducing p i => input.remaining p i + 3
  | .calling p i _ values => input.remaining p (i + 1) + 5 +
      (((input.groups p)[i]?.elim 0 fun g ↦ g.2.length) - values.length)
  | .returned p i => input.remaining p (i + 1) + 4

/-- A bound on the steps of the phase from a state on. -/
def phaseMeasure (input : ReduceInput) (s : ReducePhase input.numReducers) : ℕ :=
  if s.crashed then 0
  else 1 + ∑ p ∈ Finset.Ico s.curReducePartition input.numPartitions, (input.remaining p 0 + 5) +
    ∑ t, input.stepsLeft (s.threads t)

section Steps

variable {s s' : ReducePhase input.numReducers} {t : Fin input.numReducers} {p i : ℕ}

theorem remaining_of_lt (hi : i < (input.groups p).length) :
    input.remaining p i = (input.groups p)[i].2.length + 3 + input.remaining p (i + 1) := by
  unfold remaining
  rw [List.drop_eq_getElem_cons hi, List.map_cons, List.sum_cons]

/-- A step of a thread that brings it closer to its return and claims no partition. -/
theorem phaseMeasure_of_thread {place : ReducerThread} (halive : s.crashed = false)
    (hthreads : s'.threads = Function.update s.threads t place)
    (hcur : s'.curReducePartition = s.curReducePartition)
    (hlt : input.stepsLeft place < input.stepsLeft (s.threads t)) :
    input.phaseMeasure s' < input.phaseMeasure s := by
  have hsum := sum_update_lt input.stepsLeft s.threads hlt
  simp only [phaseMeasure, halive, hthreads, hcur, Bool.false_eq_true, if_false]
  split <;> omega

theorem phaseMeasure_of_crash (halive : s.crashed = false) :
    input.phaseMeasure s.crash < input.phaseMeasure s := by
  simp only [phaseMeasure, ReducePhase.crash, halive, Bool.false_eq_true, if_true, if_false]
  omega

/-- Every step of the phase decreases its measure. -/
theorem PhaseInv.measure_lt (h : input.PhaseInv s)
    (hs : s.step input.libc input.numPartitions t = some s') :
    input.phaseMeasure s' < input.phaseMeasure s := by
  obtain ⟨halive, hstep⟩ := ReducePhase.step_cases hs
  cases hstep with
  | enter ht => exact phaseMeasure_of_thread (t := t) halive rfl rfl (by rw [ht]; simp [stepsLeft])
  | finish ht => exact phaseMeasure_of_thread halive rfl rfl (by rw [ht]; simp [stepsLeft])
  | claim ht hmore =>
    have hsum := sum_update_add input.stepsLeft s.threads t (.claimed s.curReducePartition)
    have hcritical : input.stepsLeft (s.threads t) = 1 := by rw [ht]; rfl
    have hclaimed : input.stepsLeft (.claimed s.curReducePartition) =
        input.remaining s.curReducePartition 0 + 5 := rfl
    have hpool := Finset.sum_eq_sum_Ico_succ_bot hmore fun p ↦ input.remaining p 0 + 5
    simp only [phaseMeasure, ReducePhase.goto, halive, Bool.false_eq_true, if_false]
    omega
  | sortCrash => exact phaseMeasure_of_crash halive
  | sort ht => exact phaseMeasure_of_thread halive rfl rfl (by rw [ht]; simp [stepsLeft])
  | turnFirst ht => exact phaseMeasure_of_thread halive rfl rfl (by rw [ht]; simp [stepsLeft])
  | turn ht => exact phaseMeasure_of_thread halive rfl rfl (by rw [ht]; simp [stepsLeft])
  | keyCrash => exact phaseMeasure_of_crash halive
  | call ht hi =>
    rw [(h.ready_of_sorted (h.record_reducing ht)).numKeys] at hi
    refine phaseMeasure_of_thread halive rfl rfl ?_
    rw [ht]
    simp only [stepsLeft, remaining_of_lt hi, List.getElem?_eq_getElem hi, Option.elim_some,
      List.length_nil]
    omega
  | postEmpty ht =>
    refine phaseMeasure_of_thread halive rfl rfl ?_
    rw [ht]
    simp only [stepsLeft]
    omega
  | leave ht =>
    refine phaseMeasure_of_thread halive rfl rfl ?_
    rw [ht]
    simp only [stepsLeft]
    omega
  | @get p i key values ht =>
    obtain ⟨hrecord, hi⟩ := h.record_calling ht
    have hready := h.ready_of_sorted hrecord
    have hworking := h.working t
    rw [ht] at hworking
    by_cases hne : (input.groups p).length = 1
    · have hget : (s.partitionList p).get key = none := by
        simp [PartitionData.get, hready.oneKey hne]
      rw [ReducePhase.callGet, hget]
      exact phaseMeasure_of_crash halive
    · obtain ⟨hreading, -⟩ := hworking.2 hne
      have hget := (hready.delimited hne).get hi hreading.cursor
      rw [← hreading.key_eq] at hget
      split at hget
      next hr =>
        rw [ReducePhase.callGet_of_value hget]
        refine phaseMeasure_of_thread halive rfl rfl ?_
        rw [ht]
        simp only [stepsLeft, List.getElem?_eq_getElem hi, Option.elim_some, List.length_append,
          List.length_singleton]
        omega
      next =>
        rw [ReducePhase.callGet_of_null hget]
        refine phaseMeasure_of_thread halive rfl rfl ?_
        rw [ht]
        simp only [stepsLeft]
        omega
  | post ht => exact phaseMeasure_of_thread halive rfl rfl (by rw [ht]; simp [stepsLeft])

/-- The measure of the phase at its start is bounded by the number of pairs. -/
theorem phaseMeasure_start_le (partitionList : ℕ → PartitionData) :
    input.phaseMeasure (ReducePhase.start 0 partitionList) ≤
      1 + ∑ p ∈ Finset.range input.numPartitions, (4 * (input.contents p).length + 5) +
        2 * input.numReducers := by
  have hremaining (p : ℕ) : input.remaining p 0 ≤ 4 * (input.contents p).length := by
    have hgroups := isGrouping_sortedGroups input.libc.qsort (input.contents p)
    have hlength : ((input.groups p).map fun g ↦ g.2.length).sum = (input.contents p).length := by
      rw [← (input.libc.qsort.perm _ (input.contents p)).length_eq]
      change _ = (sortedPairs input.libc.qsort (input.contents p)).length
      rw [← hgroups.flatten, List.length_flatMap]
      rfl
    rw [← hlength, remaining, List.drop_zero, ← List.sum_map_mul_left]
    refine List.sum_le_sum fun g hg ↦ ?_
    have hpos := List.length_pos_of_ne_nil (hgroups.ne_nil g hg)
    omega
  have hpool : ∑ p ∈ Finset.range input.numPartitions, (input.remaining p 0 + 5) ≤
      ∑ p ∈ Finset.range input.numPartitions, (4 * (input.contents p).length + 5) :=
    Finset.sum_le_sum fun p _ ↦ Nat.add_le_add_right (hremaining p) 5
  simp only [phaseMeasure, ReducePhase.start, Bool.false_eq_true, if_false, stepsLeft,
    ← Finset.range_eq_Ico, Finset.sum_const, Finset.card_univ, Fintype.card_fin, smul_eq_mul]
  omega

end Steps

end ReduceInput

end CS537.MapReduce
