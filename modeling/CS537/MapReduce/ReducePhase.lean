import CS537.MapReduce.ReduceController
import CS537.MapReduce.SortPartition

/-!
# The reduce phase on the partitions

`reduce_controller` with the partitions it works on.  The reducer is one that calls `Get` until it
answers null.  A step that has no result, such as following the null answer of the key map, ends
the process.  The phase refines its control: forgetting the partitions, each step is a step of
`ReduceJob.reduceMachine` or changes nothing there.
-/

namespace CS537.MapReduce

open Foundation

/-- A completed call of the reducer and the values it got. -/
structure ReducerCall where
  key : CString
  partition : ℕ
  values : List CString

/-- Where a thread of `reduce_controller` is; inside the reducer it holds the key of the call and
the values got so far. -/
inductive ReducerThread where
  | top
  | critical
  | claimed (p : ℕ)
  | sorted (p : ℕ)
  | reducing (p i : ℕ)
  | calling (p i : ℕ) (key : CString) (values : List CString)
  | returned (p i : ℕ)
  | exited
  deriving DecidableEq

/-- The place of the thread in the control of the phase. -/
def ReducerThread.control : ReducerThread → ReduceThread
  | top => .top
  | critical => .critical
  | claimed p => .claimed p
  | sorted p => .sorted p
  | reducing p i => .reducing p i
  | calling p i _ _ => .calling p i
  | returned p i => .returned p i
  | exited => .exited

/-- The globals of the reduce phase and its threads; `calls` and `history` record what has been
done. -/
structure ReducePhase (numReducers : ℕ) where
  curReducePartition : ℕ
  curPartitionLock : Option (Fin numReducers)
  partitionList : ℕ → PartitionData
  sentFlag : ℕ → ℕ
  threads : Fin numReducers → ReducerThread
  crashed : Bool
  calls : List ReducerCall
  history : List ReduceEvent

/-- What the C library leaves open: the order of equal keys after `qsort` and the contents of
fresh memory. -/
structure Libc where
  qsort : Qsort
  freshPartition : ℕ → PartitionData
  freshIdxs : ℕ → FreshIdxs

namespace ReducePhase

variable {numReducers : ℕ}

def goto (s : ReducePhase numReducers) (t : Fin numReducers) (place : ReducerThread)
    (event : ReduceEvent) : ReducePhase numReducers :=
  { s with threads := Function.update s.threads t place, history := event :: s.history }

def crash (s : ReducePhase numReducers) : ReducePhase numReducers := { s with crashed := true }

def setPartition (s : ReducePhase numReducers) (p : ℕ) (partition : PartitionData) :
    ReducePhase numReducers :=
  { s with partitionList := Function.update s.partitionList p partition }

def semPost (s : ReducePhase numReducers) (p : ℕ) : ReducePhase numReducers :=
  { s with sentFlag := Function.update s.sentFlag p (s.sentFlag p + 1) }

def semWait (s : ReducePhase numReducers) (p : ℕ) : Option (ReducePhase numReducers) :=
  if 0 < s.sentFlag p then
    some { s with sentFlag := Function.update s.sentFlag p (s.sentFlag p - 1) }
  else none

/-- The phase begins with the partitions that the mappers left. -/
def start (curReducePartition : ℕ) (partitionList : ℕ → PartitionData) :
    ReducePhase numReducers where
  curReducePartition := curReducePartition
  curPartitionLock := none
  partitionList := partitionList
  sentFlag _ := 0
  threads _ := .top
  crashed := false
  calls := []
  history := []

/-- One call of `Get` by the reducer, or its return after a null answer. -/
def callGet (s : ReducePhase numReducers) (t : Fin numReducers) (p i : ℕ) (key : CString)
    (values : List CString) : ReducePhase numReducers :=
  match (s.partitionList p).get key with
  | none => s.crash
  | some (some value, partition) =>
    let s := s.setPartition p partition
    { s with threads := Function.update s.threads t (.calling p i key (values ++ [value])) }
  | some (none, partition) =>
    let s := s.setPartition p partition
    goto { s with calls := s.calls ++ [⟨key, p, values⟩] } t (.returned p i) (.callReturn p i)

theorem callGet_of_value {s : ReducePhase numReducers} {t : Fin numReducers} {p i : ℕ}
    {key value : CString} {values : List CString} {partition : PartitionData}
    (hget : (s.partitionList p).get key = some (some value, partition)) :
    s.callGet t p i key values = { s.setPartition p partition with
      threads := Function.update s.threads t (.calling p i key (values ++ [value])) } := by
  rw [callGet, hget]
  rfl

theorem callGet_of_null {s : ReducePhase numReducers} {t : Fin numReducers} {p i : ℕ}
    {key : CString} {values : List CString} {partition : PartitionData}
    (hget : (s.partitionList p).get key = some (none, partition)) :
    s.callGet t p i key values =
      goto { s.setPartition p partition with calls := s.calls ++ [⟨key, p, values⟩] }
        t (.returned p i) (.callReturn p i) := by
  rw [callGet, hget]
  rfl

/-- One step of thread `t`; `none` when it has returned, is blocked, or the process has died. -/
def step (libc : Libc) (numPartitions : ℕ) (s : ReducePhase numReducers) (t : Fin numReducers) :
    Option (ReducePhase numReducers) :=
  if s.crashed then none
  else match s.threads t with
  | .top =>
    if s.curPartitionLock = none then
      some { s with
        curPartitionLock := some t
        threads := Function.update s.threads t .critical }
    else none
  | .critical =>
    let partitionToReduce := s.curReducePartition
    if numPartitions ≤ partitionToReduce then
      some { s with
        curPartitionLock := none
        threads := Function.update s.threads t .exited }
    else
      some <| goto
        { s with curReducePartition := s.curReducePartition + 1, curPartitionLock := none }
        t (.claimed partitionToReduce) (.claim partitionToReduce)
  | .claimed p =>
    match sortPartition libc.qsort (libc.freshIdxs p) (s.partitionList p) with
    | none => some s.crash
    | some partition => some ((s.setPartition p partition).goto t (.sorted p) (.sort p))
  | .sorted 0 => some (s.goto t (.reducing 0 0) (.turn 0))
  | .sorted (p + 1) => (s.semWait p).map (·.goto t (.reducing (p + 1) 0) (.turn (p + 1)))
  | .reducing p i =>
    if i < (s.partitionList p).numKeys then
      match (s.partitionList p).keyAt i with
      | none => some s.crash
      | some key => some (s.goto t (.calling p i key []) (.callStart p i))
    else if (s.partitionList p).numKeys = 0 then some ((s.semPost p).goto t .top (.post p))
    else some { s with threads := Function.update s.threads t .top }
  | .calling p i key values => some (s.callGet t p i key values)
  | .returned p i => some ((s.semPost p).goto t (.reducing p (i + 1)) (.post p))
  | .exited => none

/-- What a step of thread `t` does. -/
inductive StepsTo (libc : Libc) (numPartitions : ℕ) (s : ReducePhase numReducers)
    (t : Fin numReducers) : ReducePhase numReducers → Prop where
  | enter (ht : s.threads t = .top) (hfree : s.curPartitionLock = none) :
    StepsTo libc numPartitions s t { s with
      curPartitionLock := some t
      threads := Function.update s.threads t .critical }
  | finish (ht : s.threads t = .critical) (hdone : numPartitions ≤ s.curReducePartition) :
    StepsTo libc numPartitions s t { s with
      curPartitionLock := none
      threads := Function.update s.threads t .exited }
  | claim (ht : s.threads t = .critical) (hmore : s.curReducePartition < numPartitions) :
    StepsTo libc numPartitions s t (goto
      { s with curReducePartition := s.curReducePartition + 1, curPartitionLock := none }
      t (.claimed s.curReducePartition) (.claim s.curReducePartition))
  | sortCrash {p : ℕ} (ht : s.threads t = .claimed p)
    (hsort : sortPartition libc.qsort (libc.freshIdxs p) (s.partitionList p) = none) :
    StepsTo libc numPartitions s t s.crash
  | sort {p : ℕ} {partition : PartitionData} (ht : s.threads t = .claimed p)
    (hsort : sortPartition libc.qsort (libc.freshIdxs p) (s.partitionList p) = some partition) :
    StepsTo libc numPartitions s t ((s.setPartition p partition).goto t (.sorted p) (.sort p))
  | turnFirst (ht : s.threads t = .sorted 0) :
    StepsTo libc numPartitions s t (s.goto t (.reducing 0 0) (.turn 0))
  | turn {p : ℕ} (ht : s.threads t = .sorted (p + 1)) (hpos : 0 < s.sentFlag p) :
    StepsTo libc numPartitions s t
      (goto { s with sentFlag := Function.update s.sentFlag p (s.sentFlag p - 1) }
        t (.reducing (p + 1) 0) (.turn (p + 1)))
  | keyCrash {p i : ℕ} (ht : s.threads t = .reducing p i) (hi : i < (s.partitionList p).numKeys)
    (hkey : (s.partitionList p).keyAt i = none) : StepsTo libc numPartitions s t s.crash
  | call {p i : ℕ} {key : CString} (ht : s.threads t = .reducing p i)
    (hi : i < (s.partitionList p).numKeys) (hkey : (s.partitionList p).keyAt i = some key) :
    StepsTo libc numPartitions s t (s.goto t (.calling p i key []) (.callStart p i))
  | postEmpty {p i : ℕ} (ht : s.threads t = .reducing p i)
    (hi : (s.partitionList p).numKeys ≤ i) (hempty : (s.partitionList p).numKeys = 0) :
    StepsTo libc numPartitions s t ((s.semPost p).goto t .top (.post p))
  | leave {p i : ℕ} (ht : s.threads t = .reducing p i) (hi : (s.partitionList p).numKeys ≤ i)
    (hkeys : (s.partitionList p).numKeys ≠ 0) :
    StepsTo libc numPartitions s t { s with threads := Function.update s.threads t .top }
  | get {p i : ℕ} {key : CString} {values : List CString}
    (ht : s.threads t = .calling p i key values) :
    StepsTo libc numPartitions s t (s.callGet t p i key values)
  | post {p i : ℕ} (ht : s.threads t = .returned p i) :
    StepsTo libc numPartitions s t ((s.semPost p).goto t (.reducing p (i + 1)) (.post p))

theorem step_cases {libc : Libc} {numPartitions : ℕ} {s s' : ReducePhase numReducers}
    {t : Fin numReducers} (hs : s.step libc numPartitions t = some s') :
    s.crashed = false ∧ StepsTo libc numPartitions s t s' := by
  unfold step at hs
  split at hs
  · simp at hs
  next halive =>
    refine ⟨by simpa using halive, ?_⟩
    split at hs
    case h_1 ht =>
      split at hs
      next hfree =>
        obtain rfl := Option.some.inj hs
        exact .enter ht hfree
      next => simp at hs
    case h_2 ht =>
      simp only at hs
      split at hs
      all_goals obtain rfl := Option.some.inj hs
      next hdone => exact .finish ht hdone
      next hmore => exact .claim ht (Nat.lt_of_not_le hmore)
    case h_3 p ht =>
      split at hs
      all_goals obtain rfl := Option.some.inj hs
      next hsort => exact .sortCrash ht hsort
      next hsort => exact .sort ht hsort
    case h_4 ht =>
      obtain rfl := Option.some.inj hs
      exact .turnFirst ht
    case h_5 p ht =>
      unfold semWait at hs
      split at hs
      next hpos =>
        obtain rfl := Option.some.inj hs
        exact .turn ht hpos
      next => simp at hs
    case h_6 p i ht =>
      split at hs
      next hi =>
        split at hs
        all_goals obtain rfl := Option.some.inj hs
        next hkey => exact .keyCrash ht hi hkey
        next hkey => exact .call ht hi hkey
      next hi =>
        split at hs
        all_goals obtain rfl := Option.some.inj hs
        next hempty => exact .postEmpty ht (Nat.le_of_not_lt hi) hempty
        next hkeys => exact .leave ht (Nat.le_of_not_lt hi) hkeys
    case h_7 p i key values ht =>
      obtain rfl := Option.some.inj hs
      exact .get ht
    case h_8 p i ht =>
      obtain rfl := Option.some.inj hs
      exact .post ht
    case h_9 => simp at hs

/-- The control of the phase: the partitions and the calls are forgotten. -/
def control (s : ReducePhase numReducers) : ReduceState numReducers where
  curReducePartition := s.curReducePartition
  curPartitionLock := s.curPartitionLock
  sentFlag := s.sentFlag
  threads t := (s.threads t).control
  history := s.history

/-- The calls made on partition `p`. -/
def callsOn (s : ReducePhase numReducers) (p : ℕ) : List ReducerCall :=
  s.calls.filter fun call ↦ call.partition = p

/-! ## The control is refined -/

theorem control_update (threads : Fin numReducers → ReducerThread) (t : Fin numReducers)
    (place : ReducerThread) :
    (fun u ↦ (Function.update threads t place u).control) =
      Function.update (fun u ↦ (threads u).control) t place.control := by
  funext u
  exact Function.apply_update (fun _ ↦ ReducerThread.control) threads t place u

theorem control_threads (s : ReducePhase numReducers) (t : Fin numReducers)
    (place : ReducerThread) :
    ({ s with threads := Function.update s.threads t place } : ReducePhase numReducers).control =
      { s.control with threads := Function.update s.control.threads t place.control } := by
  simp only [control, control_update]

@[simp]
theorem control_goto (s : ReducePhase numReducers) (t : Fin numReducers) (place : ReducerThread)
    (event : ReduceEvent) :
    (s.goto t place event).control = s.control.goto t place.control event := by
  simp only [goto, ReduceState.goto, control, control_update]

/-- While the process lives, a step of the phase is a step of its control, or one of `Get`, which
the control does not see. -/
theorem control_step (job : ReduceJob) {libc : Libc} {s s' : ReducePhase numReducers}
    {t : Fin numReducers} (hs : s.step libc job.numPartitions t = some s')
    (halive : s'.crashed = false)
    (hkeys : ∀ p i, s.threads t = .reducing p i → (s.partitionList p).numKeys = job.numKeys p) :
    job.reduceStep s.control t = some s'.control ∨
      s'.control = s.control ∧ ¬(s.threads t).control.Waits := by
  obtain ⟨-, hstep⟩ := step_cases hs
  cases hstep with
  | enter ht hfree =>
    have hplace : s.control.threads t = .top := congrArg ReducerThread.control ht
    have hlock : s.control.curPartitionLock = none := hfree
    left
    simp only [ReduceJob.reduceStep, hplace, hlock, if_true]
    exact congrArg some
      (control_threads { s with curPartitionLock := some t } t .critical).symm
  | finish ht hdone =>
    have hplace : s.control.threads t = .critical := congrArg ReducerThread.control ht
    have hdone' : job.numPartitions ≤ s.control.curReducePartition := hdone
    left
    simp only [ReduceJob.reduceStep, hplace, if_pos hdone']
    exact congrArg some
      (control_threads { s with curPartitionLock := none } t .exited).symm
  | claim ht hmore =>
    have hplace : s.control.threads t = .critical := congrArg ReducerThread.control ht
    have hmore' : ¬job.numPartitions ≤ s.control.curReducePartition :=
      Nat.not_le_of_lt hmore
    left
    simp only [ReduceJob.reduceStep, hplace, if_neg hmore']
    rw [control_goto]
    rfl
  | sortCrash => simp [crash] at halive
  | @sort p partition ht =>
    have hplace : s.control.threads t = .claimed p := congrArg ReducerThread.control ht
    left
    simp only [ReduceJob.reduceStep, hplace]
    rw [control_goto]
    rfl
  | turnFirst ht =>
    have hplace : s.control.threads t = .sorted 0 := congrArg ReducerThread.control ht
    left
    simp only [ReduceJob.reduceStep, hplace]
    rw [control_goto]
    rfl
  | @turn p ht hpos =>
    have hplace : s.control.threads t = .sorted (p + 1) := congrArg ReducerThread.control ht
    have hpos' : 0 < s.control.sentFlag p := hpos
    left
    simp only [ReduceJob.reduceStep, hplace]
    rw [ReduceState.semWait, if_pos hpos', control_goto]
    rfl
  | keyCrash => simp [crash] at halive
  | @call p i key ht hi =>
    have hplace : s.control.threads t = .reducing p i := congrArg ReducerThread.control ht
    rw [hkeys p i ht] at hi
    left
    simp only [ReduceJob.reduceStep, hplace]
    rw [if_pos hi, control_goto]
    rfl
  | @postEmpty p i ht hi hempty =>
    have hplace : s.control.threads t = .reducing p i := congrArg ReducerThread.control ht
    rw [hkeys p i ht] at hi hempty
    left
    simp only [ReduceJob.reduceStep, hplace]
    rw [if_neg (Nat.not_lt.mpr hi), if_pos hempty, control_goto]
    rfl
  | @leave p i ht hi hmany =>
    have hplace : s.control.threads t = .reducing p i := congrArg ReducerThread.control ht
    rw [hkeys p i ht] at hi hmany
    left
    simp only [ReduceJob.reduceStep, hplace]
    rw [if_neg (Nat.not_lt.mpr hi), if_neg hmany, control_threads]
    rfl
  | @get p i key values ht =>
    have hplace : s.control.threads t = .calling p i := congrArg ReducerThread.control ht
    unfold callGet at halive ⊢
    split at halive
    next => simp [crash] at halive
    next =>
      refine .inr ⟨?_, by rw [ht]; exact not_false⟩
      rw [control_threads]
      have hsame : Function.update s.control.threads t (.calling p i) = s.control.threads :=
        Function.update_eq_self_iff.mpr hplace.symm
      exact congrArg (fun threads ↦ { s.control with threads := threads }) hsame
    next =>
      left
      simp only [ReduceJob.reduceStep, hplace]
      rw [control_goto]
      rfl
  | @post p i ht =>
    have hplace : s.control.threads t = .returned p i := congrArg ReducerThread.control ht
    left
    simp only [ReduceJob.reduceStep, hplace]
    rw [control_goto]
    rfl

end ReducePhase

/-! ## The invariant of the partitions -/

/-- What the reduce phase starts from: the contents of the partitions when the mappers are done,
with the parameters of the phase. -/
structure ReduceInput where
  libc : Libc
  numReducers : ℕ
  numPartitions : ℕ
  contents : ℕ → List KvPair

namespace ReduceInput

variable (input : ReduceInput)

/-- The sorted pairs of a partition, grouped by key. -/
def groups (p : ℕ) : Groups := sortedGroups input.libc.qsort (input.contents p)

/-- The control of the phase on this input. -/
abbrev controlJob : ReduceJob where
  numPartitions := input.numPartitions
  numKeys p := (input.groups p).length

/-- The call of the reducer that a group of partition `p` calls for. -/
def callOf (p : ℕ) (g : CString × List KvPair) : ReducerCall := ⟨g.1, p, g.2.map KvPair.value⟩

/-- The calls for the first `i` groups of partition `p`. -/
def firstCalls (p i : ℕ) : List ReducerCall := ((input.groups p).take i).map (callOf p)

/-- The partition holds its pairs and has not been sorted. -/
def Loaded (p : ℕ) (partition : PartitionData) : Prop :=
  partition.nextToFill ≤ partition.kvPairList.length ∧
    partition.stored = (input.contents p).map some

/-- The partition has been sorted. -/
structure Ready (p : ℕ) (partition : PartitionData) : Prop where
  numKeys : partition.numKeys = (input.groups p).length
  delimited : (input.groups p).length ≠ 1 →
    Delimited partition (sortedPairs input.libc.qsort (input.contents p)) (input.groups p)
  oneKey : (input.groups p).length = 1 → partition.m = fun _ ↦ none
  destruct : partition.destruct = true

/-- The cursors of the groups from `i` on are at their starts. -/
def Untouched (p i : ℕ) (partition : PartitionData) : Prop :=
  ∀ j < (input.groups p).length, i ≤ j →
    partition.curIdxs[j]? = some (startOf (input.groups p) j)

/-- The reducer has got the first `values.length` values of group `i`. -/
structure Reading (p i : ℕ) (key : CString) (values : List CString) (partition : PartitionData) :
    Prop where
  lt : i < (input.groups p).length
  key_eq : key = (input.groups p)[i].1
  values_eq : values = ((input.groups p)[i].2.map KvPair.value).take values.length
  cursor : partition.curIdxs[i]? = some (startOf (input.groups p) i + values.length)

/-- What a thread at a given place knows of its partition and of the calls made on it. -/
def Working (s : ReducePhase input.numReducers) : ReducerThread → Prop
  | .claimed p => s.callsOn p = []
  | .sorted p => s.callsOn p = [] ∧
      ((input.groups p).length ≠ 1 → input.Untouched p 0 (s.partitionList p))
  | .reducing p i => s.callsOn p = input.firstCalls p i ∧
      ((input.groups p).length ≠ 1 → input.Untouched p i (s.partitionList p)) ∧
      ((input.groups p).length = 1 → i = 0)
  | .calling p i key values => s.callsOn p = input.firstCalls p i ∧
      ((input.groups p).length ≠ 1 → input.Reading p i key values (s.partitionList p) ∧
        input.Untouched p (i + 1) (s.partitionList p))
  | .returned p i => s.callsOn p = input.firstCalls p (i + 1) ∧ (input.groups p).length ≠ 1 ∧
      input.Untouched p (i + 1) (s.partitionList p)
  | .top | .critical | .exited => True

/-- The invariant of the reduce phase while the process lives.  The calls on a partition are
those of the groups its thread has passed; a partition that its thread has left does not have
exactly one key, since no call on such a partition returns. -/
structure PhaseInv (s : ReducePhase input.numReducers) : Prop where
  control : ReduceJob.ReduceInv input.controlJob 0 s.control
  bounded : s.curReducePartition ≤ input.numPartitions
  loaded : ∀ p, .sort p ∉ s.history → input.Loaded p (s.partitionList p)
  ready : ∀ p, .sort p ∈ s.history → input.Ready p (s.partitionList p)
  working : ∀ t, input.Working s (s.threads t)
  waiting : ∀ p, s.curReducePartition ≤ p → s.callsOn p = []
  finished : ∀ p < s.curReducePartition, (∀ t, (s.threads t).control.partition ≠ some p) →
    (input.groups p).length ≠ 1 ∧ s.callsOn p = input.firstCalls p (input.groups p).length

variable {input}

theorem Working.frame {s s' : ReducePhase input.numReducers} {place : ReducerThread}
    (hframe : ∀ p, place.control.partition = some p →
      s'.partitionList p = s.partitionList p ∧ s'.callsOn p = s.callsOn p)
    (h : input.Working s place) : input.Working s' place := by
  cases place with
  | top | critical | exited => trivial
  | claimed p | sorted p | reducing p i | calling p i key values | returned p i =>
    obtain ⟨hpartition, hcalls⟩ := hframe p rfl
    simp only [Working, hpartition, hcalls] at h ⊢
    exact h

/-- What a step of a thread on its own partition `p` has to show about the partitions. -/
theorem PhaseInv.work {s s' : ReducePhase input.numReducers} (h : input.PhaseInv s)
    {t : Fin input.numReducers} {p : ℕ} {place : ReducerThread}
    (ht : (s.threads t).control.partition = some p)
    (hcontrol : ReduceJob.ReduceInv input.controlJob 0 s'.control)
    (hthreads : s'.threads = Function.update s.threads t place)
    (hcur : s'.curReducePartition = s.curReducePartition)
    (hother : ∀ q, q ≠ p → s'.partitionList q = s.partitionList q ∧ s'.callsOn q = s.callsOn q ∧
      (.sort q ∈ s'.history ↔ .sort q ∈ s.history))
    (hloaded : .sort p ∉ s'.history → input.Loaded p (s'.partitionList p))
    (hready : .sort p ∈ s'.history → input.Ready p (s'.partitionList p))
    (hworking : input.Working s' place)
    (hplace : place.control.partition = some p ∨ (input.groups p).length ≠ 1 ∧
      s'.callsOn p = input.firstCalls p (input.groups p).length) : input.PhaseInv s' := by
  have hlt : p < s.curReducePartition := (h.control.ownerLt t p ht).2
  have hself : s'.threads t = place := by rw [hthreads, Function.update_self]
  have hne (u : Fin input.numReducers) (hu : u ≠ t) : s'.threads u = s.threads u := by
    rw [hthreads, Function.update_of_ne hu]
  refine ⟨hcontrol, hcur ▸ h.bounded, fun q hq ↦ ?_, fun q hq ↦ ?_, fun u ↦ ?_, fun q hq ↦ ?_,
    fun q hq hfree ↦ ?_⟩
  · by_cases hqp : q = p
    · subst hqp
      exact hloaded hq
    · obtain ⟨hpartition, -, hsort⟩ := hother q hqp
      rw [hpartition]
      exact h.loaded q (hsort.not.mp hq)
  · by_cases hqp : q = p
    · subst hqp
      exact hready hq
    · obtain ⟨hpartition, -, hsort⟩ := hother q hqp
      rw [hpartition]
      exact h.ready q (hsort.mp hq)
  · by_cases hu : u = t
    · subst hu
      rwa [hself]
    · rw [hne u hu]
      refine (h.working u).frame fun q hq ↦ ?_
      have hqp : q ≠ p := by
        rintro rfl
        exact hu (h.control.ownerUnique u t q hq ht)
      exact ⟨(hother q hqp).1, (hother q hqp).2.1⟩
  · rw [hcur] at hq
    rw [(hother q (by omega)).2.1]
    exact h.waiting q hq
  · rw [hcur] at hq
    by_cases hqp : q = p
    · subst hqp
      rcases hplace with hp | hdone
      · exact absurd (hself ▸ hp) (hfree t)
      · exact hdone
    · rw [(hother q hqp).2.1]
      refine h.finished q hq fun u hu ↦ ?_
      by_cases hut : u = t
      · subst hut
        exact hqp (Option.some.inj (hu.symm.trans ht))
      · exact hfree u (by rwa [hne u hut])

/-! ## Refinement of the control -/

/-- A thread that is past the sort works on a partition that is ready. -/
theorem PhaseInv.ready_of_sorted {s : ReducePhase input.numReducers} (h : input.PhaseInv s) {p : ℕ}
    {n k : ℕ} (hrecord : record s.history p = (1, n, k)) : input.Ready p (s.partitionList p) := by
  simp only [record, Prod.mk.injEq] at hrecord
  exact h.ready p (List.count_pos_iff.mp (by omega))

section Steps

variable {s s' : ReducePhase input.numReducers} {t : Fin input.numReducers} {p i : ℕ}

theorem PhaseInv.record_reducing (h : input.PhaseInv s) (ht : s.threads t = .reducing p i) :
    record s.history p = (1, 1, i) := by
  simpa [ReducePhase.control, ht, ReducerThread.control, ReduceJob.Progress] using h.control.working t

theorem PhaseInv.record_calling (h : input.PhaseInv s) {key : CString} {values : List CString}
    (ht : s.threads t = .calling p i key values) :
    record s.history p = (1, 1, i) ∧ i < (input.groups p).length := by
  simpa [ReducePhase.control, ht, ReducerThread.control, ReduceJob.Progress] using h.control.working t

theorem PhaseInv.control_next (h : input.PhaseInv s)
    (hs : s.step input.libc input.numPartitions t = some s') (halive : s'.crashed = false) :
    ReduceJob.ReduceInv input.controlJob 0 s'.control := by
  have hkeys (p i : ℕ) (ht : s.threads t = .reducing p i) :
      (s.partitionList p).numKeys = (input.groups p).length :=
    (h.ready_of_sorted (h.record_reducing ht)).numKeys
  rcases ReducePhase.control_step input.controlJob hs halive hkeys with hstep | ⟨hsame, -⟩
  · exact h.control.step hstep
  · rw [hsame]
    exact h.control

end Steps

/-! ## The invariant is kept -/

section Steps

variable {s s' : ReducePhase input.numReducers} {t : Fin input.numReducers} {p i : ℕ}

/-- A step between places without a partition. -/
theorem PhaseInv.idle (h : input.PhaseInv s) {place : ReducerThread}
    {lock : Option (Fin input.numReducers)} (ht : (s.threads t).control.partition = none)
    (hplace : place.control.partition = none)
    (hcontrol : ReduceJob.ReduceInv input.controlJob 0 (ReducePhase.control
      { s with curPartitionLock := lock, threads := Function.update s.threads t place })) :
    input.PhaseInv
      { s with curPartitionLock := lock, threads := Function.update s.threads t place } := by
  have hworking : input.Working s place := by
    cases place <;> simp [ReducerThread.control, ReduceThread.partition] at hplace <;> trivial
  refine ⟨hcontrol, h.bounded, h.loaded, h.ready, fun u ↦ ?_, h.waiting, fun q hq hfree ↦ ?_⟩
  · exact forall_update (P := input.Working s) hworking h.working u
  · refine h.finished q hq fun u hu ↦ ?_
    have hut : u ≠ t := by
      rintro rfl
      simp [ht] at hu
    exact hfree u (by simpa only [Function.update_of_ne hut] using hu)

theorem PhaseInv.claim (h : input.PhaseInv s) (ht : s.threads t = .critical)
    (hmore : s.curReducePartition < input.numPartitions)
    (hcontrol : ReduceJob.ReduceInv input.controlJob 0 (ReducePhase.goto
      { s with curReducePartition := s.curReducePartition + 1, curPartitionLock := none }
      t (.claimed s.curReducePartition) (.claim s.curReducePartition)).control) :
    input.PhaseInv (ReducePhase.goto
      { s with curReducePartition := s.curReducePartition + 1, curPartitionLock := none }
      t (.claimed s.curReducePartition) (.claim s.curReducePartition)) := by
  have hsort (q : ℕ) : .sort q ∈ ReduceEvent.claim s.curReducePartition :: s.history ↔
      .sort q ∈ s.history := by simp
  refine ⟨hcontrol, hmore, fun q hq ↦ h.loaded q ((hsort q).not.mp hq),
    fun q hq ↦ h.ready q ((hsort q).mp hq), fun u ↦ ?_, fun q hq ↦ ?_, fun q hq hfree ↦ ?_⟩
  · refine forall_update (P := input.Working _) (i := t) (a := .claimed s.curReducePartition)
      ?_ (fun u ↦ (h.working u).frame fun q _ ↦ ⟨rfl, rfl⟩) u
    exact h.waiting _ (Nat.le_refl _)
  · exact h.waiting q (Nat.le_of_succ_le hq)
  · have hqt : q ≠ s.curReducePartition := by
      rintro rfl
      exact hfree t (by simp [ReducePhase.goto, ReducerThread.control, ReduceThread.partition])
    refine h.finished q (by simp only [ReducePhase.goto] at hq; omega) fun u hu ↦ ?_
    have hut : u ≠ t := by
      rintro rfl
      simp [ht, ReducerThread.control, ReduceThread.partition] at hu
    exact hfree u (by simpa only [ReducePhase.goto, Function.update_of_ne hut] using hu)

/-- What `sort_partition` does to a partition that holds its pairs. -/
theorem Loaded.sort {partition : PartitionData} (h : input.Loaded p partition) :
    ∃ sorted, sortPartition input.libc.qsort (input.libc.freshIdxs p) partition = some sorted ∧
      input.Ready p sorted ∧ ((input.groups p).length ≠ 1 → input.Untouched p 0 sorted) := by
  obtain ⟨sorted, hsort, hkeys, hmany, hone⟩ :=
    sortPartition_spec input.libc.qsort (input.libc.freshIdxs p) h.1 h.2
  refine ⟨sorted, hsort, ⟨hkeys, fun hne ↦ (hmany hne).1, hone, destruct_sortPartition h.1 h.2 hsort⟩,
    fun hne j hj _ ↦ ?_⟩
  rw [(hmany hne).2]
  apply starts_getElem? 0 hj |>.trans
  rw [Nat.zero_add, ReduceInput.groups]

theorem PhaseInv.loaded_of_claimed (h : input.PhaseInv s) (ht : s.threads t = .claimed p) :
    input.Loaded p (s.partitionList p) := by
  have hrecord : record s.history p = (0, 0, 0) := by
    simpa [ReducePhase.control, ht, ReducerThread.control, ReduceJob.Progress]
      using h.control.working t
  simp only [record, Prod.mk.injEq] at hrecord
  exact h.loaded p (List.count_eq_zero.mp hrecord.1)

theorem PhaseInv.sort (h : input.PhaseInv s) (ht : s.threads t = .claimed p)
    {partition : PartitionData}
    (hsort : sortPartition input.libc.qsort (input.libc.freshIdxs p) (s.partitionList p) =
      some partition)
    (hcontrol : ReduceJob.ReduceInv input.controlJob 0
      ((s.setPartition p partition).goto t (.sorted p) (.sort p)).control) :
    input.PhaseInv ((s.setPartition p partition).goto t (.sorted p) (.sort p)) := by
  obtain ⟨sorted, heq, hready, huntouched⟩ := (h.loaded_of_claimed ht).sort
  obtain rfl : partition = sorted := Option.some.inj (hsort.symm.trans heq)
  have hcalls : s.callsOn p = [] := by
    have hworking := h.working t
    rwa [ht] at hworking
  have hnew : ((s.setPartition p partition).goto t (.sorted p) (.sort p)).partitionList p =
      partition := Function.update_self _ _ _
  refine h.work (p := p) (by rw [ht]; rfl) hcontrol rfl rfl
    (fun q hq ↦ ⟨Function.update_of_ne hq _ _, rfl, ?_⟩) (fun hq ↦ ?_) (fun _ ↦ ?_) ?_
    (.inl rfl)
  · simp [ReducePhase.goto, ReducePhase.setPartition, hq]
  · exact absurd List.mem_cons_self hq
  · rwa [hnew]
  · refine ⟨hcalls, fun hne ↦ ?_⟩
    rw [hnew]
    exact huntouched hne

/-- A step of a thread on its partition `p` that leaves the partition and the calls alone. -/
theorem PhaseInv.move (h : input.PhaseInv s) {place : ReducerThread} {event : ReduceEvent}
    {sentFlag : ℕ → ℕ} (ht : (s.threads t).control.partition = some p)
    (hevent : ∀ q, event ≠ .sort q)
    (hcontrol : ReduceJob.ReduceInv input.controlJob 0
      (ReducePhase.goto { s with sentFlag := sentFlag } t place event).control)
    (hworking : input.Working s place)
    (hplace : place.control.partition = some p ∨ (input.groups p).length ≠ 1 ∧
      s.callsOn p = input.firstCalls p (input.groups p).length) :
    input.PhaseInv (ReducePhase.goto { s with sentFlag := sentFlag } t place event) := by
  have hsort (q : ℕ) : .sort q ∈ event :: s.history ↔ .sort q ∈ s.history := by
    simp [(hevent q).symm]
  refine h.work ht hcontrol rfl rfl (fun q _ ↦ ⟨rfl, rfl, hsort q⟩)
    (fun hq ↦ h.loaded p ((hsort p).not.mp hq)) (fun hq ↦ h.ready p ((hsort p).mp hq)) ?_ hplace
  exact Working.frame (fun q _ ↦ ⟨rfl, rfl⟩) hworking

theorem PhaseInv.turn (h : input.PhaseInv s) (ht : s.threads t = .sorted p) {sentFlag : ℕ → ℕ}
    (hcontrol : ReduceJob.ReduceInv input.controlJob 0
      (ReducePhase.goto { s with sentFlag := sentFlag } t (.reducing p 0) (.turn p)).control) :
    input.PhaseInv
      (ReducePhase.goto { s with sentFlag := sentFlag } t (.reducing p 0) (.turn p)) := by
  have hworking := h.working t
  rw [ht] at hworking
  exact h.move (p := p) (by rw [ht]; rfl) (by simp) hcontrol
    ⟨hworking.1, hworking.2, fun _ ↦ rfl⟩ (.inl rfl)

theorem PhaseInv.callStart (h : input.PhaseInv s) (ht : s.threads t = .reducing p i)
    (hi : i < (input.groups p).length) {key : CString}
    (hkey : (s.partitionList p).keyAt i = some key)
    (hcontrol : ReduceJob.ReduceInv input.controlJob 0
      (s.goto t (.calling p i key []) (.callStart p i)).control) :
    input.PhaseInv (s.goto t (.calling p i key []) (.callStart p i)) := by
  have hready := h.ready_of_sorted (h.record_reducing ht)
  have hworking := h.working t
  rw [ht] at hworking
  obtain ⟨hcalls, huntouched, -⟩ := hworking
  refine h.move (p := p) (by rw [ht]; rfl) (by simp) hcontrol ⟨hcalls, fun hne ↦ ⟨?_, ?_⟩⟩
    (.inl rfl)
  · have hkeyAt := (hready.delimited hne).keyAt hi
    exact ⟨hi, Option.some.inj (hkey.symm.trans hkeyAt), rfl, huntouched hne i hi (Nat.le_refl i)⟩
  · exact fun j hj hij ↦ huntouched hne j hj (Nat.le_of_succ_le hij)

/-- The end of the work on a partition: the calls of all its groups have been made. -/
theorem PhaseInv.calls_done (h : input.PhaseInv s) (ht : s.threads t = .reducing p i)
    (hi : (input.groups p).length ≤ i) :
    (input.groups p).length ≠ 1 ∧
      s.callsOn p = input.firstCalls p (input.groups p).length := by
  have hworking := h.working t
  rw [ht] at hworking
  obtain ⟨hcalls, -, hone⟩ := hworking
  refine ⟨fun hlen ↦ ?_, ?_⟩
  · have hzero := hone hlen
    omega
  · rw [hcalls, firstCalls, firstCalls, List.take_of_length_le hi, List.take_length]

theorem PhaseInv.leave (h : input.PhaseInv s) (ht : s.threads t = .reducing p i)
    (hi : (input.groups p).length ≤ i)
    (hcontrol : ReduceJob.ReduceInv input.controlJob 0
      (ReducePhase.control { s with threads := Function.update s.threads t .top })) :
    input.PhaseInv { s with threads := Function.update s.threads t .top } :=
  h.work (p := p) (by rw [ht]; rfl) hcontrol rfl rfl (fun _ _ ↦ ⟨rfl, rfl, Iff.rfl⟩) (h.loaded p)
    (h.ready p) trivial (.inr (h.calls_done ht hi))

theorem PhaseInv.postCall (h : input.PhaseInv s) (ht : s.threads t = .returned p i)
    (hcontrol : ReduceJob.ReduceInv input.controlJob 0
      ((s.semPost p).goto t (.reducing p (i + 1)) (.post p)).control) :
    input.PhaseInv ((s.semPost p).goto t (.reducing p (i + 1)) (.post p)) := by
  have hworking := h.working t
  rw [ht] at hworking
  obtain ⟨hcalls, hne, huntouched⟩ := hworking
  exact h.move (p := p) (by rw [ht]; rfl) (by simp) hcontrol
    ⟨hcalls, fun _ ↦ huntouched, fun hone ↦ absurd hone hne⟩ (.inl rfl)

/-- What the reducer knows after it got a value. -/
theorem Reading.value {partition : PartitionData} {key : CString} {values : List CString}
    (h : input.Reading p i key values partition) (gs_lt : i < (input.groups p).length)
    (hr : values.length < (input.groups p)[i].2.length) :
    input.Reading p i key (values ++ [(input.groups p)[i].2[values.length].value])
      { partition with
        curIdxs := partition.curIdxs.set i
          (startOf (input.groups p) i + values.length + 1) } := by
  refine ⟨gs_lt, h.key_eq, ?_, ?_⟩
  · rw [List.length_append, List.length_singleton, List.take_add_one, ← h.values_eq,
      List.getElem?_map, List.getElem?_eq_getElem hr]
    rfl
  · obtain ⟨hbound, -⟩ := List.getElem?_eq_some_iff.mp h.cursor
    rw [List.getElem?_set_self hbound, List.length_append, List.length_singleton, Nat.add_assoc]

theorem Untouched.set_cursor {partition : PartitionData} {c : ℕ}
    (h : input.Untouched p (i + 1) partition) :
    input.Untouched p (i + 1) { partition with curIdxs := partition.curIdxs.set i c } := by
  intro j hj hij
  rw [List.getElem?_set_ne (by omega)]
  exact h j hj hij

theorem firstCalls_succ (hi : i < (input.groups p).length) :
    input.firstCalls p (i + 1) = input.firstCalls p i ++ [callOf p (input.groups p)[i]] := by
  rw [firstCalls, List.take_add_one, List.getElem?_eq_getElem hi, List.map_append]
  rfl

/-- One call of `Get`, or the return of the reducer after a null answer. -/
theorem PhaseInv.get (h : input.PhaseInv s) {key : CString} {values : List CString}
    (ht : s.threads t = .calling p i key values)
    (halive : (s.callGet t p i key values).crashed = false)
    (hcontrol : ReduceJob.ReduceInv input.controlJob 0 (s.callGet t p i key values).control) :
    input.PhaseInv (s.callGet t p i key values) := by
  obtain ⟨hrecord, hi⟩ := h.record_calling ht
  have hready := h.ready_of_sorted hrecord
  have hsorted : .sort p ∈ s.history := by
    simp only [record, Prod.mk.injEq] at hrecord
    exact List.count_pos_iff.mp (by omega)
  have hworking := h.working t
  rw [ht] at hworking
  obtain ⟨hcalls, hreading⟩ := hworking
  have hne : (input.groups p).length ≠ 1 := by
    intro hone
    have hget : (s.partitionList p).get key = none := by
      simp [PartitionData.get, hready.oneKey hone]
    simp [ReducePhase.callGet, hget, ReducePhase.crash] at halive
  obtain ⟨hreading, huntouched⟩ := hreading hne
  have hdelimited := hready.delimited hne
  have hget := hdelimited.get hi hreading.cursor
  rw [← hreading.key_eq] at hget
  have hpartition : (s.threads t).control.partition = some p := by rw [ht]; rfl
  by_cases hr : values.length < (input.groups p)[i].2.length
  · rw [dif_pos hr] at hget
    rw [ReducePhase.callGet_of_value hget] at hcontrol ⊢
    refine h.work hpartition hcontrol rfl rfl
      (fun q hq ↦ ⟨Function.update_of_ne hq _ _, rfl, Iff.rfl⟩) (absurd hsorted) (fun _ ↦ ?_) ?_
      (.inl rfl)
    · simp only [ReducePhase.setPartition, Function.update_self]
      exact ⟨hready.numKeys, fun _ ↦ hdelimited.withCursors _, hready.oneKey, hready.destruct⟩
    · refine ⟨hcalls, fun _ ↦ ?_⟩
      simp only [ReducePhase.setPartition, Function.update_self]
      exact ⟨hreading.value hi hr, huntouched.set_cursor⟩
  · rw [dif_neg hr] at hget
    have hvalues : values = (input.groups p)[i].2.map KvPair.value := by
      have htake := hreading.values_eq
      rwa [List.take_of_length_le (by simpa using Nat.le_of_not_lt hr)] at htake
    have hcall : (⟨key, p, values⟩ : ReducerCall) = callOf p (input.groups p)[i] := by
      rw [callOf, hvalues, hreading.key_eq]
    rw [ReducePhase.callGet_of_null hget] at hcontrol ⊢
    refine h.work hpartition hcontrol rfl rfl (fun q hq ↦ ⟨Function.update_of_ne hq _ _, ?_, ?_⟩)
      (fun hq ↦ absurd (List.mem_cons_of_mem _ hsorted) hq) (fun _ ↦ ?_) ?_ (.inl rfl)
    · simp [ReducePhase.callsOn, ReducePhase.goto, ReducePhase.setPartition, Ne.symm hq]
    · simp [ReducePhase.goto, ReducePhase.setPartition]
    · simp only [ReducePhase.goto, ReducePhase.setPartition, Function.update_self]
      exact hready
    · simp only [Working, ReducePhase.goto, ReducePhase.setPartition, Function.update_self]
      refine ⟨?_, hne, huntouched⟩
      rw [firstCalls_succ hi, ← hcall, ← hcalls]
      simp [ReducePhase.callsOn]

/-- One step of any thread keeps the invariant while the process lives. -/
theorem PhaseInv.step (h : input.PhaseInv s)
    (hs : s.step input.libc input.numPartitions t = some s') (halive : s'.crashed = false) :
    input.PhaseInv s' := by
  have hcontrol := h.control_next hs halive
  obtain ⟨-, hstep⟩ := ReducePhase.step_cases hs
  cases hstep with
  | enter ht => exact h.idle (by rw [ht]; rfl) rfl hcontrol
  | finish ht => exact h.idle (by rw [ht]; rfl) rfl hcontrol
  | claim ht hmore => exact h.claim ht hmore hcontrol
  | sortCrash => simp [ReducePhase.crash] at halive
  | sort ht hsort => exact h.sort ht hsort hcontrol
  | turnFirst ht => exact h.turn ht hcontrol
  | turn ht => exact h.turn ht hcontrol
  | keyCrash => simp [ReducePhase.crash] at halive
  | call ht hi hkey =>
    rw [(h.ready_of_sorted (h.record_reducing ht)).numKeys] at hi
    exact h.callStart ht hi hkey hcontrol
  | @postEmpty p i ht hi =>
    rw [(h.ready_of_sorted (h.record_reducing ht)).numKeys] at hi
    have hdone := h.calls_done ht hi
    exact h.move (p := p) (by rw [ht]; rfl) (by simp) hcontrol trivial (.inr hdone)
  | leave ht hi =>
    rw [(h.ready_of_sorted (h.record_reducing ht)).numKeys] at hi
    exact h.leave ht hi hcontrol
  | get ht => exact h.get ht halive hcontrol
  | post ht => exact h.postCall ht hcontrol

end Steps

end ReduceInput

end CS537.MapReduce
