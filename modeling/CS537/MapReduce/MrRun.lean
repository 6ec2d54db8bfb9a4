import CS537.MapReduce.MapPhase
import CS537.MapReduce.ReduceOutcome
import Mathlib.Data.List.Dedup
import Mathlib.Data.List.Perm.Basic
import Mathlib.Data.Set.List

/-!
# `MR_Run`

The whole run: the mapper threads, the join of all of them, the reducer threads on the partitions
they left, the join of all of those, and `destruct_partition_list`, which ends the process when it
frees what was never set.  A label names the thread that moves, and `main` is the thread that called
`MR_Run`.  The counter `cur_reduce_partition` is a global that the run does not
set: it is zero in the first call of a process.
-/

open scoped BigOperators

namespace CS537.MapReduce

open Foundation

/-- The arguments of `MR_Run`; the emissions of the mapper are a function of its input, and the
reducer is one that calls `Get` until it answers null. -/
structure Job where
  inputs : List CString
  mapper : CString → List KvPair
  numMappers : ℕ
  numReducers : ℕ
  partitioner : CString → ℕ → ℕ
  numPartitions : ℕ

inductive RunLabel (job : Job) where
  | mapper (t : Fin job.numMappers)
  | reducer (t : Fin job.numReducers)
  | main

inductive RunState (job : Job) where
  | mapping (curReducePartition : ℕ) (s : MapState job.numMappers)
  | reducing (s : ReducePhase job.numReducers)
  | returned (curReducePartition : ℕ) (calls : List ReducerCall)

namespace Job

variable (job : Job) (libc : Libc)

/-- The map phase of the run. -/
abbrev mapJob : MapJob where
  inputCount := job.inputs.length
  emits i := job.inputs[i]?.elim [] job.mapper
  numMappers := job.numMappers
  partitioner := job.partitioner
  numPartitions := job.numPartitions
  fresh := libc.freshPartition

/-- `MR_Run` has initialised the partitions and created the mapper threads. -/
def start (curReducePartition : ℕ) : RunState job :=
  .mapping curReducePartition (job.mapJob libc).start

/-- `destruct_partition_list`; false when it follows or frees a pointer that was never set. -/
def destructPartitionList (partitionList : ℕ → PartitionData) : Bool :=
  (List.range job.numPartitions).all fun i ↦ (partitionList i).destruct

variable {job} in
theorem destructPartitionList_iff {partitionList : ℕ → PartitionData} :
    job.destructPartitionList partitionList = true ↔
      ∀ p < job.numPartitions, (partitionList p).destruct = true := by
  simp only [destructPartitionList, List.all_eq_true, List.mem_range]

def step : RunState job → RunLabel job → Option (RunState job)
  | .mapping cur s, .mapper t => ((job.mapJob libc).mapStep s t).map (.mapping cur)
  | .mapping cur s, .main =>
    if ∀ t, s.threads t = .exited then some (.reducing (.start cur s.partitionList)) else none
  | .reducing s, .reducer t => (s.step libc job.numPartitions t).map .reducing
  | .reducing s, .main =>
    if s.crashed = false ∧ ∀ t, s.threads t = .exited then
      if job.destructPartitionList s.partitionList then some (.returned s.curReducePartition s.calls)
      else some (.reducing s.crash)
    else none
  | _, _ => none

/-- What a step of the run does. -/
inductive StepsTo (libc : Libc) : RunState job → RunLabel job → RunState job → Prop where
  | map {cur : ℕ} {s s' : MapState job.numMappers} {t : Fin job.numMappers}
    (hstep : (job.mapJob libc).mapStep s t = some s') :
    StepsTo libc (.mapping cur s) (.mapper t) (.mapping cur s')
  | join {cur : ℕ} {s : MapState job.numMappers} (hjoined : ∀ t, s.threads t = .exited) :
    StepsTo libc (.mapping cur s) .main (.reducing (.start cur s.partitionList))
  | reduce {s s' : ReducePhase job.numReducers} {t : Fin job.numReducers}
    (hstep : s.step libc job.numPartitions t = some s') :
    StepsTo libc (.reducing s) (.reducer t) (.reducing s')
  | finish {s : ReducePhase job.numReducers} (halive : s.crashed = false)
    (hdone : ∀ t, s.threads t = .exited) (hfree : job.destructPartitionList s.partitionList = true) :
    StepsTo libc (.reducing s) .main (.returned s.curReducePartition s.calls)
  | destructCrash {s : ReducePhase job.numReducers} (halive : s.crashed = false)
    (hdone : ∀ t, s.threads t = .exited) (hfree : job.destructPartitionList s.partitionList = false) :
    StepsTo libc (.reducing s) .main (.reducing s.crash)

variable {job libc} in
theorem step_cases {r r' : RunState job} {l : RunLabel job} (hs : job.step libc r l = some r') :
    job.StepsTo libc r l r' := by
  unfold step at hs
  split at hs
  case h_1 cur s t =>
    obtain ⟨s', hstep, rfl⟩ := Option.map_eq_some_iff.mp hs
    exact .map hstep
  case h_2 cur s =>
    split at hs
    next hjoined =>
      obtain rfl := Option.some.inj hs
      exact .join hjoined
    next => simp at hs
  case h_3 s t =>
    obtain ⟨s', hstep, rfl⟩ := Option.map_eq_some_iff.mp hs
    exact .reduce hstep
  case h_4 s =>
    split at hs
    next hdone =>
      split at hs
      all_goals obtain rfl := Option.some.inj hs
      next hfree => exact .finish hdone.1 hdone.2 hfree
      next hfree => exact .destructCrash hdone.1 hdone.2 (Bool.eq_false_iff.mpr hfree)
    next => simp at hs
  case h_5 => simp at hs

/-- The first call of `MR_Run` in a process. -/
def firstRun : Machine (RunState job) (RunLabel job) where
  init r := r = job.start libc 0
  step := job.step libc

/-! ## What the run is for -/

/-- The pairs that the mapper emits on all inputs. -/
def emitted : List KvPair := job.inputs.flatMap job.mapper

/-- The distinct keys emitted. -/
def keys : List CString := (job.emitted.map KvPair.key).dedup

def partitionOf (key : CString) : ℕ := job.partitioner key job.numPartitions

/-- The distinct keys emitted that belong to partition `p`. -/
def keysOf (p : ℕ) : List CString := job.keys.filter fun key ↦ job.partitionOf key = p

/-- The values emitted under a key. -/
def valuesOf (key : CString) : List CString :=
  (job.emitted.filter fun pair ↦ pair.key = key).map KvPair.value

/-- The reducer is called once for each distinct key, with the partition of the key, and gets
exactly the values emitted under it. -/
def CorrectCalls (calls : List ReducerCall) : Prop :=
  (calls.map fun call ↦ (call.key, call.partition)).Perm
      (job.keys.map fun key ↦ (key, job.partitionOf key)) ∧
    ∀ call ∈ calls, call.values.Perm (job.valuesOf call.key)

/-- `MR_Run` has returned, having made the right calls. -/
def ReturnedCorrectly (r : RunState job) : Prop :=
  ∃ cur calls, r = .returned cur calls ∧ job.CorrectCalls calls

/-! ## The calls of all partitions together -/

theorem count_map_pair {α β γ : Type*} [DecidableEq β] [DecidableEq γ] (f : α → β) (g : α → γ)
    (l : List α) (b : β) (c : γ) :
    (l.map fun a ↦ (f a, g a)).count (b, c) = ((l.filter fun a ↦ g a = c).map f).count b := by
  induction l with
  | nil => rfl
  | cons a l ih =>
    by_cases hc : g a = c
    · simp [List.count_cons, ih, hc]
    · simp [ih, hc]

variable {job libc}

/-- The contents of the partitions when the mappers have been joined. -/
structure Contents (job : Job) (contents : ℕ → List KvPair) : Prop where
  perm : ∀ p, (contents p).Perm (job.emitted.filter fun pair ↦ job.partitionOf pair.key = p)

/-- The reduce phase of the run, from the given contents of the partitions. -/
abbrev reduceInput (job : Job) (libc : Libc) (contents : ℕ → List KvPair) : ReduceInput where
  libc := libc
  numReducers := job.numReducers
  numPartitions := job.numPartitions
  contents := contents

section Contents

variable (libc) {contents : ℕ → List KvPair} (hc : job.Contents contents)

include hc

/-- The groups of a partition have the keys that belong to it. -/
theorem Contents.keys_perm (p : ℕ) :
    (((job.reduceInput libc contents).groups p).map Prod.fst).Perm (job.keysOf p) := by
  have hgroups := isGrouping_sortedGroups libc.qsort (contents p)
  refine (List.perm_ext_iff_of_nodup hgroups.nodup ((List.nodup_dedup _).filter _)).mpr fun key ↦ ?_
  have hmem (pair : KvPair) : pair ∈ sortedPairs libc.qsort (contents p) ↔
      pair ∈ job.emitted ∧ job.partitionOf pair.key = p := by
    rw [sortedPairs, (libc.qsort.perm _ _).mem_iff, (hc.perm p).mem_iff]
    simp
  rw [hgroups.mem_keys_iff]
  simp only [List.mem_filter, List.mem_dedup, List.mem_map, hmem, decide_eq_true_eq]
  constructor
  · rintro ⟨pair, ⟨hpair, hp⟩, rfl⟩
    exact ⟨⟨pair, hpair, rfl⟩, hp⟩
  · rintro ⟨⟨pair, hpair, rfl⟩, hp⟩
    exact ⟨pair, ⟨hpair, hp⟩, rfl⟩

theorem Contents.length_groups (p : ℕ) :
    ((job.reduceInput libc contents).groups p).length = (job.keysOf p).length := by
  rw [← (hc.keys_perm libc p).length_eq, List.length_map]

/-- The call for a group gets the values emitted under its key. -/
theorem Contents.values_perm {p : ℕ} {g : CString × List KvPair}
    (hg : g ∈ (job.reduceInput libc contents).groups p) :
    (g.2.map KvPair.value).Perm (job.valuesOf g.1) := by
  have hgroups := isGrouping_sortedGroups libc.qsort (contents p)
  have hkey : g.1 ∈ job.keysOf p := (hc.keys_perm libc p).subset (List.mem_map_of_mem hg)
  have hpart : job.partitionOf g.1 = p := by
    simpa using (List.mem_filter.mp hkey).2
  have hsorted : (sortedPairs libc.qsort (contents p)).Perm
      (job.emitted.filter fun pair ↦ job.partitionOf pair.key = p) :=
    (libc.qsort.perm _ _).trans (hc.perm p)
  refine List.Perm.map _ ?_
  rw [← hgroups.filter_key hg]
  refine (hsorted.filter _).trans (List.Perm.of_eq ?_)
  rw [List.filter_filter]
  refine List.filter_congr fun pair _ ↦ ?_
  by_cases hpair : pair.key = g.1
  · simp [hpair, hpart]
  · simp [hpair]

end Contents

section Calls

variable {contents : ℕ → List KvPair} {calls : List ReducerCall}

/-- Calls that are those of all groups of all partitions are correct. -/
theorem Contents.correctCalls (hc : job.Contents contents)
    (hpart : ∀ key, job.partitionOf key < job.numPartitions)
    (hcalls : ∀ p < job.numPartitions, (calls.filter fun call ↦ call.partition = p) =
      ((job.reduceInput libc contents).groups p).map (ReduceInput.callOf p))
    (hnone : ∀ p, job.numPartitions ≤ p → (calls.filter fun call ↦ call.partition = p) = []) :
    job.CorrectCalls calls := by
  refine ⟨List.perm_iff_count.mpr fun ⟨key, p⟩ ↦ ?_, fun call hcall ↦ ?_⟩
  · rw [count_map_pair, count_map_pair (fun key ↦ key) job.partitionOf, List.map_id']
    change _ = (job.keysOf p).count key
    rcases Nat.lt_or_ge p job.numPartitions with hp | hp
    · rw [hcalls p hp, List.map_map]
      exact List.perm_iff_count.mp (hc.keys_perm libc p) key
    · rw [hnone p hp]
      refine (List.count_eq_zero.mpr fun hkey ↦ ?_).symm
      have hpartition : job.partitionOf key = p := by simpa using (List.mem_filter.mp hkey).2
      have hlt := hpart key
      omega
  · have hmem : call ∈ calls.filter fun c ↦ c.partition = call.partition := by
      simpa using hcall
    rcases Nat.lt_or_ge call.partition job.numPartitions with hp | hp
    · rw [hcalls _ hp] at hmem
      obtain ⟨g, hg, heq⟩ := List.mem_map.mp hmem
      rw [← heq]
      exact hc.values_perm libc hg
    · rw [hnone _ hp] at hmem
      simp at hmem

end Calls

/-! ## The invariant of the run -/

/-- What holds in every state of the first run of a process. -/
def RunInv (job : Job) (libc : Libc) : RunState job → Prop
  | .mapping cur s => cur = 0 ∧ MapJob.MapInv (job.mapJob libc) s
  | .reducing s => ∃ contents, job.Contents contents ∧
      (s.crashed = true ∧ (∃ p < job.numPartitions, (job.keysOf p).length = 1) ∨
        s.crashed = false ∧ (job.reduceInput libc contents).PhaseInv s)
  | .returned _ calls =>
      (∀ p < job.numPartitions, (job.keysOf p).length ≠ 1) ∧ job.CorrectCalls calls

theorem flatMap_range_getElem? {α β : Type*} (l : List α) (f : α → List β) :
    ((List.range l.length).flatMap fun i ↦ l[i]?.elim [] f) = l.flatMap f := by
  induction l with
  | nil => rfl
  | cons a l ih => simp [List.range_succ_eq_map, List.flatMap_map, ih]

theorem emitted_eq (p : ℕ) : (job.mapJob libc).emitted p =
    (job.emitted.filter fun pair ↦ job.partitionOf pair.key = p : List KvPair) := by
  simp only [MapJob.emitted, MapJob.emittedBelow, flatMap_range_getElem?]
  rfl

theorem exists_of_perm_map_some {α : Type*} {l : List (Option α)} {l' : List α}
    (h : l.Perm (l'.map some)) : ∃ l₀ : List α, l = l₀.map some ∧ l₀.Perm l' := by
  obtain ⟨l₀, rfl⟩ : l ∈ Set.range (List.map some) := by
    rw [Set.range_list_map]
    intro o ho
    obtain ⟨a, -, rfl⟩ := List.mem_map.mp (h.mem_iff.mp ho)
    exact ⟨a, rfl⟩
  exact ⟨l₀, rfl, (List.map_perm_map_iff (Option.some_injective α)).mp h⟩

/-- The partitions after the join of the mappers hold the pairs emitted for them. -/
theorem contents_of_joined {s : MapState job.numMappers}
    (h : MapJob.MapInv (job.mapJob libc) s) (hm : 0 < job.numMappers)
    (hjoined : ∀ t, s.threads t = .exited) :
    ∃ contents, job.Contents contents ∧
      ∀ p, (job.reduceInput libc contents).Loaded p (s.partitionList p) := by
  have hstored (p : ℕ) : ∃ pairs : List KvPair, (s.partitionList p).stored = pairs.map some ∧
      pairs.Perm (job.emitted.filter fun pair ↦ job.partitionOf pair.key = p) := by
    have heq := h.stored_eq hm hjoined p
    rw [emitted_eq, Multiset.map_coe, Multiset.coe_eq_coe] at heq
    exact exists_of_perm_map_some heq
  choose contents hcontents hperm using hstored
  refine ⟨contents, ⟨hperm⟩, fun p ↦ ⟨?_, hcontents p⟩⟩
  exact (h.sized p).length_eq ▸ (h.sized p).nextToFill_le

/-- Every step of the run keeps its invariant. -/
theorem RunInv.step (hm : 0 < job.numMappers) (hr : 0 < job.numReducers)
    (hpart : ∀ key, job.partitionOf key < job.numPartitions) {r r' : RunState job}
    {l : RunLabel job} (h : job.RunInv libc r) (hs : job.step libc r l = some r') :
    job.RunInv libc r' := by
  cases step_cases hs with
  | map hstep => exact ⟨h.1, MapJob.MapInv.step hpart h.2 hstep⟩
  | join hjoined =>
    obtain ⟨rfl, hinv⟩ := h
    obtain ⟨contents, hc, hloaded⟩ := contents_of_joined hinv hm hjoined
    exact ⟨contents, hc, .inr ⟨rfl, ReduceInput.PhaseInv.start hloaded⟩⟩
  | @reduce s s' t hstep =>
    obtain ⟨contents, hc, ⟨hcrashed, -⟩ | ⟨-, hinv⟩⟩ := h
    · simp [ReducePhase.step, hcrashed] at hstep
    · refine ⟨contents, hc, ?_⟩
      cases halive : s'.crashed with
      | false => exact .inr ⟨rfl, hinv.step hstep halive⟩
      | true =>
        left
        refine ⟨rfl, ?_⟩
        by_contra hmany
        push Not at hmany
        have hmany' : ∀ p < job.numPartitions,
            ((job.reduceInput libc contents).groups p).length ≠ 1 := fun p hp ↦ by
          rw [hc.length_groups]
          exact hmany p hp
        rw [hinv.alive hmany' hstep] at halive
        exact Bool.noConfusion halive
  | finish halive hdone =>
    obtain ⟨contents, hc, ⟨hcrashed, -⟩ | ⟨-, hinv⟩⟩ := h
    · simp [hcrashed] at halive
    · obtain ⟨hbelow, habove⟩ := hinv.done hr hdone
      refine ⟨fun p hp ↦ ?_, hc.correctCalls hpart (fun p hp ↦ (hbelow p hp).2) habove⟩
      rw [← hc.length_groups libc]
      exact (hbelow p hp).1
  | destructCrash halive hdone hfree =>
    obtain ⟨contents, hc, ⟨hcrashed, -⟩ | ⟨-, hinv⟩⟩ := h
    · simp [hcrashed] at halive
    · rw [destructPartitionList_iff.mpr fun p hp ↦ hinv.destruct hr hdone hp] at hfree
      exact Bool.noConfusion hfree

theorem runInv_of_reachable (hm : 0 < job.numMappers) (hr : 0 < job.numReducers)
    (hpart : ∀ key, job.partitionOf key < job.numPartitions) {r : RunState job}
    (hs : (job.firstRun libc).Reachable r) : job.RunInv libc r := by
  apply hs.invariant
  · rintro _ rfl
    exact ⟨rfl, MapJob.mapInv_start⟩
  · intro r l r' _ h _ hstep
    exact h.step hm hr hpart hstep

/-! ## Every run ends -/

/-- A bound on the steps of the reduce phase, whatever order the mappers left the pairs in. -/
def reduceBound (job : Job) : ℕ :=
  1 + ∑ p ∈ Finset.range job.numPartitions,
    (4 * (job.emitted.filter fun pair ↦ job.partitionOf pair.key = p).length + 5) +
    2 * job.numReducers

/-- The invariant and the measure of the run once the reducers have been created. -/
def ReducingInv (job : Job) (libc : Libc) (contents : ℕ → List KvPair) : RunState job → Prop
  | .mapping _ _ => False
  | .reducing s => s.crashed = true ∨ (job.reduceInput libc contents).PhaseInv s
  | .returned _ _ => True

def reducingMeasure (job : Job) (libc : Libc) (contents : ℕ → List KvPair) : RunState job → ℕ
  | .reducing s => (job.reduceInput libc contents).phaseMeasure s + 1
  | _ => 0

theorem ReducingInv.step {contents : ℕ → List KvPair} {r r' : RunState job} {l : RunLabel job}
    (h : job.ReducingInv libc contents r) (hs : job.step libc r l = some r') :
    job.ReducingInv libc contents r' ∧
      job.reducingMeasure libc contents r' < job.reducingMeasure libc contents r := by
  cases step_cases hs with
  | map => exact h.elim
  | join => exact h.elim
  | @reduce s s' t hstep =>
    rcases h with hcrashed | hinv
    · simp [ReducePhase.step, hcrashed] at hstep
    · refine ⟨?_, Nat.succ_lt_succ (hinv.measure_lt hstep)⟩
      cases halive : s'.crashed with
      | true => exact .inl halive
      | false => exact .inr (hinv.step hstep halive)
  | finish => exact ⟨trivial, Nat.succ_pos _⟩
  | destructCrash halive =>
    exact ⟨.inl rfl, Nat.succ_lt_succ (ReduceInput.phaseMeasure_of_crash halive)⟩

/-- After the join of the mappers the run ends within the bound of the reduce phase. -/
theorem haltsWithin_reducing {contents : ℕ → List KvPair} (hc : job.Contents contents)
    {partitionList : ℕ → PartitionData}
    (hloaded : ∀ p, (job.reduceInput libc contents).Loaded p (partitionList p)) :
    (job.firstRun libc).HaltsWithin (.reducing (.start 0 partitionList)) (job.reduceBound + 1) := by
  have hinv : job.ReducingInv libc contents
      (.reducing (.start 0 partitionList)) := .inr (ReduceInput.PhaseInv.start hloaded)
  refine (Machine.haltsWithin_measure (fun _ _ _ ↦ ReducingInv.step) hinv).mono
    (Nat.succ_le_succ ?_)
  refine (ReduceInput.phaseMeasure_start_le partitionList).trans (Nat.le_of_eq ?_)
  simp only [reduceBound, (hc.perm _).length_eq]

theorem haltsWithin_mapping (hm : 0 < job.numMappers)
    (hpart : ∀ key, job.partitionOf key < job.numPartitions)
    {s : MapState job.numMappers} (h : MapJob.MapInv (job.mapJob libc) s) :
    (job.firstRun libc).HaltsWithin (.mapping 0 s)
      ((job.mapJob libc).mapMeasure s + (job.reduceBound + 1) + 1) := by
  induction hk : (job.mapJob libc).mapMeasure s using Nat.strong_induction_on
    generalizing s with
  | _ k ih =>
    refine .of_step fun l r hs ↦ ?_
    cases l with
    | mapper t =>
      obtain ⟨s', hstep, rfl⟩ := Option.map_eq_some_iff.mp hs
      have hlt := MapJob.mapMeasure_lt hstep
      exact (ih _ (hk ▸ hlt) (MapJob.MapInv.step hpart h hstep) rfl).mono (by omega)
    | reducer t => exact absurd hs (by simp [firstRun, Job.step])
    | main =>
      simp only [firstRun, Job.step] at hs
      split at hs
      next hjoined =>
        obtain rfl := Option.some.inj hs
        obtain ⟨contents, hc, hloaded⟩ := contents_of_joined h hm hjoined
        exact (haltsWithin_reducing hc hloaded).mono (by omega)
      next => simp at hs

/-- The map phase is no end of a run. -/
theorem exists_step_mapping (cur : ℕ) {s : MapState job.numMappers}
    (h : MapJob.MapInv (job.mapJob libc) s) : ∃ l, job.step libc (.mapping cur s) l ≠ none := by
  by_cases hjoined : ∀ t, s.threads t = .exited
  · exact ⟨.main, by simp [Job.step, hjoined]⟩
  · push Not at hjoined
    obtain ⟨t, ht⟩ := hjoined
    refine ⟨.mapper t, fun hnone ↦ ?_⟩
    rw [Job.step, Option.map_eq_none_iff] at hnone
    rcases MapJob.mapStep_eq_none_iff.mp hnone with hexited | hfaulted
    · exact ht hexited
    · exact h.faultless t hfaulted

/-- A reduce phase of a living process is no end of a run while a thread can move that has not
returned. -/
theorem exists_step_reducing {s : ReducePhase job.numReducers} (halive : s.crashed = false)
    (hmove : (∃ t, s.threads t ≠ .exited) → ∃ t, (s.step libc job.numPartitions t).isSome) :
    ∃ l, job.step libc (.reducing s) l ≠ none := by
  by_cases hjoined : ∀ t, s.threads t = .exited
  · refine ⟨.main, ?_⟩
    simp only [Job.step, if_pos (And.intro halive hjoined)]
    split <;> simp
  · obtain ⟨t, ht⟩ := hmove (not_forall.mp hjoined)
    refine ⟨.reducer t, fun hnone ↦ ?_⟩
    rw [Job.step, Option.map_eq_none_iff] at hnone
    rw [hnone] at ht
    exact Bool.noConfusion ht

/-- A run ends by returning or by the death of the process. -/
theorem RunInv.returned_or_crashed {r : RunState job} (h : job.RunInv libc r)
    (hhalted : (job.firstRun libc).Halted r) :
    (∃ cur calls, r = .returned cur calls) ∨ ∃ s, r = .reducing s ∧ s.crashed = true := by
  cases r with
  | returned cur calls => exact .inl ⟨cur, calls, rfl⟩
  | mapping cur s =>
    obtain ⟨l, hl⟩ := exists_step_mapping cur h.2
    exact absurd (hhalted l) hl
  | reducing s =>
    obtain ⟨contents, hc, ⟨hcrashed, -⟩ | ⟨halive, hinv⟩⟩ := h
    · exact .inr ⟨s, rfl, hcrashed⟩
    · obtain ⟨l, hl⟩ := exists_step_reducing halive (hinv.canMove halive)
      exact absurd (hhalted l) hl

/-- A run in which no partition has exactly one key ends only by returning. -/
theorem RunInv.returned_of_halted {r : RunState job} (h : job.RunInv libc r)
    (hmany : ∀ p < job.numPartitions, (job.keysOf p).length ≠ 1)
    (hhalted : (job.firstRun libc).Halted r) : job.ReturnedCorrectly r := by
  rcases h.returned_or_crashed hhalted with ⟨cur, calls, rfl⟩ | ⟨s, rfl, hcrashed⟩
  · exact ⟨cur, calls, rfl, h.2⟩
  · obtain ⟨contents, hc, ⟨-, p, hp, hone⟩ | ⟨halive, -⟩⟩ := h
    · exact absurd hone (hmany p hp)
    · rw [hcrashed] at halive
      exact Bool.noConfusion halive

theorem mr_run_halts (job : Job) (libc : Libc) (hm : 0 < job.numMappers)
    (hpart : ∀ key, job.partitionOf key < job.numPartitions) :
    ∃ k, (job.firstRun libc).HaltsWithin (job.start libc 0) k :=
  ⟨_, haltsWithin_mapping hm hpart MapJob.mapInv_start⟩

/-- The result of the first call of `MR_Run` in a process, for every schedule of its threads:
every run ends, and it ends with exactly the right reducer calls made and `MR_Run` returned if
and only if no partition has exactly one distinct key. -/
theorem mr_run_correct_iff (job : Job) (libc : Libc) (hm : 0 < job.numMappers) (hr : 0 < job.numReducers)
    (hpart : ∀ key, job.partitionOf key < job.numPartitions) :
    (∃ k, (job.firstRun libc).HaltsWithin (job.start libc 0) k) ∧
    ∀ r, (job.firstRun libc).Reachable r → (job.firstRun libc).Halted r →
      (job.ReturnedCorrectly r ↔ ∀ p < job.numPartitions, (job.keysOf p).length ≠ 1) := by
  refine ⟨mr_run_halts job libc hm hpart, fun r hs hhalted ↦ ?_⟩
  have h := runInv_of_reachable hm hr hpart hs
  refine ⟨?_, fun hmany ↦ h.returned_of_halted hmany hhalted⟩
  rintro ⟨cur, calls, rfl, -⟩
  exact h.1

/-! ## Two runs -/

/-- The letters of the input are the keys, each emitted with itself as its value. -/
def letters (inputs : List CString) : Job where
  inputs := inputs
  mapper input := input.bytes.map fun b ↦ ⟨.ofBytes [b], .ofBytes [b]⟩
  numMappers := 1
  numReducers := 1
  partitioner _ _ := 0
  numPartitions := 1

/-- A C library that sorts by insertion and whose fresh memory is zero. -/
def zeroLibc : Libc where
  qsort := .insertionSort
  freshPartition _ := ⟨[], 0, 0, 0, [], [], [], fun _ ↦ none, false⟩
  freshIdxs _ := ⟨fun _ ↦ 0, fun _ ↦ 0, fun _ ↦ 0⟩

def RunState.hasReturned : RunState job → Bool
  | .returned _ _ => true
  | _ => false

theorem two_keys_return :
    ∃ r, ((letters [.ofBytes [97, 98]]).firstRun zeroLibc).run
      ((letters [.ofBytes [97, 98]]).start zeroLibc 0)
      (List.replicate 5 (.mapper ⟨0, Nat.one_pos⟩) ++ [.main] ++
        List.replicate 15 (.reducer ⟨0, Nat.one_pos⟩) ++ [.main]) = some r ∧
      RunState.hasReturned r = true := by
  have hrun : ((((letters [.ofBytes [97, 98]]).firstRun zeroLibc).run
      ((letters [.ofBytes [97, 98]]).start zeroLibc 0)
      (List.replicate 5 (.mapper ⟨0, Nat.one_pos⟩) ++ [.main] ++
        List.replicate 15 (.reducer ⟨0, Nat.one_pos⟩) ++ [.main])).map
        RunState.hasReturned) = some true := by decide
  exact Option.map_eq_some_iff.mp hrun

/-- With the two keys `a` and `b` in the only partition, `MR_Run` returns correctly. -/
theorem mr_run_correct_iff_two_keys :
    ∃ r, ((letters [.ofBytes [97, 98]]).firstRun zeroLibc).Reachable r ∧
      ((letters [.ofBytes [97, 98]]).firstRun zeroLibc).Halted r ∧
      (letters [.ofBytes [97, 98]]).ReturnedCorrectly r := by
  obtain ⟨r, hr, hreturned⟩ := two_keys_return
  have hreachable := Machine.Reachable.run (.init rfl) hr
  have hhalted : ((letters [.ofBytes [97, 98]]).firstRun zeroLibc).Halted r := by
    cases r with
    | mapping => simp [RunState.hasReturned] at hreturned
    | reducing => simp [RunState.hasReturned] at hreturned
    | returned cur calls =>
      intro l
      cases l <;> rfl
  obtain ⟨-, hcorrect⟩ := mr_run_correct_iff (letters [.ofBytes [97, 98]]) zeroLibc (by decide)
    (by decide) fun _ ↦ Nat.one_pos
  exact ⟨r, hreachable, hhalted, (hcorrect r hreachable hhalted).mpr (by decide)⟩

def RunState.crashed : RunState job → Bool
  | .reducing s => s.crashed
  | _ => false

/-- With the key `a` alone in its partition, the process dies in the first call of `Get`. -/
theorem single_key_not_returned :
    ∃ r, ((letters [.ofBytes [97]]).firstRun zeroLibc).Reachable r ∧
      ((letters [.ofBytes [97]]).firstRun zeroLibc).Halted r ∧
      ¬(letters [.ofBytes [97]]).ReturnedCorrectly r := by
  have hrun : ((((letters [.ofBytes [97]]).firstRun zeroLibc).run
      ((letters [.ofBytes [97]]).start zeroLibc 0)
      (List.replicate 4 (.mapper ⟨0, Nat.one_pos⟩) ++ [.main] ++
        List.replicate 6 (.reducer ⟨0, Nat.one_pos⟩))).map
        RunState.crashed) = some true := by decide
  obtain ⟨r, hr, hcrashed⟩ := Option.map_eq_some_iff.mp hrun
  refine ⟨r, Machine.Reachable.run (.init rfl) hr, ?_, ?_⟩
  · intro l
    cases r with
    | mapping => simp [RunState.crashed] at hcrashed
    | returned => simp [RunState.crashed] at hcrashed
    | reducing s =>
      have hs : s.crashed = true := hcrashed
      cases l <;> simp [firstRun, Job.step, ReducePhase.step, hs]
  · rintro ⟨cur, calls, rfl, -⟩
    simp [RunState.crashed] at hcrashed

end Job

end CS537.MapReduce
