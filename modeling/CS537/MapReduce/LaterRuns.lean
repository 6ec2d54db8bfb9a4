import CS537.MapReduce.MrRun

/-!
# Later calls of `MR_Run`

A process may call `MR_Run` again.  The call sets all globals of the engine anew but one:
`init_reducer_concurrency`, which sets `cur_reduce_partition` back to zero, is not called.  A later
call finds the counter where the reducer threads of the call before it left it.  Its own reducer
threads skip the partitions below the counter and wait for the turn of the others, which never
comes.  If there are no others, the threads return, and `destruct_partition_list` frees the pointers
of partitions that nothing has sorted.  So does a call without reducer threads, whatever the counter.
What a process does that frees a pointer never set is undefined; here it dies.
-/

open scoped BigOperators

namespace CS537.MapReduce

open Foundation

/-- Every pointer of the partition is valid. -/
def PartitionData.Stores (partition : PartitionData) : Prop :=
  partition.nextToFill ≤ partition.kvPairList.length ∧
    ∃ pairs : List KvPair, partition.stored = pairs.map some

/-- `sort_partition` permutes the pointers. -/
theorem PartitionData.Stores.sort {partition : PartitionData} (h : partition.Stores) (qsort : Qsort)
    (fresh : FreshIdxs) : ∃ sorted, sortPartition qsort fresh partition = some sorted ∧ sorted.Stores := by
  obtain ⟨hle, pairs, hstored⟩ := h
  obtain ⟨sorted, hsort, -⟩ := sortPartition_spec qsort fresh hle hstored
  obtain ⟨-, hle', hstored'⟩ := stored_sortPartition hle hstored hsort
  exact ⟨sorted, hsort, hle', _, hstored'⟩

/-! ## A reduce phase without turns -/

/-- The control of a phase in which no thread comes to the keys of its partition. -/
abbrev stalledJob (numPartitions : ℕ) : ReduceJob where
  numPartitions := numPartitions
  numKeys _ := 0

/-- What holds in a phase whose counter was `first` at the start while no turn has come: no reducer
call has been made, and the first partition has not been sorted. -/
structure ReducePhase.Stalled {numReducers : ℕ} (numPartitions first : ℕ)
    (s : ReducePhase numReducers) : Prop where
  alive : s.crashed = false
  calls : s.calls = []
  stores : ∀ p, (s.partitionList p).Stores
  unsorted : (s.partitionList 0).idxsSet = false
  control : (stalledJob numPartitions).ReduceInv first s.control

namespace ReducePhase.Stalled

variable {numReducers numPartitions first : ℕ} {s s' : ReducePhase numReducers}
  {t : Fin numReducers} {libc : Libc}

theorem start {partitionList : ℕ → PartitionData} (hstores : ∀ p, (partitionList p).Stores)
    (hunsorted : (partitionList 0).idxsSet = false) :
    (ReducePhase.start first partitionList : ReducePhase numReducers).Stalled numPartitions first :=
  ⟨rfl, rfl, hstores, hunsorted, ReduceJob.reduceInv_start first⟩

theorem waits (h : s.Stalled numPartitions first) (hfirst : 0 < first) (t : Fin numReducers) :
    (s.threads t).control.Waits := h.control.waits hfirst t

theorem alive_next (h : s.Stalled numPartitions first) (hfirst : 0 < first)
    (hs : s.step libc numPartitions t = some s') : s'.crashed = false := by
  have hwaits := h.waits hfirst t
  obtain ⟨halive, hstep⟩ := step_cases hs
  cases hstep with
  | @sortCrash p ht hsort =>
    obtain ⟨sorted, hsort', -⟩ := (h.stores p).sort libc.qsort (libc.freshIdxs p)
    exact absurd (hsort.symm.trans hsort').symm (Option.some_ne_none sorted)
  | keyCrash ht =>
    rw [ht] at hwaits
    exact hwaits.elim
  | get ht =>
    rw [ht] at hwaits
    exact hwaits.elim
  | _ => exact halive

/-- Every step is one of the control. -/
theorem control_next (h : s.Stalled numPartitions first) (hfirst : 0 < first)
    (hs : s.step libc numPartitions t = some s') :
    (stalledJob numPartitions).reduceStep s.control t = some s'.control := by
  have hwaits := h.waits hfirst t
  have hkeys (p i : ℕ) (ht : s.threads t = .reducing p i) : (s.partitionList p).numKeys = 0 := by
    rw [ht] at hwaits
    exact hwaits.elim
  have hcontrol := control_step (stalledJob numPartitions) hs (h.alive_next hfirst hs) hkeys
  exact hcontrol.resolve_right fun hmoved ↦ hmoved.2 hwaits

/-- While no turn comes, no step makes a call. -/
theorem step (h : s.Stalled numPartitions first) (hfirst : 0 < first)
    (hs : s.step libc numPartitions t = some s') : s'.Stalled numPartitions first := by
  have halive := h.alive_next hfirst hs
  have hcontrol := h.control.step (h.control_next hfirst hs)
  have hwaits := h.waits hfirst t
  obtain ⟨-, hstep⟩ := step_cases hs
  cases hstep with
  | enter | finish | claim | turnFirst | turn =>
    exact ⟨halive, h.calls, h.stores, h.unsorted, hcontrol⟩
  | sortCrash | keyCrash => cases halive
  | @sort p partition ht hsort =>
    obtain ⟨sorted, hsort', hsorted⟩ := (h.stores p).sort libc.qsort (libc.freshIdxs p)
    obtain rfl := Option.some.inj (hsort.symm.trans hsort')
    -- The partition sorted was claimed in this call, so it is not the first one.
    obtain ⟨hle, -⟩ := h.control.ownerLt t p (congrArg (fun place ↦ place.control.partition) ht)
    refine ⟨halive, h.calls, forall_update hsorted h.stores, ?_, hcontrol⟩
    change (Function.update s.partitionList p partition 0).idxsSet = false
    rw [Function.update_of_ne (by omega)]
    exact h.unsorted
  | call ht | postEmpty ht | leave ht | get ht | post ht =>
    rw [ht] at hwaits
    exact hwaits.elim

/-- Without turns the phase ends. -/
theorem waitingSteps_lt (h : s.Stalled numPartitions first) (hfirst : 0 < first)
    (hs : s.step libc numPartitions t = some s') :
    ∑ u, (s'.control.threads u).waitingSteps < ∑ u, (s.control.threads u).waitingSteps :=
  h.control.waitingSteps_lt hfirst (h.control_next hfirst hs)

theorem le_first_of_exited (h : s.Stalled numPartitions first) (hr : 0 < numReducers)
    (hfirst : 0 < first) (hexited : ∀ t, s.threads t = .exited) : numPartitions ≤ first :=
  h.control.le_first_of_exited hr hfirst fun t ↦ congrArg ReducerThread.control (hexited t)

/-- With the counter past all partitions a thread can move until all have returned. -/
theorem canMove (h : s.Stalled numPartitions first) (hpast : numPartitions ≤ first)
    (hleft : ∃ t, s.threads t ≠ .exited) : ∃ t, (s.step libc numPartitions t).isSome := by
  obtain ⟨t, -, ht⟩ := h.control.canMove (.inr hpast) (exists_control_ne_exited hleft)
  exact ⟨t, step_isSome_of_control (stalledJob numPartitions) h.alive ht⟩

end ReducePhase.Stalled

namespace Job

variable {job : Job} {libc : Libc} {cur : ℕ}

/-! ## Calls one after another -/

/-- A call of `MR_Run` that finds the counter at `cur`. -/
def callFrom (job : Job) (libc : Libc) (cur : ℕ) : Machine (RunState job) (RunLabel job) where
  init r := r = job.start libc cur
  step := job.step libc

/-- A process has called `MR_Run` for these jobs, and all calls have returned; the last of them
left the counter at the given value. -/
inductive MrRuns : List Job → ℕ → Prop where
  | nil : MrRuns [] 0
  | next {jobs : List Job} {cur cur' : ℕ} {job : Job} {libc : Libc} {calls : List ReducerCall} :
    MrRuns jobs cur → (job.callFrom libc cur).Reachable (.returned cur' calls) →
      MrRuns (jobs ++ [job]) cur'

/-- The call has come to its end: it has returned, hangs, or the process has died. -/
structure Ended (job : Job) (libc : Libc) (cur : ℕ) (r : RunState job) : Prop where
  reachable : (job.callFrom libc cur).Reachable r
  halted : (job.callFrom libc cur).Halted r

/-- What the counter is during a call that finds it at `cur`. -/
def CounterInv (job : Job) (cur : ℕ) : RunState job → Prop
  | .mapping cur' _ => cur' = cur
  | .reducing s => s.curReducePartition ≤ max cur job.numPartitions ∧
      ∀ t, s.threads t = .exited → job.numPartitions ≤ s.curReducePartition
  | .returned cur' _ => cur' ≤ max cur job.numPartitions ∧
      (0 < job.numReducers → job.numPartitions ≤ cur')

end Job

namespace ReducePhase

variable {numReducers : ℕ} {s s' : ReducePhase numReducers} {t : Fin numReducers} {libc : Libc}
  {numPartitions : ℕ}

theorem exited_of_update {Q : Prop} {place : ReducerThread} (hplace : place = .exited → Q)
    (u : Fin numReducers) (hu : Function.update s.threads t place u = .exited) :
    s.threads u = .exited ∨ Q := by
  by_cases hut : u = t
  · subst hut
    rw [Function.update_self] at hu
    exact .inr (hplace hu)
  · rw [Function.update_of_ne hut] at hu
    exact .inl hu

/-- A step takes the counter up to the number of partitions at most, and a thread returns only when
all partitions are taken. -/
theorem counter_step (hs : s.step libc numPartitions t = some s') :
    s.curReducePartition ≤ s'.curReducePartition ∧
      s'.curReducePartition ≤ max s.curReducePartition numPartitions ∧
      ∀ u, s'.threads u = .exited → s.threads u = .exited ∨ numPartitions ≤ s'.curReducePartition := by
  have hsame : s.curReducePartition ≤ max s.curReducePartition numPartitions := le_max_left _ _
  obtain ⟨-, hstep⟩ := step_cases hs
  cases hstep with
  | finish _ hdone => exact ⟨le_rfl, hsame, exited_of_update fun _ ↦ hdone⟩
  | claim _ hmore => exact ⟨Nat.le_succ _, le_max_of_le_right hmore, exited_of_update (by simp)⟩
  | sortCrash | keyCrash => exact ⟨le_rfl, hsame, fun u hu ↦ .inl hu⟩
  | get =>
    unfold callGet
    split
    · exact ⟨le_rfl, hsame, fun u hu ↦ .inl hu⟩
    · exact ⟨le_rfl, hsame, exited_of_update (by simp)⟩
    · exact ⟨le_rfl, hsame, exited_of_update (by simp)⟩
  | _ => exact ⟨le_rfl, hsame, exited_of_update (by simp)⟩

end ReducePhase

namespace Job

variable {job : Job} {libc : Libc} {cur : ℕ} {r r' : RunState job} {l : RunLabel job}

theorem CounterInv.step (h : job.CounterInv cur r) (hs : job.step libc r l = some r') :
    job.CounterInv cur r' := by
  cases step_cases hs with
  | map => exact h
  | @join cur' s =>
    obtain rfl : cur' = cur := h
    exact ⟨le_max_left _ _, fun t ht ↦ nomatch ht⟩
  | @reduce s s' t hstep =>
    obtain ⟨hle, hbound, hexited⟩ := ReducePhase.counter_step hstep
    refine ⟨hbound.trans (max_le h.1 (le_max_right _ _)), fun u hu ↦ ?_⟩
    rcases hexited u hu with hold | hdone
    · exact (h.2 u hold).trans hle
    · exact hdone
  | finish _ hdone => exact ⟨h.1, fun hpos ↦ h.2 ⟨0, hpos⟩ (hdone _)⟩
  | destructCrash => exact h

/-- What a returned call leaves in the counter. -/
theorem counter_of_returned {cur' : ℕ} {calls : List ReducerCall}
    (hs : (job.callFrom libc cur).Reachable (.returned cur' calls)) :
    cur' ≤ max cur job.numPartitions ∧ (0 < job.numReducers → job.numPartitions ≤ cur') := by
  have h : job.CounterInv cur (.returned cur' calls) := by
    apply hs.invariant
    · rintro _ rfl
      exact rfl
    · exact fun r l r' _ h _ hstep ↦ CounterInv.step h hstep
  exact h

/-! ## Calls that never return -/

/-- The partitions hold valid pointers during the map phase. -/
theorem stores_of_mapInv {s : MapState job.numMappers} (h : MapJob.MapInv (job.mapJob libc) s)
    (p : ℕ) : (s.partitionList p).Stores := by
  have hsized := h.sized p
  refine ⟨hsized.length_eq ▸ hsized.nextToFill_le, ?_⟩
  have hle : ((s.partitionList p).stored : Multiset (Option KvPair)) ≤
      ((job.mapJob libc).emittedBelow (min s.idx (job.mapJob libc).inputCount) p).map some := by
    rw [← h.conserved p]
    exact Multiset.le_add_right _ _
  have hsome : (s.partitionList p).stored ∈ Set.range (List.map (some (α := KvPair))) := by
    rw [Set.range_list_map]
    intro o ho
    obtain ⟨pair, -, rfl⟩ := Multiset.mem_map.mp (Multiset.mem_of_le hle (Multiset.mem_coe.mpr ho))
    exact ⟨pair, rfl⟩
  obtain ⟨pairs, hpairs⟩ := hsome
  exact ⟨pairs, hpairs.symm⟩

/-- Nothing gets its turn: there is no reducer thread, or the counter is past the first partition. -/
def Stalls (job : Job) (cur : ℕ) : Prop := job.numReducers = 0 ∨ 0 < cur

/-- The reducer threads have no partition to claim. -/
def Idles (job : Job) (cur : ℕ) : Prop := job.numReducers = 0 ∨ job.numPartitions ≤ cur

/-- The invariant of a call in which nothing gets its turn.  It never returns. -/
def StalledInv (job : Job) (libc : Libc) (cur : ℕ) : RunState job → Prop
  | .mapping cur' s => cur' = cur ∧ MapJob.MapInv (job.mapJob libc) s ∧
      ∀ p, (s.partitionList p).idxsSet = false
  | .reducing s => s.crashed = true ∧ job.Idles cur ∨ s.Stalled job.numPartitions cur
  | .returned _ _ => False

theorem stalledInv_start : job.StalledInv libc cur (job.start libc cur) :=
  ⟨rfl, MapJob.mapInv_start, fun _ ↦ rfl⟩

theorem Stalls.pos_of_reducer (hstalls : job.Stalls cur) (t : Fin job.numReducers) : 0 < cur := by
  have hlt := t.isLt
  rcases hstalls with hzero | hcur
  · omega
  · exact hcur

theorem StalledInv.step (hpart : ∀ key, job.partitionOf key < job.numPartitions)
    (hstalls : job.Stalls cur) (h : job.StalledInv libc cur r) (hs : job.step libc r l = some r') :
    job.StalledInv libc cur r' := by
  cases step_cases hs with
  | map hstep =>
    obtain ⟨hcur, hinv, hunsorted⟩ := h
    exact ⟨hcur, hinv.step hpart hstep, fun p ↦
      (MapJob.idxsSet_mapStep hstep p).trans (hunsorted p)⟩
  | @join cur' s =>
    obtain ⟨rfl, hinv, hunsorted⟩ := h
    exact .inr (.start (stores_of_mapInv hinv) (hunsorted 0))
  | @reduce s s' t hstep =>
    rcases h with ⟨hcrashed, -⟩ | hstalled
    · simp [ReducePhase.step, hcrashed] at hstep
    · exact .inr (hstalled.step (hstalls.pos_of_reducer t) hstep)
  | finish halive hdone hfree =>
    rcases h with ⟨hcrashed, -⟩ | hstalled
    · rw [hcrashed] at halive
      exact Bool.noConfusion halive
    · -- The first partition, which nothing has sorted, cannot be freed.
      have hpos := Nat.zero_lt_of_lt (hpart (CString.ofBytes []))
      have hfirst := destructPartitionList_iff.mp hfree 0 hpos
      simp [PartitionData.destruct, hstalled.unsorted] at hfirst
  | destructCrash halive hdone =>
    rcases h with ⟨hcrashed, -⟩ | hstalled
    · rw [hcrashed] at halive
      exact Bool.noConfusion halive
    · refine .inl ⟨rfl, ?_⟩
      rcases Nat.eq_zero_or_pos job.numReducers with hzero | hr
      · exact .inl hzero
      · exact .inr (hstalled.le_first_of_exited hr (hstalls.pos_of_reducer ⟨0, hr⟩) hdone)

theorem stalledInv_of_reachable (hpart : ∀ key, job.partitionOf key < job.numPartitions)
    (hstalls : job.Stalls cur) (hs : (job.callFrom libc cur).Reachable r) :
    job.StalledInv libc cur r := by
  apply hs.invariant
  · rintro _ rfl
    exact stalledInv_start
  · exact fun r l r' _ h _ hstep ↦ StalledInv.step hpart hstalls h hstep

/-- The calls that have returned: at most one, which was the first and had a reducer thread. -/
theorem MrRuns.cases {jobs : List Job} (h : MrRuns jobs cur)
    (hparts : ∀ job ∈ jobs, ∀ key, job.partitionOf key < job.numPartitions) :
    jobs = [] ∧ cur = 0 ∨ ∃ first, jobs = [first] ∧ cur = first.numPartitions := by
  induction h with
  | nil => exact .inl ⟨rfl, rfl⟩
  | @next jobs cur cur' job libc calls _ hreturned ih =>
    have hpart := hparts job (by simp)
    have hnot : ¬job.Stalls cur := fun hstalls ↦
      (stalledInv_of_reachable hpart hstalls hreturned : False)
    simp only [Stalls, not_or, Nat.pos_iff_ne_zero, not_not] at hnot
    obtain ⟨hr, rfl⟩ := hnot
    obtain ⟨hle, hge⟩ := counter_of_returned hreturned
    have hpast := hge (Nat.pos_of_ne_zero hr)
    rw [Nat.zero_max] at hle
    rcases ih fun job' hjob' ↦ hparts job' (List.mem_append_left _ hjob') with
      ⟨rfl, -⟩ | ⟨first, rfl, hcur⟩
    · exact .inr ⟨job, rfl, le_antisymm hle hpast⟩
    · have hpos := Nat.zero_lt_of_lt (hparts first (by simp) (CString.ofBytes []))
      omega

/-! ## First calls -/

/-- Without mapper threads the partitions are empty. -/
def NoMapperInv (job : Job) (libc : Libc) : RunState job → Prop
  | .mapping cur s => cur = 0 ∧ s = (job.mapJob libc).start
  | .reducing s => s.crashed = false ∧ (job.reduceInput libc fun _ ↦ []).PhaseInv s
  | .returned _ calls => calls = []

theorem groups_nil (p : ℕ) : (job.reduceInput libc fun _ ↦ []).groups p = [] := by
  have hgroups := isGrouping_sortedGroups libc.qsort []
  have hsorted : sortedPairs libc.qsort [] = [] := (libc.qsort.perm _ []).eq_nil
  rw [ReduceInput.groups, sortedGroups, hsorted]
  rfl

theorem loaded_start (p : ℕ) : (job.reduceInput libc fun _ ↦ []).Loaded p
    ((job.mapJob libc).start.partitionList p) := by
  refine ⟨Nat.zero_le _, ?_⟩
  simp [MapJob.start]

theorem NoMapperInv.step (hm : job.numMappers = 0) (hr : 0 < job.numReducers)
    (h : job.NoMapperInv libc r) (hs : job.step libc r l = some r') : job.NoMapperInv libc r' := by
  cases step_cases hs with
  | @map cur s s' t =>
    have hlt := t.isLt
    omega
  | join =>
    obtain ⟨rfl, rfl⟩ := h
    exact ⟨rfl, ReduceInput.PhaseInv.start loaded_start⟩
  | reduce hstep =>
    obtain ⟨-, hinv⟩ := h
    have halive := hinv.alive (fun p _ ↦ by simp [groups_nil]) hstep
    exact ⟨halive, hinv.step hstep halive⟩
  | @finish s halive hdone =>
    obtain ⟨hbelow, habove⟩ := h.2.done hr hdone
    refine List.eq_nil_iff_forall_not_mem.mpr fun call hcall ↦ ?_
    have hmem : call ∈ s.callsOn call.partition := by simpa [ReducePhase.callsOn] using hcall
    rcases Nat.lt_or_ge call.partition job.numPartitions with hp | hp
    · rw [(hbelow _ hp).2, groups_nil] at hmem
      cases hmem
    · rw [habove _ hp] at hmem
      cases hmem
  | destructCrash _ hdone hfree =>
    rw [destructPartitionList_iff.mpr fun p hp ↦ h.2.destruct hr hdone hp] at hfree
    exact Bool.noConfusion hfree

end Job

end CS537.MapReduce
