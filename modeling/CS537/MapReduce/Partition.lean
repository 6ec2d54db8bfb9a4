import CS537.Foundation.CString
import Mathlib.Logic.Function.Basic

/-!
# Partitions of intermediate pairs

A partition holds the pairs emitted for it in an array that doubles when it is full.  An array is
the list of the pointers in it, as long as its allocation; a pointer that was never written is
`none`.  Reading or writing outside the allocation has no result.
-/

namespace CS537.MapReduce

open Foundation

/-- `kv_pair`: copies of the key and the value given to `MR_Emit`. -/
structure KvPair where
  key : CString
  value : CString
  deriving DecidableEq

/-- `partition_data`, without its lock and its semaphore: what the lock guards is one step of the
machines below, and the semaphores, which other threads use, are a table of their own. -/
structure PartitionData where
  kvPairList : List (Option KvPair)
  sizeOfList : ℕ
  nextToFill : ℕ
  numKeys : ℕ
  startIdxs : List ℕ
  endIdxs : List ℕ
  curIdxs : List ℕ
  m : CString → Option ℤ
  /-- `sort_partition` has set the arrays of indices and the map -/
  idxsSet : Bool

def initMaxKvPairPartition : ℕ := 2

/-- One partition of `init_partition_list`; the fields it does not set keep what `malloc` gave. -/
def initPartition (fresh : PartitionData) : PartitionData :=
  { fresh with
    sizeOfList := initMaxKvPairPartition
    kvPairList := List.replicate initMaxKvPairPartition none
    nextToFill := 0
    idxsSet := false }

namespace PartitionData

/-- The growth branch of `MR_Emit`: a new array of twice the size, the old pointers copied. -/
def expand (partition : PartitionData) : Option PartitionData :=
  let originalSize := partition.sizeOfList
  if originalSize ≤ partition.kvPairList.length then
    some { partition with
      sizeOfList := originalSize * 2
      kvPairList := partition.kvPairList.take originalSize ++
        (List.replicate (originalSize * 2) none).drop originalSize }
  else none

/-- `partition->kv_pair_list[partition->next_to_fill++] = new_pair`. -/
def append (partition : PartitionData) (newPair : KvPair) : Option PartitionData :=
  if partition.nextToFill < partition.kvPairList.length then
    some { partition with
      kvPairList := partition.kvPairList.set partition.nextToFill (some newPair)
      nextToFill := partition.nextToFill + 1 }
  else none

/-- The critical section of `MR_Emit`. -/
def mrEmit (partition : PartitionData) (pair : KvPair) : Option PartitionData :=
  if partition.nextToFill = partition.sizeOfList then
    partition.expand.bind (·.append pair)
  else partition.append pair

/-- The pointers in positions `0` to `next_to_fill - 1`. -/
def stored (partition : PartitionData) : List (Option KvPair) :=
  partition.kvPairList.take partition.nextToFill

/-- The array is as long as the size on record, which is positive and holds every pair. -/
structure WellSized (partition : PartitionData) : Prop where
  pos : 0 < partition.sizeOfList
  nextToFill_le : partition.nextToFill ≤ partition.sizeOfList
  length_eq : partition.kvPairList.length = partition.sizeOfList

theorem wellSized_initPartition (fresh : PartitionData) : (initPartition fresh).WellSized where
  pos := Nat.two_pos
  nextToFill_le := Nat.zero_le _
  length_eq := by simp [initPartition]

@[simp]
theorem stored_initPartition (fresh : PartitionData) : (initPartition fresh).stored = [] := by
  simp [initPartition, stored]

/-- Growing keeps what is stored and makes room for one more pair. -/
theorem WellSized.expand {partition : PartitionData} (h : partition.WellSized) :
    ∃ grown, partition.expand = some grown ∧ grown.WellSized ∧ grown.stored = partition.stored ∧
      grown.nextToFill = partition.nextToFill ∧ grown.nextToFill < grown.sizeOfList := by
  have hpos := h.pos
  have hle := h.nextToFill_le
  have hlen := h.length_eq
  refine ⟨_, if_pos hlen.ge, ⟨?_, ?_, ?_⟩, ?_, rfl, ?_⟩
  · change 0 < partition.sizeOfList * 2
    omega
  · change partition.nextToFill ≤ partition.sizeOfList * 2
    omega
  · simp only [List.length_append, List.length_take, List.length_drop, List.length_replicate]
    omega
  · simp only [stored]
    rw [List.take_append_of_le_length (by simp only [List.length_take]; omega), List.take_take,
      Nat.min_eq_left hle]
  · change partition.nextToFill < partition.sizeOfList * 2
    omega

theorem WellSized.append {partition : PartitionData} (h : partition.WellSized)
    (hlt : partition.nextToFill < partition.sizeOfList) (pair : KvPair) :
    ∃ filled, partition.append pair = some filled ∧ filled.WellSized ∧
      filled.stored = partition.stored ++ [some pair] := by
  have hlen := h.length_eq
  have hbound : partition.nextToFill < partition.kvPairList.length := by omega
  refine ⟨_, if_pos hbound, ⟨h.pos, hlt, ?_⟩, ?_⟩
  · simpa using hlen
  · simp only [stored]
    rw [List.take_add_one, List.take_set_of_le (Nat.le_refl _), List.getElem?_set_self hbound]
    rfl

/-- `MR_Emit` on a well-sized partition writes inside the array and appends its pair. -/
theorem WellSized.mrEmit {partition : PartitionData} (h : partition.WellSized) (pair : KvPair) :
    ∃ next, partition.mrEmit pair = some next ∧ next.WellSized ∧
      next.stored = partition.stored ++ [some pair] := by
  by_cases hfull : partition.nextToFill = partition.sizeOfList
  · obtain ⟨grown, hgrown, hsized, hstored, -, hroom⟩ := h.expand
    obtain ⟨next, hnext, hnextSized, hnextStored⟩ := hsized.append hroom pair
    refine ⟨next, ?_, hnextSized, hstored ▸ hnextStored⟩
    simp [PartitionData.mrEmit, hfull, hgrown, hnext]
  · have hroom : partition.nextToFill < partition.sizeOfList :=
      lt_of_le_of_ne h.nextToFill_le hfull
    simpa [PartitionData.mrEmit, hfull] using h.append hroom pair

/-- `MR_Emit` leaves the arrays of indices alone. -/
theorem idxsSet_mrEmit {partition next : PartitionData} {pair : KvPair}
    (h : partition.mrEmit pair = some next) : next.idxsSet = partition.idxsSet := by
  have happend {old filled : PartitionData} (h : old.append pair = some filled) :
      filled.idxsSet = old.idxsSet := by
    obtain ⟨-, heq⟩ := Option.ite_none_right_eq_some.mp h
    obtain rfl := Option.some.inj heq
    rfl
  unfold mrEmit at h
  split at h
  · obtain ⟨grown, hgrown, h⟩ := Option.bind_eq_some_iff.mp h
    obtain ⟨-, heq⟩ := Option.ite_none_right_eq_some.mp hgrown
    rw [happend h, ← Option.some.inj heq]
  · exact happend h

end PartitionData

end CS537.MapReduce
