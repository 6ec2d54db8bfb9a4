import CS537.MapReduce.SortPartition
import Mathlib.Data.List.Dedup

/-!
# Iterating over the values of the keys

After `sort_partition` a partition with several keys is divided into ranges, one for each key, and
`Get` moves a cursor through the range of its key.  The calls for one key are not affected by those
for others.
-/

namespace CS537.MapReduce

open Foundation

namespace PartitionData

variable (partition : PartitionData)

/-- The calls of `Get` on a partition, one after the other, and what they return. -/
def gets : List CString → PartitionData → Option (List (Option CString) × PartitionData)
  | [], partition => some ([], partition)
  | key :: keys, partition => do
    let (value, partition) ← partition.get key
    let (values, partition) ← gets keys partition
    some (value :: values, partition)

/-- The range with index `i`. -/
def range (i : ℕ) : Option (ℕ × ℕ) := do
  let startIdx ← partition.startIdxs[i]?
  let endIdx ← partition.endIdxs[i]?
  some (startIdx, endIdx)

/-- The range with index `i` holds the pairs with a key, and no others. -/
def HoldsKey (i : ℕ) (key : CString) : Prop :=
  ∃ startIdx endIdx, partition.range i = some (startIdx, endIdx) ∧
    ∀ r < partition.nextToFill,
      (∃ pair, partition.kvPairList[r]? = some (some pair) ∧ pair.key = key) ↔
        startIdx ≤ r ∧ r < endIdx

/-- Value `k` of the range with index `i`, or null behind its end. -/
def kthValue (i k : ℕ) : Option CString := do
  let (startIdx, endIdx) ← partition.range i
  if startIdx + k < endIdx then
    let pair ← partition.kvPairList[startIdx + k]?.join
    some pair.value
  else none

/-- The pairs are divided into ranges that are not empty and follow each other. -/
structure Divided : Prop where
  nonempty : ∀ i < partition.numKeys, ∃ startIdx endIdx,
    partition.range i = some (startIdx, endIdx) ∧ startIdx < endIdx
  first : ∃ endIdx, partition.range 0 = some (0, endIdx)
  consecutive : ∀ i, i + 1 < partition.numKeys → ∃ startIdx middle endIdx,
    partition.range i = some (startIdx, middle) ∧ partition.range (i + 1) = some (middle, endIdx)
  last : ∃ startIdx, partition.range (partition.numKeys - 1) = some (startIdx, partition.nextToFill)
  oneKey : ∀ i < partition.numKeys, ∃ key, partition.HoldsKey i key

end PartitionData

/-! ## Groups and ranges -/

section Groups

variable {partition : PartitionData} {pairs : List KvPair} {gs : Groups}

theorem startOf_cons_succ (g : CString × List KvPair) (gs : Groups) (j : ℕ) :
    startOf (g :: gs) (j + 1) = g.2.length + startOf gs j := by
  rw [startOf, startOf, List.take_succ_cons, List.map_cons, List.sum_cons]

theorem startOf_succ {j : ℕ} (hj : j < gs.length) :
    startOf gs (j + 1) = startOf gs j + gs[j].2.length := by
  rw [startOf, startOf, List.take_add_one, List.getElem?_eq_getElem hj, List.map_append,
    List.sum_append]
  rfl

theorem startOf_length (gs : Groups) : startOf gs gs.length = (gs.flatMap Prod.snd).length := by
  rw [startOf, List.take_length, List.length_flatMap]

/-- Every index lies in the range of a group. -/
theorem exists_group {r : ℕ} (hr : r < (gs.flatMap Prod.snd).length) :
    ∃ j, ∃ hj : j < gs.length, startOf gs j ≤ r ∧ r < startOf gs j + gs[j].2.length := by
  induction gs generalizing r with
  | nil => exact absurd hr (Nat.not_lt_zero r)
  | cons g gs ih =>
    have hstart : startOf (g :: gs) 0 = 0 := rfl
    by_cases hfirst : r < g.2.length
    · refine ⟨0, Nat.succ_pos _, ?_, ?_⟩
      · rw [hstart]
        exact Nat.zero_le r
      · rwa [hstart, Nat.zero_add]
    · rw [List.flatMap_cons, List.length_append] at hr
      obtain ⟨j, hj, hle, hlt⟩ := @ih (r - g.2.length) (by omega)
      refine ⟨j + 1, Nat.succ_lt_succ hj, ?_, ?_⟩
      · rw [startOf_cons_succ]
        omega
      · rw [startOf_cons_succ, List.getElem_cons_succ]
        omega

namespace Delimited

variable (h : Delimited partition pairs gs)
include h

theorem key_inj {i j : ℕ} (hi : i < gs.length) (hj : j < gs.length) (heq : gs[i].1 = gs[j].1) :
    i = j := by
  have hi' : i < (gs.map Prod.fst).length := by simpa using hi
  have hj' : j < (gs.map Prod.fst).length := by simpa using hj
  have hkeys : (gs.map Prod.fst)[i] = (gs.map Prod.fst)[j] := by simpa using heq
  exact h.grouping.nodup.getElem_inj_iff.mp hkeys

theorem range {i : ℕ} (hi : i < gs.length) :
    partition.range i = some (startOf gs i, startOf gs i + gs[i].2.length) := by
  simp only [PartitionData.range, h.startIdxs, h.endIdxs, starts_getElem? 0 hi, ends_getElem? 0 hi,
    Nat.zero_add, Option.bind_eq_bind, Option.bind_some]

theorem kthValue {i : ℕ} (hi : i < gs.length) (k : ℕ) :
    partition.kthValue i k = (gs[i].2.map KvPair.value)[k]? := by
  rw [PartitionData.kthValue, h.range hi, List.getElem?_map]
  by_cases hk : k < gs[i].2.length
  · simp only [Option.bind_eq_bind, Option.bind_some, Nat.add_lt_add_iff_left, if_pos hk,
      h.pair_at hi hk, List.getElem?_eq_getElem hk, Option.map_some]
  · simp only [Option.bind_eq_bind, Option.bind_some, Nat.add_lt_add_iff_left, if_neg hk,
      List.getElem?_eq_none (Nat.not_lt.mp hk), Option.map_none]

theorem holdsKey (hfill : partition.nextToFill = pairs.length) {i : ℕ} (hi : i < gs.length) :
    partition.HoldsKey i gs[i].1 := by
  refine ⟨_, _, h.range hi, fun r hr ↦ ?_⟩
  have hlength : (gs.flatMap Prod.snd).length = pairs.length := by rw [h.grouping.flatten]
  constructor
  · rintro ⟨pair, hpair, hkey⟩
    have hr' : r < (gs.flatMap Prod.snd).length := by omega
    obtain ⟨j, hj, hle, hlt⟩ := exists_group hr'
    have hin : r - startOf gs j < gs[j].2.length := by omega
    have hat := h.pair_at hj hin
    rw [Nat.add_sub_cancel' hle, hpair, Option.join_some, Option.some.injEq] at hat
    have hsame : gs[j].1 = gs[i].1 := by
      rw [← hkey, hat, h.grouping.key_eq _ (List.getElem_mem hj) _ (List.getElem_mem hin)]
    obtain rfl := h.key_inj hj hi hsame
    exact ⟨hle, hlt⟩
  · rintro ⟨hle, hlt⟩
    have hin : r - startOf gs i < gs[i].2.length := by omega
    have hat := flatMap_getElem?_startOf hi hin
    rw [Nat.add_sub_cancel' hle, h.grouping.flatten, List.getElem?_eq_getElem (by omega),
      Option.some.injEq] at hat
    exact ⟨gs[i].2[r - startOf gs i], by rw [h.stored r (by omega), hat],
      h.grouping.key_eq _ (List.getElem_mem hi) _ (List.getElem_mem hin)⟩

theorem divided (hnumKeys : partition.numKeys = gs.length)
    (hfill : partition.nextToFill = pairs.length) (hpos : 0 < gs.length) : partition.Divided where
  nonempty i hi := by
    rw [hnumKeys] at hi
    have hne := h.grouping.ne_nil _ (List.getElem_mem hi)
    exact ⟨_, _, h.range hi, Nat.lt_add_of_pos_right (List.length_pos_iff.mpr hne)⟩
  first := ⟨_, h.range hpos⟩
  consecutive i hi := by
    rw [hnumKeys] at hi
    have hnext := h.range hi
    rw [startOf_succ (Nat.lt_of_succ_lt hi)] at hnext
    exact ⟨_, _, _, h.range (Nat.lt_of_succ_lt hi), hnext⟩
  last := by
    have hlast : gs.length - 1 < gs.length := Nat.sub_lt hpos Nat.one_pos
    refine ⟨startOf gs (gs.length - 1), ?_⟩
    rw [hnumKeys, h.range hlast, ← startOf_succ hlast, Nat.sub_add_cancel hpos, startOf_length,
      h.grouping.flatten, hfill]
  oneKey i hi := by
    rw [hnumKeys] at hi
    exact ⟨_, h.holdsKey hfill hi⟩

end Delimited

end Groups

/-! ## Independent iterators -/

section Iterators

variable {partition : PartitionData} {pairs : List KvPair} {gs : Groups} {c : CString → ℕ}

/-- What iterators return that are called for these keys, each of them having its own position in the
values of its key. -/
def answers (values : CString → List CString) : (CString → ℕ) → List CString →
    List (Option CString)
  | _, [] => []
  | c, key :: keys => (values key)[c key]? :: answers values (Function.update c key (c key + 1)) keys

@[simp]
theorem length_answers (values : CString → List CString) (c : CString → ℕ) (keys : List CString) :
    (answers values c keys).length = keys.length := by
  induction keys generalizing c with
  | nil => rfl
  | cons key keys ih => rw [answers, List.length_cons, ih, List.length_cons]

/-- An answer depends on the number of the calls for the same key. -/
theorem answers_getElem? (values : CString → List CString) (c : CString → ℕ)
    {keys : List CString} {t : ℕ} (ht : t < keys.length) :
    (answers values c keys)[t]? =
      some (values keys[t])[c keys[t] + (keys.take t).count keys[t]]? := by
  induction keys generalizing c t with
  | nil => exact absurd ht (Nat.not_lt_zero t)
  | cons key keys ih =>
    cases t with
    | zero => rfl
    | succ t =>
      have ht' : t < keys.length := Nat.lt_of_succ_lt_succ ht
      rw [answers, List.getElem?_cons_succ, ih _ ht', List.getElem_cons_succ, List.take_succ_cons,
        List.count_cons]
      by_cases hkey : key = keys[t]
      · have hsum : c key + 1 + (keys.take t).count key = c key + ((keys.take t).count key + 1) := by
          omega
        simp only [← hkey, Function.update_self, beq_self_eq_true, if_true, hsum]
      · have hbeq : (key == keys[t]) = false := beq_false_of_ne hkey
        rw [Function.update_of_ne (Ne.symm hkey), hbeq]
        simp only [Bool.false_eq_true, if_false, Nat.add_zero]

/-- The values of a key, in the order of the pairs. -/
def valuesOf (pairs : List KvPair) (key : CString) : List CString :=
  (pairs.filter fun pair ↦ pair.key = key).map KvPair.value

/-- The cursors when `Get` has been called for the keys so many times. -/
def Cursors (partition : PartitionData) (gs : Groups) (c : CString → ℕ) : Prop :=
  ∀ j, ∀ hj : j < gs.length,
    partition.curIdxs[j]? = some (startOf gs j + min (c gs[j].1) gs[j].2.length)

theorem cursors_start (hcur : partition.curIdxs = starts 0 gs) : Cursors partition gs fun _ ↦ 0 := by
  intro j hj
  rw [hcur, starts_getElem? 0 hj, Nat.zero_add, Nat.zero_min, Nat.add_zero]

namespace Delimited

variable (h : Delimited partition pairs gs)
include h

theorem valuesOf_key {j : ℕ} (hj : j < gs.length) :
    valuesOf pairs gs[j].1 = gs[j].2.map KvPair.value := by
  rw [valuesOf, h.grouping.filter_key (List.getElem_mem hj)]

/-- A call of `Get` is one of the iterator of its key. -/
theorem get_next (hc : Cursors partition gs c) {j : ℕ} (hj : j < gs.length) :
    ∃ next, partition.get gs[j].1 = some ((valuesOf pairs gs[j].1)[c gs[j].1]?, next) ∧
      Delimited next pairs gs ∧
      Cursors next gs (Function.update c gs[j].1 (c gs[j].1 + 1)) := by
  have hget := h.get hj (hc j hj)
  have hother {i : ℕ} (hi : i < gs.length) (hij : i ≠ j) :
      Function.update c gs[j].1 (c gs[j].1 + 1) gs[i].1 = c gs[i].1 :=
    Function.update_of_ne (fun heq ↦ hij (h.key_inj hi hj heq)) _ _
  rw [h.valuesOf_key hj, List.getElem?_map]
  by_cases hlt : c gs[j].1 < gs[j].2.length
  · have hmin : min (c gs[j].1) gs[j].2.length = c gs[j].1 := Nat.min_eq_left (Nat.le_of_lt hlt)
    simp only [hmin, dif_pos hlt] at hget
    refine ⟨{ partition with curIdxs := partition.curIdxs.set j (startOf gs j + c gs[j].1 + 1) },
      hget.trans ?_, h.withCursors _, fun i hi ↦ ?_⟩
    · rw [List.getElem?_eq_getElem hlt, Option.map_some]
    · by_cases hij : i = j
      · subst hij
        have hin : i < partition.curIdxs.length := (List.getElem?_eq_some_iff.mp (hc i hi)).1
        rw [Function.update_self, Nat.min_eq_left hlt]
        exact List.getElem?_set_self hin
      · rw [hother hi hij, ← hc i hi]
        exact List.getElem?_set_ne (Ne.symm hij)
  · have hmin : min (c gs[j].1) gs[j].2.length = gs[j].2.length :=
      Nat.min_eq_right (Nat.not_lt.mp hlt)
    simp only [hmin, Nat.lt_irrefl, dif_neg, not_false_eq_true] at hget
    refine ⟨partition, hget.trans ?_, h, fun i hi ↦ ?_⟩
    · rw [List.getElem?_eq_none (Nat.not_lt.mp hlt), Option.map_none]
    · by_cases hij : i = j
      · subst hij
        rw [hc i hi, hmin, Function.update_self, Nat.min_eq_right (by omega)]
      · rw [hother hi hij, hc i hi]

/-- The calls of `Get` are those of independent iterators. -/
theorem gets {keys : List CString} (hc : Cursors partition gs c)
    (hkeys : ∀ key ∈ keys, key ∈ gs.map Prod.fst) :
    ∃ last, PartitionData.gets keys partition = some (answers (valuesOf pairs) c keys, last) := by
  induction keys generalizing partition c with
  | nil => exact ⟨partition, rfl⟩
  | cons key keys ih =>
    obtain ⟨hkey, hrest⟩ := List.forall_mem_cons.mp hkeys
    obtain ⟨g, hg, rfl⟩ := List.mem_map.mp hkey
    obtain ⟨j, hj, rfl⟩ := List.getElem_of_mem hg
    obtain ⟨next, hget, hnext, hcursors⟩ := h.get_next hc hj
    obtain ⟨last, hgets⟩ := ih hnext hcursors hrest
    refine ⟨last, ?_⟩
    simp only [PartitionData.gets, hget, hgets, Option.bind_eq_bind, Option.bind_some, answers]

end Delimited

end Iterators

/-! ## `sort_partition` and `Get` -/

/-- The groups are those of the distinct keys. -/
theorem length_sortedGroups (qsort : Qsort) (pairs : List KvPair) :
    (sortedGroups qsort pairs).length = (pairs.map KvPair.key).dedup.length := by
  have hgroups := isGrouping_sortedGroups qsort pairs
  have hperm : ((sortedGroups qsort pairs).map Prod.fst).Perm (pairs.map KvPair.key).dedup := by
    refine (List.perm_ext_iff_of_nodup hgroups.nodup (List.nodup_dedup _)).mpr fun key ↦ ?_
    rw [hgroups.mem_keys_iff, List.mem_dedup]
    exact ((qsort.perm kvPairComparator pairs).map KvPair.key).mem_iff
  rw [← List.length_map (f := Prod.fst), hperm.length_eq]

/-- `sort_partition` keeps the pairs of a partition with several keys and divides them into the
ranges of these keys, and the calls of `Get` return for each key the values of its range one after
the other, and then null. -/
theorem get_independent (qsort : Qsort) (fresh : FreshIdxs) (partition : PartitionData)
    (pairs : List KvPair) (hle : partition.nextToFill ≤ partition.kvPairList.length)
    (hstored : partition.stored = pairs.map some)
    (hmany : 2 ≤ (pairs.map KvPair.key).dedup.length) :
    ∃ sorted, sortPartition qsort fresh partition = some sorted ∧
      sorted.nextToFill = partition.nextToFill ∧ sorted.stored.Perm partition.stored ∧
      sorted.numKeys = (pairs.map KvPair.key).dedup.length ∧ sorted.Divided ∧
      ∀ keys, (∀ key ∈ keys, key ∈ pairs.map KvPair.key) → ∃ values last,
        PartitionData.gets keys sorted = some (values, last) ∧ values.length = keys.length ∧
        ∀ t, ∀ ht : t < keys.length, ∃ i < sorted.numKeys, sorted.HoldsKey i keys[t] ∧
          values[t]? = some (sorted.kthValue i ((keys.take t).count keys[t])) := by
  obtain ⟨sorted, hrun, hnumKeys, hgroups, -⟩ := sortPartition_spec qsort fresh hle hstored
  have hlength := length_sortedGroups qsort pairs
  obtain ⟨hdelimited, hcur⟩ := hgroups (by omega)
  obtain ⟨hsame, hle', hstored'⟩ := stored_sortPartition hle hstored hrun
  have hperm : sorted.stored.Perm partition.stored := by
    rw [hstored', hstored]
    exact (qsort.perm kvPairComparator pairs).map some
  have hfill : sorted.nextToFill = (sortedPairs qsort pairs).length := by
    have hcount := congrArg List.length hstored'
    rwa [PartitionData.stored, List.length_take, Nat.min_eq_left hle', List.length_map] at hcount
  refine ⟨sorted, hrun, hsame, hperm, hnumKeys.trans hlength,
    hdelimited.divided hnumKeys hfill (by omega), fun keys hkeys ↦ ?_⟩
  have hmem (key : CString) (hkey : key ∈ pairs.map KvPair.key) :
      key ∈ (sortedGroups qsort pairs).map Prod.fst := by
    rw [hdelimited.grouping.mem_keys_iff]
    exact ((qsort.perm kvPairComparator pairs).map KvPair.key).mem_iff.mpr hkey
  obtain ⟨last, hgets⟩ := hdelimited.gets (cursors_start hcur) fun key hkey ↦ hmem key (hkeys key hkey)
  refine ⟨_, last, hgets, length_answers _ _ _, fun t ht ↦ ?_⟩
  obtain ⟨g, hg, hkey⟩ := List.mem_map.mp (hmem _ (hkeys _ (List.getElem_mem ht)))
  obtain ⟨i, hi, rfl⟩ := List.getElem_of_mem hg
  refine ⟨i, by rwa [hnumKeys], hkey ▸ hdelimited.holdsKey hfill hi, ?_⟩
  rw [answers_getElem? _ _ ht, hdelimited.kthValue hi, ← hdelimited.valuesOf_key hi, hkey,
    Nat.zero_add]

/-- A partition with the keys `a` and `b`. -/
def twoKeys : PartitionData where
  kvPairList := [some ⟨.ofBytes [97], .ofBytes [49]⟩, some ⟨.ofBytes [98], .ofBytes [50]⟩]
  sizeOfList := 2
  nextToFill := 2
  numKeys := 0
  startIdxs := []
  endIdxs := []
  curIdxs := []
  m _ := none
  idxsSet := false

theorem get_independent_twoKeys :
    ∃ sorted, sortPartition .insertionSort ⟨id, id, id⟩ twoKeys = some sorted ∧
      sorted.nextToFill = 2 ∧ sorted.stored.Perm twoKeys.stored ∧
      sorted.numKeys = 2 ∧ sorted.Divided ∧
      ∀ keys, (∀ key ∈ keys, key ∈ [CString.ofBytes [97], .ofBytes [98]]) → ∃ values last,
        PartitionData.gets keys sorted = some (values, last) ∧ values.length = keys.length ∧
        ∀ t, ∀ ht : t < keys.length, ∃ i < sorted.numKeys, sorted.HoldsKey i keys[t] ∧
          values[t]? = some (sorted.kthValue i ((keys.take t).count keys[t])) :=
  get_independent .insertionSort ⟨id, id, id⟩ twoKeys
    [⟨.ofBytes [97], .ofBytes [49]⟩, ⟨.ofBytes [98], .ofBytes [50]⟩] (by decide) rfl (by decide)

end CS537.MapReduce
