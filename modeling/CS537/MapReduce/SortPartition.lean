import CS537.Foundation.Grouping
import CS537.MapReduce.Partition
import Mathlib.Data.List.Sort
import Mathlib.Data.Multiset.Basic

/-!
# Sorting a partition and iterating over its keys

`sort_partition` sorts the pairs of a partition and scans them twice: the first scan counts the
distinct keys, the second one records where the pairs of each key start and end and maps each key
to its index.  The second scan starts from the key on which the first one ended, so that it sees
a new key at the first pair, unless that key is the only one: then it records nothing.  `Get`
reads the next pair of a key through these arrays.
-/

namespace CS537.MapReduce

open Foundation

/-- `qsort`, of which only the documented contract is used: the result is a permutation of the
array, sorted if the comparator is a total order. -/
structure Qsort where
  sort : (KvPair → KvPair → ℤ) → List KvPair → List KvPair
  perm : ∀ cmp l, (sort cmp l).Perm l
  sorted : ∀ cmp, (∀ a b, cmp a b ≤ 0 ∨ cmp b a ≤ 0) →
    (∀ a b c, cmp a b ≤ 0 → cmp b c ≤ 0 → cmp a c ≤ 0) →
    ∀ l, (sort cmp l).Pairwise fun a b ↦ cmp a b ≤ 0

/-- Insertion sort meets the contract. -/
def Qsort.insertionSort : Qsort where
  sort cmp l := l.insertionSort fun a b ↦ cmp a b ≤ 0
  perm _ l := List.perm_insertionSort _ l
  sorted cmp htotal htrans l := by
    have : Std.Total fun a b ↦ cmp a b ≤ 0 := ⟨htotal⟩
    have : IsTrans KvPair fun a b ↦ cmp a b ≤ 0 := ⟨htrans⟩
    exact List.pairwise_insertionSort _ l

def kvPairComparator (p1 p2 : KvPair) : ℤ := strcmp p1.key p2.key

/-- What `malloc` gives for the index arrays of a partition. -/
structure FreshIdxs where
  startIdxs : ℕ → ℕ
  endIdxs : ℕ → ℕ
  curIdxs : ℕ → ℕ

/-- A new array of `n` indices with the given contents. -/
def mallocIdxs (n : ℕ) (contents : ℕ → ℕ) : List ℕ := (List.range n).map contents

/-- The body of the first scan: `(num_keys, key_tmp)`, where `key_tmp` is null at first. -/
def countStep (count : ℕ × Option CString) (pair : KvPair) : ℕ × Option CString :=
  match count with
  | (numKeys, none) => (numKeys + 1, some pair.key)
  | (numKeys, some keyTmp) =>
    if strcmp pair.key keyTmp ≠ 0 then (numKeys + 1, some pair.key) else (numKeys, some keyTmp)

/-- The variables of the second scan. -/
structure Scan where
  curKeyIdx : ℤ
  keyTmp : CString
  startIdxs : List ℕ
  endIdxs : List ℕ
  curIdxs : List ℕ
  m : CString → Option ℤ

/-- The body of the second scan, on the pair at index `i`. -/
def scanStep (i : ℕ) (pair : KvPair) (scan : Scan) : Scan :=
  if strcmp pair.key scan.keyTmp ≠ 0 then
    let endIdxs :=
      if scan.curKeyIdx > -1 then scan.endIdxs.set scan.curKeyIdx.toNat i else scan.endIdxs
    let curKeyIdx := scan.curKeyIdx + 1
    { curKeyIdx := curKeyIdx
      keyTmp := pair.key
      startIdxs := scan.startIdxs.set curKeyIdx.toNat i
      endIdxs := endIdxs
      curIdxs := scan.curIdxs.set curKeyIdx.toNat i
      m := Function.update scan.m pair.key (some curKeyIdx) }
  else scan

/-- The second scan from index `i` on. -/
def scanFrom : ℕ → List KvPair → Scan → Scan
  | _, [], scan => scan
  | i, pair :: pairs, scan => scanFrom (i + 1) pairs (scanStep i pair scan)

/-- The pointers in positions `0` to `next_to_fill - 1`, if all of them point to pairs. -/
def PartitionData.pairs (partition : PartitionData) : Option (List KvPair) :=
  if partition.nextToFill ≤ partition.kvPairList.length then partition.stored.mapM id else none

/-- The second scan and the last write of an end index, over the sorted pairs. -/
def delimit (fresh : FreshIdxs) (pairs : List KvPair) : ℕ × Scan :=
  let (numKeys, keyTmp) := pairs.foldl countStep (0, none)
  let scan := scanFrom 0 pairs
    { curKeyIdx := -1
      keyTmp := keyTmp.getD (CString.ofBytes [])
      startIdxs := mallocIdxs numKeys fresh.startIdxs
      endIdxs := mallocIdxs numKeys fresh.endIdxs
      curIdxs := mallocIdxs numKeys fresh.curIdxs
      m := fun _ ↦ none }
  let endIdxs :=
    if scan.curKeyIdx ≠ -1 then scan.endIdxs.set scan.curKeyIdx.toNat pairs.length
    else scan.endIdxs
  (numKeys, { scan with endIdxs := endIdxs })

/-- `sort_partition`; there is no result when it follows a pointer that was never written.  With
no pair the second scan does not run, and the null `key_tmp` is not read. -/
def sortPartition (qsort : Qsort) (fresh : FreshIdxs) (partition : PartitionData) :
    Option PartitionData :=
  partition.pairs.map fun pairs ↦
    let sorted := qsort.sort kvPairComparator pairs
    let (numKeys, scan) := delimit fresh sorted
    { partition with
      kvPairList := sorted.map some ++ partition.kvPairList.drop partition.nextToFill
      numKeys := numKeys
      startIdxs := scan.startIdxs
      endIdxs := scan.endIdxs
      curIdxs := scan.curIdxs
      m := scan.m
      idxsSet := true }

/-- `Get`: the next value of the key, or null after the last one.  There is no result when the
key is not in the map, whose null answer is dereferenced, or when an index is out of range. -/
def PartitionData.get (partition : PartitionData) (key : CString) :
    Option (Option CString × PartitionData) := do
  let keyIdx ← partition.m key
  let curKvPairIdx ← partition.curIdxs[keyIdx.toNat]?
  let endIdx ← partition.endIdxs[keyIdx.toNat]?
  if endIdx ≤ curKvPairIdx then some (none, partition)
  else do
    let pair ← partition.kvPairList[curKvPairIdx]?.join
    some (some pair.value,
      { partition with curIdxs := partition.curIdxs.set keyIdx.toNat (curKvPairIdx + 1) })

/-- What `destruct_partition_list` does with a partition: it follows and frees the pointers to the
pairs, and frees the arrays of indices and the map.  False when one of these was never set. -/
def PartitionData.destruct (partition : PartitionData) : Bool :=
  partition.pairs.isSome && partition.idxsSet

/-- The key that `reduce_controller` reads for its call with index `i`. -/
def PartitionData.keyAt (partition : PartitionData) (i : ℕ) : Option CString := do
  let kvPairIdx ← partition.startIdxs[i]?
  let pair ← partition.kvPairList[kvPairIdx]?.join
  some pair.key

/-! ## The two scans over a grouping -/

/-- The groups of a list of pairs: a key and its pairs. -/
abbrev Groups := List (CString × List KvPair)

/-- The index at which each group starts, the first one at `i`. -/
def starts : ℕ → Groups → List ℕ
  | _, [] => []
  | i, g :: gs => i :: starts (i + g.2.length) gs

/-- The index at which each group ends. -/
def ends : ℕ → Groups → List ℕ
  | _, [] => []
  | i, g :: gs => (i + g.2.length) :: ends (i + g.2.length) gs

@[simp]
theorem length_starts (i : ℕ) (gs : Groups) : (starts i gs).length = gs.length := by
  induction gs generalizing i with
  | nil => rfl
  | cons g gs ih => simp [starts, ih]

theorem ends_eq_starts (i : ℕ) (g : CString × List KvPair) (gs : Groups) :
    ends i (g :: gs) =
      starts (i + g.2.length) gs ++ [i + ((g :: gs).flatMap Prod.snd).length] := by
  induction gs generalizing i g with
  | nil => simp [ends, starts]
  | cons g' gs ih =>
    rw [ends, ih]
    simp [starts, Nat.add_assoc]

/-- The map after the second scan, the groups having the indices from `k` on. -/
def keyMap : ℕ → Groups → (CString → Option ℤ) → CString → Option ℤ
  | _, [], m => m
  | k, g :: gs, m => keyMap (k + 1) gs (Function.update m g.1 (some (k : ℤ)))

theorem keyMap_of_not_mem {gs : Groups} {key : CString} (h : key ∉ gs.map Prod.fst) (k : ℕ)
    (m : CString → Option ℤ) : keyMap k gs m key = m key := by
  induction gs generalizing k m with
  | nil => rfl
  | cons g gs ih =>
    simp only [List.map_cons, List.mem_cons, not_or] at h
    rw [keyMap, ih h.2, Function.update_of_ne h.1]

theorem keyMap_getElem {gs : Groups} (hnodup : (gs.map Prod.fst).Nodup) (k : ℕ)
    (m : CString → Option ℤ) {j : ℕ} (hj : j < gs.length) :
    keyMap k gs m gs[j].1 = some ((k + j : ℕ) : ℤ) := by
  induction gs generalizing k m j with
  | nil => simp at hj
  | cons g gs ih =>
    simp only [List.map_cons, List.nodup_cons] at hnodup
    cases j with
    | zero =>
      rw [keyMap, List.getElem_cons_zero, keyMap_of_not_mem hnodup.1, Function.update_self]
      rfl
    | succ j =>
      rw [keyMap, List.getElem_cons_succ, ih hnodup.2 (k + 1) _ (by simpa using hj)]
      congr 2
      omega

theorem foldl_countStep_of_key {block : List KvPair} {key : CString} (n : ℕ)
    (h : ∀ pair ∈ block, pair.key = key) :
    block.foldl countStep (n, some key) = (n, some key) := by
  induction block with
  | nil => rfl
  | cons pair block ih =>
    simp only [List.mem_cons, forall_eq_or_imp] at h
    simpa [countStep, h.1] using ih h.2

/-- The first scan counts the groups and ends on the key of the last one. -/
theorem foldl_countStep_groups {gs : Groups} (hne : ∀ g ∈ gs, g.2 ≠ [])
    (hkey : ∀ g ∈ gs, ∀ pair ∈ g.2, pair.key = g.1) (n : ℕ) (keyTmp : Option CString)
    (hchain : (keyTmp :: gs.map fun g ↦ some g.1).Nodup) :
    (gs.flatMap Prod.snd).foldl countStep (n, keyTmp) =
      (n + gs.length, ((gs.getLast?.map Prod.fst).or keyTmp)) := by
  induction gs generalizing n keyTmp with
  | nil => simp
  | cons g gs ih =>
    simp only [List.mem_cons, forall_eq_or_imp] at hne hkey
    obtain ⟨pair, block, hblock⟩ := List.exists_cons_of_ne_nil hne.1
    obtain ⟨hpair, hrest⟩ : pair.key = g.1 ∧ ∀ q ∈ block, q.key = g.1 := by
      simpa [hblock] using hkey.1
    have hfirst : countStep (n, keyTmp) pair = (n + 1, some g.1) := by
      cases keyTmp with
      | none => simp [countStep, hpair]
      | some key =>
        have hdiff : g.1 ≠ key := by
          rintro rfl
          simp at hchain
        simp [countStep, hpair, strcmp_eq_zero_iff, hdiff]
    simp only [List.flatMap_cons, List.foldl_append, hblock, List.foldl_cons, hfirst,
      foldl_countStep_of_key _ hrest]
    rw [ih hne.2 hkey.2 (n + 1) (some g.1) (by simpa using (List.nodup_cons.mp hchain).2)]
    refine Prod.ext ?_ ?_
    · simp only [List.length_cons]
      omega
    · cases hlast : gs.getLast? <;> simp [hlast, List.getLast?_cons]

theorem scanFrom_append (i : ℕ) (ps qs : List KvPair) (scan : Scan) :
    scanFrom i (ps ++ qs) scan = scanFrom (i + ps.length) qs (scanFrom i ps scan) := by
  induction ps generalizing i scan with
  | nil => rfl
  | cons pair ps ih =>
    simp only [List.cons_append, scanFrom, ih, List.length_cons]
    congr 1
    omega

theorem scanFrom_of_key {block : List KvPair} (i : ℕ) (scan : Scan)
    (h : ∀ pair ∈ block, pair.key = scan.keyTmp) : scanFrom i block scan = scan := by
  induction block generalizing i with
  | nil => rfl
  | cons pair block ih =>
    simp only [List.mem_cons, forall_eq_or_imp] at h
    have hstep : scanStep i pair scan = scan := by simp [scanStep, h.1]
    rw [scanFrom, hstep, ih _ h.2]

/-- The second scan over one group whose key is new: the group is entered at its first pair. -/
theorem scanFrom_group {g : CString × List KvPair} (i : ℕ) (scan : Scan) (hne : g.2 ≠ [])
    (hkey : ∀ pair ∈ g.2, pair.key = g.1) (hnew : g.1 ≠ scan.keyTmp) :
    scanFrom i g.2 scan =
      { curKeyIdx := scan.curKeyIdx + 1
        keyTmp := g.1
        startIdxs := scan.startIdxs.set (scan.curKeyIdx + 1).toNat i
        endIdxs := if scan.curKeyIdx > -1 then scan.endIdxs.set scan.curKeyIdx.toNat i
          else scan.endIdxs
        curIdxs := scan.curIdxs.set (scan.curKeyIdx + 1).toNat i
        m := Function.update scan.m g.1 (some (scan.curKeyIdx + 1)) } := by
  obtain ⟨pair, block, hblock⟩ := List.exists_cons_of_ne_nil hne
  obtain ⟨hpair, hrest⟩ : pair.key = g.1 ∧ ∀ q ∈ block, q.key = g.1 := by
    simpa [hblock] using hkey
  have hdiff : strcmp g.1 scan.keyTmp ≠ 0 := fun h ↦ hnew (strcmp_eq_zero_iff.mp h)
  have hkeyTmp : (scanStep i pair scan).keyTmp = g.1 := by simp [scanStep, hpair, hdiff]
  rw [hblock, scanFrom, scanFrom_of_key (i + 1) _ (by rwa [hkeyTmp])]
  simp [scanStep, hpair, hdiff]

/-- The second scan over the groups that follow the first `k + 1`: their starts fill the rest of
the arrays, and each start is also the end of the group before. -/
theorem scanFrom_groups {gs : Groups} (hne : ∀ g ∈ gs, g.2 ≠ [])
    (hkey : ∀ g ∈ gs, ∀ pair ∈ g.2, pair.key = g.1) (i k : ℕ) (scan : Scan)
    (hchain : (scan.keyTmp :: gs.map Prod.fst).Nodup) (hcur : scan.curKeyIdx = k)
    {a b c d e f : List ℕ} (hstart : scan.startIdxs = a ++ b) (ha : a.length = k + 1)
    (hb : b.length = gs.length) (hcurs : scan.curIdxs = c ++ d) (hc : c.length = k + 1)
    (hd : d.length = gs.length) (hend : scan.endIdxs = e ++ f) (he : e.length = k)
    (hf : f.length = gs.length + 1) :
    ∃ x, (scanFrom i (gs.flatMap Prod.snd) scan).curKeyIdx = (k + gs.length : ℕ) ∧
      (scanFrom i (gs.flatMap Prod.snd) scan).startIdxs = a ++ starts i gs ∧
      (scanFrom i (gs.flatMap Prod.snd) scan).curIdxs = c ++ starts i gs ∧
      (scanFrom i (gs.flatMap Prod.snd) scan).endIdxs = e ++ starts i gs ++ [x] ∧
      (scanFrom i (gs.flatMap Prod.snd) scan).m = keyMap (k + 1) gs scan.m := by
  induction gs generalizing i k scan a b c d e f with
  | nil =>
    obtain rfl : b = [] := List.length_eq_zero_iff.mp hb
    obtain rfl : d = [] := List.length_eq_zero_iff.mp hd
    obtain ⟨x, rfl⟩ : ∃ x, f = [x] := List.length_eq_one_iff.mp hf
    exact ⟨x, by simpa [scanFrom] using hcur, by simpa [scanFrom, starts] using hstart,
      by simpa [scanFrom, starts] using hcurs, by simpa [scanFrom, starts] using hend, rfl⟩
  | cons g gs ih =>
    simp only [List.mem_cons, forall_eq_or_imp] at hne hkey
    obtain ⟨b₀, b, rfl⟩ := List.exists_cons_of_length_eq_add_one hb
    obtain ⟨d₀, d, rfl⟩ := List.exists_cons_of_length_eq_add_one hd
    obtain ⟨f₀, f, rfl⟩ := List.exists_cons_of_length_eq_add_one hf
    have hnew : g.1 ≠ scan.keyTmp := by
      rintro heq
      simp [heq] at hchain
    have hindex : (scan.curKeyIdx + 1).toNat = k + 1 := by omega
    have hgroup := scanFrom_group i scan hne.1 hkey.1 hnew
    simp only [hindex, if_pos (show scan.curKeyIdx > -1 by omega),
      show scan.curKeyIdx.toNat = k by omega, hstart, hcurs, hend] at hgroup
    rw [List.set_append_right _ _ (by omega), List.set_append_right _ _ (by omega),
      List.set_append_right _ _ (by omega)] at hgroup
    simp only [ha, hc, he, Nat.sub_self, List.set_cons_zero] at hgroup
    simp only [List.flatMap_cons, scanFrom_append, hgroup, starts, keyMap]
    obtain ⟨x, h₁, h₂, h₃, h₄, h₅⟩ := ih hne.2 hkey.2 (i + g.2.length) (k + 1)
      { curKeyIdx := scan.curKeyIdx + 1
        keyTmp := g.1
        startIdxs := a ++ i :: b
        endIdxs := e ++ i :: f
        curIdxs := c ++ i :: d
        m := Function.update scan.m g.1 (some (scan.curKeyIdx + 1)) }
      (by simpa using (List.nodup_cons.mp hchain).2) (by push_cast; omega)
      (a := a ++ [i]) (b := b) (by simp) (by simp [ha]) (by simpa using hb)
      (c := c ++ [i]) (d := d) (by simp) (by simp [hc]) (by simpa using hd)
      (e := e ++ [i]) (f := f) (by simp) (by simp [he]) (by simpa using hf)
    refine ⟨x, ?_, by simpa using h₂, by simpa using h₃, by simpa using h₄, ?_⟩
    · rw [h₁, List.length_cons]
      congr 1
      omega
    · rw [h₅, hcur]
      rfl

/-! ## What `sort_partition` establishes -/

theorem foldl_countStep_grouping {pairs : List KvPair} {gs : Groups}
    (h : IsGrouping KvPair.key pairs gs) :
    pairs.foldl countStep (0, none) = (gs.length, gs.getLast?.map Prod.fst) := by
  have hnodup : (none :: gs.map fun g ↦ some g.1).Nodup := by
    refine List.nodup_cons.mpr ⟨by simp, ?_⟩
    rw [show (gs.map fun g ↦ some g.1) = (gs.map Prod.fst).map some by simp]
    exact h.nodup.map (Option.some_injective _)
  have hcount := foldl_countStep_groups h.ne_nil h.key_eq 0 none hnodup
  rw [h.flatten] at hcount
  simpa using hcount

theorem delimit_fst (fresh : FreshIdxs) {pairs : List KvPair} {gs : Groups}
    (h : IsGrouping KvPair.key pairs gs) : (delimit fresh pairs).1 = gs.length := by
  simp [delimit, foldl_countStep_grouping h]

/-- With one key the second scan finds the key it starts from and records nothing. -/
theorem delimit_one_key (fresh : FreshIdxs) {pairs : List KvPair} {gs : Groups}
    (h : IsGrouping KvPair.key pairs gs) (hone : gs.length = 1) :
    (delimit fresh pairs).2.m = fun _ ↦ none := by
  obtain ⟨g, rfl⟩ := List.length_eq_one_iff.mp hone
  have hall : ∀ pair ∈ pairs, pair.key = g.1 := by
    intro pair hpair
    rw [← h.flatten] at hpair
    exact h.key_eq g (by simp) pair (by simpa using hpair)
  simp only [delimit, foldl_countStep_grouping h, List.getLast?_singleton, Option.map_some,
    Option.getD_some]
  rw [scanFrom_of_key 0 _ hall]

/-- The second scan over all groups, when it does not start from the key of the first one. -/
theorem scanFrom_all {g : CString × List KvPair} {gs : Groups} (hne : ∀ k ∈ g :: gs, k.2 ≠ [])
    (hkey : ∀ k ∈ g :: gs, ∀ pair ∈ k.2, pair.key = k.1)
    (hnodup : ((g :: gs).map Prod.fst).Nodup) (scan : Scan) (hcur : scan.curKeyIdx = -1)
    (hnew : g.1 ≠ scan.keyTmp) (hstart : scan.startIdxs.length = gs.length + 1)
    (hcurs : scan.curIdxs.length = gs.length + 1) (hend : scan.endIdxs.length = gs.length + 1) :
    ∃ x, (scanFrom 0 ((g :: gs).flatMap Prod.snd) scan).curKeyIdx = gs.length ∧
      (scanFrom 0 ((g :: gs).flatMap Prod.snd) scan).startIdxs = starts 0 (g :: gs) ∧
      (scanFrom 0 ((g :: gs).flatMap Prod.snd) scan).curIdxs = starts 0 (g :: gs) ∧
      (scanFrom 0 ((g :: gs).flatMap Prod.snd) scan).endIdxs = starts g.2.length gs ++ [x] ∧
      (scanFrom 0 ((g :: gs).flatMap Prod.snd) scan).m = keyMap 0 (g :: gs) scan.m := by
  obtain ⟨b₀, b, hb⟩ := List.exists_cons_of_length_eq_add_one hstart
  obtain ⟨d₀, d, hd⟩ := List.exists_cons_of_length_eq_add_one hcurs
  have hgroup := scanFrom_group 0 scan (hne g List.mem_cons_self) (hkey g List.mem_cons_self) hnew
  simp only [hcur, hb, hd, neg_add_cancel, Int.toNat_zero, List.set_cons_zero, gt_iff_lt,
    lt_irrefl, if_false] at hgroup
  rw [List.flatMap_cons, scanFrom_append, hgroup, Nat.zero_add]
  obtain ⟨x, h₁, h₂, h₃, h₄, h₅⟩ := scanFrom_groups
    (fun k hk ↦ hne k (List.mem_cons_of_mem _ hk)) (fun k hk ↦ hkey k (List.mem_cons_of_mem _ hk))
    g.2.length 0
    { curKeyIdx := 0
      keyTmp := g.1
      startIdxs := 0 :: b
      endIdxs := scan.endIdxs
      curIdxs := 0 :: d
      m := Function.update scan.m g.1 (some 0) }
    hnodup rfl (a := [0]) (b := b) rfl rfl (by simpa [hb] using hstart)
    (c := [0]) (d := d) rfl rfl (by simpa [hd] using hcurs)
    (e := []) (f := scan.endIdxs) rfl rfl hend
  refine ⟨x, by simpa using h₁, ?_, ?_, h₄, h₅⟩
  · simpa [starts] using h₂
  · simpa [starts] using h₃

/-- With no key or several keys the second scan records the groups. -/
theorem delimit_groups (fresh : FreshIdxs) {pairs : List KvPair} {gs : Groups}
    (h : IsGrouping KvPair.key pairs gs) (hmany : gs.length ≠ 1) :
    (delimit fresh pairs).2.startIdxs = starts 0 gs ∧
    (delimit fresh pairs).2.curIdxs = starts 0 gs ∧
    (delimit fresh pairs).2.endIdxs = ends 0 gs ∧
    (delimit fresh pairs).2.m = keyMap 0 gs fun _ ↦ none := by
  match gs, hmany, h with
  | [], _, h =>
    obtain rfl : pairs = [] := by simpa using h.flatten.symm
    exact ⟨rfl, rfl, rfl, rfl⟩
  | [_], hmany, _ => exact absurd rfl hmany
  | g :: g' :: gs, _, h =>
    obtain ⟨last, hlast⟩ : ∃ last, (g' :: gs).getLast? = some last :=
      ⟨_, List.getLast?_eq_some_getLast (List.cons_ne_nil _ _)⟩
    -- The scan starts from the key of the last group, which is not that of the first.
    have hne : g.1 ≠ last.1 := fun heq ↦
      (List.nodup_cons.mp h.nodup).1 (heq ▸ List.mem_map_of_mem (List.mem_of_getLast? hlast))
    have hcount := foldl_countStep_grouping h
    rw [List.getLast?_cons_cons, hlast] at hcount
    obtain ⟨x, h₁, h₂, h₃, h₄, h₅⟩ := scanFrom_all h.ne_nil h.key_eq h.nodup
      { curKeyIdx := -1
        keyTmp := last.1
        startIdxs := mallocIdxs (g :: g' :: gs).length fresh.startIdxs
        endIdxs := mallocIdxs (g :: g' :: gs).length fresh.endIdxs
        curIdxs := mallocIdxs (g :: g' :: gs).length fresh.curIdxs
        m := fun _ ↦ none }
      rfl hne (by simp [mallocIdxs]) (by simp [mallocIdxs]) (by simp [mallocIdxs])
    rw [h.flatten] at h₁ h₂ h₃ h₄ h₅
    simp only [delimit, hcount, Option.map_some, Option.getD_some]
    refine ⟨h₂, h₃, ?_, h₅⟩
    rw [h₁, h₄, if_pos (by omega), Int.toNat_natCast, List.set_append_right _ _ (by simp),
      length_starts, Nat.sub_self, List.set_cons_zero, ends_eq_starts, h.flatten]
    simp

/-! ## Partitions ready for the reducers -/

/-- A partition after `sort_partition`, when the second scan has recorded its groups; the cursors
are left open. -/
structure Delimited (partition : PartitionData) (pairs : List KvPair) (gs : Groups) : Prop where
  grouping : IsGrouping KvPair.key pairs gs
  stored : ∀ i (hi : i < pairs.length), partition.kvPairList[i]? = some (some pairs[i])
  startIdxs : partition.startIdxs = starts 0 gs
  endIdxs : partition.endIdxs = ends 0 gs
  m : partition.m = keyMap 0 gs fun _ ↦ none

/-- The pairs of a partition sorted by key, and their groups. -/
def sortedPairs (qsort : Qsort) (pairs : List KvPair) : List KvPair :=
  qsort.sort kvPairComparator pairs

def sortedGroups (qsort : Qsort) (pairs : List KvPair) : Groups :=
  groupRuns KvPair.key (sortedPairs qsort pairs)

theorem isGrouping_sortedGroups (qsort : Qsort) (pairs : List KvPair) :
    IsGrouping KvPair.key (sortedPairs qsort pairs) (sortedGroups qsort pairs) := by
  have hsorted := qsort.sorted kvPairComparator (fun a b ↦ strcmp_total a.key b.key)
    (fun _ _ _ hab hbc ↦ strcmp_trans hab hbc) pairs
  exact isGrouping_groupRuns (r := fun a b ↦ strcmp a b ≤ 0) (fun _ _ ↦ strcmp_antisymm) hsorted

theorem pairs_eq_some {partition : PartitionData} {pairs : List KvPair}
    (hle : partition.nextToFill ≤ partition.kvPairList.length)
    (hstored : partition.stored = pairs.map some) : partition.pairs = some pairs := by
  rw [PartitionData.pairs, if_pos hle, hstored, List.mapM_map]
  exact (List.mapM_pure (f := id)).trans (congrArg some (List.map_id pairs))

/-- `sort_partition` permutes the pairs of a partition. -/
theorem stored_sortPartition {qsort : Qsort} {fresh : FreshIdxs} {partition sorted : PartitionData}
    {pairs : List KvPair} (hle : partition.nextToFill ≤ partition.kvPairList.length)
    (hstored : partition.stored = pairs.map some)
    (hsort : sortPartition qsort fresh partition = some sorted) :
    sorted.nextToFill = partition.nextToFill ∧ sorted.nextToFill ≤ sorted.kvPairList.length ∧
      sorted.stored = (sortedPairs qsort pairs).map some := by
  have hlength : (sortedPairs qsort pairs).length = partition.nextToFill := by
    rw [sortedPairs, (qsort.perm _ pairs).length_eq, ← List.length_map (f := some), ← hstored,
      PartitionData.stored, List.length_take, Nat.min_eq_left hle]
  rw [sortPartition, pairs_eq_some hle hstored, Option.map_some] at hsort
  obtain rfl := Option.some.inj hsort
  refine ⟨rfl, ?_, ?_⟩
  · change partition.nextToFill ≤ ((sortedPairs qsort pairs).map some ++ _).length
    rw [List.length_append, List.length_map, hlength]
    exact Nat.le_add_right _ _
  · change ((sortedPairs qsort pairs).map some ++ _).take partition.nextToFill = _
    rw [← hlength, ← List.length_map (f := some), List.take_left]

/-- A sorted partition can be freed. -/
theorem destruct_sortPartition {qsort : Qsort} {fresh : FreshIdxs}
    {partition sorted : PartitionData} {pairs : List KvPair}
    (hle : partition.nextToFill ≤ partition.kvPairList.length)
    (hstored : partition.stored = pairs.map some)
    (hsort : sortPartition qsort fresh partition = some sorted) : sorted.destruct = true := by
  obtain ⟨-, hle', hstored'⟩ := stored_sortPartition hle hstored hsort
  have hset : sorted.idxsSet = true := by
    obtain ⟨-, -, rfl⟩ := Option.map_eq_some_iff.mp hsort
    rfl
  rw [PartitionData.destruct, pairs_eq_some hle' hstored', hset]
  rfl

/-- `sort_partition` on a partition whose pointers are all valid.  It counts the keys right; it
records their groups unless there is exactly one key, when it leaves the map empty. -/
theorem sortPartition_spec (qsort : Qsort) (fresh : FreshIdxs) {partition : PartitionData}
    {pairs : List KvPair} (hle : partition.nextToFill ≤ partition.kvPairList.length)
    (hstored : partition.stored = pairs.map some) :
    ∃ sorted, sortPartition qsort fresh partition = some sorted ∧
      sorted.numKeys = (sortedGroups qsort pairs).length ∧
      ((sortedGroups qsort pairs).length ≠ 1 →
        Delimited sorted (sortedPairs qsort pairs) (sortedGroups qsort pairs) ∧
        sorted.curIdxs = starts 0 (sortedGroups qsort pairs)) ∧
      ((sortedGroups qsort pairs).length = 1 → sorted.m = fun _ ↦ none) := by
  have hgroups := isGrouping_sortedGroups qsort pairs
  refine ⟨_, by rw [sortPartition, pairs_eq_some hle hstored]; rfl, delimit_fst fresh hgroups,
    fun hmany ↦ ?_, delimit_one_key fresh hgroups⟩
  obtain ⟨hstart, hcur, hend, hm⟩ := delimit_groups fresh hgroups hmany
  refine ⟨⟨hgroups, fun i hi ↦ ?_, hstart, hend, hm⟩, hcur⟩
  have hi' : i < ((sortedPairs qsort pairs).map some).length := by simpa using hi
  change (((sortedPairs qsort pairs).map some) ++ _)[i]? = _
  rw [List.getElem?_append_left hi', List.getElem?_map, List.getElem?_eq_getElem hi]
  rfl

/-! ## Reading the groups -/

/-- The number of pairs in the groups before group `j`. -/
def startOf (gs : Groups) (j : ℕ) : ℕ := ((gs.take j).map fun g ↦ g.2.length).sum

theorem starts_getElem? {gs : Groups} (i : ℕ) {j : ℕ} (hj : j < gs.length) :
    (starts i gs)[j]? = some (i + startOf gs j) := by
  induction gs generalizing i j with
  | nil => simp at hj
  | cons g gs ih =>
    cases j with
    | zero => rfl
    | succ j =>
      have hj' : j < gs.length := by simpa using hj
      simp [starts, startOf, ih (i + g.2.length) hj', Nat.add_assoc]

theorem ends_getElem? {gs : Groups} (i : ℕ) {j : ℕ} (hj : j < gs.length) :
    (ends i gs)[j]? = some (i + startOf gs j + gs[j].2.length) := by
  induction gs generalizing i j with
  | nil => simp at hj
  | cons g gs ih =>
    cases j with
    | zero => rfl
    | succ j =>
      have hj' : j < gs.length := by simpa using hj
      simp [ends, startOf, ih (i + g.2.length) hj', Nat.add_assoc]

/-- The pairs of a group lie at consecutive indices from its start on. -/
theorem flatMap_getElem?_startOf {gs : Groups} {j r : ℕ} (hj : j < gs.length)
    (hr : r < gs[j].2.length) :
    (gs.flatMap Prod.snd)[startOf gs j + r]? = some gs[j].2[r] := by
  induction gs generalizing j with
  | nil => simp at hj
  | cons g gs ih =>
    cases j with
    | zero =>
      rw [List.getElem_cons_zero] at hr
      have hstart : startOf (g :: gs) 0 + r = r := Nat.zero_add r
      rw [hstart, List.flatMap_cons, List.getElem?_append_left hr]
      exact List.getElem?_eq_getElem hr
    | succ j =>
      have hstart : startOf (g :: gs) (j + 1) + r = g.2.length + (startOf gs j + r) := by
        simp [startOf, Nat.add_assoc]
      rw [hstart, List.flatMap_cons, List.getElem?_append_right (Nat.le_add_right _ _),
        Nat.add_sub_cancel_left]
      exact ih (by simpa using hj) hr

namespace Delimited

variable {partition : PartitionData} {pairs : List KvPair} {gs : Groups}

/-- Changing the cursors keeps a partition delimited. -/
theorem withCursors (h : Delimited partition pairs gs) (curIdxs : List ℕ) :
    Delimited { partition with curIdxs := curIdxs } pairs gs :=
  ⟨h.grouping, h.stored, h.startIdxs, h.endIdxs, h.m⟩

theorem pair_at (h : Delimited partition pairs gs) {j r : ℕ} (hj : j < gs.length)
    (hr : r < gs[j].2.length) :
    partition.kvPairList[startOf gs j + r]?.join = some gs[j].2[r] := by
  have hget := flatMap_getElem?_startOf hj hr
  rw [h.grouping.flatten] at hget
  obtain ⟨hlt, hget⟩ := List.getElem?_eq_some_iff.mp hget
  rw [h.stored _ hlt, hget]
  rfl

/-- The key of the reducer call with index `j` is that of group `j`. -/
theorem keyAt (h : Delimited partition pairs gs) {j : ℕ} (hj : j < gs.length) :
    partition.keyAt j = some gs[j].1 := by
  have hmem : gs[j] ∈ gs := List.getElem_mem hj
  have hpos : 0 < gs[j].2.length := List.length_pos_of_ne_nil (h.grouping.ne_nil _ hmem)
  have hpair := h.pair_at hj hpos
  rw [Nat.add_zero] at hpair
  simp only [PartitionData.keyAt, h.startIdxs, starts_getElem? 0 hj, Nat.zero_add,
    Option.bind_eq_bind, Option.bind_some, hpair]
  exact congrArg some (h.grouping.key_eq _ hmem _ (List.getElem_mem hpos))

/-- `Get` on the key of group `j`, whose cursor has passed `r` of its pairs. -/
theorem get (h : Delimited partition pairs gs) {j r : ℕ} (hj : j < gs.length)
    (hcur : partition.curIdxs[j]? = some (startOf gs j + r)) :
    partition.get gs[j].1 =
      if hr : r < gs[j].2.length then
        some (some gs[j].2[r].value,
          { partition with curIdxs := partition.curIdxs.set j (startOf gs j + r + 1) })
      else some (none, partition) := by
  have hm : partition.m gs[j].1 = some (j : ℤ) := by
    rw [h.m, keyMap_getElem h.grouping.nodup 0 _ hj, Nat.zero_add]
  have hend : partition.endIdxs[j]? = some (startOf gs j + gs[j].2.length) := by
    rw [h.endIdxs, ends_getElem? 0 hj, Nat.zero_add]
  simp only [PartitionData.get, hm, Option.bind_eq_bind, Option.bind_some, Int.toNat_natCast, hcur,
    hend, Nat.add_le_add_iff_left]
  split
  next hle => rw [dif_neg (by omega)]
  next hlt =>
    have hr : r < gs[j].2.length := by omega
    rw [dif_pos hr, h.pair_at hj hr]
    rfl

end Delimited

end CS537.MapReduce
