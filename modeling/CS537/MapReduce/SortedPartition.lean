import CS537.Foundation.Numerals
import CS537.Foundation.Ranges
import CS537.MapReduce.SortPartition
import Mathlib.GroupTheory.GroupAction.Ring

/-!
# The sorted partition function

`MR_SortedPartition` takes a key for a number and splits the 32-bit numbers into ranges, one for each
partition, while `sort_partition` compares keys as strings.  The module determines the ranges, and
for which keys the partitions, each of them sorted, are in one order.
-/

namespace CS537.MapReduce

open Foundation

/-- `MR_SortedPartition`: the product is one of 64-bit unsigned integers. -/
def mrSortedPartition (key : CString) (numPartitions : ℤ) : ℕ :=
  let keyNum := strtoul key
  keyNum * (numPartitions % 2 ^ 64).toNat % 2 ^ 64 / 2 ^ 32

/-! ## The ranges -/

section Ranges

variable {n k : ℕ}

theorem product_lt (hn : n < 2 ^ 31) (hk : k < 2 ^ 32) : k * n < 2 ^ 64 := by
  calc
    k * n ≤ 2 ^ 32 * 2 ^ 31 := Nat.mul_le_mul (Nat.le_of_lt hk) (Nat.le_of_lt hn)
    _ < 2 ^ 64 := by norm_num

theorem mrSortedPartition_numeral (hn : n < 2 ^ 31) (hk : k < 2 ^ 32) :
    mrSortedPartition (numeral k) n = part (2 ^ 32) n k := by
  have hmod : ((n : ℤ) % 2 ^ 64).toNat = n := by omega
  rw [mrSortedPartition, strtoul_numeral (by omega), hmod, Nat.mod_eq_of_lt (product_lt hn hk), part]

/-- The numbers of a partition are those from `first` to `next`. -/
structure Receives (n j first next : ℕ) : Prop where
  le : first ≤ next
  range : next ≤ 2 ^ 32
  iff : ∀ k < 2 ^ 32, mrSortedPartition (numeral k) n = j ↔ first ≤ k ∧ k < next

theorem receives_part (hpos : 1 ≤ n) (hn : n < 2 ^ 31) {j : ℕ} (hj : j < n) :
    Receives n j (partStart (2 ^ 32) n j) (partStart (2 ^ 32) n (j + 1)) where
  le := partStart_mono hpos (Nat.le_succ j)
  range := by
    calc
      partStart (2 ^ 32) n (j + 1) ≤ partStart (2 ^ 32) n n := partStart_mono hpos hj
      _ = 2 ^ 32 := partStart_all hpos
  iff k hk := by
    rw [mrSortedPartition_numeral hn hk, part_eq_iff (by norm_num) hpos]

/-- The partitions are balanced, whether their number is a power of two or not. -/
theorem sortedPartition_balanced (n : ℕ) (hpos : 1 ≤ n) (hn : n < 2 ^ 31) :
    (∀ k < 2 ^ 32, k * n < 2 ^ 64 ∧ mrSortedPartition (numeral k) n < n) ∧
      (∀ k l, k ≤ l → l < 2 ^ 32 →
        mrSortedPartition (numeral k) n ≤ mrSortedPartition (numeral l) n) ∧
      ∀ j < n, ∃ first next, Receives n j first next ∧
        (next - first = 2 ^ 32 ⌊/⌋ n ∨ next - first = 2 ^ 32 ⌈/⌉ n) := by
  refine ⟨fun k hk ↦ ⟨product_lt hn hk, ?_⟩, fun k l hkl hl ↦ ?_, fun j hj ↦ ?_⟩
  · rw [mrSortedPartition_numeral hn hk]
    exact part_lt hpos hk
  · rw [mrSortedPartition_numeral hn (Nat.lt_of_le_of_lt hkl hl), mrSortedPartition_numeral hn hl]
    exact part_mono hkl
  · exact ⟨_, _, receives_part hpos hn hj, length_part hpos j⟩

/-- Three partitions. -/
theorem sortedPartition_balanced_three :
    (∀ k < 2 ^ 32, k * 3 < 2 ^ 64 ∧ mrSortedPartition (numeral k) (3 : ℕ) < 3) ∧
      (∀ k l, k ≤ l → l < 2 ^ 32 →
        mrSortedPartition (numeral k) (3 : ℕ) ≤ mrSortedPartition (numeral l) (3 : ℕ)) ∧
      ∀ j < 3, ∃ first next, Receives 3 j first next ∧
        (next - first = 2 ^ 32 ⌊/⌋ 3 ∨ next - first = 2 ^ 32 ⌈/⌉ 3) :=
  sortedPartition_balanced 3 (by norm_num) (by norm_num)

end Ranges

/-! ## The order of the output -/

section Order

variable {n a b : ℕ} {qsort : Qsort} {pairs : List KvPair}

/-- The order of the partitions of two numbers is the order of their numerals as strings. -/
def OrderKept (n a b : ℕ) : Prop :=
  mrSortedPartition (numeral a) n < mrSortedPartition (numeral b) n →
    strcmp (numeral a) (numeral b) < 0

/-- If `b` is in a later range, its first digits do not stand for less than `a`. -/
def LeadingAtLeast (n a b : ℕ) : Prop :=
  part (2 ^ 32) n a < part (2 ^ 32) n b →
    a * 10 ^ ((decimal b).length - (decimal a).length) ≤ b

/-- All keys are numerals of 32-bit numbers. -/
def NumberKeys (pairs : List KvPair) : Prop := ∀ pair ∈ pairs, ∃ k < 2 ^ 32, pair.key = numeral k

/-- The pairs of partition `j`, as `MR_Emit` puts them there. -/
def partitionOf (n : ℕ) (pairs : List KvPair) (j : ℕ) : List KvPair :=
  pairs.filter fun pair ↦ mrSortedPartition pair.key n = j

/-- The partitions in order, each of them sorted. -/
def sortedOutput (qsort : Qsort) (n : ℕ) (pairs : List KvPair) : List KvPair :=
  (List.range n).flatMap fun j ↦ sortedPairs qsort (partitionOf n pairs j)

def InOneOrder (pairs : List KvPair) : Prop := pairs.Pairwise fun p q ↦ kvPairComparator p q ≤ 0

theorem orderKept_iff (hn : n < 2 ^ 31) (ha : a < 2 ^ 32) (hb : b < 2 ^ 32) :
    OrderKept n a b ↔ LeadingAtLeast n a b := by
  rw [OrderKept, mrSortedPartition_numeral hn ha, mrSortedPartition_numeral hn hb]
  refine imp_congr_right fun hlt ↦ ?_
  have hab : a < b := by
    by_contra hba
    exact Nat.not_le.mpr hlt (part_mono (Nat.not_lt.mp hba))
  exact strcmp_numeral_neg_iff hab

theorem mem_sortedPairs {p : KvPair} : p ∈ sortedPairs qsort pairs ↔ p ∈ pairs :=
  (qsort.perm kvPairComparator pairs).mem_iff

theorem sortedPairs_inOneOrder (qsort : Qsort) (pairs : List KvPair) :
    InOneOrder (sortedPairs qsort pairs) :=
  qsort.sorted kvPairComparator (fun p q ↦ strcmp_total p.key q.key)
    (fun _ _ _ hpq hqr ↦ strcmp_trans hpq hqr) pairs

theorem mem_partitionOf {p : KvPair} {j : ℕ} :
    p ∈ partitionOf n pairs j ↔ p ∈ pairs ∧ mrSortedPartition p.key n = j := by
  rw [partitionOf, List.mem_filter, decide_eq_true_eq]

/-- The order of the whole output depends on pairs in different partitions only. -/
theorem sortedOutput_inOneOrder_iff (hrange : ∀ p ∈ pairs, mrSortedPartition p.key n < n) :
    InOneOrder (sortedOutput qsort n pairs) ↔
      ∀ p ∈ pairs, ∀ q ∈ pairs, mrSortedPartition p.key n < mrSortedPartition q.key n →
        kvPairComparator p q ≤ 0 := by
  rw [InOneOrder, sortedOutput, List.pairwise_flatMap]
  constructor
  · rintro ⟨-, hacross⟩ p hp q hq hlt
    have hj : mrSortedPartition q.key n < (List.range n).length := by
      rw [List.length_range]
      exact hrange q hq
    have hpair := List.pairwise_iff_getElem.mp hacross _ _ (Nat.lt_trans hlt hj) hj hlt
    rw [List.getElem_range, List.getElem_range] at hpair
    exact hpair p (mem_sortedPairs.mpr (mem_partitionOf.mpr ⟨hp, rfl⟩)) q
      (mem_sortedPairs.mpr (mem_partitionOf.mpr ⟨hq, rfl⟩))
  · intro hacross
    refine ⟨fun j _ ↦ sortedPairs_inOneOrder qsort _, List.pairwise_lt_range.imp ?_⟩
    intro i j hij p hp q hq
    obtain ⟨hp, hi⟩ := mem_partitionOf.mp (mem_sortedPairs.mp hp)
    obtain ⟨hq, hj⟩ := mem_partitionOf.mp (mem_sortedPairs.mp hq)
    exact hacross p hp q hq (by rwa [hi, hj])

theorem strcmp_numeral_le_iff (hlt : mrSortedPartition (numeral a) n < mrSortedPartition (numeral b) n) :
    strcmp (numeral a) (numeral b) ≤ 0 ↔ strcmp (numeral a) (numeral b) < 0 := by
  have hne : strcmp (numeral a) (numeral b) ≠ 0 := fun heq ↦ by
    rw [strcmp_eq_zero_iff.mp heq] at hlt
    exact Nat.lt_irrefl _ hlt
  omega

theorem sortedOutput_numbers_iff (hpos : 1 ≤ n) (hn : n < 2 ^ 31) (hkeys : NumberKeys pairs) :
    InOneOrder (sortedOutput qsort n pairs) ↔
      ∀ a < 2 ^ 32, ∀ b < 2 ^ 32, numeral a ∈ pairs.map KvPair.key →
        numeral b ∈ pairs.map KvPair.key → LeadingAtLeast n a b := by
  have hrange : ∀ p ∈ pairs, mrSortedPartition p.key n < n := by
    intro p hp
    obtain ⟨k, hk, hkey⟩ := hkeys p hp
    rw [hkey, mrSortedPartition_numeral hn hk]
    exact part_lt hpos hk
  rw [sortedOutput_inOneOrder_iff hrange]
  constructor
  · intro hacross a ha b hb hamem hbmem
    obtain ⟨p, hp, hpkey⟩ := List.mem_map.mp hamem
    obtain ⟨q, hq, hqkey⟩ := List.mem_map.mp hbmem
    rw [← orderKept_iff hn ha hb]
    intro hlt
    have hle := hacross p hp q hq (by rwa [hpkey, hqkey])
    rw [kvPairComparator, hpkey, hqkey] at hle
    exact (strcmp_numeral_le_iff hlt).mp hle
  · intro hleading p hp q hq hlt
    obtain ⟨a, ha, hpkey⟩ := hkeys p hp
    obtain ⟨b, hb, hqkey⟩ := hkeys q hq
    have hkept := (orderKept_iff hn ha hb).mpr (hleading a ha b hb
      (List.mem_map.mpr ⟨p, hp, hpkey⟩) (List.mem_map.mpr ⟨q, hq, hqkey⟩))
    rw [hpkey, hqkey] at hlt
    rw [kvPairComparator, hpkey, hqkey]
    exact Int.le_of_lt (hkept hlt)

/-- The order of the partitions is kept for two keys, and the whole output is in one order, if and
only if the keys in later partitions begin with digits that do not stand for less. -/
theorem sorted_output_iff {m : ℕ} (hpower : n = 2 ^ m) (hn : n < 2 ^ 31) :
    (∀ a < 2 ^ 32, ∀ b < 2 ^ 32, OrderKept n a b ↔ LeadingAtLeast n a b) ∧
      ∀ qsort pairs, NumberKeys pairs → (InOneOrder (sortedOutput qsort n pairs) ↔
        ∀ a < 2 ^ 32, ∀ b < 2 ^ 32, numeral a ∈ pairs.map KvPair.key →
          numeral b ∈ pairs.map KvPair.key → LeadingAtLeast n a b) := by
  have hpos : 1 ≤ n := by
    rw [hpower]
    exact Nat.one_le_two_pow
  exact ⟨fun a ha b hb ↦ orderKept_iff hn ha hb,
    fun qsort pairs hkeys ↦ sortedOutput_numbers_iff hpos hn hkeys⟩

/-- Two partitions. -/
theorem sorted_output_two :
    (∀ a < 2 ^ 32, ∀ b < 2 ^ 32, OrderKept 2 a b ↔ LeadingAtLeast 2 a b) ∧
      ∀ qsort pairs, NumberKeys pairs → (InOneOrder (sortedOutput qsort 2 pairs) ↔
        ∀ a < 2 ^ 32, ∀ b < 2 ^ 32, numeral a ∈ pairs.map KvPair.key →
          numeral b ∈ pairs.map KvPair.key → LeadingAtLeast 2 a b) :=
  sorted_output_iff (m := 1) (pow_one 2).symm (by norm_num)

/-- The key 9 is in the first of two partitions and the key 3000000000 in the second one, while the
comparator puts it behind. -/
theorem order_not_kept : ¬OrderKept 2 9 3000000000 ∧
    ¬InOneOrder (sortedOutput .insertionSort 2 [⟨numeral 9, .ofBytes []⟩,
      ⟨numeral 3000000000, .ofBytes []⟩]) := by
  have hlater : part (2 ^ 32) 2 9 < part (2 ^ 32) 2 3000000000 := by decide
  have hleading : ¬LeadingAtLeast 2 9 3000000000 := by
    have hnine : (decimal 9).length = 1 := by norm_num [decimal]
    have hlong : (decimal 3000000000).length = 10 := by norm_num [decimal]
    intro h
    have hle := h hlater
    rw [hnine, hlong] at hle
    exact absurd hle (by norm_num)
  constructor
  · rwa [orderKept_iff (by norm_num) (by norm_num) (by norm_num)]
  · have hkeys : NumberKeys [⟨numeral 9, .ofBytes []⟩, ⟨numeral 3000000000, .ofBytes []⟩] := by
      intro p hp
      rcases List.mem_pair.mp hp with rfl | rfl
      · exact ⟨9, by norm_num, rfl⟩
      · exact ⟨3000000000, by norm_num, rfl⟩
    rw [sortedOutput_numbers_iff (by norm_num) (by norm_num) hkeys]
    exact fun h ↦ hleading (h 9 (by norm_num) 3000000000 (by norm_num) (by simp) (by simp))

end Order

end CS537.MapReduce
