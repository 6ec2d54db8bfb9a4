import Mathlib.Data.List.Nodup
import Mathlib.Data.List.Perm.Subperm
import Mathlib.Data.Nat.Basic
import Mathlib.Tactic.Linarith

/-!
# Pages and frame indices

Addresses are 32-bit numbers, and arithmetic on them wraps around.  Physical memory is mapped from
`KERNBASE` up to `PHYSTOP`.  Ownership is tracked for the `MAX_FRAME_NUM` highest frames, which
`VA2IDX` numbers from the top down, so that adjacent indices are adjacent frames.
-/

namespace CS537.Kalloc

def pgSize : ℕ := 4096
def kernBase : ℕ := 0x80000000
def physTop : ℕ := 0xE000000
def maxFrameNum : ℕ := 16384

/-- Subtraction on `uint`. -/
def uintSub (a b : ℕ) : ℕ := (a + (2 ^ 32 - b)) % 2 ^ 32

/-- The macro `V2P`. -/
def v2p (va : ℕ) : ℕ := uintSub va kernBase

/-- The macro `P2V`. -/
def p2v (pa : ℕ) : ℕ := (pa + kernBase) % 2 ^ 32

/-- The macro `PGROUNDUP`. -/
def pgRoundUp (sz : ℕ) : ℕ := (sz + pgSize - 1) % 2 ^ 32 / pgSize * pgSize

/-- The macro `VA2IDX`. -/
def va2idx (va : ℕ) : ℕ := uintSub (uintSub (physTop >>> 12) (v2p va >>> 12)) 1

/-- The test of `kalloc` and `kfree` for the pages whose owner is recorded. -/
def tracked (va : ℕ) : Bool := decide (uintSub (physTop >>> 12) maxFrameNum ≤ v2p va >>> 12)

/-- The number of page frames of physical memory. -/
def numFrames : ℕ := physTop / pgSize

/-- The address of a page of physical memory. -/
structure Frame (va : ℕ) : Prop where
  aligned : va % pgSize = 0
  lt_uint : va < 2 ^ 32
  lt_physTop : v2p va < physTop

namespace Frame

variable {va vb : ℕ}

theorem eq_add (h : Frame va) : va = kernBase + v2p va := by
  have huint := h.lt_uint
  have htop := h.lt_physTop
  simp only [v2p, uintSub, kernBase, physTop] at htop ⊢
  omega

theorem va2idx_eq (h : Frame va) : va2idx va = numFrames - 1 - v2p va / pgSize := by
  have htop := h.lt_physTop
  have hshift : v2p va >>> 12 = v2p va / 4096 := Nat.shiftRight_eq_div_pow _ 12
  have hphys : physTop >>> 12 = 57344 := by decide
  simp only [va2idx, uintSub, hphys, hshift, numFrames] at htop ⊢
  simp only [physTop, pgSize] at htop ⊢
  omega

theorem va2idx_lt (h : Frame va) : va2idx va < numFrames := by
  have hnum : 0 < numFrames := by decide
  rw [h.va2idx_eq]
  exact lt_of_le_of_lt (Nat.sub_le _ _) (Nat.sub_lt hnum Nat.one_pos)

/-- A tracked page has an index inside the table of owners. -/
theorem tracked_iff (h : Frame va) : tracked va = true ↔ va2idx va < maxFrameNum := by
  have htop := h.lt_physTop
  have hshift : v2p va >>> 12 = v2p va / 4096 := Nat.shiftRight_eq_div_pow _ 12
  have hbase : uintSub (physTop >>> 12) maxFrameNum = 40960 := by decide
  simp only [tracked, hbase, hshift, decide_eq_true_eq, h.va2idx_eq]
  simp only [numFrames, maxFrameNum, physTop, pgSize] at htop ⊢
  omega

/-- Different pages have different indices. -/
theorem va2idx_inj (ha : Frame va) (hb : Frame vb) (h : va2idx va = va2idx vb) : va = vb := by
  have haeq := ha.eq_add
  have hbeq := hb.eq_add
  have hatop := ha.lt_physTop
  have hbtop := hb.lt_physTop
  have haligned := ha.aligned
  have hbligned := hb.aligned
  rw [ha.va2idx_eq, hb.va2idx_eq] at h
  simp only [numFrames, physTop, pgSize, kernBase] at *
  omega

end Frame

/-- There are no more different pages than page frames. -/
theorem length_le_numFrames {l : List ℕ} (hnodup : l.Nodup) (hframe : ∀ va ∈ l, Frame va) :
    l.length ≤ numFrames := by
  have hmap : (l.map va2idx).Nodup := by
    refine List.Nodup.map_on (fun va ha vb hb heq ↦ ?_) hnodup
    exact (hframe va ha).va2idx_inj (hframe vb hb) heq
  have hsub : l.map va2idx ⊆ List.range numFrames := by
    intro i hi
    obtain ⟨va, ha, rfl⟩ := List.mem_map.mp hi
    exact List.mem_range.mpr (hframe va ha).va2idx_lt
  calc
    l.length = (l.map va2idx).length := (List.length_map _).symm
    _ ≤ (List.range numFrames).length := (List.subperm_of_subset hmap hsub).length_le
    _ = numFrames := List.length_range

end CS537.Kalloc
