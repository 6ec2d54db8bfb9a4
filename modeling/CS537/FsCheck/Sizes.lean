import CS537.FsCheck.Bitmap
import Mathlib.Algebra.Order.Floor.Div

/-!
# The size check

The size of an inode in use has to fit the number of its blocks.  The kernel takes the size for an
unsigned integer and needs as many blocks as the size has, rounded up; the checker takes it for a
signed one, and also accepts the size at which a block less would do.
-/

namespace CS537.FsCheck

open Foundation

/-- The `uint` at an offset. -/
def Image.uint32At (img : Image) (off : ℕ) : ℕ :=
  (img.bytes off).toNat + 256 * (img.bytes (off + 1)).toNat +
    256 ^ 2 * (img.bytes (off + 2)).toNat + 256 ^ 3 * (img.bytes (off + 3)).toNat

/-- The size field of the inode at an offset, as the kernel writes it. -/
def Image.sizeAt (img : Image) (p : ℕ) : ℕ := img.uint32At (p + 8)

section Check

variable (img : Image) (sb : Superblock)

/-- The end of `checkInode`. -/
def sizeCheck (inode : Dinode) : Checker Unit := do
  let numOfBlock ← calNumBlock img sb inode
  printErrIf ((numOfBlock : ℤ) * BSIZE < inode.size ∨ inode.size < ((numOfBlock : ℤ) - 1) * BSIZE)
    "ERROR: bad size in inode."

theorem checkInode_eq (inode : Dinode) (i : ℕ) : checkInode img sb inode i = (do
    setInodeUse sb (i + 1)
    printErrIf (inode.type ≠ 1 ∧ inode.type ≠ 2 ∧ inode.type ≠ 3) "ERROR: bad inode."
    sizeCheck img sb inode) :=
  rfl

/-- The check passes, from any contents of the arrays. -/
def SizePasses (p : ℕ) : Prop := ∀ s, ∃ t, sizeCheck img sb (img.dinodeAt p) s = .ok ((), t)

/-- The size of the inode at an offset is exact: it has as many blocks as the size needs. -/
def SizeExact (p : ℕ) : Prop :=
  (img.dataBlocks (img.dinodeAt p)).length = img.sizeAt p ⌈/⌉ BSIZE

/-- The size is not the one at which a block less would do, nor, without any block, one of the last
512 unsigned integers. -/
def SizeApart (p : ℕ) : Prop :=
  if (img.dataBlocks (img.dinodeAt p)).length = 0 then img.sizeAt p < 2 ^ 32 - BSIZE
  else img.sizeAt p ≠ ((img.dataBlocks (img.dinodeAt p)).length - 1) * BSIZE

end Check

variable {img : Image} {sb : Superblock} {p : ℕ}

theorem uint32At_lt (img : Image) (off : ℕ) : img.uint32At off < 2 ^ 32 := by
  have h₀ := (img.bytes off).toNat_lt
  have h₁ := (img.bytes (off + 1)).toNat_lt
  have h₂ := (img.bytes (off + 2)).toNat_lt
  have h₃ := (img.bytes (off + 3)).toNat_lt
  rw [Image.uint32At]
  omega

/-- The checker reads the size as a signed integer. -/
theorem dinodeAt_size (img : Image) (p : ℕ) :
    (img.dinodeAt p).size = signed (2 ^ 31) (img.sizeAt p) :=
  rfl

theorem length_nonzero_le (n : ℕ) (g : ℕ → ℤ) : (nonzero n g).length ≤ n := by
  calc
    (nonzero n g).length ≤ ((List.range n).map g).length := List.length_filter_le _ _
    _ = n := by rw [List.length_map, List.length_range]

theorem length_dataBlocks_le (img : Image) (inode : Dinode) :
    (img.dataBlocks inode).length ≤ NDIRECT + NINDIRECT := by
  rw [Image.dataBlocks, List.length_append]
  refine Nat.add_le_add (length_nonzero_le NDIRECT inode.addrs) ?_
  rw [Image.indirectBlocks]
  split
  · exact Nat.zero_le _
  · exact length_nonzero_le _ _

theorem sizePasses_iff (hinside : img.BlocksInside (img.dinodeAt p) sb.nblocks) :
    SizePasses img sb p ↔
      (((img.dataBlocks (img.dinodeAt p)).length : ℤ) - 1) * BSIZE ≤ (img.dinodeAt p).size ∧
        (img.dinodeAt p).size ≤ ((img.dataBlocks (img.dinodeAt p)).length : ℤ) * BSIZE := by
  have hcount (s : Arrays) : sizeCheck img sb (img.dinodeAt p) s = _ :=
    bind_of_ok ((calNumBlock_acts img sb (img.dinodeAt p)).returns hinside s)
  constructor
  · intro h
    obtain ⟨t, hrun⟩ := h Arrays.zero
    have hgood := not_of_printErrIf ((hcount Arrays.zero).symm.trans hrun)
    exact ⟨by omega, by omega⟩
  · rintro ⟨hle, hsize⟩ s
    exact ⟨_, (hcount s).trans ((printErrIf_acts (by omega) _).returns trivial _)⟩

/-- Rounded up, a size is `n` if and only if it is at most `n` blocks and more than one block less. -/
theorem eq_ceilDiv_iff (n u : ℕ) : n = u ⌈/⌉ BSIZE ↔ u ≤ n * BSIZE ∧ (0 < n → (n - 1) * BSIZE < u) := by
  rw [Nat.ceilDiv_eq_add_pred_div, BSIZE]
  omega

/-- The check is exact if and only if the size is apart from those that it takes wrongly. -/
theorem size_check_exact_iff (img : Image) (sb : Superblock) (p : ℕ)
    (hinside : img.BlocksInside (img.dinodeAt p) sb.nblocks) :
    (SizePasses img sb p ↔ SizeExact img p) ↔ SizeApart img p := by
  have hcount := length_dataBlocks_le img (img.dinodeAt p)
  have hlt := uint32At_lt img (p + 8)
  have hblocks : NDIRECT + NINDIRECT = 140 := rfl
  rw [sizePasses_iff hinside, SizeExact, SizeApart, eq_ceilDiv_iff, dinodeAt_size, signed]
  rw [← Image.sizeAt] at hlt
  rw [hblocks] at hcount
  simp only [BSIZE]
  split
  · split
    · omega
    · omega
  · split
    · omega
    · omega

/-! ## Two inodes -/

/-- A file inode with the size and the first block as parameters; all bytes of the size are equal. -/
def sampleInode (size block : UInt8) : Image where
  length := 64
  bytes
    | 0 => 2
    | 8 => size
    | 9 => size
    | 10 => size
    | 11 => size
    | 12 => block
    | _ => 0

theorem sampleInode_dataBlocks :
    (sampleInode 0 1).dataBlocks ((sampleInode 0 1).dinodeAt 0) = [1] ∧
      (sampleInode 255 0).dataBlocks ((sampleInode 255 0).dinodeAt 0) = [] :=
  ⟨rfl, rfl⟩

theorem sampleInode_inside :
    (sampleInode 0 1).BlocksInside ((sampleInode 0 1).dinodeAt 0) sampleLayout.nblocks ∧
      (sampleInode 255 0).BlocksInside ((sampleInode 255 0).dinodeAt 0) sampleLayout.nblocks := by
  have hblocks : (sampleInode 0 1).blocks ((sampleInode 0 1).dinodeAt 0) = [1] ∧
      (sampleInode 255 0).blocks ((sampleInode 255 0).dinodeAt 0) = [] := ⟨rfl, rfl⟩
  refine ⟨⟨?_, fun h ↦ absurd rfl h⟩, ⟨?_, fun h ↦ absurd rfl h⟩⟩
  · rw [hblocks.1]
    decide
  · rw [hblocks.2]
    exact fun b hb ↦ absurd hb List.not_mem_nil

/-- An inode of size zero with one block passes, and so does one of size `2 ^ 32 - 1` without any. -/
theorem size_check_not_exact :
    (SizePasses (sampleInode 0 1) sampleLayout 0 ∧ ¬SizeExact (sampleInode 0 1) 0) ∧
      SizePasses (sampleInode 255 0) sampleLayout 0 ∧ ¬SizeExact (sampleInode 255 0) 0 := by
  obtain ⟨hone, hnone⟩ := sampleInode_dataBlocks
  obtain ⟨hinside, hinside'⟩ := sampleInode_inside
  rw [sizePasses_iff hinside, sizePasses_iff hinside', SizeExact, SizeExact, hone, hnone]
  refine ⟨⟨?_, ?_⟩, ?_, ?_⟩
  · decide
  · decide
  · decide
  · decide

/-- The check is exact on an inode of size zero without blocks, and not on one with a block. -/
theorem size_check_exact_sampleInode :
    (SizePasses (sampleInode 0 0) sampleLayout 0 ↔ SizeExact (sampleInode 0 0) 0) ∧
      ¬(SizePasses (sampleInode 0 1) sampleLayout 0 ↔ SizeExact (sampleInode 0 1) 0) := by
  have hnone : (sampleInode 0 0).dataBlocks ((sampleInode 0 0).dinodeAt 0) = [] := rfl
  have hinside : (sampleInode 0 0).BlocksInside ((sampleInode 0 0).dinodeAt 0) sampleLayout.nblocks :=
    ⟨fun _ hb ↦ absurd hb List.not_mem_nil, fun h ↦ absurd rfl h⟩
  constructor
  · apply (size_check_exact_iff (sampleInode 0 0) sampleLayout 0 hinside).mpr
    rw [SizeApart, hnone]
    decide
  · rw [size_check_exact_iff (sampleInode 0 1) sampleLayout 0 sampleInode_inside.1, SizeApart,
      sampleInode_dataBlocks.1]
    decide

end CS537.FsCheck
