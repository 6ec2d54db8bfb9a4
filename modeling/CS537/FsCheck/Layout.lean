import CS537.FsCheck.Effects

/-!
# The layout of a file system

Where a super block puts the inodes, the bitmap and the data blocks, which inodes are in use, and
which blocks they refer to.  `mkfs` chooses the layout so that the super block, the log, the inodes,
the bitmap and the data blocks follow each other without gaps.
-/

namespace CS537.FsCheck

open Foundation

/-! ## Inodes -/

namespace Superblock

variable (sb : Superblock)

/-- The offset of an inode. -/
def inodePtr (i : ℕ) : ℕ := blockOffset sb.inodestart + sizeofDinode * i

/-- The number of blocks before the data blocks, `nmeta` in `mkfs`. -/
def nmeta : ℤ := sb.bmapstart + (sb.size / BPB + 1)

/-- The first data block, as `fscheck` computes it. -/
def dataBegin : ℤ := sb.bmapstart + sb.mapNum

end Superblock

section Inodes

variable (img : Image) (sb : Superblock)

def Image.inodeAt (i : ℕ) : Dinode := img.dinodeAt (sb.inodePtr i)

/-- The inodes are numbered from one on. -/
def InUse (i : ℕ) : Prop := 1 ≤ i ∧ (i : ℤ) < sb.ninodes ∧ (img.inodeAt sb i).type ≠ 0

/-- Some inode in use refers to the block. -/
def Refers (b : ℕ) : Prop := ∃ i, InUse img sb i ∧ (b : ℤ) ∈ img.blocks (img.inodeAt sb i)

/-- The bitmap says that the block is in use. -/
def Marked (b : ℕ) : Prop := img.bitAt sb b ≠ 0

instance (b : ℕ) : Decidable (Marked img sb b) := inferInstanceAs (Decidable (_ ≠ _))

end Inodes

/-! ## The layout that `mkfs` chooses -/

/-- The super block describes the layout as `mkfs` does, for any size and any number of inodes. -/
structure Formatted (img : Image) (sb : Superblock) : Prop where
  superblock : img.superblockAt BSIZE = sb
  length : img.length = sb.size.toNat * BSIZE
  nlog : 0 ≤ sb.nlog
  ninodes : 0 ≤ sb.ninodes
  logstart : sb.logstart = 2
  inodestart : sb.inodestart = 2 + sb.nlog
  bmapstart : sb.bmapstart = sb.inodestart + (sb.ninodes / IPB + 1)
  nblocks : sb.nblocks = sb.size - sb.nmeta
  nmeta : sb.nmeta ≤ sb.size

theorem signed_lt {half n : ℕ} (h : n < 2 * half) : signed half n < half := by
  unfold signed
  split
  · omega
  · omega

theorem int32At_lt (img : Image) (off : ℕ) : img.int32At off < intBound := by
  have h₀ := (img.bytes off).toNat_lt
  have h₁ := (img.bytes (off + 1)).toNat_lt
  have h₂ := (img.bytes (off + 2)).toNat_lt
  have h₃ := (img.bytes (off + 3)).toNat_lt
  have hlt := @signed_lt (2 ^ 31) ((img.bytes off).toNat + 256 * (img.bytes (off + 1)).toNat +
    256 ^ 2 * (img.bytes (off + 2)).toNat + 256 ^ 3 * (img.bytes (off + 3)).toNat) (by omega)
  simpa [Image.int32At, intBound] using hlt

theorem IPB_eq : (IPB : ℤ) = 8 := rfl

theorem BPB_eq : (BPB : ℤ) = 4096 := rfl

theorem BSIZE_eq : BSIZE = 512 := rfl

namespace Formatted

variable {img : Image} {sb : Superblock} (h : Formatted img sb)
include h

theorem ninodes_lt : sb.ninodes < intBound := by
  rw [← h.superblock]
  exact int32At_lt img _

theorem inodestart_nonneg : 0 ≤ sb.inodestart := by
  rw [h.inodestart]
  exact Int.add_nonneg (by decide) h.nlog

/-- The blocks of the inodes lie before the bitmap. -/
theorem inodePtr_add_le {i : ℕ} (hi : (i : ℤ) ≤ sb.ninodes) :
    (sb.inodePtr i + sizeofDinode : ℤ) ≤ sb.bmapstart * BSIZE := by
  have hstart := h.inodestart_nonneg
  have hbmap := h.bmapstart
  rw [IPB_eq] at hbmap
  rw [Superblock.inodePtr, blockOffset, BSIZE_eq, sizeofDinode]
  omega

theorem bmapstart_pos : 0 < sb.bmapstart := by
  have hstart := h.inodestart_nonneg
  have hblocks : 0 ≤ sb.ninodes / IPB := Int.ediv_nonneg h.ninodes (by decide)
  rw [h.bmapstart]
  omega

theorem size_pos : 0 < sb.size := by
  have hpos := h.bmapstart_pos
  have hle := h.nmeta
  rw [Superblock.nmeta, BPB_eq] at hle
  omega

theorem length_eq : (img.length : ℤ) = sb.size * BSIZE := by
  rw [h.length, Int.natCast_mul, Int.toNat_of_nonneg (Int.le_of_lt h.size_pos)]

theorem nblocks_nonneg : 0 ≤ sb.nblocks := by
  have hle := h.nmeta
  rw [h.nblocks]
  omega

theorem mapNum_eq : sb.mapNum = sb.nblocks / BPB + 1 := by
  rw [Superblock.mapNum, Int.tdiv_eq_ediv_of_nonneg h.nblocks_nonneg]

/-- `fscheck` divides the number of data blocks and `mkfs` the number of all blocks. -/
theorem dataBegin_le : sb.dataBegin ≤ sb.nmeta := by
  have hpos := h.bmapstart_pos
  have hsize := h.size_pos
  have hblocks := h.nblocks
  rw [Superblock.dataBegin, h.mapNum_eq, Superblock.nmeta, BPB_eq]
  rw [Superblock.nmeta, BPB_eq] at hblocks
  omega

theorem bmapstart_lt_dataBegin : sb.bmapstart < sb.dataBegin := by
  have hblocks : 0 ≤ sb.nblocks / BPB := Int.ediv_nonneg h.nblocks_nonneg (by decide)
  rw [Superblock.dataBegin, h.mapNum_eq]
  omega

theorem inodestart_le : sb.inodestart ≤ sb.bmapstart := by
  have hblocks : 0 ≤ sb.ninodes / IPB := Int.ediv_nonneg h.ninodes (by decide)
  rw [h.bmapstart]
  omega

theorem superblock_le : BSIZE + 7 * sizeofInt ≤ img.length := by
  have hlength := h.length_eq
  have hpos := h.bmapstart_pos
  have hbegin := h.bmapstart_lt_dataBegin
  have hnmeta := h.dataBegin_le
  have hsize := h.nmeta
  rw [BSIZE_eq] at *
  rw [sizeofInt]
  omega

theorem inode_le {i : ℕ} (hi : (i : ℤ) ≤ sb.ninodes) :
    sb.inodePtr i + sizeofDinode ≤ img.length := by
  have hinode := h.inodePtr_add_le hi
  have hlength := h.length_eq
  have hbegin := h.bmapstart_lt_dataBegin
  have hnmeta := h.dataBegin_le
  have hsize := h.nmeta
  rw [BSIZE_eq] at *
  omega

/-- A block of the file. -/
theorem blockOffset_add_le {b : ℤ} (hb : 0 ≤ b) (hlt : b < sb.size) :
    blockOffset b + BSIZE ≤ img.length := by
  have hlength := h.length_eq
  rw [blockOffset]
  rw [BSIZE_eq] at *
  omega

/-- The bits of the data blocks lie in the bitmap. -/
theorem bitmap_le {k : ℕ} (hk : (k : ℤ) < sb.nblocks) :
    blockOffset sb.bmapstart + k / 8 + 1 ≤ img.length := by
  have hlength := h.length_eq
  have hpos := h.bmapstart_pos
  have hsize := h.nmeta
  have hblocks := h.nblocks
  rw [Superblock.nmeta, BPB_eq] at hsize hblocks
  rw [blockOffset]
  rw [BSIZE_eq] at *
  omega

end Formatted

end CS537.FsCheck
