import CS537.Foundation.Triples
import Mathlib.Algebra.Ring.Int.Defs
import Mathlib.Algebra.Ring.Nat
import Mathlib.Data.List.Range

/-!
# File system images

A file system image as `fscheck` maps it into memory: the super block, the inodes, directory
entries and the bitmap are read at offsets from the beginning of the file.  All fields are signed
integers.  A read beyond the end of the file and a product that does not fit into an `int` are
faults.  Of the fields of an inode and of a directory entry only those are kept that the checker
reads.
-/

namespace CS537.FsCheck

open Foundation

def BSIZE : ℕ := 512

def NDIRECT : ℕ := 12

def sizeofInt : ℕ := 4

def NINDIRECT : ℕ := BSIZE / sizeofInt

/-- `sizeof(struct dinode)` -/
def sizeofDinode : ℕ := 64

/-- `sizeof(struct dirent)` -/
def sizeofDirent : ℕ := 16

/-- Inodes per block. -/
def IPB : ℕ := BSIZE / sizeofDinode

/-- Bitmap bits per block. -/
def BPB : ℕ := BSIZE * 8

def ROOTINO : ℕ := 1

/-- The values of an `int` are below this number. -/
def intBound : ℤ := 2 ^ 31

/-- The number that an unsigned integer of `2 * half` values stands for as a signed one. -/
def signed (half n : ℕ) : ℤ := if n < half then n else n - 2 * half

/-- The content of an image file; behind its end the bytes do not matter. -/
structure Image where
  bytes : ℕ → UInt8
  length : ℕ

/-- `struct superblock` -/
structure Superblock where
  size : ℤ
  nblocks : ℤ
  ninodes : ℤ
  nlog : ℤ
  logstart : ℤ
  inodestart : ℤ
  bmapstart : ℤ

/-- `struct dinode` -/
structure Dinode where
  type : ℤ
  size : ℤ
  addrs : ℕ → ℤ

def T_DIR : ℤ := 1

/-- The ends of a run of `fscheck` other than its normal end. -/
inductive Stop
  | printErr (msg : String)
  /-- an access outside of an array or of the file, or an overflow -/
  | fault
  deriving DecidableEq

namespace Image

variable (img : Image)

/-! ## Values in the file -/

/-- The `int16_t` at an offset, in little-endian order. -/
def int16At (off : ℕ) : ℤ :=
  signed (2 ^ 15) ((img.bytes off).toNat + 256 * (img.bytes (off + 1)).toNat)

/-- The `int` at an offset. -/
def int32At (off : ℕ) : ℤ :=
  signed (2 ^ 31) ((img.bytes off).toNat + 256 * (img.bytes (off + 1)).toNat +
    256 ^ 2 * (img.bytes (off + 2)).toNat + 256 ^ 3 * (img.bytes (off + 3)).toNat)

def superblockAt (off : ℕ) : Superblock where
  size := img.int32At off
  nblocks := img.int32At (off + 4)
  ninodes := img.int32At (off + 8)
  nlog := img.int32At (off + 12)
  logstart := img.int32At (off + 16)
  inodestart := img.int32At (off + 20)
  bmapstart := img.int32At (off + 24)

def dinodeAt (off : ℕ) : Dinode where
  type := img.int16At off
  size := img.int32At (off + 8)
  addrs i := img.int32At (off + 12 + sizeofInt * i)

/-! ## Reads -/

section Reads

variable {σ : Type}

/-- Reads a value of `n` bytes that lies at an offset. -/
def read {α : Type} (off n : ℕ) (value : α) : Program σ Stop α :=
  if off + n ≤ img.length then pure value else throw .fault

def byte (off : ℕ) : Program σ Stop UInt8 := img.read off 1 (img.bytes off)

def int16 (off : ℕ) : Program σ Stop ℤ := img.read off 2 (img.int16At off)

def int32 (off : ℕ) : Program σ Stop ℤ := img.read off sizeofInt (img.int32At off)

def superblock (off : ℕ) : Program σ Stop Superblock :=
  img.read off (7 * sizeofInt) (img.superblockAt off)

def dinode (off : ℕ) : Program σ Stop Dinode := img.read off sizeofDinode (img.dinodeAt off)

end Reads

end Image

/-- `n * BSIZE + fs_ptr`, as an offset in the file. -/
def blockPtr {σ : Type} (n : ℤ) : Program σ Stop ℕ :=
  if 0 ≤ n ∧ n * BSIZE < intBound then pure (n * BSIZE).toNat else throw .fault

/-- The offset of a block. -/
def blockOffset (n : ℤ) : ℕ := (n * BSIZE).toNat

end CS537.FsCheck
