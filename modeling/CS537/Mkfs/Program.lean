import CS537.FsCheck.Image

/-!
# The formatter

`mkfs.c`.  The formatter writes the image sector by sector: zeroes, the super block, the inodes and
the data of the root directory and of the host files, and last the bitmap.  It stops when an
assertion or a read of a sector fails.  Reads of a host file return 512 bytes as long as there are
so many.
-/

namespace CS537.Mkfs

open Foundation
open FsCheck (BSIZE NDIRECT NINDIRECT IPB sizeofDinode sizeofDirent sizeofInt ROOTINO)

def NINODES : ℕ := 200

/-- The size of the file system in blocks. -/
def FSSIZE : ℕ := 1000

def LOGSIZE : ℕ := 30

def DIRSIZ : ℕ := 14

def MAXFILE : ℕ := NDIRECT + NINDIRECT

def nbitmap : ℕ := FSSIZE / (BSIZE * 8) + 1

def ninodeblocks : ℕ := NINODES / IPB + 1

def nlog : ℕ := LOGSIZE

/-- The number of meta blocks. -/
def nmeta : ℕ := 2 + nlog + ninodeblocks + nbitmap

/-- The number of data blocks. -/
def nblocks : ℕ := FSSIZE - nmeta

def inodestart : ℕ := 2 + nlog

def bmapstart : ℕ := 2 + nlog + ninodeblocks

def T_DIR : ℕ := 1

def T_FILE : ℕ := 2

/-- The ends of a run other than its normal end. -/
inductive Stop
  | assertion
  /-- `exit(1)` -/
  | exit
  deriving DecidableEq

/-- The image file and the global variables. -/
structure State where
  bytes : ℕ → UInt8
  length : ℕ
  freeinode : ℕ
  freeblock : ℕ

abbrev Formatter := Program State Stop

/-- The content of a sector. -/
abbrev Sector := ℕ → UInt8

def assert (c : Prop) [Decidable c] : Formatter Unit := if c then pure () else throw .assertion

/-! ## Values in memory -/

/-- A byte of an integer in little-endian order. -/
def byteOf (x j : ℕ) : UInt8 := UInt8.ofNat (x / 256 ^ j)

section Values

variable (buf : ℕ → UInt8) (off : ℕ)

def ushortAt : ℕ := (buf off).toNat + 256 * (buf (off + 1)).toNat

def uintAt : ℕ :=
  (buf off).toNat + 256 * (buf (off + 1)).toNat + 256 ^ 2 * (buf (off + 2)).toNat +
    256 ^ 3 * (buf (off + 3)).toNat

end Values

/-- `struct dinode`, with its `NDIRECT + 1` addresses. -/
@[ext]
structure Dinode where
  type : ℕ
  major : ℕ
  minor : ℕ
  nlink : ℕ
  size : ℕ
  addrs : ℕ → ℕ

namespace Dinode

/-- The inode after `bzero`. -/
def zero : Dinode where
  type := 0
  major := 0
  minor := 0
  nlink := 0
  size := 0
  addrs _ := 0

def byte (d : Dinode) (i : ℕ) : UInt8 :=
  if i < 2 then byteOf d.type i
  else if i < 4 then byteOf d.major (i - 2)
  else if i < 6 then byteOf d.minor (i - 4)
  else if i < 8 then byteOf d.nlink (i - 6)
  else if i < 12 then byteOf d.size (i - 8)
  else byteOf (d.addrs ((i - 12) / sizeofInt)) ((i - 12) % sizeofInt)

def ofBytes (buf : ℕ → UInt8) (off : ℕ) : Dinode where
  type := ushortAt buf off
  major := ushortAt buf (off + 2)
  minor := ushortAt buf (off + 4)
  nlink := ushortAt buf (off + 6)
  size := uintAt buf (off + 8)
  addrs k := if k ≤ NDIRECT then uintAt buf (off + 12 + sizeofInt * k) else 0

def setAddr (d : Dinode) (k x : ℕ) : Dinode := { d with addrs := Function.update d.addrs k x }

def setSize (d : Dinode) (size : ℕ) : Dinode := { d with size }

end Dinode

/-- `struct dirent`; the name is cut off at `DIRSIZ` bytes. -/
def dirent (inum : ℕ) (name : List UInt8) : List UInt8 :=
  (List.range sizeofDirent).map fun i ↦ if i < 2 then byteOf inum i else name.getD (i - 2) 0

/-! ## Sectors -/

def wsect (sec : ℕ) (buf : Sector) : Formatter Unit := modify fun s ↦
  { s with
    bytes := fun p ↦ if sec * BSIZE ≤ p ∧ p < sec * BSIZE + BSIZE then buf (p - sec * BSIZE)
      else s.bytes p
    length := max s.length (sec * BSIZE + BSIZE) }

def rsect (sec : ℕ) : Formatter Sector := do
  let s ← get
  if sec * BSIZE + BSIZE ≤ s.length then return fun i ↦ s.bytes (sec * BSIZE + i)
  else throw .exit

/-- `bcopy` of data to an offset in a sector. -/
def bcopy (data : List UInt8) (off n : ℕ) (buf : Sector) : Sector := fun i ↦
  if off ≤ i ∧ i < off + n then data.getD (i - off) 0 else buf i

def zeroes : Sector := fun _ ↦ 0

/-! ## Inodes -/

/-- `IBLOCK(inum, sb)` -/
def iblock (inum : ℕ) : ℕ := inum / IPB + inodestart

def winode (inum : ℕ) (ip : Dinode) : Formatter Unit := do
  let buf ← rsect (iblock inum)
  let dip := inum % IPB * sizeofDinode
  wsect (iblock inum) fun i ↦ if dip ≤ i ∧ i < dip + sizeofDinode then ip.byte (i - dip) else buf i

def rinode (inum : ℕ) : Formatter Dinode := do
  let buf ← rsect (iblock inum)
  return .ofBytes buf (inum % IPB * sizeofDinode)

def ialloc (type : ℕ) : Formatter ℕ := do
  let inum := (← get).freeinode
  modify fun s ↦ { s with freeinode := s.freeinode + 1 }
  winode inum { Dinode.zero with type, nlink := 1 }
  return inum

/-! ## Data -/

/-- `freeblock++` -/
def nextBlock : Formatter ℕ := do
  let x := (← get).freeblock
  modify fun s ↦ { s with freeblock := s.freeblock + 1 }
  return x

/-- The entries of an indirect block. -/
def entriesOf (buf : Sector) : ℕ → ℕ := fun i ↦ uintAt buf (sizeofInt * i)

def sectorOf (indirect : ℕ → ℕ) : Sector := fun i ↦ byteOf (indirect (i / sizeofInt)) (i % sizeofInt)

/-- An address of an inode that is zero becomes the next free block. -/
def allocAddr (din : Dinode) (k : ℕ) : Formatter Dinode :=
  if din.addrs k = 0 then do
    let x ← nextBlock
    return din.setAddr k x
  else pure din

/-- An entry of an indirect block; a block is allocated if it is zero. -/
def entryFor (b i : ℕ) : Formatter ℕ := do
  let buf ← rsect b
  if entriesOf buf i = 0 then
    let x ← nextBlock
    wsect b (sectorOf (Function.update (entriesOf buf) i x))
    return x
  else return entriesOf buf i

/-- The block of an inode at an index; blocks are allocated if need be. -/
def blockFor (din : Dinode) (fbn : ℕ) : Formatter (Dinode × ℕ) := do
  if fbn < NDIRECT then
    let din ← allocAddr din fbn
    return (din, din.addrs fbn)
  else
    let din ← allocAddr din NDIRECT
    let x ← entryFor (din.addrs NDIRECT) (fbn - NDIRECT)
    return (din, x)

/-- The loop of `iappend`: writes data behind byte `off` of an inode; returns the inode and the new
end of the data. -/
def iappendLoop (din : Dinode) (off : ℕ) : List UInt8 → Formatter (Dinode × ℕ)
  | [] => return (din, off)
  | byte :: rest => do
    let data := byte :: rest
    let fbn := off / BSIZE
    assert (fbn < MAXFILE)
    let (din, x) ← blockFor din fbn
    let n := min data.length ((fbn + 1) * BSIZE - off)
    let buf ← rsect x
    wsect x (bcopy data (off - fbn * BSIZE) n buf)
    iappendLoop din (off + n) (data.drop n)
termination_by data => data.length
decreasing_by
  have hoff : off < (off / BSIZE + 1) * BSIZE := Nat.lt_mul_of_div_lt (by omega) (by decide)
  simp only [List.length_drop, List.length_cons]
  omega

def iappend (inum : ℕ) (data : List UInt8) : Formatter Unit := do
  let din ← rinode inum
  let (din, off) ← iappendLoop din din.size data
  winode inum (din.setSize off)

/-! ## The bitmap -/

/-- The bitmap of a number of blocks, all of them in use. -/
def bitmap (used : ℕ) : Sector :=
  (List.range used).foldl (fun buf i ↦
    Function.update buf (i / 8) (buf (i / 8) ||| UInt8.ofNat (2 ^ (i % 8)))) zeroes

def balloc (used : ℕ) : Formatter Unit := do
  assert (used < BSIZE * 8)
  wsect bmapstart (bitmap used)

/-! ## The image -/

structure HostFile where
  name : List UInt8
  content : List UInt8

/-- What the calls of `read` return. -/
def reads : List UInt8 → List (List UInt8)
  | [] => []
  | byte :: rest => (byte :: rest).take BSIZE :: reads ((byte :: rest).drop BSIZE)
termination_by content => content.length
decreasing_by
  simp only [List.length_drop, List.length_cons, BSIZE]
  omega

/-- The byte of a character. -/
def slash : UInt8 := 47

def underscore : UInt8 := 95

def dot : UInt8 := 46

/-- A leading `_` is left out. -/
def skipUnderscore : List UInt8 → List UInt8
  | [] => []
  | c :: name => if c = underscore then name else c :: name

/-- Adds a host file to the root directory. -/
def addFile (rootino : ℕ) (file : HostFile) : Formatter Unit := do
  assert (slash ∉ file.name)
  let inum ← ialloc T_FILE
  iappend rootino (dirent inum (skipUnderscore file.name))
  (reads file.content).forM fun buf ↦ iappend inum buf

/-- The fields of the super block. -/
def sb : List ℕ := [FSSIZE, nblocks, NINODES, nlog, 2, inodestart, bmapstart]

/-- The sector of the super block. -/
def sbSector : Sector := fun i ↦ byteOf (sb.getD (i / sizeofInt) 0) (i % sizeofInt)

def main (files : List HostFile) : Formatter Unit := do
  (List.range FSSIZE).forM fun i ↦ wsect i zeroes
  wsect 1 sbSector
  let rootino ← ialloc T_DIR
  assert (rootino = ROOTINO)
  iappend rootino (dirent rootino [dot])
  iappend rootino (dirent rootino [dot, dot])
  files.forM fun file ↦ addFile rootino file
  -- fix size of root inode dir
  let din ← rinode rootino
  winode rootino (din.setSize ((din.size / BSIZE + 1) * BSIZE))
  balloc (← get).freeblock

/-- The state at the beginning; the file is empty. -/
def State.start : State where
  bytes _ := 0
  length := 0
  freeinode := 1
  freeblock := nmeta

/-- The image that a run of `mkfs` on host files leaves. -/
def mkfs (files : List HostFile) : Except Stop FsCheck.Image :=
  (main files State.start).map fun r ↦ ⟨r.2.bytes, r.2.length⟩

end CS537.Mkfs
