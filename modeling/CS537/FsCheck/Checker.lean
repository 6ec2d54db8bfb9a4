import CS537.FsCheck.Image
import Mathlib.Logic.Function.Basic

/-!
# The checker

`fscheck.c`.  The checker fills four arrays from the inodes, the indirect blocks, the bitmap and
the directories and compares them.  It stops at the first error that it finds.  `malloc` succeeds
for every size that is not negative.
-/

namespace CS537.FsCheck

open Foundation

/-- The arrays that `main` allocates; elements that are set to zero or one are truth values. -/
structure Arrays where
  dmap : ℕ → ℕ
  dataUse : ℕ → Bool
  inodeUse : ℕ → Bool
  dirInode : ℕ → Bool

/-- The arrays after `memset`. -/
def Arrays.zero : Arrays where
  dmap _ := 0
  dataUse _ := false
  inodeUse _ := false
  dirInode _ := false

abbrev Checker := Program Arrays Stop

/-- An index of an array of the given length. -/
def index (length i : ℤ) : Checker ℕ :=
  if 0 ≤ i ∧ i < length then pure i.toNat else throw .fault

namespace Superblock

/-- `map_num` -/
def mapNum (sb : Superblock) : ℤ := sb.nblocks.tdiv BPB + 1

/-- The length of `dmap`. -/
def mapLength (sb : Superblock) : ℤ := sb.mapNum * BPB

end Superblock

section Arrays

variable (sb : Superblock) (i : ℤ)

def setDmap (value : ℕ) : Checker Unit := do
  let i ← index sb.mapLength i
  modify fun a ↦ { a with dmap := Function.update a.dmap i value }

/-- `data_use[i] = 1` -/
def setDataUse : Checker Unit := do
  let i ← index sb.nblocks i
  modify fun a ↦ { a with dataUse := Function.update a.dataUse i true }

/-- `inode_use[i] = 1` -/
def setInodeUse : Checker Unit := do
  let i ← index sb.ninodes i
  modify fun a ↦ { a with inodeUse := Function.update a.inodeUse i true }

/-- `dir_inode[i] = 1` -/
def setDirInode : Checker Unit := do
  let i ← index sb.ninodes i
  modify fun a ↦ { a with dirInode := Function.update a.dirInode i true }

def getDmap : Checker ℕ := do
  let i ← index sb.mapLength i
  return (← get).dmap i

def getDataUse : Checker Bool := do
  let i ← index sb.nblocks i
  return (← get).dataUse i

def getInodeUse : Checker Bool := do
  let i ← index sb.ninodes i
  return (← get).inodeUse i

def getDirInode : Checker Bool := do
  let i ← index sb.ninodes i
  return (← get).dirInode i

end Arrays

/-- `if (c) print_err(msg)` -/
def printErrIf (c : Prop) [Decidable c] (msg : String) : Checker Unit :=
  if c then throw (.printErr msg) else pure ()

section Functions

variable (img : Image) (sb : Superblock)

/-- The loop of `init_map` from block `i` on, of which the given number of iterations are left. -/
def initMapLoop : ℕ → ℕ → ℕ → ℕ → Checker Unit
  | 0, _, _, _ => pure ()
  | n + 1, i, currPos, mapPtr => do
    let byte ← img.byte mapPtr
    setDmap sb i (2 ^ currPos &&& byte.toNat)
    if currPos = 7 then initMapLoop n (i + 1) 0 (mapPtr + 1)
    else initMapLoop n (i + 1) (currPos + 1) mapPtr

def initMap : Checker Unit := do
  let mapPtr ← blockPtr sb.bmapstart
  initMapLoop img sb sb.nblocks.toNat 0 0 mapPtr

/-- Marks a block that an inode refers to, and counts it. -/
def countBlock (numB : ℕ) (addr : ℤ) : Checker ℕ := do
  if addr ≠ 0 then
    setDataUse sb addr
    return numB + 1
  else return numB

/-- The part of `cal_num_block` behind its first loop. -/
def countIndirect (curr : Dinode) (numB : ℕ) : Checker ℕ := do
  if curr.addrs NDIRECT = 0 then return numB
  else
    setDataUse sb (curr.addrs NDIRECT)
    let dataAdd ← blockPtr (curr.addrs NDIRECT)
    (List.range NINDIRECT).foldlM (fun numB i ↦ do
      let addr ← img.int32 (dataAdd + sizeofInt * i)
      countBlock sb numB addr) numB

/-- `cal_num_block`: the number of the blocks of an inode that hold data. -/
def calNumBlock (curr : Dinode) : Checker ℕ := do
  let numB ← (List.range NDIRECT).foldlM (fun numB i ↦ countBlock sb numB (curr.addrs i)) 0
  countIndirect img sb curr numB

/-- The checks of an inode in use, whose number is `i + 1`. -/
def checkInode (inode : Dinode) (i : ℕ) : Checker Unit := do
  setInodeUse sb (i + 1)
  printErrIf (inode.type ≠ 1 ∧ inode.type ≠ 2 ∧ inode.type ≠ 3) "ERROR: bad inode."
  let numOfBlock ← calNumBlock img sb inode
  printErrIf ((numOfBlock : ℤ) * BSIZE < inode.size ∨ inode.size < ((numOfBlock : ℤ) - 1) * BSIZE)
    "ERROR: bad size in inode."

def individualCheck (tempI i : ℕ) : Checker Unit := do
  let inode ← img.dinode tempI
  if inode.type ≠ 0 then checkInode img sb inode i else pure ()

/-- The inodes from the first one on. -/
def individualChecks (firstInode : ℕ) : Checker Unit :=
  (List.range (sb.ninodes - 1).toNat).forM fun i ↦
    individualCheck img sb (firstInode + sizeofDinode * i) i

def checkDot (inode dataBAdd : ℤ) : Checker Unit := do
  let dot ← blockPtr dataBAdd
  let temp ← img.int16 dot
  printErrIf (inode ≠ temp) "ERROR: current directory mismatch."

/-- The check of the root directory. -/
def checkRoot (root : Dinode) : Checker Unit := do
  printErrIf (root.type ≠ T_DIR) "ERROR: root directory does not exist."
  let dir ← blockPtr (root.addrs 0)
  let inum ← img.int16 dir
  printErrIf (inum ≠ ROOTINO) "ERROR: root directory does not exist."
  let inum ← img.int16 (dir + sizeofDirent)
  printErrIf (inum ≠ ROOTINO) "ERROR: root directory does not exist."

def checkDirectory (inode : Dinode) (i : ℕ) : Checker Unit :=
  if inode.type = T_DIR then checkDot img i (inode.addrs 0) else pure ()

def directoryCheck (tempI i : ℕ) : Checker Unit := do
  let inode ← img.dinode tempI
  if i = ROOTINO then
    checkRoot img inode
    checkDirectory img inode i
  else checkDirectory img inode i

def directoryChecks (inodes : ℕ) : Checker Unit :=
  (List.range sb.ninodes.toNat).forM fun i ↦ directoryCheck img (inodes + sizeofDinode * i) i

/-- A block of an inode has to be marked in the bitmap. -/
def bitmapCheck1 (i : ℕ) : Checker Unit := do
  if ← getDataUse sb i then
    let m ← getDmap sb i
    printErrIf (m = 0) "ERROR: bitmap marks data free but data block used by inode."
  else pure ()

/-- A block that is marked in the bitmap has to be one of an inode. -/
def bitmapCheck2 (i : ℕ) : Checker Unit := do
  if (← getDmap sb i) ≠ 0 then
    let used ← getDataUse sb i
    printErrIf (used = false) "ERROR: bitmap marks data block in use but not used."
  else pure ()

def bitmapChecks (dataPtr : ℕ) : Checker Unit := do
  (List.range sb.nblocks.toNat).forM fun i ↦ bitmapCheck1 sb i
  let dataBegin := dataPtr / BSIZE
  (List.range' dataBegin (sb.mapLength.toNat - dataBegin)).forM fun i ↦ bitmapCheck2 sb i

/-- The entry at `refInode` refers to an inode. -/
def countEntry (refInode : ℕ) : Checker Unit := do
  let temp ← img.int16 refInode
  if temp ≠ 0 then setDirInode sb temp else pure ()

/-- `count_refer_node`: marks the inodes that the entries of a block refer to. -/
def countReferNode (refInode : ℕ) : Checker Unit :=
  (List.range (512 / 16)).forM fun i ↦ countEntry img sb (refInode + sizeofDirent * i)

def referNode (tempI : ℕ) : Checker Unit := do
  let inode ← img.dinode tempI
  if inode.type = T_DIR then
    let refInode ← blockPtr (inode.addrs 0)
    countReferNode img sb refInode
  else pure ()

def referCheck (i : ℕ) : Checker Unit := do
  let dirInode ← getDirInode sb i
  let inodeUse ← getInodeUse sb i
  printErrIf (dirInode = true ∧ inodeUse = false)
    "ERROR: inode marked free but referred to in directory."
  printErrIf (inodeUse = true ∧ dirInode = false)
    "ERROR: inode marked in use but not found in a directory."

def multiStructureChecks (inodes : ℕ) : Checker Unit := do
  (List.range sb.ninodes.toNat).forM fun i ↦
    referNode img sb (inodes + sizeofDinode + sizeofDinode * i)
  (List.range sb.ninodes.toNat).forM fun i ↦ referCheck sb i

end Functions

/-- An array of so many elements is allocated. -/
def alloc (length : ℤ) : Checker Unit :=
  if 0 ≤ length ∧ length < intBound then pure () else throw .fault

/-- The part of `main` before the checks; returns the super block and the pointers to inode 0 and to
the first data block. -/
def prepare (img : Image) : Checker (Superblock × ℕ × ℕ) := do
  let sb ← img.superblock BSIZE
  let inodes ← blockPtr sb.inodestart
  let dataPtr ← blockPtr (sb.bmapstart + sb.mapNum)
  alloc sb.mapLength
  alloc sb.nblocks
  alloc sb.ninodes
  initMap img sb
  return (sb, inodes, dataPtr)

/-- `main` up to the end of the directory checks. -/
def upToDirectories (img : Image) : Checker (Superblock × ℕ × ℕ) := do
  let (sb, inodes, dataPtr) ← prepare img
  individualChecks img sb (inodes + sizeofDinode * ROOTINO)
  directoryChecks img sb inodes
  return (sb, inodes, dataPtr)

/-- `main` up to the end of the bitmap checks. -/
def upToBitmap (img : Image) : Checker (Superblock × ℕ) := do
  let (sb, inodes, dataPtr) ← upToDirectories img
  bitmapChecks sb dataPtr
  return (sb, inodes)

def main (img : Image) : Checker Unit := do
  let (sb, inodes) ← upToBitmap img
  multiStructureChecks img sb inodes

/-- A run of `fscheck` on an image. -/
def fscheck (img : Image) : Except Stop Unit := (main img Arrays.zero).map fun _ ↦ ()

end CS537.FsCheck
