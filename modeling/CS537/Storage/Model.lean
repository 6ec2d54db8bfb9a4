import CS537.Log.Model

/-!
# Blocks and inodes

The part of `fs.c` of the xv6 kernel that keeps inodes on a disk of blocks: the block allocator, the
inodes in memory and on the disk, and their content.  `bread` returns what has been written to a block
last, and `log_write` notes the block for the log.  The inode cache has an entry for each number, as an
entry that is not valid is read from the disk before it is used.  The super block is not written, so
that what `bfree` reads of it is what was read first.
-/

namespace CS537.Storage

open Foundation Log
open FsCheck (BSIZE NDIRECT NINDIRECT IPB BPB sizeofDinode sizeofInt)
open Mkfs (Dinode byteOf uintAt MAXFILE bcopy)

/-- The fields of the super block that are used here. -/
structure SuperBlock where
  size : ℕ
  ninodes : ℕ
  inodestart : ℕ
  bmapstart : ℕ

/-- The blocks, the inodes in memory and the blocks that have been given to `log_write`. -/
structure Volume where
  block : ℕ → Block
  icache : ℕ → Dinode
  valid : ℕ → Bool
  logged : List ℕ

/-- The ends of a call that does not return. -/
inductive Stop
  | panic (msg : String)
  /-- waiting for a lock that the process holds itself -/
  | deadlock
  deriving DecidableEq

abbrev Kernel := Program Volume Stop

section

variable (sb : SuperBlock)

namespace SuperBlock

/-- `IBLOCK(i, sb)` -/
def iblock (i : ℕ) : ℕ := i / IPB + sb.inodestart

/-- `BBLOCK(b, sb)` -/
def bblock (b : ℕ) : ℕ := b / BPB + sb.bmapstart

end SuperBlock

/-! ## Buffers -/

def bread (b : ℕ) : Kernel Block := fun s ↦ .ok (s.block b, s)

/-- Changes the data of a buffer and gives it to `log_write`. -/
def logWrite (b : ℕ) (f : Block → Block) : Kernel Unit := fun s ↦
  .ok ((), { s with block := Function.update s.block b (f (s.block b)), logged := s.logged ++ [b] })

/-- The fields of an inode in memory. -/
def ip (inum : ℕ) : Kernel Dinode := fun s ↦ .ok (s.icache inum, s)

def setIp (inum : ℕ) (f : Dinode → Dinode) : Kernel Unit := fun s ↦
  .ok ((), { s with icache := Function.update s.icache inum (f (s.icache inum)) })

/-! ## Blocks -/

def bzero (bno : ℕ) : Kernel Unit := logWrite bno fun _ _ ↦ 0

/-- `1 << (bi % 8)` -/
def mask (bi : ℕ) : UInt8 := UInt8.ofNat (2 ^ (bi % 8))

/-- The inner loop of `balloc` with `n` bits to go. -/
def scanBits (data : Block) (b : ℕ) : ℕ → ℕ → Option ℕ
  | 0, _ => none
  | n + 1, bi =>
    if b + bi < sb.size then
      if data (bi / 8) &&& mask bi = 0 then some bi else scanBits data b n (bi + 1)
    else none

/-- The outer loop of `balloc` with `n` passes to go. -/
def ballocFrom : ℕ → ℕ → Kernel ℕ
  | 0, _ => throw (.panic "balloc: out of blocks")
  | n + 1, b => do
    let data ← bread (sb.bblock b)
    match scanBits sb data b BPB 0 with
    | some bi =>
      logWrite (sb.bblock b) fun data ↦ Function.update data (bi / 8) (data (bi / 8) ||| mask bi)
      bzero (b + bi)
      return b + bi
    | none => ballocFrom n (b + BPB)

def balloc : Kernel ℕ := ballocFrom sb ((sb.size + (BPB - 1)) / BPB) 0

def bfree (b : ℕ) : Kernel Unit := do
  let data ← bread (sb.bblock b)
  let bi := b % BPB
  if data (bi / 8) &&& mask bi = 0 then throw (.panic "freeing free block")
  else logWrite (sb.bblock b) fun data ↦ Function.update data (bi / 8) (data (bi / 8) &&& ~~~mask bi)

/-! ## Inodes -/

/-- The offset of an inode in its block. -/
def slot (inum : ℕ) : ℕ := inum % IPB * sizeofDinode

/-- Puts an inode into its block. -/
def putDinode (inum : ℕ) (d : Dinode) (data : Block) : Block := fun i ↦
  if slot inum ≤ i ∧ i < slot inum + sizeofDinode then d.byte (i - slot inum) else data i

/-- The loop of `ialloc` with `n` inodes to go. -/
def iallocFrom (type : ℕ) : ℕ → ℕ → Kernel ℕ
  | 0, _ => throw (.panic "ialloc: no inodes")
  | n + 1, inum => do
    let data ← bread (sb.iblock inum)
    if (Dinode.ofBytes data (slot inum)).type = 0 then
      logWrite (sb.iblock inum) (putDinode inum { Dinode.zero with type := type })
      return inum
    else iallocFrom type n (inum + 1)

/-- The number of the inode; `iget` takes a reference to it. -/
def ialloc (type : ℕ) : Kernel ℕ := iallocFrom sb type (sb.ninodes - 1) 1

def iupdate (inum : ℕ) : Kernel Unit := do
  let d ← ip inum
  logWrite (sb.iblock inum) (putDinode inum d)

/-- `ilock` once it has the lock. -/
def ilock (inum : ℕ) : Kernel Unit := do
  let valid := (← get).valid inum
  if valid = false then
    let data ← bread (sb.iblock inum)
    let d := Dinode.ofBytes data (slot inum)
    modify fun s ↦ { s with
      icache := Function.update s.icache inum d
      valid := Function.update s.valid inum true }
    if d.type = 0 then throw (.panic "ilock: no type")

/-! ## The content of inodes -/

/-- The address in `addrs[k]`; a block is allocated if there is none. -/
def addrFor (inum k : ℕ) : Kernel ℕ := do
  let addr := (← ip inum).addrs k
  if addr = 0 then
    let addr ← balloc sb
    setIp inum (·.setAddr k addr)
    return addr
  else return addr

/-- Puts an address into an indirect block. -/
def putEntry (bn addr : ℕ) (data : Block) : Block := fun i ↦
  if sizeofInt * bn ≤ i ∧ i < sizeofInt * bn + sizeofInt then byteOf addr (i - sizeofInt * bn) else data i

def bmap (inum bn : ℕ) : Kernel ℕ := do
  if bn < NDIRECT then addrFor sb inum bn
  else if bn - NDIRECT < NINDIRECT then
    let bn := bn - NDIRECT
    let indirect ← addrFor sb inum NDIRECT
    let a ← bread indirect
    if uintAt a (sizeofInt * bn) = 0 then
      let addr ← balloc sb
      logWrite indirect (putEntry bn addr)
      return addr
    else return uintAt a (sizeofInt * bn)
  else throw (.panic "bmap: out of range")

/-- The first loop of `itrunc`. -/
def freeDirect (inum : ℕ) : Kernel Unit :=
  (List.range NDIRECT).forM fun i ↦ do
    let addr := (← ip inum).addrs i
    if addr ≠ 0 then
      bfree sb addr
      setIp inum (·.setAddr i 0)

/-- The second loop of `itrunc`, over the entries of the indirect block. -/
def freeEntries (a : Block) : Kernel Unit :=
  (List.range NINDIRECT).forM fun j ↦ do
    if uintAt a (sizeofInt * j) ≠ 0 then bfree sb (uintAt a (sizeofInt * j))

def itrunc (inum : ℕ) : Kernel Unit := do
  freeDirect sb inum
  let indirect := (← ip inum).addrs NDIRECT
  if indirect ≠ 0 then
    let a ← bread indirect
    freeEntries sb a
    bfree sb indirect
    setIp inum (·.setAddr NDIRECT 0)
  setIp inum (·.setSize 0)
  iupdate sb inum

/-- What `iput` does with the last reference to an inode without links. -/
def freeInode (inum : ℕ) : Kernel Unit := do
  itrunc sb inum
  setIp inum fun d ↦ { d with type := 0 }
  iupdate sb inum
  modify fun s ↦ { s with valid := Function.update s.valid inum false }

/-- The bytes up to the end of a block. -/
def chunk (off n : ℕ) : ℕ := min n (BSIZE - off % BSIZE)

theorem chunk_pos (off : ℕ) {n : ℕ} (hn : 0 < n) : 0 < chunk off n := by
  have hmod : off % BSIZE < BSIZE := Nat.mod_lt _ (by decide)
  rw [chunk]
  omega

/-- The loop of `readi` with `n` bytes to go. -/
def readLoop (inum off n : ℕ) : Kernel (List UInt8) :=
  if _hn : 0 < n then do
    let data ← bread (← bmap sb inum (off / BSIZE))
    let rest ← readLoop inum (off + chunk off n) (n - chunk off n)
    return (List.range (chunk off n)).map (fun i ↦ data (off % BSIZE + i)) ++ rest
  else return []
termination_by n
decreasing_by
  have hpos := chunk_pos off _hn
  omega

/-- `readi` on an inode that is no device; `none` stands for -1. -/
def readi (inum off n : ℕ) : Kernel (Option (List UInt8)) := do
  let size := (← ip inum).size
  if size < off ∨ (off + n) % 2 ^ 32 < off then return none
  else return some (← readLoop sb inum off (if size < off + n then size - off else n))

/-- The loop of `writei`. -/
def writeLoop (inum off : ℕ) (src : List UInt8) : Kernel Unit :=
  if _hsrc : src ≠ [] then do
    let m := chunk off src.length
    let b ← bmap sb inum (off / BSIZE)
    logWrite b (bcopy src (off % BSIZE) m)
    writeLoop inum (off + m) (src.drop m)
  else return ()
termination_by src.length
decreasing_by
  have hlength : 0 < src.length := List.length_pos_iff.mpr _hsrc
  have hpos := chunk_pos off hlength
  rw [List.length_drop]
  omega

/-- `writei` to an inode that is no device. -/
def writei (inum : ℕ) (src : List UInt8) (off : ℕ) : Kernel (Option ℕ) := do
  let size := (← ip inum).size
  if size < off ∨ (off + src.length) % 2 ^ 32 < off then return none
  else if MAXFILE * BSIZE < off + src.length then return none
  else
    writeLoop sb inum off src
    if 0 < src.length ∧ size < off + src.length then
      setIp inum (·.setSize (off + src.length))
      iupdate sb inum
    return some src.length

end

end CS537.Storage
