import CS537.Foundation.Triples
import Mathlib.Algebra.Ring.Nat
import Mathlib.Data.Finset.Basic
import Mathlib.Data.Finset.Card
import Mathlib.Data.Multiset.AddSub
import Mathlib.Data.Finset.Dedup

/-!
# Inodes

The in-memory inodes of the xv6 kernel and the functions of `fs.c` that take references to them,
lock them and read their content.  A pointer to an entry of the inode cache is the number of its
inode; the reference counts are the multiset of the pointers held.  The cache is write-through, so
the fields of a valid entry are those of the inode on the disk and are kept once.  The content of
an inode is what `readi` delivers of its blocks; holes do not occur, as `writei` starts at most at
the end.  Sleep locks are those of the running process: where another process holds a lock,
`acquiresleep` waits for it.
-/

namespace CS537.FileSystem

open Foundation

/-- Numbers of inodes, as directory entries hold them. -/
abbrev Inum := Fin 65536

instance neZeroInum : NeZero 65536 := ⟨by decide⟩

def ROOTINO : Inum := 1

def BSIZE : ℕ := 512

def NDIRECT : ℕ := 12

def NINDIRECT : ℕ := BSIZE / 4

def MAXFILE : ℕ := NDIRECT + NINDIRECT

/-- The number of entries of the inode cache. -/
def NINODE : ℕ := 50

/-- `type` of an inode; zero marks a free one. -/
inductive InodeType
  | free
  | dir
  | file
  | dev
  | sym
  deriving DecidableEq

structure Inode where
  type : InodeType
  nlink : ℕ
  content : List UInt8
  size_le : content.length ≤ MAXFILE * BSIZE

namespace Inode

def size (ip : Inode) : ℕ := ip.content.length

theorem size_lt (ip : Inode) : ip.size < 2 ^ 31 := by
  have h := ip.size_le
  simp only [MAXFILE, NDIRECT, NINDIRECT, BSIZE] at h
  simp only [size]
  omega

theorem nil_size_le : ([] : List UInt8).length ≤ MAXFILE * BSIZE := Nat.zero_le _

/-- What `itrunc` and the following lines of `iput` leave of an inode. -/
def truncated (ip : Inode) : Inode where
  type := .free
  nlink := ip.nlink
  content := []
  size_le := nil_size_le

end Inode

/-- What the functions below read and write. -/
structure FsState where
  inode : Inum → Inode
  refs : Multiset Inum
  valid : Inum → Bool
  locks : Finset Inum
  isSym : Bool
  cwd : Inum

/-- The ends of a call that does not return. -/
inductive Fault
  | panic (msg : String)
  | nullPointer
  /-- waiting for a lock that the process holds itself -/
  | deadlock
  /-- the bound on the recursion is too small -/
  | outOfFuel
  deriving DecidableEq

abbrev Kernel := Program FsState Fault

/-- `ip->ref` -/
def FsState.ref (s : FsState) (ip : Inum) : ℕ := s.refs.count ip

/-- The entries of the inode cache in use. -/
def FsState.cached (s : FsState) : Finset Inum := s.refs.toFinset

/-- The fields of a locked inode. -/
def fields (ip : Inum) : Kernel Inode := fun s ↦ .ok (s.inode ip, s)

def iget (inum : Inum) : Kernel Inum := fun s ↦
  if 0 < s.ref inum then
    .ok (inum, { s with refs := inum ::ₘ s.refs })
  else if s.cached.card < NINODE then
    .ok (inum, { s with
      refs := inum ::ₘ s.refs
      valid := Function.update s.valid inum false })
  else
    .error (.panic "iget: no inodes")

def idup (ip : Inum) : Kernel Inum := fun s ↦
  .ok (ip, { s with refs := ip ::ₘ s.refs })

/-- Returns the inode that it has locked, to which the pointer is then known to lead. -/
def ilock : Option Inum → Kernel Inum
  | none => fun _ ↦ .error (.panic "ilock")
  | some ip => fun s ↦
    if s.ref ip < 1 then
      .error (.panic "ilock")
    else if ip ∈ s.locks then
      .error .deadlock
    else if s.valid ip = false ∧ (s.inode ip).type = .free then
      .error (.panic "ilock: no type")
    else
      .ok (ip, { s with
        locks := insert ip s.locks
        valid := Function.update s.valid ip true })

def iunlock (ip : Inum) : Kernel Unit := fun s ↦
  if ip ∉ s.locks ∨ s.ref ip < 1 then
    .error (.panic "iunlock")
  else
    .ok ((), { s with locks := s.locks.erase ip })

/-- Drops a reference; the last reference to an inode without links frees the inode. -/
def iput (ip : Inum) : Kernel Unit := fun s ↦
  if ip ∈ s.locks then
    .error .deadlock
  else if s.valid ip ∧ (s.inode ip).nlink = 0 ∧ s.ref ip = 1 then
    .ok ((), { s with
      inode := Function.update s.inode ip (s.inode ip).truncated
      valid := Function.update s.valid ip false
      refs := s.refs.erase ip })
  else
    .ok ((), { s with refs := s.refs.erase ip })

def iunlockput (ip : Inum) : Kernel Unit := do
  iunlock ip
  iput ip

/-- `readi` on an inode that is no device: the bytes read, or `none` for -1.  `off + n` is a sum of
unsigned integers. -/
def readi (ip : Inode) (off n : ℕ) : Option (List UInt8) :=
  if ip.size < off ∨ (off + n) % 2 ^ 32 < off then none
  else some ((ip.content.drop off).take n)

theorem readi_of_le {ip : Inode} {off n : ℕ} (hoff : off ≤ ip.size) (hn : n < 2 ^ 31) :
    readi ip off n = some ((ip.content.drop off).take n) := by
  have hsize := ip.size_lt
  have hsum : (off + n) % 2 ^ 32 = off + n := Nat.mod_eq_of_lt (by omega)
  rw [readi, if_neg (by omega)]

/-- The whole content of an inode. -/
theorem readi_size (ip : Inode) : readi ip 0 ip.size = some ip.content := by
  rw [readi_of_le (Nat.zero_le _) ip.size_lt]
  simp [Inode.size]

end CS537.FileSystem
