import CS537.Storage.Lifetime
import CS537.FileSystem.Calls

/-!
# The calls of the inode layer

The functions of `fs.c` on inodes, with the references and the locks of the inode cache, over the blocks
of the disk.  The functions of the same names over the content of the inodes do the same: what is kept of
the blocks is a file for each inode.  `Call` is one call of either.
-/

namespace CS537.Storage

open Foundation
open FileSystem (Inum InodeType FsState NINODE)
open Mkfs (Dinode)

/-- The inode cache over a disk.  The references and the locks are those of `FsState`. -/
structure Cache where
  volume : Volume
  refs : Multiset Inum
  locks : Finset Inum

namespace Cache

abbrev Kernel := Program Cache Stop

/-- `ip->ref` -/
def ref (s : Cache) (ip : Inum) : ℕ := s.refs.count ip

/-- A function on the blocks. -/
def onVolume {α : Type} (m : Storage.Kernel α) : Kernel α := fun s ↦
  match m s.volume with
  | .ok (a, v) => .ok (a, { s with volume := v })
  | .error e => .error e

variable (sb : SuperBlock)

def iget (inum : Inum) : Kernel Inum := fun s ↦
  if 0 < s.ref inum then .ok (inum, { s with refs := inum ::ₘ s.refs })
  else if s.refs.toFinset.card < NINODE then
    .ok (inum, { s with
      refs := inum ::ₘ s.refs
      volume := { s.volume with valid := Function.update s.volume.valid inum false } })
  else .error (.panic "iget: no inodes")

def idup (ip : Inum) : Kernel Inum := fun s ↦ .ok (ip, { s with refs := ip ::ₘ s.refs })

def ilock (ip : Inum) : Kernel Unit := do
  let s ← get
  if s.ref ip < 1 then throw (.panic "ilock")
  else if ip ∈ s.locks then throw .deadlock
  else
    onVolume (Storage.ilock sb ip)
    modify fun s ↦ { s with locks := insert ip s.locks }

def iunlock (ip : Inum) : Kernel Unit := fun s ↦
  if ip ∉ s.locks ∨ s.ref ip < 1 then .error (.panic "iunlock")
  else .ok ((), { s with locks := s.locks.erase ip })

def iput (ip : Inum) : Kernel Unit := do
  let s ← get
  if ip ∈ s.locks then throw .deadlock
  else
    if s.volume.valid ip ∧ (s.volume.icache ip).nlink = 0 ∧ s.ref ip = 1 then
      onVolume (freeInode sb ip)
    modify fun s ↦ { s with refs := s.refs.erase ip }

def ialloc (type : ℕ) : Kernel Inum := do
  let inum ← onVolume (Storage.ialloc sb type)
  iget (Fin.ofNat 65536 inum)

end Cache

/-- The numbers of the types on the disk. -/
def typeCode : InodeType → ℕ
  | .free => 0
  | .dir => 1
  | .file => 2
  | .dev => 3
  | .sym => 4

/-- A call of the inode layer. -/
inductive Call
  | iget (inum : Inum)
  | idup (ip : Inum)
  | ilock (ip : Inum)
  | iunlock (ip : Inum)
  | iput (ip : Inum)
  | ialloc (type : InodeType)
  | setFields (ip : Inum) (major minor nlink : ℕ)
  | readi (ip : Inum) (off n : ℕ)
  | writei (ip : Inum) (src : List UInt8) (off : ℕ)

/-- What a call returns. -/
inductive Answer
  | done
  | inode (ip : Inum)
  | bytes (r : Option (List UInt8))
  | count (r : Option ℕ)
  deriving DecidableEq

namespace Call

/-- The call over the blocks. -/
def onBlocks (sb : SuperBlock) : Call → Cache.Kernel Answer
  | .iget inum => do return .inode (← Cache.iget inum)
  | .idup ip => do return .inode (← Cache.idup ip)
  | .ilock ip => do
    Cache.ilock sb ip
    return .done
  | .iunlock ip => do
    Cache.iunlock ip
    return .done
  | .iput ip => do
    Cache.iput sb ip
    return .done
  | .ialloc type => do return .inode (← Cache.ialloc sb (typeCode type))
  | .setFields ip major minor nlink => do
    Cache.onVolume (Storage.setFields sb ip major minor nlink)
    return .done
  | .readi ip off n => do return .bytes (← Cache.onVolume (Storage.readi sb ip off n))
  | .writei ip src off => do return .count (← Cache.onVolume (Storage.writei sb ip src off))

/-- The call over the files. -/
def onFiles (ninodes : ℕ) : Call → FileSystem.Kernel Answer
  | .iget inum => do return .inode (← FileSystem.iget inum)
  | .idup ip => do return .inode (← FileSystem.idup ip)
  | .ilock ip => do
    let _ ← FileSystem.ilock (some ip)
    return .done
  | .iunlock ip => do
    FileSystem.iunlock ip
    return .done
  | .iput ip => do
    FileSystem.iput ip
    return .done
  | .ialloc type => do return .inode (← FileSystem.ialloc ninodes type)
  | .setFields ip _ _ nlink => do
    FileSystem.update ip fun inode ↦ inode.setNlink nlink
    return .done
  | .readi ip off n => do return .bytes (FileSystem.readi (← FileSystem.fields ip) off n)
  | .writei ip src off => do return .count (← FileSystem.writei ip src off)

/-- What the callers see to: they call for inodes that exist, have a reference to an inode that they
pass, lock it before they use it, and `readi` and `writei` are about inodes that are no devices. -/
def Allowed (ninodes : ℕ) (refs : Multiset Inum) (locks : Finset Inum) (type : Inum → ℕ) : Call → Prop
  | .iget inum => (inum : ℕ) < ninodes
  | .idup ip => ip ∈ refs
  | .ilock ip => ip ∈ refs
  | .iunlock ip => ip ∈ refs
  | .iput ip => ip ∈ refs
  | .ialloc _ => True
  | .setFields ip major minor nlink => ip ∈ locks ∧ major < 2 ^ 16 ∧ minor < 2 ^ 16 ∧ nlink < 2 ^ 16
  | .readi ip _ _ => ip ∈ locks ∧ type ip ≠ typeCode .dev
  | .writei ip _ _ => ip ∈ locks ∧ type ip ≠ typeCode .dev

instance decidableAllowed (ninodes : ℕ) (refs : Multiset Inum) (locks : Finset Inum) (type : Inum → ℕ)
    (call : Call) : Decidable (call.Allowed ninodes refs locks type) :=
  match call with
  | .iget inum => inferInstanceAs (Decidable ((inum : ℕ) < ninodes))
  | .idup ip | .ilock ip | .iunlock ip | .iput ip => inferInstanceAs (Decidable (ip ∈ refs))
  | .ialloc _ => inferInstanceAs (Decidable True)
  | .setFields _ _ _ _ => inferInstanceAs (Decidable (_ ∧ _ ∧ _ ∧ _))
  | .readi _ _ _ | .writei _ _ _ => inferInstanceAs (Decidable (_ ∧ _))

end Call

end CS537.Storage
