import CS537.FileSystem.Names

/-!
# System calls on files

`sysfile.c` opens files and creates directory entries and symbolic links.  The disk has room for
the blocks that are written, and the calls are not interleaved with those of other processes.  The
file system has `ninodes` inodes, no more than there are inode numbers.
-/

namespace CS537.FileSystem

open Foundation

/-! ## Writing -/

namespace Inode

theorem length_write_le (ip : Inode) {off : ℕ} {src : List UInt8} (hoff : off ≤ ip.size)
    (hmax : off + src.length ≤ MAXFILE * BSIZE) :
    (ip.content.take off ++ src ++ ip.content.drop (off + src.length)).length ≤ MAXFILE * BSIZE := by
  have hsize := ip.size_le
  simp only [List.length_append, List.length_take, List.length_drop, Inode.size] at hoff ⊢
  omega

/-- The inode after bytes have been written from `off` on. -/
def write (ip : Inode) (off : ℕ) (src : List UInt8) (hoff : off ≤ ip.size)
    (hmax : off + src.length ≤ MAXFILE * BSIZE) : Inode where
  type := ip.type
  nlink := ip.nlink
  content := ip.content.take off ++ src ++ ip.content.drop (off + src.length)
  size_le := ip.length_write_le hoff hmax

/-- Assigns `nlink`. -/
def setNlink (ip : Inode) (nlink : ℕ) : Inode := { ip with nlink := nlink }

end Inode

/-- Changes a locked inode in memory and, as `iupdate` follows, on the disk. -/
def update (ip : Inum) (f : Inode → Inode) : Kernel Unit := fun s ↦
  .ok ((), { s with inode := Function.update s.inode ip (f (s.inode ip)) })

/-- `writei` to an inode that is no device; `none` stands for -1. -/
def writei (ip : Inum) (src : List UInt8) (off : ℕ) : Kernel (Option ℕ) := fun s ↦
  if h : (s.inode ip).size < off ∨ (off + src.length) % 2 ^ 32 < off then .ok (none, s)
  else if hmax : MAXFILE * BSIZE < off + src.length then .ok (none, s)
  else
    let inode := (s.inode ip).write off src (Nat.le_of_not_lt (not_or.mp h).1)
      (Nat.le_of_not_lt hmax)
    .ok (some src.length, { s with inode := Function.update s.inode ip inode })

/-- A new inode of the given type, as `ialloc` writes it to the disk. -/
def newInode (type : InodeType) : Inode := ⟨type, 0, [], Inode.nil_size_le⟩

/-- Takes the first free inode. -/
def ialloc (ninodes : ℕ) (type : InodeType) : Kernel Inum := fun s ↦
  match (List.range' 1 (ninodes - 1)).find? fun inum ↦
      (s.inode (Fin.ofNat 65536 inum)).type = .free with
  | none => .error (.panic "ialloc: no inodes")
  | some inum =>
    iget (Fin.ofNat 65536 inum)
      { s with inode := Function.update s.inode (Fin.ofNat 65536 inum) (newInode type) }

/-! ## Directory entries -/

/-- The 16 bytes of a directory entry; `strncpy` fills the name up with NULs. -/
def direntBytes (inum : Inum) (name : List UInt8) : List UInt8 :=
  [UInt8.ofNat (inum.val % 256), UInt8.ofNat (inum.val / 256)] ++
    ((nameOf name).bytes ++ List.replicate (DIRSIZ - (nameOf name).bytes.length) 0)

/-- The loop of `dirlink` from `off` on, of which at most the given number of iterations are left:
the offset of an entry that is not in use, or of the end. -/
def dirlinkLoop (dp : Inode) : ℕ → ℕ → Except Fault ℕ
  | 0, off => .ok off
  | n + 1, off =>
    if off < dp.size then
      match readi dp off sizeofDirent with
      | none => .error (.panic "dirlink read")
      | some bytes =>
        if bytes.length ≠ sizeofDirent then .error (.panic "dirlink read")
        else if (Dirent.ofBytes bytes).inum = 0 then .ok off
        else dirlinkLoop dp n (off + sizeofDirent)
    else .ok off

/-- The offset at which `dirlink` writes. -/
def emptyDirent (dp : Inum) : Kernel ℕ := fun s ↦
  (dirlinkLoop (s.inode dp) ((s.inode dp).size / sizeofDirent + 1) 0).map fun off ↦ (off, s)

/-- `dirlink`: whether the entry was written. -/
def dirlink (dp : Inum) (name : List UInt8) (inum : Inum) : Kernel Bool := do
  match ← dirlookup dp name with
  | some (ip, _) =>
    iput ip
    return false
  | none =>
    let off ← emptyDirent dp
    match ← writei dp (direntBytes inum name) off with
    | none => throw (.panic "dirlink")
    | some n =>
      if n ≠ sizeofDirent then throw (.panic "dirlink")
      else return true

/-! ## The calls -/

section Calls

variable (ninodes fuel : ℕ)

/-- The entries `.` and `..` of a new directory. -/
def createDots (dp ip : Inum) : Kernel Unit := do
  update dp fun dp ↦ dp.setNlink (dp.nlink + 1)
  if !(← dirlink ip [46] ip) then throw (.panic "create dots")
  if !(← dirlink ip [46, 46] dp) then throw (.panic "create dots")

/-- The part of `create` for a name that the directory `dp`, which is locked, does not have. -/
def createNew (dp : Inum) (name : List UInt8) (type : InodeType) : Kernel Inum := do
  let ip ← ialloc ninodes type
  let ip ← ilock (some ip)
  update ip fun ip ↦ ip.setNlink 1
  if type = .dir then createDots dp ip
  if !(← dirlink dp name ip) then throw (.panic "create: dirlink")
  iunlockput dp
  return ip

/-- Returns the inode that the path names, locked; a file that exists is not created again. -/
def create (path : CString) (type : InodeType) : Kernel (Option Inum) := do
  match ← nameiparent fuel path with
  | (none, _) => return none
  | (some dp, name) =>
    let dp ← ilock (some dp)
    match ← dirlookup dp name with
    | some (ip, _) =>
      iunlockput dp
      let ip ← ilock (some ip)
      let inode ← fields ip
      if type = .file ∧ inode.type = .file then
        return some ip
      else
        iunlockput ip
        return none
    | none =>
      let ip ← createNew ninodes dp name type
      return some ip

/-- Whether the link was created. -/
def sysSymlink (target linkName : CString) : Kernel Bool := do
  match ← create ninodes fuel linkName .sym with
  | none => return false
  | some ip =>
    let _ ← writei ip target.bytes 0
    iunlockput ip
    return true

def O_RDONLY : ℕ := 0x000
def O_WRONLY : ℕ := 0x001
def O_RDWR : ℕ := 0x002
def O_CREATE : ℕ := 0x200

/-- What `open` makes of a free entry of the file table. -/
structure File where
  ip : Inum
  off : ℕ
  readable : Bool
  writable : Bool
  deriving DecidableEq

/-- The ways `open` ends: all but the last return -1. -/
inductive OpenEnd
  | notFound
  /-- a directory, refused because of `check_sym` -/
  | symToDir
  | dirForWriting
  /-- no entry of the file table or no descriptor is free -/
  | noFile
  | opened (f : File)
  deriving DecidableEq

/-- `check_sym` -/
def checkSym : Kernel Bool := fun s ↦ .ok (s.isSym, s)

/-- The end of `sys_open`; `hasFile` says whether an entry of the file table and a descriptor are
free. -/
def openFile (ip : Inum) (omode : ℕ) (hasFile : Bool) : Kernel OpenEnd := do
  if !hasFile then
    iunlockput ip
    return .noFile
  else
    iunlock ip
    return .opened {
      ip := ip
      off := 0
      readable := omode &&& O_WRONLY = 0
      writable := omode &&& O_WRONLY ≠ 0 ∨ omode &&& O_RDWR ≠ 0 }

def sysOpen (path : CString) (omode : ℕ) (hasFile : Bool) : Kernel OpenEnd := do
  if omode &&& O_CREATE ≠ 0 then
    match ← create ninodes fuel path .file with
    | none => return .notFound
    | some ip => openFile ip omode hasFile
  else
    match ← namei fuel path with
    | none => return .notFound
    | some ip =>
      let ip ← ilock (some ip)
      let inode ← fields ip
      let isSym ← checkSym
      if inode.type = .dir ∧ isSym then
        iunlockput ip
        return .symToDir
      else if inode.type = .dir ∧ omode ≠ O_RDONLY then
        iunlockput ip
        return .dirForWriting
      else
        openFile ip omode hasFile

end Calls

end CS537.FileSystem
