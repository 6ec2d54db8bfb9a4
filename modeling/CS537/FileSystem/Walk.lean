import CS537.FileSystem.Names
import CS537.Foundation.Resolution

/-!
# Walks in a file system

The file system between two system calls, the name space of its directories and symbolic links,
and what the functions called by `namex` do to the references, the locks and the valid bits of the
inode cache while a walk is under way.
-/

namespace CS537.FileSystem

open Foundation

namespace FsState

variable (s : FsState)

/-- The inode that a directory has for a name. -/
def child (d : Inum) (c : CString) : Option Inum :=
  if (s.inode d).type = .dir then (s.inode d).lookup c else none

/-- A path is walked from the root or from the given directory. -/
def origin (d : Inum) (path : CString) : Inum :=
  if path.bytes.head? = some slash then ROOTINO else d

/-- The target of a symbolic link. -/
def targetOf (link : Inum) : CString := .ofBytes (s.inode link).content

/-- The name space of a file system.  A link is given by the directory that holds it and the inode
number; a link that is too long leads nowhere. -/
def names : NameSpace Inum CString (Inum × Inum) where
  entry d c := (s.child d c).bind fun i ↦
    if (s.inode i).type = .sym then
      if (s.inode i).size < sizeofBuf then some (.inr (d, i)) else none
    else some (.inl i)
  target l := (origin l.1 (s.targetOf l.2), components (s.targetOf l.2).bytes)

end FsState

/-- The state between two system calls of a process: no lock is held, the current directory and
the root (the current directory of the first process) are directories in use, valid entries of the
inode cache are allocated, and an allocated inode without links is in use. -/
structure QuietState extends FsState where
  unlocked : locks = ∅
  root_ref : ROOTINO ∈ refs
  root_dir : (inode ROOTINO).type = .dir
  cwd_ref : cwd ∈ refs
  cwd_dir : (inode cwd).type = .dir
  allocated : ∀ i, valid i → (inode i).type ≠ .free
  inUse : ∀ i, (inode i).type ≠ .free → (inode i).nlink = 0 → i ∈ refs

/-- During a walk that holds the references `held` in addition to those of the file system and has
locked `locked`. -/
structure Holds (fs : QuietState) (held : Multiset Inum) (locked : Finset Inum) (s : FsState) :
    Prop where
  inode : s.inode = fs.inode
  refs : s.refs = held + fs.refs
  locks : s.locks = locked
  valid : ∀ i, s.valid i → (fs.inode i).type ≠ .free
  cwd : s.cwd = fs.cwd

/-- `iget` finds the inode in the cache or an entry that is free. -/
def QuietState.HasRoom (fs : QuietState) (held : Multiset Inum) (i : Inum) : Prop :=
  i ∈ held + fs.refs ∨ (held + fs.refs).toFinset.card < NINODE

instance (fs : QuietState) (held : Multiset Inum) (i : Inum) : Decidable (fs.HasRoom held i) :=
  inferInstanceAs (Decidable (_ ∨ _))

variable {fs : QuietState} {held : Multiset Inum} {locked : Finset Inum} {d i : Inum}

theorem QuietState.holds (fs : QuietState) : Holds fs 0 ∅ fs.toFsState where
  inode := rfl
  refs := (Multiset.zero_add _).symm
  locks := fs.unlocked
  valid := fs.allocated
  cwd := rfl

namespace Holds

variable {s : FsState}

theorem ref_pos (h : Holds fs held locked s) (hi : i ∈ held) : 0 < s.ref i := by
  rw [FsState.ref, h.refs, Multiset.count_pos]
  exact Multiset.mem_add.mpr (.inl hi)

theorem cons (h : Holds fs held locked s) (i : Inum) :
    Holds fs (i ::ₘ held) locked { s with refs := i ::ₘ s.refs } :=
  { h with refs := by rw [h.refs, Multiset.cons_add] }

end Holds

/-! ## References -/

theorem iget_returns (h : fs.HasRoom held i) :
    Returns (Holds fs held locked) (iget i) i (Holds fs (i ::ₘ held) locked) := by
  intro s hs
  by_cases hcached : 0 < s.ref i
  · exact ⟨_, if_pos hcached, hs.cons i⟩
  · have hroom : s.cached.card < NINODE := by
      rw [FsState.cached, hs.refs]
      refine h.resolve_left fun hi ↦ hcached ?_
      rw [FsState.ref, hs.refs]
      exact Multiset.count_pos.mpr hi
    refine ⟨_, (if_neg hcached).trans (if_pos hroom), { hs.cons i with valid := ?_ }⟩
    intro j hj
    by_cases hji : j = i
    · simp [hji] at hj
    · simp only [Function.update_of_ne hji] at hj
      exact hs.valid j hj

theorem iget_fails (h : ¬fs.HasRoom held i) :
    Fails (Holds fs held locked) (iget i) (· ≠ .outOfFuel) := by
  intro s hs
  simp only [QuietState.HasRoom, not_or] at h
  have hcached : ¬0 < s.ref i := by
    rw [FsState.ref, hs.refs, Multiset.count_pos]
    exact h.1
  have hroom : ¬s.cached.card < NINODE := by
    rw [FsState.cached, hs.refs]
    exact h.2
  exact ⟨_, (if_neg hcached).trans (if_neg hroom), nofun⟩

theorem idup_returns (i : Inum) :
    Returns (Holds fs held locked) (idup i) i (Holds fs (i ::ₘ held) locked) :=
  fun _ hs ↦ ⟨_, rfl, hs.cons i⟩

theorem iput_returns (hlocked : i ∉ locked) (hi : (fs.inode i).type ≠ .free) :
    Returns (Holds fs (i ::ₘ held) locked) (iput i) () (Holds fs held locked) := by
  intro s hs
  have hrefs : s.refs = i ::ₘ (held + fs.refs) := by rw [hs.refs, Multiset.cons_add]
  have hkept : ¬(s.valid i ∧ (s.inode i).nlink = 0 ∧ s.ref i = 1) := by
    rintro ⟨-, hlink, href⟩
    rw [hs.inode] at hlink
    have hmem : i ∈ held + fs.refs := Multiset.mem_add.mpr (.inr (fs.inUse i hi hlink))
    have hcount := Multiset.count_pos.mpr hmem
    rw [FsState.ref, hrefs, Multiset.count_cons_self] at href
    omega
  refine ⟨_, (if_neg (by rwa [hs.locks])).trans (if_neg hkept), { hs with refs := ?_ }⟩
  rw [hrefs, Multiset.erase_cons_head]

/-! ## Locks -/

theorem ilock_returns (hi : i ∈ held) (hlocked : i ∉ locked) (htype : (fs.inode i).type ≠ .free) :
    Returns (Holds fs held locked) (ilock (some i)) i (Holds fs held (insert i locked)) := by
  intro s hs
  have href : ¬s.ref i < 1 := Nat.not_lt.mpr (hs.ref_pos hi)
  have hlock : i ∉ s.locks := by rwa [hs.locks]
  have hused : ¬(s.valid i = false ∧ (s.inode i).type = .free) := by
    rw [hs.inode]
    exact fun h ↦ htype h.2
  refine ⟨_, (if_neg href).trans ((if_neg hlock).trans (if_neg hused)),
    { hs with locks := by rw [hs.locks], valid := ?_ }⟩
  intro j hj
  by_cases hji : j = i
  · rwa [hji]
  · simp only [Function.update_of_ne hji] at hj
    exact hs.valid j hj

theorem ilock_fails (hi : i ∈ held) (hlocked : i ∉ locked) (htype : (fs.inode i).type = .free) :
    Fails (Holds fs held locked) (ilock (some i)) (· ≠ .outOfFuel) := by
  intro s hs
  have href : ¬s.ref i < 1 := Nat.not_lt.mpr (hs.ref_pos hi)
  have hlock : i ∉ s.locks := by rwa [hs.locks]
  have hvalid : s.valid i = false := by
    by_contra hvalid
    exact hs.valid i (by simpa using hvalid) htype
  have hfree : s.valid i = false ∧ (s.inode i).type = .free := ⟨hvalid, by rwa [hs.inode]⟩
  exact ⟨_, (if_neg href).trans ((if_neg hlock).trans (if_pos hfree)), nofun⟩

theorem ilock_null_fails :
    Fails (Holds fs held locked) (ilock none) (· ≠ .outOfFuel) :=
  fun _ _ ↦ ⟨_, rfl, nofun⟩

theorem iunlock_returns (hi : i ∈ held) (hlocked : i ∉ locked) :
    Returns (Holds fs held (insert i locked)) (iunlock i) () (Holds fs held locked) := by
  intro s hs
  have hlock : i ∈ s.locks := by
    rw [hs.locks]
    exact Finset.mem_insert_self i locked
  have href : ¬s.ref i < 1 := Nat.not_lt.mpr (hs.ref_pos hi)
  refine ⟨_, if_neg (by simp [hlock, href]), { hs with locks := ?_ }⟩
  rw [hs.locks, Finset.erase_insert hlocked]

theorem iunlockput_returns (hlocked : i ∉ locked) (hi : (fs.inode i).type ≠ .free) :
    Returns (Holds fs (i ::ₘ held) (insert i locked)) (iunlockput i) () (Holds fs held locked) :=
  (iunlock_returns (Multiset.mem_cons_self i held) hlocked).bind (iput_returns hlocked hi)

theorem fields_returns (i : Inum) :
    Returns (Holds fs held locked) (fields i) (fs.inode i) (Holds fs held locked) :=
  fun s hs ↦ ⟨s, by rw [fields, hs.inode], hs⟩

/-! ## Directories -/

theorem dirlookup_returns {name : List UInt8} (locked : Finset Inum)
    (hdir : (fs.inode d).type = .dir)
    (hi : (fs.inode d).lookup (nameOf name) = some i) (hroom : fs.HasRoom held i) :
    ∃ off, Returns (Holds fs held locked) (dirlookup d name) (some (i, off))
      (Holds fs (i ::ₘ held) locked) := by
  obtain ⟨e, he, rfl⟩ := Option.map_eq_some_iff.mp hi
  refine ⟨e.1, fun s hs ↦ ?_⟩
  rw [dirlookup_eq name (by rwa [hs.inode]), hs.inode]
  simp only [he]
  exact (iget_returns hroom).bind (f := fun ip ↦ pure (some (ip, e.1))) (.pure _) s hs

theorem dirlookup_returns_none {name : List UInt8} (hdir : (fs.inode d).type = .dir)
    (hnone : (fs.inode d).lookup (nameOf name) = none) (hwhole : (fs.inode d).Whole) :
    Returns (Holds fs held locked) (dirlookup d name) none (Holds fs held locked) := by
  intro s hs
  refine ⟨s, ?_, hs⟩
  rw [dirlookup_eq name (by rwa [hs.inode]), hs.inode, Option.map_eq_none_iff.mp hnone]
  exact if_pos hwhole

theorem dirlookup_fails {name : List UInt8} (hdir : (fs.inode d).type = .dir)
    (hi : (fs.inode d).lookup (nameOf name) = some i) (hroom : ¬fs.HasRoom held i) :
    Fails (Holds fs held locked) (dirlookup d name) (· ≠ .outOfFuel) := by
  obtain ⟨e, he, rfl⟩ := Option.map_eq_some_iff.mp hi
  intro s hs
  rw [dirlookup_eq name (by rwa [hs.inode]), hs.inode]
  simp only [he]
  exact (iget_fails hroom).bind s hs

theorem dirlookup_short_fails {name : List UInt8} (hdir : (fs.inode d).type = .dir)
    (hnone : (fs.inode d).lookup (nameOf name) = none) (hwhole : ¬(fs.inode d).Whole) :
    Fails (Holds fs held locked) (dirlookup d name) (· ≠ .outOfFuel) := by
  intro s hs
  refine ⟨.panic "dirlookup read", ?_, nofun⟩
  rw [dirlookup_eq name (by rwa [hs.inode]), hs.inode, Option.map_eq_none_iff.mp hnone]
  exact if_neg hwhole

/-! ## Paths -/

theorem setIsSym_returns (b : Bool) :
    Returns (Holds fs held locked) (setIsSym b) () (Holds fs held locked) :=
  fun _ hs ↦ ⟨_, rfl, { hs with }⟩

theorem namexStart_returns (root : Option Inum) (path : CString) :
    Returns (Holds fs held locked) (namexStart root path.bytes)
      (FsState.origin (root.getD fs.cwd) path)
      (Holds fs (FsState.origin (root.getD fs.cwd) path ::ₘ held) locked) := by
  refine (setIsSym_returns false).bind ?_
  by_cases habs : path.bytes.head? = some slash
  · have hroot : fs.HasRoom held ROOTINO := .inl (Multiset.mem_add.mpr (.inr fs.root_ref))
    simp only [if_pos habs, FsState.origin]
    exact iget_returns hroot
  · simp only [if_neg habs, FsState.origin]
    cases root with
    | some ip => exact idup_returns ip
    | none =>
      intro s hs
      rw [Option.getD_none, ← hs.cwd]
      exact idup_returns s.cwd s hs

theorem linkTarget_eq (s : FsState) (i : Inum) :
    linkTarget (s.inode i) =
      if (s.inode i).size < sizeofBuf then some (s.targetOf i) else none := by
  by_cases hsize : sizeofBuf ≤ (s.inode i).size
  · rw [linkTarget, if_pos hsize, if_neg (Nat.not_lt.mpr hsize)]
  · rw [linkTarget, if_neg hsize, if_pos (Nat.lt_of_not_le hsize), readi_size]
    simp [Inode.size, FsState.targetOf]

end CS537.FileSystem
