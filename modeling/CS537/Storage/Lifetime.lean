import CS537.Storage.Truncate

/-!
# The life of an inode

`ialloc` takes the first free inode of the disk, `ilock` reads it into memory, the system calls set its
fields and `iput` frees it.  Each of them leads from a disk that holds some content to one that holds the
content the call is about, and the only panics are those on a disk without free inodes and on an inode
that is free.
-/

namespace CS537.Storage

open Foundation Log
open FsCheck (BSIZE NDIRECT NINDIRECT IPB BPB sizeofDinode sizeofInt)
open Mkfs (Dinode byteOf uintAt MAXFILE bcopy BSIZE_pos MAXFILE_eq)

/-- The fields of a locked inode that the system calls set before they call `iupdate`. -/
def setFields (sb : SuperBlock) (inum major minor nlink : ℕ) : Kernel Unit := do
  setIp inum fun d ↦ { d with major := major, minor := minor, nlink := nlink }
  iupdate sb inum

variable {sb : SuperBlock} {s t u : Volume} {c : ℕ → List UInt8} 
  {ino : ℕ → Dinode} {i j type major minor nlink : ℕ}

/-! ## `ilock` -/

/-- An inode has been read from the disk. -/
def Volume.loaded (sb : SuperBlock) (s : Volume) (i : ℕ) : Volume :=
  { s with
    icache := Function.update s.icache i (s.dinode sb i)
    valid := Function.update s.valid i true }

theorem Consistent.loaded (h : Consistent sb s c) (htype : (s.dinode sb i).type ≠ 0) :
    Consistent sb (s.loaded sb i) c := by
  refine ⟨h.contents.transfer (fun _ _ _ ↦ rfl) fun _ ↦ rfl, h.size, h.free, fun j hj ↦ ?_⟩
  by_cases hji : j = i
  · rw [hji]
    exact ⟨Function.update_self _ _ _, htype⟩
  · have hvalid : s.valid j = true := (Function.update_of_ne hji _ _).symm.trans hj
    exact ⟨(Function.update_of_ne hji _ _).trans (h.cached j hvalid).1, (h.cached j hvalid).2⟩

/-- `ilock` of an inode that is not in use is the end. -/
theorem ilock_ends (h : Consistent sb s c) (hi : i < sb.ninodes) : Ends (ilock sb i) s
    (fun _ t ↦ (s.dinode sb i).type ≠ 0 ∧ Consistent sb t c ∧ t.dinode sb = s.dinode sb ∧
      t.valid = Function.update s.valid i true ∧ t.logged = s.logged)
    (fun e ↦ e = .panic "ilock: no type" ∧ s.valid i = false ∧ (s.dinode sb i).type = 0) := by
  have hdinode : s.dinode sb i = .ofBytes (s.block (sb.iblock i)) (slot i) := if_pos hi
  refine .after (a := s) (t := s) rfl ?_
  by_cases hvalid : s.valid i = false
  · rw [if_pos hvalid]
    refine .after (a := s.block (sb.iblock i)) (t := s) rfl ?_
    rw [← hdinode]
    refine .after (a := ()) (t := s.loaded sb i) rfl ?_
    by_cases htype : (s.dinode sb i).type = 0
    · rw [if_pos htype]
      exact .throw ⟨rfl, hvalid, htype⟩
    · rw [if_neg htype]
      exact .pure ⟨htype, h.loaded htype, rfl, rfl, rfl⟩
  · have htrue : s.valid i = true := Bool.eq_true_of_not_eq_false hvalid
    rw [if_neg hvalid]
    refine .pure ⟨(h.cached i htrue).2, h, rfl, ?_, rfl⟩
    rw [← htrue, Function.update_eq_self]

/-! ## The fields of an inode -/

/-- The fields that the system calls set. -/
def withFields (d : Dinode) (major minor nlink : ℕ) : Dinode :=
  { d with major := major, minor := minor, nlink := nlink }

theorem setFields_run (h : Consistent sb s c) (hl : sb.Laid) (hv : s.valid i = true)
    (hmajor : major < 2 ^ 16) (hminor : minor < 2 ^ 16) (hnlink : nlink < 2 ^ 16) :
    ∃ t, setFields sb i major minor nlink s = .ok ((), t) ∧
      Replaced sb s c i (withFields (s.dinode sb i) major minor nlink) (c i) t ∧ t.valid = s.valid ∧
      t.logged = s.logged ++ [sb.iblock i] := by
  obtain ⟨hip, htype⟩ := h.cached i hv
  have hfits := fits_dinode sb s i
  have hcontents : Contents sb (s.setInode i (withFields (s.dinode sb i) major minor nlink))
      (Function.update (s.dinode sb) i (s.dinode sb i)) (Function.update c i (c i)) := by
    rw [Function.update_eq_self, Function.update_eq_self]
    exact h.contents.transfer (fun _ _ _ ↦ rfl) fun _ ↦ rfl
  have hput := h.put hl (h.lt_ninodes hv) hcontents (fun _ _ ↦ rfl)
    (d := withFields (s.dinode sb i) major minor nlink)
    ⟨hfits.type, hmajor, hminor, hnlink, hfits.size, hfits.addrs, hfits.tail⟩ rfl (h.size i)
    (fun hzero ↦ absurd hzero htype) (fun _ ↦ ⟨Volume.setInode_self s i _, htype⟩)
    fun j hj hvalid ↦ ⟨hvalid, Function.update_of_ne hj _ _⟩
  refine ⟨_, ?_, hput, rfl, rfl⟩
  refine (bind_of_ok (setIp_run i _ s)).trans ?_
  rw [iupdate_run, Volume.updated, Volume.setInode_self, hip]
  rfl

/-! ## `ialloc` -/

/-- An inode without content has no addresses. -/
theorem Contents.addrs_eq_zero (h : Contents sb s ino c) (hempty : c i = []) (hfits : (ino i).Fits) :
    (ino i).addrs = Dinode.zero.addrs := by
  funext m
  rcases Nat.lt_trichotomy m NDIRECT with hm | rfl | hm
  · have hdata := h.data i m (hm.trans (by decide))
    rw [hempty, Volume.address_direct _ _ hm] at hdata
    exact not_not.mp (mt hdata.mp (Nat.not_lt_zero _))
  · have hindirect := h.indirect i
    rw [hempty, Volume.address_indirect] at hindirect
    exact not_not.mp (mt hindirect.mp (Nat.not_lt_zero _))
  · exact hfits.tail m hm

/-- An inode that `ialloc` has taken. -/
def newDinode (type : ℕ) : Dinode := { Dinode.zero with type := type }

theorem fits_newDinode (htype : type < 2 ^ 16) : (newDinode type).Fits where
  type := htype
  major := Nat.two_pow_pos 16
  minor := Nat.two_pow_pos 16
  nlink := Nat.two_pow_pos 16
  size := Nat.two_pow_pos 32
  addrs _ := Nat.two_pow_pos 32
  tail _ _ := rfl

/-- What `ialloc` does: it takes inode `i`. -/
structure Allocated (sb : SuperBlock) (s : Volume) (c : ℕ → List UInt8) (type i : ℕ) (t : Volume) : Prop where
  pos : 1 ≤ i
  lt : i < sb.ninodes
  free : (s.dinode sb i).type = 0
  replaced : Replaced sb s c i (newDinode type) [] t
  valid : t.valid = s.valid
  logged : t.logged = s.logged ++ [sb.iblock i]

theorem Consistent.allocated (h : Consistent sb s c) (hl : sb.Laid) (htype : type < 2 ^ 16) (hpos : 1 ≤ i)
    (hi : i < sb.ninodes) (hfree : (s.dinode sb i).type = 0) : Allocated sb s c type i
      (s.write (sb.iblock i) (putDinode i (newDinode type) (s.block (sb.iblock i)))) := by
  have hempty := h.free i hfree
  have hinvalid : s.valid i ≠ true := fun hv ↦ (h.cached i hv).2 hfree
  have hcontents : Contents sb s (Function.update (s.dinode sb) i (s.dinode sb i))
      (Function.update c i []) := by
    rw [Function.update_eq_self, ← hempty, Function.update_eq_self]
    exact h.contents
  exact ⟨hpos, hi, hfree, h.put hl hi hcontents (fun _ _ ↦ rfl) (fits_newDinode htype)
    (h.contents.addrs_eq_zero hempty (fits_dinode sb s i)).symm rfl (fun _ ↦ rfl)
    (fun hv ↦ absurd hv hinvalid) fun _ _ hv ↦ ⟨hv, rfl⟩, rfl, rfl⟩

theorem iallocFrom_ends (h : Consistent sb s c) (hl : sb.Laid) (htype : type < 2 ^ 16) (n : ℕ) {inum : ℕ}
    (hpos : 1 ≤ inum) (hn : inum + n ≤ sb.ninodes) : Ends (iallocFrom sb type n inum) s
      (fun i t ↦ Allocated sb s c type i t ∧ ∀ j, inum ≤ j → j < i → (s.dinode sb j).type ≠ 0)
      (fun e ↦ e = .panic "ialloc: no inodes" ∧
        ∀ j, inum ≤ j → j < inum + n → (s.dinode sb j).type ≠ 0) := by
  induction n generalizing inum with
  | zero => exact .throw ⟨rfl, fun j hj hlt ↦ by omega⟩
  | succ n ih =>
    have hi : inum < sb.ninodes := by omega
    have hdinode : s.dinode sb inum = .ofBytes (s.block (sb.iblock inum)) (slot inum) := if_pos hi
    refine .after (a := s.block (sb.iblock inum)) (t := s) rfl ?_
    rw [← hdinode]
    by_cases hfree : (s.dinode sb inum).type = 0
    · rw [if_pos hfree]
      exact .of_ok (a := inum) rfl ⟨h.allocated hl htype hpos hi hfree, fun j hj hlt ↦ by omega⟩
    · rw [if_neg hfree]
      have hfirst (j : ℕ) (hj : inum ≤ j) (hrest : inum + 1 ≤ j → (s.dinode sb j).type ≠ 0) :
          (s.dinode sb j).type ≠ 0 := by
        rcases Nat.eq_or_lt_of_le hj with rfl | hlt
        · exact hfree
        · exact hrest hlt
      refine (ih (Nat.le_succ_of_le hpos) (by omega)).weaken ?_ ?_
      · exact fun i t ⟨hallocated, hbefore⟩ ↦
          ⟨hallocated, fun j hj hlt ↦ hfirst j hj fun hj' ↦ hbefore j hj' hlt⟩
      · exact fun e ⟨he, hall⟩ ↦ ⟨he, fun j hj hlt ↦ hfirst j hj fun hj' ↦ hall j hj' (by omega)⟩

/-- `ialloc` takes the first free inode and panics if there is none. -/
theorem ialloc_ends (h : Consistent sb s c) (hl : sb.Laid) (htype : type < 2 ^ 16) :
    Ends (ialloc sb type) s
      (fun i t ↦ Allocated sb s c type i t ∧ ∀ j, 1 ≤ j → j < i → (s.dinode sb j).type ≠ 0)
      (fun e ↦ e = .panic "ialloc: no inodes" ∧
        ∀ j, 1 ≤ j → j < sb.ninodes → (s.dinode sb j).type ≠ 0) := by
  by_cases hnone : sb.ninodes = 0
  · rw [ialloc, hnone]
    exact .throw ⟨rfl, fun j _ hlt ↦ absurd hlt (Nat.not_lt_zero j)⟩
  · refine (iallocFrom_ends h hl htype (sb.ninodes - 1) le_rfl (by omega)).weaken (fun _ _ ↦ id) ?_
    exact fun e ⟨he, hall⟩ ↦ ⟨he, fun j hj hlt ↦ hall j hj (by omega)⟩

/-! ## The end of an inode -/

/-- An inode that has been freed. -/
def freedDinode (d : Dinode) : Dinode := { truncated d with type := 0 }

/-- The last reference to an inode without links is dropped. -/
theorem freeInode_ends (h : Consistent sb s c) (hl : sb.Laid) (hv : s.valid i = true) :
    Ends (freeInode sb i) s (fun _ t ↦ Replaced sb s c i (freedDinode (s.dinode sb i)) [] t ∧
      t.valid = Function.update s.valid i false ∧ LoggedIn s t (FreedIn sb i)) fun _ ↦ False := by
  refine (h.itrunc_ends hl hv).bind fun _ t ⟨hreplaced, hvalid, _, hlogged⟩ ↦ ?_
  obtain ⟨d, hd⟩ : ∃ d, d = freedDinode (s.dinode sb i) := ⟨_, rfl⟩
  have hold : t.dinode sb i = truncated (s.dinode sb i) := by
    rw [hreplaced.dinode, Function.update_self]
  have hip : t.icache i = truncated (s.dinode sb i) :=
    (hreplaced.consistent.cached i (hvalid ▸ hv)).1.trans hold
  obtain ⟨u, hu⟩ : ∃ u, u = { t.setInode i d with valid := Function.update t.valid i false } := ⟨_, rfl⟩
  have hfits : d.Fits := by
    have hfits := fits_truncated (fits_dinode sb s i)
    rw [hd]
    exact ⟨Nat.two_pow_pos 16, hfits.major, hfits.minor, hfits.nlink, hfits.size, hfits.addrs, hfits.tail⟩
  have hcontents : Contents sb u (Function.update (t.dinode sb) i (truncated (s.dinode sb i)))
      (Function.update (Function.update c i []) i []) := by
    rw [← hold, Function.update_eq_self, Function.update_idem, hu]
    exact hreplaced.consistent.contents.transfer (fun _ _ _ ↦ rfl) fun _ ↦ rfl
  have hself (hvalid' : u.valid i = true) : u.icache i = d ∧ d.type ≠ 0 := by
    rw [hu] at hvalid'
    exact absurd ((Function.update_self i false t.valid).symm.trans hvalid') Bool.false_ne_true
  have hothers (j : ℕ) (hj : j ≠ i) (hvalid' : u.valid j = true) :
      t.valid j = true ∧ u.icache j = t.icache j := by
    rw [hu] at hvalid' ⊢
    exact ⟨(Function.update_of_ne hj _ _).symm.trans hvalid', Function.update_of_ne hj _ _⟩
  have hput := hreplaced.consistent.put hl (h.lt_ninodes hv) hcontents (fun _ _ ↦ hu ▸ rfl) hfits
    (hd ▸ rfl) (hd ▸ rfl) (fun _ ↦ rfl) hself hothers
  refine .after (setIp_run i _ t) (.after (iupdate_run sb i _) (.of_ok (a := ())
    (t := u.write (sb.iblock i) (putDinode i d (u.block (sb.iblock i)))) ?_ ⟨⟨?_, ?_⟩, ?_, ?_⟩))
  · rw [hip, Volume.updated, Volume.setInode_self, hu, hd]
    rfl
  · have hconsistent := hput.consistent
    rwa [Function.update_idem] at hconsistent
  · rw [hput.dinode, hreplaced.dinode, Function.update_idem, ← hd]
  · rw [← hvalid, hu]
    rfl
  · have hwritten : LoggedIn s u (FreedIn sb i) := hu ▸ hlogged
    exact hwritten.write (.inl rfl) _

end CS537.Storage
