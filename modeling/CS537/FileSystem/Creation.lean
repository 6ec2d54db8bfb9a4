import CS537.FileSystem.Entries
import CS537.FileSystem.Open

/-!
# Inodes that are created

What a call of `create` that returns has done: it has taken a free inode and has written an entry
for it into the directory that `nameiparent` has found.
-/

namespace CS537.FileSystem

open Foundation

variable {fs : QuietState} {held : Multiset Inum} {locked : Finset Inum} {s t : FsState}

/-! ## Changed inodes -/

/-- The file system with another inode `i`. -/
def QuietState.setInode (fs : QuietState) (i : Inum) (ip : Inode) (htype : ip.type ≠ .free)
    (hdir : (fs.inode i).type = .dir → ip.type = .dir) (hlink : ip.nlink = 0 → i ∈ fs.refs) :
    QuietState where
  toFsState := { fs.toFsState with inode := Function.update fs.inode i ip }
  unlocked := fs.unlocked
  root_ref := fs.root_ref
  root_dir := by
    by_cases h : ROOTINO = i
    · subst h
      simpa using hdir fs.root_dir
    · simpa [Function.update_of_ne h] using fs.root_dir
  cwd_ref := fs.cwd_ref
  cwd_dir := by
    by_cases h : fs.cwd = i
    · subst h
      simpa using hdir fs.cwd_dir
    · simpa [Function.update_of_ne h] using fs.cwd_dir
  allocated j hj := by
    by_cases h : j = i
    · simpa [h] using htype
    · simpa [Function.update_of_ne h] using fs.allocated j hj
  inUse j hj hnlink := by
    by_cases h : j = i
    · subst h
      exact hlink (by simpa using hnlink)
    · simp only [Function.update_of_ne h] at hj hnlink
      exact fs.inUse j hj hnlink

section SetInode

variable {i : Inum} {ip : Inode} (htype : ip.type ≠ .free)
  (hdir : (fs.inode i).type = .dir → ip.type = .dir) (hlink : ip.nlink = 0 → i ∈ fs.refs)

@[simp]
theorem QuietState.setInode_self : (fs.setInode i ip htype hdir hlink).inode i = ip := by
  simp [setInode]

theorem QuietState.setInode_of_ne {j : Inum} (hj : j ≠ i) :
    (fs.setInode i ip htype hdir hlink).inode j = fs.inode j := by
  simp [setInode, Function.update_of_ne hj]

theorem Holds.setInode (hs : Holds fs held locked s) :
    Holds (fs.setInode i ip htype hdir hlink) held locked
      { s with inode := Function.update s.inode i ip } where
  inode := by rw [hs.inode]; rfl
  refs := hs.refs
  locks := hs.locks
  valid j hj := by
    by_cases h : j = i
    · rw [h, QuietState.setInode_self]
      exact htype
    · rw [QuietState.setInode_of_ne htype hdir hlink h]
      exact hs.valid j hj
  cwd := hs.cwd

end SetInode

/-- The file system after bytes have been written to an inode. -/
def QuietState.writeInode (fs : QuietState) (i : Inum) (off : ℕ) (src : List UInt8)
    (hoff : off ≤ (fs.inode i).size) (hmax : off + src.length ≤ MAXFILE * BSIZE)
    (hlive : (fs.inode i).type ≠ .free) : QuietState :=
  fs.setInode i ((fs.inode i).write off src hoff hmax) hlive id (fs.inUse i hlive)

section WriteInode

variable {i : Inum} {off : ℕ} {src : List UInt8} {hoff : off ≤ (fs.inode i).size}
  {hmax : off + src.length ≤ MAXFILE * BSIZE} {hlive : (fs.inode i).type ≠ .free}

theorem QuietState.writeInode_self :
    (fs.writeInode i off src hoff hmax hlive).inode i = (fs.inode i).write off src hoff hmax :=
  QuietState.setInode_self _ _ _

theorem QuietState.writeInode_of_ne {j : Inum} (hj : j ≠ i) :
    (fs.writeInode i off src hoff hmax hlive).inode j = fs.inode j :=
  QuietState.setInode_of_ne _ _ _ hj

end WriteInode

/-- A state in which nothing is held or locked is one between two system calls. -/
def Holds.quiet (h : Holds fs 0 ∅ s) : QuietState where
  toFsState := s
  unlocked := h.locks
  root_ref := by
    rw [h.refs, Multiset.zero_add]
    exact fs.root_ref
  root_dir := by rw [h.inode]; exact fs.root_dir
  cwd_ref := by
    rw [h.refs, Multiset.zero_add, h.cwd]
    exact fs.cwd_ref
  cwd_dir := by rw [h.inode, h.cwd]; exact fs.cwd_dir
  allocated i hi := by
    rw [h.inode]
    exact h.valid i hi
  inUse i hi hnlink := by
    rw [h.inode] at hi hnlink
    rw [h.refs, Multiset.zero_add]
    exact fs.inUse i hi hnlink

/-! ## What the functions have done when they return -/

section Inversion

variable {i j : Inum} {ninodes off n : ℕ} {type : InodeType} {src : List UInt8}

theorem writei_of_ok (hrun : writei i src off s = .ok (some n, t)) :
    ∃ hoff hmax, n = src.length ∧ t = { s with
      inode := Function.update s.inode i ((s.inode i).write off src hoff hmax) } := by
  unfold writei at hrun
  split at hrun
  · cases hrun
  · next hoff =>
    split at hrun
    · cases hrun
    · next hmax =>
      obtain ⟨hn, rfl⟩ := Prod.mk.inj (Except.ok.inj hrun)
      exact ⟨Nat.le_of_not_lt (not_or.mp hoff).1, Nat.le_of_not_lt hmax,
        (Option.some.inj hn).symm, rfl⟩

theorem writei_holds (hs : Holds fs held locked s) (hlive : (fs.inode i).type ≠ .free)
    (hrun : writei i src off s = .ok (some n, t)) :
    n = src.length ∧
      ∃ hoff hmax, Holds (fs.writeInode i off src hoff hmax hlive) held locked t := by
  obtain ⟨hoff, hmax, hn, rfl⟩ := writei_of_ok hrun
  have hoff' : off ≤ (fs.inode i).size := by rwa [← hs.inode]
  have hwrite : (s.inode i).write off src hoff hmax = (fs.inode i).write off src hoff' hmax := by
    simp only [hs.inode]
  refine ⟨hn, hoff', hmax, ?_⟩
  rw [hwrite, QuietState.writeInode]
  exact hs.setInode _ _ _

theorem ilock_of_ok (hrun : ilock (some i) s = .ok (j, t)) :
    j = i ∧ t = { s with
      locks := insert i s.locks
      valid := Function.update s.valid i true } := by
  simp only [ilock] at hrun
  split at hrun
  · cases hrun
  · split at hrun
    · cases hrun
    · split at hrun
      · cases hrun
      · obtain ⟨rfl, rfl⟩ := Prod.mk.inj (Except.ok.inj hrun)
        exact ⟨rfl, rfl⟩

theorem iget_of_ok (hrun : iget i s = .ok (j, t)) :
    j = i ∧ (0 < s.ref i ∨ s.cached.card < NINODE) ∧ t = { s with
      refs := i ::ₘ s.refs
      valid := t.valid } ∧ ∀ k, t.valid k = true → s.valid k = true := by
  unfold iget at hrun
  split at hrun
  · next hcached =>
    obtain ⟨rfl, rfl⟩ := Prod.mk.inj (Except.ok.inj hrun)
    exact ⟨rfl, .inl hcached, rfl, fun k hk ↦ hk⟩
  · split at hrun
    · next hroom =>
      obtain ⟨rfl, rfl⟩ := Prod.mk.inj (Except.ok.inj hrun)
      refine ⟨rfl, .inr hroom, rfl, fun k hk ↦ ?_⟩
      by_cases hki : k = i
      · simp [hki] at hk
      · simpa [Function.update_of_ne hki] using hk
    · exact nomatch hrun

/-- The inode numbers are those of directory entries. -/
theorem ialloc_of_ok (hninodes : ninodes ≤ 65536) (hrun : ialloc ninodes type s = .ok (i, t)) :
    i ≠ 0 ∧ (s.inode i).type = .free ∧
      iget i { s with inode := Function.update s.inode i (newInode type) } = .ok (i, t) := by
  unfold ialloc at hrun
  split at hrun
  · exact nomatch hrun
  · next inum hfind =>
    obtain ⟨rfl, -, -, -⟩ := iget_of_ok hrun
    have hmem := List.mem_range'_1.mp (List.mem_of_find?_eq_some hfind)
    have hfree := List.find?_some hfind
    refine ⟨fun hzero ↦ ?_, by simpa using hfree, hrun⟩
    have hval : inum % 65536 = 0 := congrArg Fin.val hzero
    omega

theorem dirlookup_of_ok_none {dp : Inum} {name : List UInt8} (hdir : (s.inode dp).type = .dir)
    (hrun : dirlookup dp name s = .ok (none, t)) :
    (s.inode dp).lookup (nameOf name) = none ∧ (s.inode dp).Whole ∧ t = s := by
  rw [dirlookup_eq name hdir] at hrun
  split at hrun
  · obtain ⟨ip, u, -, hret⟩ := exists_of_bind_ok hrun
    cases (Prod.mk.inj (Except.ok.inj hret)).1
  · next hnone =>
    split at hrun
    · next hwhole =>
      exact ⟨by rw [Inode.lookup, hnone]; rfl, hwhole,
        (Prod.mk.inj (Except.ok.inj hrun)).2.symm⟩
    · cases hrun

end Inversion

/-! ## Entries -/

section Entries

variable {dp i : Inum} {name : List UInt8} {b : Bool}

/-- `dirlink` has written an entry for a name that the directory did not have. -/
theorem dirlink_holds (hs : Holds fs held locked s) (hdir : (fs.inode dp).type = .dir)
    (hnone : (fs.inode dp).lookup (nameOf name) = none) (hwhole : (fs.inode dp).Whole)
    (hrun : dirlink dp name i s = .ok (b, t)) :
    b = true ∧ ∃ k hoff hmax, (fs.inode dp).Vacant k ∧
      Holds (fs.writeInode dp (k * sizeofDirent) (direntBytes i name) hoff hmax (dir_live hdir))
        held locked t := by
  obtain ⟨s₁, hlookup, hs₁⟩ := @dirlookup_returns_none fs held locked dp name hdir hnone hwhole s hs
  have hplace : (s₁.inode dp).Whole := by rwa [hs₁.inode]
  obtain ⟨k, hempty, hvacant⟩ := exists_emptyDirent hplace
  rw [hs₁.inode] at hvacant
  rw [dirlink, bind_of_ok hlookup] at hrun
  simp only [bind_of_ok hempty] at hrun
  obtain ⟨n, s₂, hwrite, hrun⟩ := exists_of_bind_ok hrun
  cases n with
  | none => exact nomatch hrun
  | some n =>
    obtain ⟨rfl, hoff, hmax, hs₂⟩ := writei_holds hs₁ (dir_live hdir) hwrite
    simp only [length_direntBytes, ne_eq, not_true_eq_false, if_false] at hrun
    obtain ⟨rfl, rfl⟩ := Prod.mk.inj (Except.ok.inj hrun)
    exact ⟨rfl, k, hoff, hmax, hvacant, hs₂⟩

end Entries

/-! ## New inodes -/

section New

variable {ninodes : ℕ} {type : InodeType} {dp i j : Inum} {name : List UInt8}

/-- The state `ts` has a new inode `i` with an entry in the directory `dp`. -/
structure Created (fs : QuietState) (dp : Inum) (name : List UInt8) (i : Inum) (new : Inode)
    (ts : QuietState) : Prop where
  free : (fs.inode i).type = .free
  room : fs.HasRoom (dp ::ₘ 0) i
  refs : ts.refs = fs.refs
  cwd : ts.cwd = fs.cwd
  new : ts.inode i = new
  dir : (ts.inode dp).type = .dir
  dir_before : (fs.inode dp).type = .dir
  lookup_self : (ts.inode dp).lookup (nameOf name) = some i
  lookup_none : (fs.inode dp).lookup (nameOf name) = none
  lookup_of_ne : ∀ c, nameOf name ≠ c → (ts.inode dp).lookup c = (fs.inode dp).lookup c
  others : ∀ j, j ≠ i → j ≠ dp → ts.inode j = fs.inode j

/-- The first three steps of `createNew`. -/
theorem ialloc_holds (hninodes : ninodes ≤ 65536) (htype : type ≠ .free)
    (hs : Holds fs held locked s)
    (hrun : (do
      let ip ← ialloc ninodes type
      let ip ← ilock (some ip)
      update ip fun ip ↦ ip.setNlink 1
      return ip : Kernel Inum) s = .ok (i, t)) :
    i ≠ 0 ∧ (fs.inode i).type = .free ∧ fs.HasRoom held i ∧ ∃ hlive hdir hlink,
      Holds (fs.setInode i ((newInode type).setNlink 1) hlive hdir hlink) (i ::ₘ held)
        (insert i locked) t := by
  obtain ⟨i', s₁, halloc, hrun⟩ := exists_of_bind_ok hrun
  obtain ⟨j, s₂, hlock, hrun⟩ := exists_of_bind_ok hrun
  obtain ⟨⟨⟩, s₃, hupdate, hret⟩ := exists_of_bind_ok hrun
  obtain ⟨rfl, rfl⟩ := Prod.mk.inj (Except.ok.inj hret)
  obtain ⟨rfl, rfl⟩ := ilock_of_ok hlock
  obtain ⟨hzero, hfree, hget⟩ := ialloc_of_ok hninodes halloc
  obtain ⟨-, hroom, hs₁, hvalid⟩ := iget_of_ok hget
  obtain ⟨-, rfl⟩ := Prod.mk.inj (Except.ok.inj hupdate)
  rw [hs.inode] at hfree
  have hinode : s₁.inode = Function.update fs.inode j (newInode type) := by
    rw [congrArg FsState.inode hs₁, ← hs.inode]
  have hrefs : s₁.refs = (j ::ₘ held) + fs.refs := by
    rw [congrArg FsState.refs hs₁, Multiset.cons_add, ← hs.refs]
  have hlive : ((newInode type).setNlink 1).type ≠ .free := htype
  refine ⟨hzero, hfree, ?_, hlive, by simp [hfree], by simp [Inode.setNlink], ?_⟩
  · rcases hroom with hcached | hcard
    · left
      rwa [← hs.refs, ← Multiset.count_pos]
    · right
      rwa [← hs.refs]
  · refine ⟨?_, hrefs, ?_, fun k hk ↦ ?_, ?_⟩
    · simp [hinode, QuietState.setInode]
    · rw [congrArg FsState.locks hs₁, ← hs.locks]
    · change (Function.update fs.inode j _ k).type ≠ .free
      by_cases hkj : k = j
      · rwa [hkj, Function.update_self]
      · rw [Function.update_of_ne hkj]
        simp only [Function.update_of_ne hkj] at hk
        exact hs.valid k (hvalid k hk)
    · rw [congrArg FsState.cwd hs₁]
      exact hs.cwd

/-- A new inode and an entry for it. -/
theorem Created.of_write {new : Inode} {k : ℕ} {hnew hdirNew hlinkNew}
    {hoff : k * sizeofDirent ≤ ((fs.setInode i new hnew hdirNew hlinkNew).inode dp).size} {hmax}
    {hdir : ((fs.setInode i new hnew hdirNew hlinkNew).inode dp).type ≠ .free}
    (hzero : i ≠ 0) (hfree : (fs.inode i).type = .free) (hroom : fs.HasRoom (dp ::ₘ 0) i)
    (hne : dp ≠ i) (hbefore : (fs.inode dp).type = .dir) (hwhole : (fs.inode dp).Whole)
    (hvacant : (fs.inode dp).Vacant k) (hnone : (fs.inode dp).lookup (nameOf name) = none) :
    Created fs dp name i new ((fs.setInode i new hnew hdirNew hlinkNew).writeInode dp
      (k * sizeofDirent) (direntBytes i name) hoff hmax hdir) := by
  have hsame : (fs.setInode i new hnew hdirNew hlinkNew).inode dp = fs.inode dp :=
    QuietState.setInode_of_ne hnew hdirNew hlinkNew hne
  have hwritten : ((fs.setInode i new hnew hdirNew hlinkNew).writeInode dp
      (k * sizeofDirent) (direntBytes i name) hoff hmax hdir).inode dp =
      (fs.inode dp).write (k * sizeofDirent) (direntBytes i name) (hsame ▸ hoff) hmax := by
    rw [QuietState.writeInode_self]
    simp only [hsame]
  refine ⟨hfree, hroom, rfl, rfl, ?_, ?_, hbefore, ?_, hnone, ?_, ?_⟩
  · rw [QuietState.writeInode_of_ne hne.symm, QuietState.setInode_self]
  · rw [hwritten]
    exact hbefore
  · rw [hwritten, Inode.lookup_write_self _ _ hwhole hzero hvacant hnone]
  · intro c hc
    rw [hwritten, Inode.lookup_write_of_ne _ _ hwhole hzero hvacant hc]
  · intro j hji hjdp
    rw [QuietState.writeInode_of_ne hjdp, QuietState.setInode_of_ne _ _ _ hji]

theorem createNew_holds (hninodes : ninodes ≤ 65536) (hfile : type ≠ .dir) (htype : type ≠ .free)
    (hs : Holds fs (dp ::ₘ 0) (insert dp ∅) s) (hdir : (fs.inode dp).type = .dir)
    (hnone : (fs.inode dp).lookup (nameOf name) = none) (hwhole : (fs.inode dp).Whole)
    (hrun : createNew ninodes dp name type s = .ok (i, t)) :
    ∃ ts, Created fs dp name i ((newInode type).setNlink 1) ts ∧
      Holds ts (i ::ₘ 0) (insert i ∅) t := by
  obtain ⟨i', s₁, halloc, hrun⟩ := exists_of_bind_ok hrun
  obtain ⟨j, s₂, hlock, hrun⟩ := exists_of_bind_ok hrun
  obtain ⟨⟨⟩, s₃, hupdate, hrun⟩ := exists_of_bind_ok hrun
  simp only [if_neg hfile] at hrun
  have hfirst := @ialloc_holds fs _ _ s s₃ ninodes type j hninodes htype hs (by
    rw [bind_of_ok halloc, bind_of_ok hlock, bind_of_ok hupdate]
    rfl)
  obtain ⟨hzero, hfree, hroom, hlive₃, hdir₃, hlink₃, hs₃⟩ := hfirst
  have hne : dp ≠ j := by
    rintro rfl
    simp [hdir] at hfree
  have hsame : (fs.setInode j _ hlive₃ hdir₃ hlink₃).inode dp = fs.inode dp :=
    QuietState.setInode_of_ne hlive₃ hdir₃ hlink₃ hne
  rw [← hsame] at hdir hnone hwhole
  obtain ⟨b, s₄, hdirlink, hrun⟩ := exists_of_bind_ok hrun
  obtain ⟨rfl, k, hoff, hmax, hvacant, hs₄⟩ := dirlink_holds hs₃ hdir hnone hwhole hdirlink
  rw [Multiset.cons_swap, Finset.insert_comm] at hs₄
  have hcreated := @Created.of_write fs dp j name _ k hlive₃ hdir₃ hlink₃ hoff hmax (dir_live hdir)
    hzero hfree hroom hne (hsame ▸ hdir) (hsame ▸ hwhole) (hsame ▸ hvacant) (hsame ▸ hnone)
  obtain ⟨u, hput, hu⟩ := iunlockput_returns (by simpa using hne) (dir_live hcreated.dir) s₄ hs₄
  simp only [Bool.not_true, Bool.false_eq_true, if_false, bind_of_ok hput] at hrun
  obtain ⟨rfl, rfl⟩ := Prod.mk.inj (Except.ok.inj hrun)
  exact ⟨_, hcreated, hu⟩

end New

end CS537.FileSystem
