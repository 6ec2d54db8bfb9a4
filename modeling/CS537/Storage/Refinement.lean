import CS537.Storage.Calls

/-!
# The inode layer and the files

Each call over the blocks does what the call over the files does: it returns the same, and fails in the
same way, except that it fails on a disk without blocks left.
-/

namespace CS537.Storage

open Foundation
open FileSystem (Inum InodeType Inode FsState Fault NINODE)
open FsCheck (BSIZE)
open Mkfs (Dinode MAXFILE)

/-! ## Files on the blocks -/

/-- The content of the files. -/
def contents (inode : Inum → Inode) (j : ℕ) : List UInt8 :=
  if h : j < 65536 then (inode ⟨j, h⟩).content else []

/-- The blocks hold the files. -/
structure Files (sb : SuperBlock) (v : Volume) (inode : Inum → Inode) : Prop where
  consistent : Consistent sb v (contents inode)
  type : ∀ i : Inum, (v.dinode sb i).type = typeCode (inode i).type
  nlink : ∀ i : Inum, (v.dinode sb i).nlink = (inode i).nlink

/-- The inode cache and the files. -/
structure Represents (sb : SuperBlock) (s : Cache) (fs : FsState) : Prop where
  files : Files sb s.volume fs.inode
  valid : ∀ i : Inum, s.volume.valid i = fs.valid i
  refs : s.refs = fs.refs
  locks : s.locks = fs.locks
  exists_of_ref : ∀ i : Inum, 0 < fs.ref i → (i : ℕ) < sb.ninodes
  of_locked : ∀ i ∈ fs.locks, 0 < fs.ref i ∧ fs.valid i = true

/-- The failures of the two levels. -/
def fault : Stop → Fault
  | .panic msg => .panic msg
  | .deadlock => .deadlock

/-- A write fails on a disk without blocks left. -/
def WriteOutOfBlocks (call : Call) (e : Stop) : Prop :=
  OutOfBlocks e ∧ ∃ ip src off, call = .writei ip src off

variable {sb : SuperBlock} {s : Cache} {fs : FsState} {v w : Volume} {inode : Inum → Inode} {i j : Inum}
  {x : Inode} {d : Dinode} {l src : List UInt8} {off n major minor nlink : ℕ} {call : Call} {E : Stop → Prop}

theorem contents_val (inode : Inum → Inode) (i : Inum) : contents inode i = (inode i).content :=
  dif_pos i.isLt

theorem contents_update (inode : Inum → Inode) (i : Inum) (x : Inode) :
    contents (Function.update inode i x) = Function.update (contents inode) i x.content := by
  funext j
  by_cases hj : j = i
  · rw [hj, Function.update_self, contents_val, Function.update_self]
  · rw [Function.update_of_ne hj, contents, contents]
    by_cases hlt : j < 65536
    · rw [dif_pos hlt, dif_pos hlt, Function.update_of_ne fun heq ↦ hj (congrArg Fin.val heq)]
    · rw [dif_neg hlt, dif_neg hlt]

theorem typeCode_eq_zero {type : InodeType} : typeCode type = 0 ↔ type = .free := by
  cases type <;> decide

theorem typeCode_lt (type : InodeType) : typeCode type < 2 ^ 16 := by
  cases type <;> decide

namespace Files

theorem replaced (h : Files sb v inode) (hr : Replaced sb v (contents inode) i d l w)
    (hcontent : x.content = l) (htype : d.type = typeCode x.type) (hnlink : d.nlink = x.nlink) :
    Files sb w (Function.update inode i x) where
  consistent := by
    rw [contents_update, hcontent]
    exact hr.consistent
  type j := by
    rw [hr.dinode]
    by_cases hj : j = i
    · rw [hj, Function.update_self, Function.update_self, htype]
    · rw [Function.update_of_ne hj, Function.update_of_ne fun heq ↦ hj (Fin.val_injective heq), h.type]
  nlink j := by
    rw [hr.dinode]
    by_cases hj : j = i
    · rw [hj, Function.update_self, Function.update_self, hnlink]
    · rw [Function.update_of_ne hj, Function.update_of_ne fun heq ↦ hj (Fin.val_injective heq), h.nlink]

/-- Bytes have been written to an inode. -/
theorem written (h : Files sb v inode) (hw : Written sb v (contents inode) i off src w)
    (hoff : off ≤ (inode i).size) (hmax : off + src.length ≤ FileSystem.MAXFILE * FileSystem.BSIZE) :
    Files sb w (Function.update inode i ((inode i).write off src hoff hmax)) where
  consistent := by
    rw [contents_update]
    have hconsistent := hw.consistent
    rwa [contents_val] at hconsistent
  type j := by
    have htype : (w.dinode sb j).type = (v.dinode sb j).type := congrArg Prod.fst (hw.attributes j)
    rw [htype, h.type]
    by_cases hj : j = i
    · rw [hj, Function.update_self]
      rfl
    · rw [Function.update_of_ne hj]
  nlink j := by
    have hnlink : (w.dinode sb j).nlink = (v.dinode sb j).nlink :=
      congrArg (fun a : ℕ × ℕ × ℕ × ℕ ↦ a.2.2.2) (hw.attributes j)
    rw [hnlink, h.nlink]
    by_cases hj : j = i
    · rw [hj, Function.update_self]
      rfl
    · rw [Function.update_of_ne hj]

end Files

namespace Represents

variable (h : Represents sb s fs)
include h

theorem ref_eq (i : Inum) : s.ref i = fs.ref i := by
  rw [Cache.ref, FsState.ref, h.refs]

/-- A lock is taken by a reference to an inode in memory. -/
theorem valid_of_locked (hi : i ∈ fs.locks) : s.volume.valid i = true := by
  rw [h.valid]
  exact (h.of_locked i hi).2

end Represents

/-! ## References and locks -/

theorem onVolume_of_ok {α : Type} {m : Kernel α} {a : α} (h : m s.volume = .ok (a, v)) :
    Cache.onVolume m s = .ok (a, { s with volume := v }) := by
  rw [Cache.onVolume, h]

theorem onVolume_ends {α : Type} {m : Kernel α} {Q : α → Volume → Prop} {E : Stop → Prop}
    (h : Ends m s.volume Q E) :
    Ends (Cache.onVolume m) s (fun a t ↦ ∃ v, Q a v ∧ t = { s with volume := v }) E := by
  cases hrun : m s.volume with
  | error e => exact .of_error (by rw [Cache.onVolume, hrun]) (h.2 e hrun)
  | ok r => exact .of_ok (onVolume_of_ok hrun) ⟨r.2, h.1 r.1 r.2 hrun, rfl⟩

/-- An inode in memory is no longer valid. -/
theorem Consistent.recycled {c : ℕ → List UInt8} (h : Consistent sb v c) (i : ℕ) :
    Consistent sb { v with valid := Function.update v.valid i false } c := by
  refine ⟨h.contents.transfer (fun _ _ _ ↦ rfl) fun _ ↦ rfl, h.size, h.free, fun j hj ↦ h.cached j ?_⟩
  have hji : j ≠ i := by
    rintro rfl
    exact Bool.false_ne_true ((Function.update_self j false v.valid).symm.trans hj)
  exact (Function.update_of_ne hji _ _).symm.trans hj

theorem valid_update {valid : ℕ → Bool} {valid' : Inum → Bool} (h : ∀ i : Inum, valid i = valid' i)
    (i : Inum) (b : Bool) (j : Inum) :
    Function.update valid i b j = Function.update valid' i b j := by
  by_cases hj : j = i
  · rw [hj, Function.update_self, Function.update_self]
  · rw [Function.update_of_ne fun heq ↦ hj (Fin.val_injective heq), Function.update_of_ne hj, h]

section

variable (h : Represents sb s fs)
include h

/-- A reference to an inode that exists. -/
theorem Represents.cons_ref (hi : (i : ℕ) < sb.ninodes) :
    Represents sb { s with refs := i ::ₘ s.refs } { fs with refs := i ::ₘ fs.refs } where
  files := h.files
  valid := h.valid
  refs := by rw [h.refs]
  locks := h.locks
  exists_of_ref j hj := by
    by_cases hji : j = i
    · rw [hji]
      exact hi
    · exact h.exists_of_ref j (by rwa [FsState.ref, Multiset.count_cons_of_ne hji] at hj)
  of_locked j hj := ⟨(h.of_locked j hj).1.trans_le (Multiset.count_le_count_cons j i fs.refs),
    (h.of_locked j hj).2⟩

theorem iget_matches (hi : (i : ℕ) < sb.ninodes) :
    Matches (Represents sb) E fault (Cache.iget i) (FileSystem.iget i) s fs := by
  have hcached : s.refs.toFinset = fs.cached := by rw [h.refs, FsState.cached]
  by_cases href : 0 < fs.ref i
  · refine .of_ok (a := i) (if_pos ?_) (if_pos href) (h.cons_ref hi)
    rwa [h.ref_eq]
  · have href' : ¬0 < s.ref i := by rwa [h.ref_eq]
    by_cases hroom : fs.cached.card < FileSystem.NINODE
    · have hroom' : s.refs.toFinset.card < FileSystem.NINODE := by rwa [hcached]
      have hnext := h.cons_ref hi
      refine .of_ok (a := i) ((if_neg href').trans (if_pos hroom')) ((if_neg href).trans (if_pos hroom))
        ⟨⟨h.files.consistent.recycled i, h.files.type, h.files.nlink⟩, valid_update h.valid i false,
          hnext.refs, hnext.locks, hnext.exists_of_ref, fun j hj ↦ ?_⟩
      have hji : j ≠ i := by
        rintro rfl
        exact href (h.of_locked j hj).1
      exact ⟨(hnext.of_locked j hj).1, (Function.update_of_ne hji _ _).trans (h.of_locked j hj).2⟩
    · have hroom' : ¬s.refs.toFinset.card < FileSystem.NINODE := by rwa [hcached]
      exact .of_error ((if_neg href').trans (if_neg hroom')) ((if_neg href).trans (if_neg hroom))

theorem idup_matches (hi : i ∈ fs.refs) :
    Matches (Represents sb) E fault (Cache.idup i) (FileSystem.idup i) s fs :=
  .of_ok rfl rfl (h.cons_ref (h.exists_of_ref i (Multiset.count_pos.mpr hi)))

/-- `ilock` returns the inode that it has locked. -/
theorem ilock_matches (hi : i ∈ fs.refs) : Matches (Represents sb) E fault
    ((Call.ilock i).onBlocks sb) ((Call.ilock i).onFiles sb.ninodes) s fs := by
  have href : ¬fs.ref i < 1 := Nat.not_lt.mpr (Multiset.count_pos.mpr hi)
  have href' : ¬s.ref i < 1 := by rwa [h.ref_eq]
  have hexists := h.exists_of_ref i (Multiset.count_pos.mpr hi)
  by_cases hlock : i ∈ fs.locks
  · have hlock' : i ∈ s.locks := by rwa [h.locks]
    have hblocks : Cache.ilock sb i s = .error .deadlock := by
      rw [Cache.ilock]
      refine (bind_of_ok (a := s) (t := s) rfl).trans ?_
      rw [if_neg href', if_pos hlock']
      rfl
    have hfiles : FileSystem.ilock (some i) fs = .error .deadlock :=
      (if_neg href).trans (if_pos hlock)
    exact .of_error (bind_of_error hblocks) (bind_of_error hfiles)
  · have hlock' : i ∉ s.locks := by rwa [h.locks]
    have hfiles : FileSystem.ilock (some i) fs = if fs.valid i = false ∧ (fs.inode i).type = .free then
        .error (.panic "ilock: no type")
      else .ok (i, { fs with
        locks := insert i fs.locks
        valid := Function.update fs.valid i true }) := (if_neg href).trans (if_neg hlock)
    have hblocks : Ends (Cache.ilock sb i) s (fun _ t ↦ ∃ v, (Files sb v fs.inode ∧
        (fs.inode i).type ≠ .free ∧ v.valid = Function.update s.volume.valid i true) ∧
          t = { s with
            volume := v
            locks := insert i s.locks })
        fun e ↦ e = .panic "ilock: no type" ∧ fs.valid i = false ∧ (fs.inode i).type = .free := by
      refine .after (a := s) (t := s) rfl ?_
      rw [if_neg href', if_neg hlock']
      have hends := onVolume_ends (ilock_ends h.files.consistent hexists)
      refine (hends.weaken (fun _ _ ↦ id) fun e ⟨he, hvalid, htype⟩ ↦ ?_).bind ?_
      · intro _ t ⟨v, ⟨htype, hconsistent, hdinode, hvalid, _⟩, ht⟩
        rw [h.files.type, ne_eq, typeCode_eq_zero] at htype
        subst ht
        refine .of_ok rfl ⟨v, ⟨⟨hconsistent, ?_, ?_⟩, htype, hvalid⟩, rfl⟩
        · exact fun j ↦ by rw [hdinode, h.files.type]
        · exact fun j ↦ by rw [hdinode, h.files.nlink]
      · rw [h.files.type, typeCode_eq_zero] at htype
        exact ⟨he, (h.valid i).symm.trans hvalid, htype⟩
    refine (hblocks.weaken (fun _ _ ↦ id) fun e ⟨he, hfree⟩ ↦ .inr ?_).bind ?_
    · intro _ t ⟨v, ⟨hfs, htype, hvalid⟩, ht⟩
      subst ht
      refine .of_ok rfl ⟨_, bind_of_ok (hfiles.trans (if_neg fun hfree ↦ htype hfree.2)), hfs, ?_, h.refs,
        congrArg (insert i) h.locks, h.exists_of_ref, fun j hj ↦ ?_⟩
      · rw [hvalid]
        exact valid_update h.valid i true
      · by_cases hji : j = i
        · rw [hji]
          exact ⟨Multiset.count_pos.mpr hi, Function.update_self _ _ _⟩
        · have hlocked := h.of_locked j (Finset.mem_of_mem_insert_of_ne hj hji)
          exact ⟨hlocked.1, (Function.update_of_ne hji _ _).trans hlocked.2⟩
    · rw [he]
      exact bind_of_error (hfiles.trans (if_pos hfree))

theorem iunlock_matches :
    Matches (Represents sb) E fault (Cache.iunlock i) (FileSystem.iunlock i) s fs := by
  have hcond : (i ∉ s.locks ∨ s.ref i < 1) ↔ (i ∉ fs.locks ∨ fs.ref i < 1) := by
    rw [h.locks, h.ref_eq]
  by_cases hno : i ∉ fs.locks ∨ fs.ref i < 1
  · exact .of_error (if_pos (hcond.mpr hno)) (if_pos hno)
  · exact .of_ok (if_neg (mt hcond.mp hno)) (if_neg hno) ⟨h.files, h.valid, h.refs,
      congrArg (fun locks ↦ locks.erase i) h.locks, h.exists_of_ref,
      fun j hj ↦ h.of_locked j (Finset.mem_of_mem_erase hj)⟩

/-! ## Inodes -/

/-- A reference to an inode that is not locked is dropped. -/
theorem Represents.erase_ref (hlock : i ∉ fs.locks) :
    Represents sb { s with refs := s.refs.erase i } { fs with refs := fs.refs.erase i } where
  files := h.files
  valid := h.valid
  refs := by rw [h.refs]
  locks := h.locks
  exists_of_ref j hj := h.exists_of_ref j (hj.trans_le (Multiset.count_le_of_le j (Multiset.erase_le i fs.refs)))
  of_locked j hj := by
    have hji : j ≠ i := by
      rintro rfl
      exact hlock hj
    refine ⟨?_, (h.of_locked j hj).2⟩
    rw [FsState.ref, Multiset.count_erase_of_ne hji]
    exact (h.of_locked j hj).1

theorem iput_matches (hl : sb.Laid) :
    Matches (Represents sb) E fault (Cache.iput sb i) (FileSystem.iput i) s fs := by
  by_cases hlock : i ∈ fs.locks
  · have hlock' : i ∈ s.locks := by rwa [h.locks]
    have hblocks : Cache.iput sb i s = .error .deadlock := by
      rw [Cache.iput]
      refine (bind_of_ok (a := s) (t := s) rfl).trans ?_
      rw [if_pos hlock']
      rfl
    exact .of_error hblocks (if_pos hlock)
  · have hlock' : i ∉ s.locks := by rwa [h.locks]
    have hcond : (s.volume.valid i = true ∧ (s.volume.icache i).nlink = 0 ∧ s.ref i = 1) ↔
        (fs.valid i = true ∧ (fs.inode i).nlink = 0 ∧ fs.ref i = 1) := by
      rw [← h.valid, h.ref_eq]
      refine and_congr_right fun hv ↦ ?_
      rw [(h.files.consistent.cached i hv).1, h.files.nlink]
    refine .after (a := s) (t := s) rfl ?_
    rw [if_neg hlock']
    by_cases hfree : fs.valid i = true ∧ (fs.inode i).nlink = 0 ∧ fs.ref i = 1
    · rw [if_pos (hcond.mpr hfree)]
      have hv : s.volume.valid i = true := (h.valid i).trans hfree.1
      refine ((onVolume_ends (freeInode_ends h.files.consistent hl hv)).weaken (fun _ _ ↦ id)
        fun _ he ↦ he.elim).bind fun _ t ⟨v, ⟨hreplaced, hvalid, _⟩, ht⟩ ↦ ?_
      subst ht
      have hnext := h.erase_ref hlock
      refine .of_ok rfl ⟨_, (if_neg hlock).trans (if_pos hfree), ?_, ?_, hnext.refs, hnext.locks,
        hnext.exists_of_ref, fun j hj ↦ ?_⟩
      · exact h.files.replaced hreplaced rfl rfl (h.files.nlink i)
      · rw [hvalid]
        exact valid_update h.valid i false
      · have hji : j ≠ i := by
          rintro rfl
          exact hlock hj
        exact ⟨(hnext.of_locked j hj).1, (Function.update_of_ne hji _ _).trans (h.of_locked j hj).2⟩
    · rw [if_neg (mt hcond.mp hfree)]
      exact .of_ok rfl ⟨_, (if_neg hlock).trans (if_neg hfree), h.erase_ref hlock⟩

theorem ialloc_matches (hl : sb.Laid) (hninodes : sb.ninodes ≤ 65536) (type : InodeType) :
    Matches (Represents sb) E fault (Cache.ialloc sb (typeCode type))
      (FileSystem.ialloc sb.ninodes type) s fs := by
  have hfree (k : ℕ) (hk : k < sb.ninodes) : decide ((fs.inode (Fin.ofNat 65536 k)).type = .free) = true ↔
      (s.volume.dinode sb k).type = 0 := by
    have hval : ((Fin.ofNat 65536 k : Inum) : ℕ) = k := Nat.mod_eq_of_lt (hk.trans_le hninodes)
    have htype := h.files.type (Fin.ofNat 65536 k)
    rw [hval] at htype
    rw [htype, typeCode_eq_zero, decide_eq_true_eq]
  have hused (k : ℕ) (hk : k < sb.ninodes) (htype : (s.volume.dinode sb k).type ≠ 0) :
      (!decide ((fs.inode (Fin.ofNat 65536 k)).type = .free)) = true := by
    rw [Bool.eq_false_of_not_eq_true (mt (hfree k hk).mp htype)]
    rfl
  have hends := onVolume_ends (ialloc_ends h.files.consistent hl (typeCode_lt type))
  refine Ends.bind (Q := fun k t ↦ ∃ v, (Allocated sb s.volume (contents fs.inode) (typeCode type) k v ∧
    ∀ j, 1 ≤ j → j < k → (s.volume.dinode sb j).type ≠ 0) ∧ t = { s with volume := v })
    (hends.weaken (fun _ _ ↦ id) fun e ⟨he, hall⟩ ↦ .inr ?_) fun k t ⟨v, ⟨ha, hbefore⟩, ht⟩ ↦ ?_
  · have hnone : (List.range' 1 (sb.ninodes - 1)).find? (fun inum ↦
        (fs.inode (Fin.ofNat 65536 inum)).type = .free) = none := by
      rw [List.find?_range'_eq_none]
      exact fun j hj hlt ↦ hused j (by omega) (hall j hj (by omega))
    rw [FileSystem.ialloc, hnone, he]
    rfl
  · subst ht
    obtain ⟨ip, hip⟩ : ∃ ip : Inum, ip = Fin.ofNat 65536 k := ⟨_, rfl⟩
    have hval : (ip : ℕ) = k := by
      rw [hip]
      exact Nat.mod_eq_of_lt (ha.lt.trans_le hninodes)
    have hfind : (List.range' 1 (sb.ninodes - 1)).find? (fun inum ↦
        (fs.inode (Fin.ofNat 65536 inum)).type = .free) = some k := by
      have hlt := ha.lt
      have hmem := List.mem_range'_1.mpr ⟨ha.pos, (by omega : k < 1 + (sb.ninodes - 1))⟩
      exact List.find?_range'_eq_some.mpr ⟨(hfree k ha.lt).mpr ha.free, hmem,
        fun j hj hlt ↦ hused j (hlt.trans ha.lt) (hbefore j hj hlt)⟩
    have hnext : Represents sb { s with volume := v } { fs with
        inode := Function.update fs.inode ip (FileSystem.newInode type) } := by
      refine ⟨h.files.replaced (hval ▸ ha.replaced) rfl rfl rfl, fun j ↦ ?_, h.refs, h.locks,
        h.exists_of_ref, h.of_locked⟩
      rw [ha.valid]
      exact h.valid j
    have hrun : FileSystem.ialloc sb.ninodes type fs = FileSystem.iget ip { fs with
        inode := Function.update fs.inode ip (FileSystem.newInode type) } := by
      rw [FileSystem.ialloc, hfind, hip]
    rw [hrun, ← hip]
    exact iget_matches hnext (hval ▸ ha.lt)

theorem setFields_matches (hl : sb.Laid) (hi : i ∈ fs.locks) (hmajor : major < 2 ^ 16)
    (hminor : minor < 2 ^ 16) (hnlink : nlink < 2 ^ 16) : Matches (Represents sb) E fault
      (Cache.onVolume (setFields sb i major minor nlink))
      (FileSystem.update i fun inode ↦ inode.setNlink nlink) s fs := by
  obtain ⟨v, hrun, hreplaced, hvalid, _⟩ := setFields_run h.files.consistent hl (h.valid_of_locked hi)
    hmajor hminor hnlink
  refine .of_ok (onVolume_of_ok hrun) rfl ⟨?_, fun j ↦ ?_, h.refs, h.locks, h.exists_of_ref, h.of_locked⟩
  · exact h.files.replaced hreplaced (contents_val fs.inode i).symm (h.files.type i) rfl
  · rw [hvalid, h.valid]

theorem readi_matches (hi : i ∈ fs.locks) : Matches (Represents sb) E fault
    ((Call.readi i off n).onBlocks sb) ((Call.readi i off n).onFiles sb.ninodes) s fs := by
  have hip := (h.files.consistent.cached i (h.valid_of_locked hi)).1
  have hrun := h.files.consistent.contents.readi_run hip (h.files.consistent.size i) off n
  rw [contents_val] at hrun
  exact .of_ok (bind_of_ok (onVolume_of_ok hrun)) rfl h

theorem writei_matches (hl : sb.Laid) (hi : i ∈ fs.locks) : Matches (Represents sb) OutOfBlocks fault
    (Cache.onVolume (writei sb i src off)) (FileSystem.writei i src off) s fs := by
  have hends := onVolume_ends (h.files.consistent.writei_ends hl (h.valid_of_locked hi) off src)
  refine hends.weaken (fun r t ⟨v, hv, ht⟩ ↦ ?_) fun _ ↦ .inl
  subst ht
  rw [contents_val] at hv
  have hfiles : FileSystem.writei i src off fs =
      if hoff : (fs.inode i).size < off ∨ (off + src.length) % 2 ^ 32 < off then .ok (none, fs)
      else if hmax : FileSystem.MAXFILE * FileSystem.BSIZE < off + src.length then .ok (none, fs)
      else .ok (some src.length, { fs with
        inode := Function.update fs.inode i ((fs.inode i).write off src
          (Nat.le_of_not_lt (not_or.mp hoff).1) (Nat.le_of_not_lt hmax)) }) := rfl
  rw [hfiles]
  by_cases hoff : (fs.inode i).size < off ∨ (off + src.length) % 2 ^ 32 < off
  · obtain ⟨rfl, rfl⟩ := (if_neg fun hw : Writable _ _ _ ↦ hw.1 hoff).mp hv
    exact ⟨fs, dif_pos hoff, h⟩
  · by_cases hmax : FileSystem.MAXFILE * FileSystem.BSIZE < off + src.length
    · obtain ⟨rfl, rfl⟩ := (if_neg fun hw : Writable _ _ _ ↦ absurd hw.2 (Nat.not_le.mpr hmax)).mp hv
      exact ⟨fs, (dif_neg hoff).trans (dif_pos hmax), h⟩
    · obtain ⟨rfl, hw⟩ := (if_pos ⟨hoff, Nat.le_of_not_lt hmax⟩).mp hv
      refine ⟨_, (dif_neg hoff).trans (dif_neg hmax), h.files.written hw _ _, fun j ↦ ?_, h.refs, h.locks,
        h.exists_of_ref, h.of_locked⟩
      rw [hw.valid]
      exact h.valid j

/-- Every call over the blocks does what the call over the files does. -/
theorem Represents.call_matches (hl : sb.Laid) (hninodes : sb.ninodes ≤ 65536)
    (hcall : call.Allowed sb.ninodes fs.refs fs.locks fun i ↦ typeCode (fs.inode i).type) :
    Matches (Represents sb) (WriteOutOfBlocks call) fault (call.onBlocks sb) (call.onFiles sb.ninodes) s
      fs := by
  cases call with
  | iget inum => exact (iget_matches h hcall).bind fun _ _ _ hR ↦ .pure hR _
  | idup ip => exact (idup_matches h hcall).bind fun _ _ _ hR ↦ .pure hR _
  | ilock ip => exact ilock_matches h hcall
  | iunlock ip => exact (iunlock_matches h).bind fun _ _ _ hR ↦ .pure hR _
  | iput ip => exact (iput_matches h hl).bind fun _ _ _ hR ↦ .pure hR _
  | ialloc type => exact (ialloc_matches h hl hninodes type).bind fun _ _ _ hR ↦ .pure hR _
  | setFields ip major minor nlink =>
    obtain ⟨hlock, hmajor, hminor, hnlink⟩ := hcall
    exact (setFields_matches h hl hlock hmajor hminor hnlink).bind fun _ _ _ hR ↦ .pure hR _
  | readi ip off n => exact readi_matches h hcall.1
  | writei ip src off =>
    have hwrite (e : Stop) (he : OutOfBlocks e) : WriteOutOfBlocks (.writei ip src off) e :=
      ⟨he, ip, src, off, rfl⟩
    exact ((writei_matches h hl hcall.1).mono hwrite).bind fun _ _ _ hR ↦ .pure hR _

end

end CS537.Storage
