import CS537.Storage.Boot

/-!
# Runs of the inode layer

A run over the blocks is a run over the files.  The blocks add one failure only, and in all states that
are reached the bitmap says which blocks are in use, and each of these is in one slot of one inode.
-/

namespace CS537.Storage

open Foundation
open FileSystem (Inum InodeType Inode FsState Fault NINODE)
open FsCheck (BSIZE NDIRECT BPB)
open Mkfs (Dinode HostFile MAXFILE NINODES)

section

variable (sb : SuperBlock)

/-- The calls over the blocks. -/
def blockMachine : Machine Cache (Call × Answer) :=
  callMachine (fun s ↦ ∃ fs, Represents sb s fs)
    (fun s call ↦ call.Allowed sb.ninodes s.refs s.locks fun i ↦ (s.volume.dinode sb i).type)
    fun call ↦ call.onBlocks sb

/-- The calls over the files. -/
def fileMachine : Machine FsState (Call × Answer) :=
  callMachine (fun fs ↦ ∃ s, Represents sb s fs)
    (fun fs call ↦ call.Allowed sb.ninodes fs.refs fs.locks fun i ↦ typeCode (fs.inode i).type)
    fun call ↦ call.onFiles sb.ninodes

end

variable {sb : SuperBlock} {s t : Cache} {fs : FsState} {ls : List (Call × Answer)} {call : Call} {e : Stop}

theorem Represents.allowed_iff (h : Represents sb s fs) :
    call.Allowed sb.ninodes s.refs s.locks (fun i ↦ (s.volume.dinode sb i).type) ↔
      call.Allowed sb.ninodes fs.refs fs.locks fun i ↦ typeCode (fs.inode i).type := by
  rw [h.refs, h.locks, show (fun i : Inum ↦ (s.volume.dinode sb i).type) = _ from funext h.files.type]

/-- Each step over the blocks is one over the files. -/
theorem Represents.run (hl : sb.Laid) (hninodes : sb.ninodes ≤ 65536) (h : Represents sb s fs)
    (hrun : (blockMachine sb).run s ls = some t) :
    ∃ ft, (fileMachine sb).run fs ls = some ft ∧ Represents sb t ft :=
  callMachine_simulation (fun _ _ _ hR ↦ hR.allowed_iff.mp)
    (fun _ _ _ hR hcall ↦ hR.call_matches hl hninodes (hR.allowed_iff.mp hcall)) h hrun

/-- The kernel on a disk of the formatter: whatever calls it makes, it returns what it would return on
the host files. -/
theorem formatted_run_refines_files {files : List HostFile} {img : FsCheck.Image}
    (hinodes : files.length + 1 < NINODES) (hroot : ¬32 ∣ files.length + 2)
    (hmkfs : Mkfs.mkfs files = .ok img) :
    ∃ fs, BootFiles files fs ∧ ∀ ls t,
      (blockMachine (readsb ((Volume.ofImage img).block 1))).run (.boot img) ls = some t →
        ∃ ft, (fileMachine (readsb ((Volume.ofImage img).block 1))).run fs ls = some ft ∧
          Represents (readsb ((Volume.ofImage img).block 1)) t ft := by
  obtain ⟨fs, hfiles, hrep⟩ := represents_boot hinodes hroot hmkfs
  rw [readsb_mkfs hinodes hmkfs]
  exact ⟨fs, hfiles, fun ls t hrun ↦ hrep.run laid_layout (by decide) hrun⟩

/-- A disk with one file of two bytes. -/
theorem formatted_run_refines_files_oneFile : ∃ img, Mkfs.mkfs [⟨[97], [104, 105]⟩] = .ok img ∧
    ∃ fs, BootFiles [⟨[97], [104, 105]⟩] fs ∧ ∀ ls t,
      (blockMachine (readsb ((Volume.ofImage img).block 1))).run (.boot img) ls = some t →
        ∃ ft, (fileMachine (readsb ((Volume.ofImage img).block 1))).run fs ls = some ft ∧
          Represents (readsb ((Volume.ofImage img).block 1)) t ft := by
  obtain ⟨img, hrun⟩ := exists_oneFile
  exact ⟨img, hrun, formatted_run_refines_files (by decide) (by decide) hrun⟩

/-! ## Failures -/

/-- Why a call over the files does not return. -/
inductive Refused (ninodes : ℕ) (fs : FsState) : Call → Fault → Prop
  | noInodes {type : InodeType} (hused : ∀ i : Inum, 1 ≤ (i : ℕ) → (i : ℕ) < ninodes →
      (fs.inode i).type ≠ .free) : Refused ninodes fs (.ialloc type) (.panic "ialloc: no inodes")
  | cacheFull {i : Inum} (href : i ∉ fs.refs) (hfull : NINODE ≤ fs.cached.card) :
    Refused ninodes fs (.iget i) (.panic "iget: no inodes")
  | cacheFullNew {type : InodeType} (hfull : NINODE ≤ fs.cached.card) :
    Refused ninodes fs (.ialloc type) (.panic "iget: no inodes")
  | lockHeld {i : Inum} (hlock : i ∈ fs.locks) : Refused ninodes fs (.ilock i) .deadlock
  | freeInode {i : Inum} (hfree : (fs.inode i).type = .free) :
    Refused ninodes fs (.ilock i) (.panic "ilock: no type")
  | notLocked {i : Inum} (hlock : i ∉ fs.locks) : Refused ninodes fs (.iunlock i) (.panic "iunlock")
  | lockedPut {i : Inum} (hlock : i ∈ fs.locks) : Refused ninodes fs (.iput i) .deadlock

theorem iget_error {i : Inum} {f : Fault} (h : FileSystem.iget i fs = .error f) :
    f = .panic "iget: no inodes" ∧ i ∉ fs.refs ∧ NINODE ≤ fs.cached.card := by
  rw [FileSystem.iget] at h
  split_ifs at h with href hroom
  exact ⟨(Except.error.inj h).symm, mt Multiset.count_pos.mpr href, Nat.le_of_not_lt hroom⟩

theorem ilock_error {i : Inum} {f : Fault} (href : i ∈ fs.refs) (h : FileSystem.ilock (some i) fs = .error f) :
    f = .deadlock ∧ i ∈ fs.locks ∨ f = .panic "ilock: no type" ∧ (fs.inode i).type = .free := by
  have hpos : ¬fs.ref i < 1 := Nat.not_lt.mpr (Multiset.count_pos.mpr href)
  simp only [FileSystem.ilock, if_neg hpos] at h
  split_ifs at h with hlock hfree
  · exact .inl ⟨(Except.error.inj h).symm, hlock⟩
  · exact .inr ⟨(Except.error.inj h).symm, hfree.2⟩

theorem iput_error {i : Inum} {f : Fault} (h : FileSystem.iput i fs = .error f) :
    f = .deadlock ∧ i ∈ fs.locks := by
  rw [FileSystem.iput] at h
  split_ifs at h with hlock
  exact ⟨(Except.error.inj h).symm, hlock⟩

theorem iunlock_error {i : Inum} {f : Fault} (href : i ∈ fs.refs) (h : FileSystem.iunlock i fs = .error f) :
    f = .panic "iunlock" ∧ i ∉ fs.locks := by
  rw [FileSystem.iunlock] at h
  split_ifs at h with hno
  exact ⟨(Except.error.inj h).symm, hno.resolve_right (Nat.not_lt.mpr (Multiset.count_pos.mpr href))⟩

theorem ialloc_error {ninodes : ℕ} {type : InodeType} {f : Fault} (hninodes : ninodes ≤ 65536)
    (h : FileSystem.ialloc ninodes type fs = .error f) : Refused ninodes fs (.ialloc type) f := by
  rw [FileSystem.ialloc] at h
  split at h
  · next hnone =>
    obtain rfl := Except.error.inj h
    refine .noInodes fun i hpos hlt ↦ ?_
    have hused := List.find?_range'_eq_none.mp hnone i hpos (by omega)
    have hval : Fin.ofNat 65536 (i : ℕ) = i := Fin.ext (Nat.mod_eq_of_lt i.isLt)
    rw [hval, Bool.not_eq_true', decide_eq_false_iff_not] at hused
    exact hused
  · obtain ⟨rfl, -, hfull⟩ := iget_error h
    exact .cacheFullNew hfull

/-- The failures of a call over the files. -/
theorem onFiles_error {f : Fault} {ninodes : ℕ} (hninodes : ninodes ≤ 65536)
    (hcall : call.Allowed ninodes fs.refs fs.locks fun i ↦ typeCode (fs.inode i).type)
    (h : call.onFiles ninodes fs = .error f) : Refused ninodes fs call f := by
  cases call with
  | iget inum =>
    obtain ⟨rfl, href, hfull⟩ := iget_error (error_of_bind_pure h)
    exact .cacheFull href hfull
  | idup ip => cases h
  | ilock ip =>
    obtain ⟨rfl, hlock⟩ | ⟨rfl, hfree⟩ := ilock_error hcall (error_of_bind_pure h)
    · exact .lockHeld hlock
    · exact .freeInode hfree
  | iunlock ip =>
    obtain ⟨rfl, hlock⟩ := iunlock_error hcall (error_of_bind_pure h)
    exact .notLocked hlock
  | iput ip =>
    obtain ⟨rfl, hlock⟩ := iput_error (error_of_bind_pure h)
    exact .lockedPut hlock
  | ialloc type => exact ialloc_error hninodes (error_of_bind_pure h)
  | setFields ip major minor nlink => cases h
  | readi ip off n => cases h
  | writei ip src off =>
    have hrun := error_of_bind_pure h
    rw [FileSystem.writei] at hrun
    split_ifs at hrun

/-- In every state that is reached, a call fails for the reasons for which the call over the files
does, and a write fails on a disk without blocks left. -/
theorem run_failures (hl : sb.Laid) (hninodes : sb.ninodes ≤ 65536) (h : Represents sb s fs)
    (hrun : (blockMachine sb).run s ls = some t)
    (hcall : call.Allowed sb.ninodes t.refs t.locks fun i ↦ (t.volume.dinode sb i).type)
    (hfail : call.onBlocks sb t = .error e) :
    ∃ ft, (fileMachine sb).run fs ls = some ft ∧
      (WriteOutOfBlocks call e ∨ Refused sb.ninodes ft call (fault e)) := by
  obtain ⟨ft, hft, hrep⟩ := h.run hl hninodes hrun
  have hallowed := hrep.allowed_iff.mp hcall
  exact ⟨ft, hft, ((hrep.call_matches hl hninodes hallowed).2 e hfail).imp_right
    fun hfiles ↦ onFiles_error hninodes hallowed hfiles⟩

/-- The kernel has taken a reference to the root directory. -/
def rootRef (img : FsCheck.Image) : Cache where
  volume := { Volume.ofImage img with valid := Function.update (Volume.ofImage img).valid (1 : Inum) false }
  refs := {1}
  locks := ∅

theorem rootRef_run (img : FsCheck.Image) :
    (blockMachine layout).run (.boot img) [(.iget 1, .inode 1)] = some (rootRef img) := by
  have hallowed : (Call.iget 1).Allowed layout.ninodes 0 ∅
      fun i ↦ ((Volume.ofImage img).dinode layout i).type := (by decide : ((1 : Inum) : ℕ) < 200)
  have hcall : (Call.iget 1).onBlocks layout (.boot img) = .ok (.inode 1, rootRef img) := rfl
  exact (blockMachine layout).run_cons_of_step (callMachine_step_iff.mpr ⟨hallowed, hcall⟩) []

/-- The root directory can be locked then. -/
theorem exists_rootLock {files : List HostFile} {img : FsCheck.Image} (hinodes : files.length + 1 < NINODES)
    (hroot : ¬32 ∣ files.length + 2) (hmkfs : Mkfs.mkfs files = .ok img) :
    ((rootRef img).volume.dinode layout (1 : Inum)).type = typeCode .dir ∧ ∃ t,
      (blockMachine layout).run (.boot img) [(.iget 1, .inode 1), (.ilock 1, .done)] = some t ∧ 1 ∈ t.locks ∧
        t.volume.dinode layout = (Volume.ofImage img).dinode layout := by
  obtain ⟨fs, hfiles, hboot⟩ := represents_boot hinodes hroot hmkfs
  obtain ⟨ft, -, hrep⟩ := hboot.run laid_layout (by decide) (rootRef_run img)
  have htype : ((rootRef img).volume.dinode layout (1 : Inum)).type = typeCode .dir :=
    (hboot.files.type 1).trans (congrArg typeCode (hfiles.type 1))
  have hused : ((rootRef img).volume.dinode layout (1 : Inum)).type ≠ 0 := by
    rw [htype]
    decide
  have hilock := (ilock_ends hrep.files.consistent (by decide : ((1 : Inum) : ℕ) < layout.ninodes)).weaken
    (fun _ _ ↦ id) fun e he ↦ hused he.2.2
  obtain ⟨_, v, hv, -, -, hdinode, -⟩ := hilock.returns
  have hlocked : Cache.ilock layout 1 (rootRef img) = .ok ((), ⟨v, {1}, {1}⟩) := by
    have href : ¬(rootRef img).ref 1 < 1 := Nat.not_lt.mpr (Multiset.count_singleton_self 1).ge
    rw [Cache.ilock]
    refine (bind_of_ok (a := rootRef img) (t := rootRef img) rfl).trans ?_
    have hlock : 1 ∉ (rootRef img).locks := Finset.notMem_empty 1
    rw [if_neg href, if_neg hlock]
    exact bind_of_ok (onVolume_of_ok hv)
  have hcall : (Call.ilock 1).onBlocks layout (rootRef img) = .ok (.done, ⟨v, {1}, {1}⟩) :=
    bind_of_ok hlocked
  have hallowed : (Call.ilock 1).Allowed layout.ninodes {1} ∅
      fun i ↦ ((rootRef img).volume.dinode layout i).type := Multiset.mem_singleton_self 1
  refine ⟨htype, ⟨v, {1}, {1}⟩, ?_, Finset.mem_singleton_self 1, hdinode⟩
  have hsplit := (blockMachine layout).run_append (.boot img) [(.iget 1, .inode 1)] [(.ilock 1, .done)]
  rw [rootRef_run, Option.bind_some] at hsplit
  exact hsplit.trans ((blockMachine layout).run_cons_of_step (callMachine_step_iff.mpr ⟨hallowed, hcall⟩) [])

/-- `iunlock` of the root directory, which is not locked. -/
theorem run_failures_rootRef : ∃ (t : Cache) (ft : FsState),
    (Call.iunlock 1).onBlocks layout t = .error (.panic "iunlock") ∧
      (WriteOutOfBlocks (.iunlock 1) (.panic "iunlock") ∨
        Refused layout.ninodes ft (.iunlock 1) (fault (.panic "iunlock"))) := by
  obtain ⟨img, hmkfs⟩ := exists_oneFile
  obtain ⟨fs, -, hrep⟩ := represents_boot (by decide) (by decide) hmkfs
  have hfail : (Call.iunlock 1).onBlocks layout (rootRef img) = .error (.panic "iunlock") := rfl
  obtain ⟨ft, -, href⟩ := run_failures laid_layout (by decide) hrep (rootRef_run img)
    (Multiset.mem_singleton_self 1) hfail
  exact ⟨_, ft, hfail, href⟩

/-! ## The bitmap -/

/-- The bitmap marks the blocks before the data and those in the slots of the inodes, a block is in one
slot only, an inode has the blocks that its size calls for, and an inode in memory is the one on the
disk. -/
structure Exact (sb : SuperBlock) (v : Volume) : Prop where
  marked_iff : ∀ b < sb.size, v.Marked sb b ↔ b < sb.nmeta ∨ ∃ i k, v.address (v.dinode sb i) k = b
  slot_eq : ∀ i j k m, v.address (v.dinode sb i) k ≠ 0 →
    v.address (v.dinode sb i) k = v.address (v.dinode sb j) m → i = j ∧ k = m
  range : ∀ i k, v.address (v.dinode sb i) k ≠ 0 →
    sb.nmeta ≤ v.address (v.dinode sb i) k ∧ v.address (v.dinode sb i) k < sb.size
  data : ∀ i k, k < MAXFILE → (v.address (v.dinode sb i) k ≠ 0 ↔ k * BSIZE < (v.dinode sb i).size)
  indirect : ∀ i, v.address (v.dinode sb i) MAXFILE ≠ 0 ↔ NDIRECT * BSIZE < (v.dinode sb i).size
  cached : ∀ i, v.valid i = true → v.icache i = v.dinode sb i ∧ (v.dinode sb i).type ≠ 0

theorem Consistent.exact {v : Volume} {c : ℕ → List UInt8} (h : Consistent sb v c) : Exact sb v where
  marked_iff b hb := (h.contents.mapped.marked_iff b hb).trans (or_congr_right Prod.exists)
  slot_eq _ _ _ _ := h.contents.mapped.slot_eq
  range _ _ hne := ⟨h.contents.mapped.nmeta_le hne, h.contents.mapped.lt_size hne⟩
  data i k hk := by rw [h.size, h.contents.data i k hk]
  indirect i := by rw [h.size, h.contents.indirect i]
  cached := h.cached

/-- The bitmap is exact after every run. -/
theorem run_exact (hl : sb.Laid) (hninodes : sb.ninodes ≤ 65536) (h : Represents sb s fs)
    (hrun : (blockMachine sb).run s ls = some t) : Exact sb t.volume := by
  obtain ⟨ft, -, hrep⟩ := h.run hl hninodes hrun
  exact hrep.files.consistent.exact

theorem run_exact_rootRef : ∃ img, Mkfs.mkfs [⟨[97], [104, 105]⟩] = .ok img ∧
    Exact layout (rootRef img).volume := by
  obtain ⟨img, hmkfs⟩ := exists_oneFile
  obtain ⟨fs, -, hrep⟩ := represents_boot (by decide) (by decide) hmkfs
  exact ⟨img, hmkfs, run_exact laid_layout (by decide) hrep (rootRef_run img)⟩

end CS537.Storage
