import CS537.FsCheck.Comparisons
import CS537.FsCheck.Layout

/-!
# What the checker has recorded

The run of `main` up to the bitmap checks: when it is free of faults, and what the arrays hold then.
-/

namespace CS537.FsCheck

open Foundation

/-! ## Before the checks -/

section Prepare

variable (img : Image) (sb : Superblock)

/-- The pointers can be computed, the arrays allocated and the bitmap read. -/
structure Image.Prepared : Prop where
  superblock : BSIZE + 7 * sizeofInt ≤ img.length
  inodes : 0 ≤ sb.inodestart ∧ sb.inodestart * BSIZE < intBound
  data : 0 ≤ sb.dataBegin ∧ sb.dataBegin * BSIZE < intBound
  dmap : 0 ≤ sb.mapLength ∧ sb.mapLength < intBound
  dataUse : 0 ≤ sb.nblocks ∧ sb.nblocks < intBound
  inodeUse : 0 ≤ sb.ninodes ∧ sb.ninodes < intBound
  bitmap : (0 ≤ sb.bmapstart ∧ sb.bmapstart * BSIZE < intBound) ∧
    ∀ k < sb.nblocks.toNat, blockOffset sb.bmapstart + k / 8 + 1 ≤ img.length

theorem alloc_acts (length : ℤ) :
    Acts (alloc length) (0 ≤ length ∧ length < intBound) () id .fault :=
  .require

theorem prepare_acts (hsb : img.superblockAt BSIZE = sb) :
    Acts (prepare img) (img.Prepared sb)
      (sb, blockOffset sb.inodestart, blockOffset sb.dataBegin)
      (·.withMap 0 sb.nblocks.toNat (img.bitAt sb)) .fault := by
  subst hsb
  refine Acts.congr (.look (read_acts img BSIZE (7 * sizeofInt) (img.superblockAt BSIZE)) fun _ ↦
    .look (blockPtr_acts _) fun _ ↦ .look (blockPtr_acts _) fun _ ↦ .look (alloc_acts _) fun _ ↦
    .look (alloc_acts _) fun hnblocks ↦ .look (alloc_acts _) fun _ ↦
    (initMap_acts img _ hnblocks.1).andThen (.pure _)) ?_ fun s ↦ rfl
  constructor
  · exact fun h ↦ ⟨h.superblock, h.inodes, h.data, h.dmap, h.dataUse, h.inodeUse, h.bitmap⟩
  · rintro ⟨hread, hinodes, hdata, hdmap, huse, hinode, hbitmap⟩
    exact ⟨hread, hinodes, hdata, hdmap, huse, hinode, hbitmap⟩

end Prepare

/-! ## The individual checks -/

section Individual

variable (img : Image) (sb : Superblock)

/-- The inodes can be read and their blocks have places in `data_use`. -/
structure Image.Recordable : Prop where
  readable : ∀ i : ℕ, 1 ≤ i → (i : ℤ) < sb.ninodes → sb.inodePtr i + sizeofDinode ≤ img.length
  inside : ∀ i, InUse img sb i → img.BlocksInside (img.inodeAt sb i) sb.nblocks

/-- What the individual checks record. -/
def Arrays.record (s : Arrays) : Arrays :=
  (List.range (sb.ninodes - 1).toNat).foldl
    (fun s i ↦ s.useDinode img (img.inodeAt sb (i + 1)) i) s

theorem inodePtr_succ (i : ℕ) :
    blockOffset sb.inodestart + sizeofDinode * ROOTINO + sizeofDinode * i = sb.inodePtr (i + 1) := by
  rw [Superblock.inodePtr, ROOTINO, Nat.add_assoc, ← Nat.mul_add, Nat.add_comm 1 i]

theorem inUse_succ_iff (i : ℕ) : InUse img sb (i + 1) ↔
    i < (sb.ninodes - 1).toNat ∧ (img.inodeAt sb (i + 1)).type ≠ 0 := by
  rw [InUse]
  constructor
  · exact fun h ↦ ⟨by omega, h.2.2⟩
  · exact fun h ↦ ⟨by omega, by omega, h.2⟩

theorem inUse_iff (i : ℕ) : InUse img sb i ↔
    ∃ j < (sb.ninodes - 1).toNat, (img.inodeAt sb (j + 1)).type ≠ 0 ∧ j + 1 = i := by
  constructor
  · intro h
    obtain ⟨j, rfl⟩ := Nat.exists_eq_succ_of_ne_zero (Nat.one_le_iff_ne_zero.mp h.1)
    have hj := (inUse_succ_iff img sb j).mp h
    exact ⟨j, hj.1, hj.2, rfl⟩
  · rintro ⟨j, hj, htype, rfl⟩
    exact (inUse_succ_iff img sb j).mpr ⟨hj, htype⟩

theorem inodeChecks_acts (hvalid : ∀ i, InUse img sb i → img.Valid (img.inodeAt sb i)) :
    Acts (individualChecks img sb (blockOffset sb.inodestart + sizeofDinode * ROOTINO))
      (img.Recordable sb) () (·.record img sb) .fault := by
  have hchecks := individualChecks_acts img sb
    (blockOffset sb.inodestart + sizeofDinode * ROOTINO)
  simp only [inodePtr_succ] at hchecks
  refine Acts.congr (hchecks fun i hi htype ↦ hvalid (i + 1) ((inUse_succ_iff img sb i).mpr
    ⟨hi, htype⟩)) ?_ fun s ↦ rfl
  constructor
  · intro h i hi
    exact ⟨h.readable (i + 1) (by omega) (by omega),
      fun htype ↦ h.inside (i + 1) ((inUse_succ_iff img sb i).mpr ⟨hi, htype⟩)⟩
  · intro h
    refine ⟨fun i hi hlt ↦ ?_, fun i hi ↦ ?_⟩
    · obtain ⟨j, rfl⟩ := Nat.exists_eq_succ_of_ne_zero (Nat.one_le_iff_ne_zero.mp hi)
      exact (h j (by omega)).1
    · obtain ⟨j, hj, htype, rfl⟩ := (inUse_iff img sb i).mp hi
      exact (h j hj).2 htype

/-- An inode passes the individual checks only if it is valid. -/
theorem valid_of_checkInode {inode : Dinode} {i : ℕ} {s t : Arrays}
    (h : checkInode img sb inode i s = .ok ((), t)) : img.Valid inode := by
  obtain ⟨⟨⟩, s₁, -, h⟩ := exists_of_bind_ok h
  obtain ⟨⟨⟩, s₂, hprint, h⟩ := exists_of_bind_ok h
  obtain ⟨n, s₃, hcount, h⟩ := exists_of_bind_ok h
  obtain ⟨-, rfl, -⟩ := (calNumBlock_acts img sb inode).of_ok hcount
  have htype := not_of_printErrIf hprint
  have hsize := not_of_printErrIf h
  exact ⟨by omega, by omega, by omega⟩

theorem valid_of_individualChecks {s t : Arrays}
    (h : individualChecks img sb (blockOffset sb.inodestart + sizeofDinode * ROOTINO) s =
      .ok ((), t)) {i : ℕ} (hi : InUse img sb i) : img.Valid (img.inodeAt sb i) := by
  obtain ⟨j, hj, htype, rfl⟩ := (inUse_iff img sb i).mp hi
  obtain ⟨u, v, hrun⟩ := exists_of_forM_ok h j (List.mem_range.mpr hj)
  rw [inodePtr_succ] at hrun
  obtain ⟨inode, u', hread, hrun⟩ := exists_of_bind_ok hrun
  obtain ⟨-, rfl, -⟩ := (read_acts img _ _ _).of_ok hread
  have htype' : (img.dinodeAt (sb.inodePtr (j + 1))).type ≠ 0 := htype
  rw [if_pos htype'] at hrun
  exact valid_of_checkInode img sb hrun

/-! ## What is recorded -/

variable {img sb}

theorem useDinode_inodeUse_iff (inode : Dinode) (i : ℕ) (s : Arrays) (k : ℕ) :
    (s.useDinode img inode i).inodeUse k = true ↔
      s.inodeUse k = true ∨ (inode.type ≠ 0 ∧ i + 1 = k) := by
  by_cases h : inode.type ≠ 0
  · have hkeep : ((s.useInode (i + 1)).useBlocks (img.blocks inode)).inodeUse =
        (s.useInode (i + 1)).inodeUse :=
      Arrays.useBlocks_keeps (s.useInode (i + 1)) (g := Arrays.inodeUse) (fun _ _ ↦ rfl) _
    rw [Arrays.useDinode, if_pos h, hkeep, Arrays.useInode_iff, and_iff_right h]
    exact Iff.rfl
  · rw [Arrays.useDinode, if_neg h]
    exact (or_iff_left fun h' ↦ h h'.1).symm

theorem useDinode_dataUse_iff (inode : Dinode) (i : ℕ) (s : Arrays) (k : ℕ) :
    (s.useDinode img inode i).dataUse k = true ↔
      s.dataUse k = true ∨ (inode.type ≠ 0 ∧ ∃ b ∈ img.blocks inode, b.toNat = k) := by
  by_cases h : inode.type ≠ 0
  · rw [Arrays.useDinode, if_pos h, Arrays.useBlocks_iff, and_iff_right h]
    exact Iff.rfl
  · rw [Arrays.useDinode, if_neg h]
    exact (or_iff_left fun h' ↦ h h'.1).symm

theorem useDinode_keeps {γ : Type} {g : Arrays → γ} (hblock : ∀ b s, g (Arrays.useBlock s b) = g s)
    (hinode : ∀ i s, g (Arrays.useInode s i) = g s) (inode : Dinode) (i : ℕ) (s : Arrays) :
    g (s.useDinode img inode i) = g s := by
  rw [Arrays.useDinode]
  split
  · rw [Arrays.useBlocks_keeps _ hblock, hinode]
  · rfl

theorem record_inodeUse_iff (s : Arrays) (k : ℕ) : (s.record img sb).inodeUse k = true ↔
    s.inodeUse k = true ∨ InUse img sb k := by
  have hfold : (s.record img sb).inodeUse k = true ↔ s.inodeUse k = true ∨
      ∃ i ∈ List.range (sb.ninodes - 1).toNat, (img.inodeAt sb (i + 1)).type ≠ 0 ∧ i + 1 = k :=
    foldl_iff (p := fun s ↦ Arrays.inodeUse s k = true)
      (fun i _ s ↦ useDinode_inodeUse_iff (img.inodeAt sb (i + 1)) i s k) s
  simpa only [List.mem_range, ← inUse_iff] using hfold

theorem record_dataUse_iff (s : Arrays) (k : ℕ) : (s.record img sb).dataUse k = true ↔
    s.dataUse k = true ∨ ∃ i, InUse img sb i ∧ ∃ b ∈ img.blocks (img.inodeAt sb i), b.toNat = k := by
  have hfold : (s.record img sb).dataUse k = true ↔ s.dataUse k = true ∨
      ∃ i ∈ List.range (sb.ninodes - 1).toNat, (img.inodeAt sb (i + 1)).type ≠ 0 ∧
        ∃ b ∈ img.blocks (img.inodeAt sb (i + 1)), b.toNat = k :=
    foldl_iff (p := fun s ↦ Arrays.dataUse s k = true)
      (fun i _ s ↦ useDinode_dataUse_iff (img.inodeAt sb (i + 1)) i s k) s
  refine hfold.trans (or_congr_right ?_)
  constructor
  · rintro ⟨i, hi, htype, hblock⟩
    exact ⟨i + 1, (inUse_succ_iff img sb i).mpr ⟨List.mem_range.mp hi, htype⟩, hblock⟩
  · rintro ⟨i, hi, hblock⟩
    obtain ⟨j, hj, htype, rfl⟩ := (inUse_iff img sb i).mp hi
    exact ⟨j, List.mem_range.mpr hj, htype, hblock⟩

theorem record_keeps {γ : Type} {g : Arrays → γ} (hblock : ∀ b s, g (Arrays.useBlock s b) = g s)
    (hinode : ∀ i s, g (Arrays.useInode s i) = g s) (s : Arrays) : g (s.record img sb) = g s :=
  foldl_keeps (fun _ _ s ↦ useDinode_keeps hblock hinode _ _ s) s

end Individual

/-! ## Up to the bitmap checks -/

section Run

variable (img : Image) (sb : Superblock)

/-- The arrays before the bitmap checks. -/
def recorded : Arrays := (Arrays.zero.withMap 0 sb.nblocks.toNat (img.bitAt sb)).record img sb

theorem recorded_dmap (k : ℕ) :
    (recorded img sb).dmap k = if (k : ℤ) < sb.nblocks then img.bitAt sb k else 0 := by
  have hkeep : (recorded img sb).dmap = _ :=
    record_keeps (g := Arrays.dmap) (fun _ _ ↦ rfl) (fun _ _ ↦ rfl) _
  rw [hkeep]
  simp [Arrays.withMap, Arrays.zero]

theorem recorded_dirInode (k : ℕ) : (recorded img sb).dirInode k = false := by
  have hkeep : (recorded img sb).dirInode = _ :=
    record_keeps (g := Arrays.dirInode) (fun _ _ ↦ rfl) (fun _ _ ↦ rfl) _
  rw [hkeep]
  rfl

theorem recorded_inodeUse_iff (k : ℕ) : (recorded img sb).inodeUse k = true ↔ InUse img sb k := by
  rw [recorded, record_inodeUse_iff]
  simp [Arrays.withMap, Arrays.zero]

theorem recorded_dataUse_iff (h : img.Recordable sb) (k : ℕ) :
    (recorded img sb).dataUse k = true ↔ Refers img sb k := by
  rw [recorded, record_dataUse_iff]
  simp only [Arrays.withMap, Arrays.zero, Bool.false_eq_true, false_or, Refers]
  refine exists_congr fun i ↦ and_congr_right fun hi ↦ ?_
  have hnonneg : ∀ b ∈ img.blocks (img.inodeAt sb i), 0 ≤ b :=
    fun b hb ↦ ((h.inside i hi).1 b hb).1
  constructor
  · rintro ⟨b, hb, rfl⟩
    rwa [Int.toNat_of_nonneg (hnonneg b hb)]
  · exact fun hk ↦ ⟨k, hk, Int.toNat_natCast k⟩

theorem recorded_mapRead : MapRead sb (recorded img sb) := by
  intro k hk
  rw [recorded_dmap] at hk
  exact by_contra fun hn ↦ hk (if_neg hn)

theorem printErrIf_stateless (c : Prop) [Decidable c] (msg : String) :
    Stateless (printErrIf c msg) :=
  .ite (.throw _) (.pure ())

theorem checkRoot_stateless (root : Dinode) : Stateless (checkRoot img root) := by
  refine (printErrIf_stateless _ _).bind fun _ ↦ ?_
  refine (blockPtr_acts (root.addrs 0)).stateless.bind fun dir ↦ ?_
  refine (read_acts img dir 2 _).stateless.bind fun inum ↦ ?_
  refine (printErrIf_stateless _ _).bind fun _ ↦ ?_
  refine (read_acts img (dir + sizeofDirent) 2 _).stateless.bind fun inum ↦ ?_
  exact printErrIf_stateless _ _

theorem checkDirectory_stateless (inode : Dinode) (i : ℕ) :
    Stateless (checkDirectory img inode i) := by
  refine .ite ((blockPtr_acts (inode.addrs 0)).stateless.bind fun dot ↦ ?_) (.pure ())
  refine (read_acts img dot 2 _).stateless.bind fun temp ↦ ?_
  exact printErrIf_stateless _ _

/-- The directory checks only read the file. -/
theorem directoryChecks_stateless (inodes : ℕ) : Stateless (directoryChecks img sb inodes) := by
  refine .forM fun i _ ↦ (read_acts img _ _ _).stateless.bind fun inode ↦ ?_
  refine .ite ?_ (checkDirectory_stateless img inode i)
  exact (checkRoot_stateless img inode).bind fun _ ↦ checkDirectory_stateless img inode i

/-- The directory checks find no error. -/
def PassesDirectoryChecks : Prop :=
  ∃ s, directoryChecks img sb (blockOffset sb.inodestart) Arrays.zero = .ok ((), s)

instance : Decidable (PassesDirectoryChecks img sb) :=
  decidable_of_iff
    ((directoryChecks img sb (blockOffset sb.inodestart) Arrays.zero).isOk = true) (by
      rw [PassesDirectoryChecks]
      cases directoryChecks img sb (blockOffset sb.inodestart) Arrays.zero with
      | error e => simp [Except.isOk, Except.toBool]
      | ok r => simp [Except.isOk, Except.toBool, Prod.ext_iff])

/-- A run on an image of valid inodes that passes the directory checks gets to the bitmap checks if
and only if it is free of faults. -/
theorem upToDirectories_acts (hsb : img.superblockAt BSIZE = sb)
    (hvalid : ∀ i, InUse img sb i → img.Valid (img.inodeAt sb i))
    (hdir : PassesDirectoryChecks img sb) :
    Acts (upToDirectories img) (img.Prepared sb ∧ img.Recordable sb)
      (sb, blockOffset sb.inodestart, blockOffset sb.dataBegin)
      (fun s ↦ (s.withMap 0 sb.nblocks.toNat (img.bitAt sb)).record img sb) .fault := by
  obtain ⟨s, hdir⟩ := hdir
  have hpass : Acts (directoryChecks img sb (blockOffset sb.inodestart)) True () id .fault :=
    ⟨fun _ u ↦ (directoryChecks_stateless img sb _).returns hdir u, fun h ↦ absurd trivial h⟩
  exact Acts.congr ((prepare_acts img sb hsb).bind fun _ ↦
    (inodeChecks_acts img sb hvalid).andThen (hpass.andThen (.pure _))) .rfl fun s ↦ rfl

end Run

/-! ## Errors -/

theorem fscheck_eq_error_iff {img : Image} {e : Stop} :
    fscheck img = .error e ↔ main img Arrays.zero = .error e := by
  rw [fscheck]
  cases main img Arrays.zero with
  | error e' => simp [Except.map]
  | ok r => simp [Except.map]

/-! ## The references -/

section References

variable (img : Image) (sb : Superblock)

/-- A number in the first block of a directory. -/
def Image.firstEntry (inode : Dinode) (k : ℕ) : ℤ :=
  img.int16At (blockOffset (inode.addrs 0) + sizeofDirent * k)

/-- An inode number that the checker meets: it scans the 32 entries in the first block of every
directory, from inode 1 on and up to the slot behind the last inode. -/
def Scanned (v : ℤ) : Prop := ∃ i : ℕ, 1 ≤ i ∧ (i : ℤ) ≤ sb.ninodes ∧
  (img.inodeAt sb i).type = T_DIR ∧ ∃ k < 512 / 16, img.firstEntry (img.inodeAt sb i) k = v ∧ v ≠ 0

/-- The checker stays inside the file and inside `dir_inode`. -/
structure ScanInside : Prop where
  slots : ∀ i : ℕ, 1 ≤ i → (i : ℤ) ≤ sb.ninodes → sb.inodePtr i + sizeofDinode ≤ img.length
  pointers : ∀ i : ℕ, 1 ≤ i → (i : ℤ) ≤ sb.ninodes → (img.inodeAt sb i).type = T_DIR →
    0 ≤ (img.inodeAt sb i).addrs 0 ∧ (img.inodeAt sb i).addrs 0 * BSIZE < intBound
  entries : ∀ i : ℕ, 1 ≤ i → (i : ℤ) ≤ sb.ninodes → (img.inodeAt sb i).type = T_DIR →
    ∀ k < 512 / 16, blockOffset ((img.inodeAt sb i).addrs 0) + sizeofDirent * k + 2 ≤ img.length
  numbers : ∀ v, Scanned img sb v → 0 ≤ v ∧ v < sb.ninodes

/-- What an entry records. -/
def Arrays.referToEntry (v : ℤ) (s : Arrays) : Arrays := if v ≠ 0 then s.referTo v else s

theorem referToEntry_iff (v : ℤ) (s : Arrays) (k : ℕ) : (s.referToEntry v).dirInode k = true ↔
    s.dirInode k = true ∨ (v ≠ 0 ∧ v.toNat = k) := by
  by_cases h : v ≠ 0
  · rw [Arrays.referToEntry, if_pos h, Arrays.referTo_iff, and_iff_right h]
  · rw [Arrays.referToEntry, if_neg h]
    exact (or_iff_left fun h' ↦ h h'.1).symm

theorem countEntry_acts (p : ℕ) :
    Acts (countEntry img sb p) (p + 2 ≤ img.length ∧
      (img.int16At p ≠ 0 → 0 ≤ img.int16At p ∧ img.int16At p < sb.ninodes)) ()
      (·.referToEntry (img.int16At p)) .fault := by
  exact .look (read_acts img p 2 (img.int16At p)) fun _ ↦ .when fun _ ↦ setDirInode_acts sb _

/-- What the first block of a directory records. -/
def Arrays.referToEntries (inode : Dinode) (s : Arrays) : Arrays :=
  if inode.type = T_DIR then
    (List.range (512 / 16)).foldl (fun s k ↦ s.referToEntry (img.firstEntry inode k)) s
  else s

theorem referToEntries_iff (inode : Dinode) (s : Arrays) (n : ℕ) :
    (s.referToEntries img inode).dirInode n = true ↔ s.dirInode n = true ∨
      (inode.type = T_DIR ∧ ∃ k < 512 / 16, img.firstEntry inode k ≠ 0 ∧
        (img.firstEntry inode k).toNat = n) := by
  by_cases h : inode.type = T_DIR
  · have hfold : ((List.range (512 / 16)).foldl
        (fun s k ↦ s.referToEntry (img.firstEntry inode k)) s).dirInode n = true ↔
        s.dirInode n = true ∨ ∃ k ∈ List.range (512 / 16), img.firstEntry inode k ≠ 0 ∧
          (img.firstEntry inode k).toNat = n :=
      foldl_iff (p := fun s ↦ Arrays.dirInode s n = true)
        (fun k _ s ↦ referToEntry_iff (img.firstEntry inode k) s n) s
    rw [Arrays.referToEntries, if_pos h, hfold, and_iff_right h]
    simp only [List.mem_range]
  · rw [Arrays.referToEntries, if_neg h]
    exact (or_iff_left fun h' ↦ h h'.1).symm

theorem referNode_acts (p : ℕ) :
    Acts (referNode img sb p) (p + sizeofDinode ≤ img.length ∧
      ((img.dinodeAt p).type = T_DIR →
        (0 ≤ (img.dinodeAt p).addrs 0 ∧ (img.dinodeAt p).addrs 0 * BSIZE < intBound) ∧
        ∀ k < 512 / 16,
          blockOffset ((img.dinodeAt p).addrs 0) + sizeofDirent * k + 2 ≤ img.length ∧
          (img.firstEntry (img.dinodeAt p) k ≠ 0 → 0 ≤ img.firstEntry (img.dinodeAt p) k ∧
            img.firstEntry (img.dinodeAt p) k < sb.ninodes))) ()
      (·.referToEntries img (img.dinodeAt p)) .fault := by
  refine .look (read_acts img p sizeofDinode (img.dinodeAt p)) fun _ ↦ .when fun _ ↦ ?_
  refine Acts.congr (.look (blockPtr_acts _) fun _ ↦
    .forM fun k _ ↦ countEntry_acts img sb _) ?_ fun s ↦ rfl
  simp only [List.mem_range, Image.firstEntry]

/-- What the scan of the directories records. -/
def Arrays.scan (s : Arrays) : Arrays :=
  (List.range sb.ninodes.toNat).foldl
    (fun s i ↦ s.referToEntries img (img.inodeAt sb (i + 1))) s

theorem referNodes_acts : Acts ((List.range sb.ninodes.toNat).forM fun i ↦
      referNode img sb (blockOffset sb.inodestart + sizeofDinode + sizeofDinode * i))
    (ScanInside img sb) () (·.scan img sb) .fault := by
  have hslot := inodePtr_succ sb
  rw [ROOTINO, Nat.mul_one] at hslot
  simp only [hslot]
  refine Acts.congr (.forM fun i _ ↦ referNode_acts img sb (sb.inodePtr (i + 1))) ?_ fun s ↦ rfl
  simp only [List.mem_range]
  constructor
  · intro h i hi
    refine ⟨h.slots (i + 1) (by omega) (by omega), fun htype ↦
      ⟨h.pointers (i + 1) (by omega) (by omega) htype, fun k hk ↦
        ⟨h.entries (i + 1) (by omega) (by omega) htype k hk, fun hne ↦ ?_⟩⟩⟩
    exact h.numbers _ ⟨i + 1, by omega, by omega, htype, k, hk, rfl, hne⟩
  · intro h
    have hnext (i : ℕ) (hi : 1 ≤ i) (hle : (i : ℤ) ≤ sb.ninodes) :
        ∃ j < sb.ninodes.toNat, j + 1 = i := ⟨i - 1, by omega, by omega⟩
    refine ⟨fun i hi hle ↦ ?_, fun i hi hle htype ↦ ?_, fun i hi hle htype ↦ ?_, ?_⟩
    · obtain ⟨j, hj, rfl⟩ := hnext i hi hle
      exact (h j hj).1
    · obtain ⟨j, hj, rfl⟩ := hnext i hi hle
      exact ((h j hj).2 htype).1
    · obtain ⟨j, hj, rfl⟩ := hnext i hi hle
      exact fun k hk ↦ (((h j hj).2 htype).2 k hk).1
    · rintro v ⟨i, hi, hle, htype, k, hk, rfl, hne⟩
      obtain ⟨j, hj, rfl⟩ := hnext i hi hle
      exact (((h j hj).2 htype).2 k hk).2 hne

theorem scan_dirInode_iff (h : ScanInside img sb) (s : Arrays) (n : ℕ) :
    (s.scan img sb).dirInode n = true ↔ s.dirInode n = true ∨ Scanned img sb n := by
  have hfold : (s.scan img sb).dirInode n = true ↔ s.dirInode n = true ∨
      ∃ i ∈ List.range sb.ninodes.toNat, (img.inodeAt sb (i + 1)).type = T_DIR ∧
        ∃ k < 512 / 16, img.firstEntry (img.inodeAt sb (i + 1)) k ≠ 0 ∧
          (img.firstEntry (img.inodeAt sb (i + 1)) k).toNat = n :=
    foldl_iff (p := fun s ↦ Arrays.dirInode s n = true)
      (fun i _ s ↦ referToEntries_iff img (img.inodeAt sb (i + 1)) s n) s
  refine hfold.trans (or_congr_right ?_)
  constructor
  · rintro ⟨i, hi, htype, k, hk, hne, hn⟩
    rw [List.mem_range] at hi
    have hscanned : Scanned img sb (img.firstEntry (img.inodeAt sb (i + 1)) k) :=
      ⟨i + 1, by omega, by omega, htype, k, hk, rfl, hne⟩
    have heq : img.firstEntry (img.inodeAt sb (i + 1)) k = n := by
      rw [← hn, Int.toNat_of_nonneg (h.numbers _ hscanned).1]
    rwa [heq] at hscanned
  · rintro ⟨i, hi, hle, htype, k, hk, hn, hne⟩
    obtain ⟨j, rfl⟩ := Nat.exists_eq_succ_of_ne_zero (Nat.one_le_iff_ne_zero.mp hi)
    refine ⟨j, List.mem_range.mpr (by omega), htype, k, hk, by rwa [hn], ?_⟩
    rw [hn, Int.toNat_natCast]

theorem scan_inodeUse (s : Arrays) : (s.scan img sb).inodeUse = s.inodeUse := by
  refine foldl_keeps (g := Arrays.inodeUse) (fun i _ s ↦ ?_) s
  rw [Arrays.referToEntries]
  split
  · refine foldl_keeps (g := Arrays.inodeUse) (fun k _ s ↦ ?_) s
    rw [Arrays.referToEntry]
    split
    · rfl
    · rfl
  · rfl

end References

end CS537.FsCheck
