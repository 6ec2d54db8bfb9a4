import CS537.FsCheck.Bitmap
import Mathlib.Data.Set.Insert

/-!
# The cross-reference checks

The last checks compare the inodes in use with the inodes that the directories refer to.  Of every
directory they scan the 32 entries in its first block, whatever its size, and they scan the slot
behind the last inode as well.  This module determines on which images they are exact nevertheless.
-/

namespace CS537.FsCheck

open Foundation

section Statement

variable (img : Image) (sb : Superblock)

/-- The image passes the inode, directory and bitmap checks. -/
def Passes : Prop := ∃ inodes s, upToBitmap img Arrays.zero = .ok ((sb, inodes), s)

/-! ## The entries of a directory -/

section Entries

variable (inode : Dinode)

/-- The block that holds the data of an inode from byte `BSIZE * bn` on; zero if there is none. -/
def Image.dataBlockAt (bn : ℕ) : ℤ :=
  if bn < NDIRECT then inode.addrs bn
  else if bn < NDIRECT + NINDIRECT ∧ inode.addrs NDIRECT ≠ 0 then
    img.indirectAt inode (bn - NDIRECT)
  else 0

/-- The block of an entry. -/
def Image.entryBlock (k : ℕ) : ℤ := img.dataBlockAt inode (sizeofDirent * k / BSIZE)

def Image.entryOffset (k : ℕ) : ℕ :=
  blockOffset (img.entryBlock inode k) + sizeofDirent * k % BSIZE

/-- Entry `k` lies below the size of the directory and holds the inode number. -/
structure Image.HasEntry (k : ℕ) (v : ℤ) : Prop where
  size : (sizeofDirent * (k + 1) : ℤ) ≤ inode.size
  block : img.entryBlock inode k ≠ 0
  length : img.entryOffset inode k + sizeofDirent ≤ img.length
  inum : img.int16At (img.entryOffset inode k) = v

end Entries

/-- The numbers of the inodes in use. -/
def inUseNumbers : Set ℤ := {v | ∃ i : ℕ, InUse img sb i ∧ (i : ℤ) = v}

/-- The numbers in the entries of the directories in use. -/
def foundNumbers : Set ℤ := {v | v ≠ 0 ∧
  ∃ i, InUse img sb i ∧ (img.inodeAt sb i).type = T_DIR ∧ ∃ k, img.HasEntry (img.inodeAt sb i) k v}

/-- The numbers that the checker scans. -/
def scannedNumbers : Set ℤ := {v | Scanned img sb v}

def ReportsReferError : Prop := ∃ e, IsReferError e ∧ fscheck img = .error e

/-- Without a fault, an error is reported if and only if the inodes in use are not those that the
directories refer to. -/
def ReferencesExact : Prop :=
  fscheck img ≠ .error .fault ∧
    (ReportsReferError img ↔ inUseNumbers img sb ≠ foundNumbers img sb)

end Statement

variable {img : Image} {sb : Superblock}

/-! ## The run up to the multi-structure checks -/

/-- What an image has passed when its directories have been checked. -/
theorem upToDirectories_of_ok {inodes dataPtr : ℕ} {s : Arrays}
    (h : upToDirectories img Arrays.zero = .ok ((sb, inodes, dataPtr), s)) :
    img.superblockAt BSIZE = sb ∧ img.Prepared sb ∧ img.Recordable sb ∧
      (∀ i, InUse img sb i → img.Valid (img.inodeAt sb i)) ∧ PassesDirectoryChecks img sb := by
  obtain ⟨r, s₁, hprepare, h⟩ := exists_of_bind_ok h
  obtain ⟨hprepared, rfl, rfl⟩ := (prepare_acts img _ rfl).of_ok hprepare
  obtain ⟨⟨⟩, s₂, hindividual, h⟩ := exists_of_bind_ok h
  have hvalid (i : ℕ) := valid_of_individualChecks img _ hindividual (i := i)
  have hrecordable := ((inodeChecks_acts img _ hvalid).of_ok hindividual).1
  obtain ⟨⟨⟩, s₃, hdirectory, h⟩ := exists_of_bind_ok h
  have hpass := (directoryChecks_stateless img _ _).returns hdirectory Arrays.zero
  cases h
  exact ⟨rfl, hprepared, hrecordable, hvalid, Arrays.zero, hpass⟩

/-- What the inode, directory and bitmap checks accept. -/
structure Accepted (img : Image) (sb : Superblock) : Prop where
  superblock : img.superblockAt BSIZE = sb
  prepared : img.Prepared sb
  recordable : img.Recordable sb
  valid : ∀ i, InUse img sb i → img.Valid (img.inodeAt sb i)
  directories : PassesDirectoryChecks img sb
  bitmap : ¬MapDiffers sb (blockOffset sb.dataBegin / BSIZE) (recorded img sb)

theorem Accepted.run (h : Accepted img sb) :
    upToBitmap img Arrays.zero = .ok ((sb, blockOffset sb.inodestart), recorded img sb) := by
  have hfirst := (upToDirectories_acts img sb h.superblock h.valid h.directories).returns
    ⟨h.prepared, h.recordable⟩ Arrays.zero
  have hbitmap := (bitmapChecks_tests h.prepared.dataUse.1 (blockOffset sb.dataBegin)).passes _
    (recorded_mapRead img sb) h.bitmap
  exact (bind_of_ok hfirst).trans (bind_of_ok hbitmap)

theorem passes_iff : Passes img sb ↔ Accepted img sb := by
  refine ⟨?_, fun h ↦ ⟨_, _, h.run⟩⟩
  rintro ⟨inodes, s, h⟩
  obtain ⟨⟨sb', inodes', dataPtr⟩, s₁, hfirst, hrest⟩ := exists_of_bind_ok h
  obtain ⟨⟨⟩, s₂, hbitmap, hrest⟩ := exists_of_bind_ok hrest
  cases hrest
  obtain ⟨hsb, hprepared, hrecordable, hvalid, hdir⟩ := upToDirectories_of_ok hfirst
  obtain ⟨-, hr, rfl⟩ := (upToDirectories_acts img sb hsb hvalid hdir).of_ok hfirst
  cases hr
  refine ⟨hsb, hprepared, hrecordable, hvalid, hdir, fun hbad ↦ ?_⟩
  obtain ⟨e, hfail, -⟩ := (bitmapChecks_tests hprepared.dataUse.1 _).fails _
    (recorded_mapRead img sb) hbad
  exact nomatch hbitmap.symm.trans hfail

/-- An image that is well formed and free of faults passes if the bitmap and the inodes agree about
the blocks at which the checker looks. -/
theorem WellFormed.accepted (h : WellFormed img sb) (hno : NoOverflow img sb)
    (hinside : ∀ i, InUse img sb i → ∀ b ∈ img.blocks (img.inodeAt sb i), b < sb.nblocks)
    (hagree : ∀ b : ℕ, sb.dataBegin ≤ b → (b : ℤ) < sb.nblocks →
      (Refers img sb b ↔ Marked img sb b)) : Accepted img sb := by
  have hprepared := h.formatted.prepared_iff.mpr ⟨hno.data, hno.dmap⟩
  have hrecordable := h.recordable_iff.mpr ⟨hinside, hno.indirect⟩
  refine ⟨h.formatted.superblock, hprepared, hrecordable, h.valid, h.directories, fun hdiffer ↦ ?_⟩
  rcases (h.formatted.mapDiffers_iff hrecordable).mp hdiffer with ⟨k, hk, href, hmark⟩ |
    ⟨k, hge, hk, hmark, href⟩
  · have hge := Int.le_trans h.formatted.dataBegin_le (h.nmeta_le href)
    exact hmark ((hagree k hge hk).mp href)
  · exact href ((hagree k hge hk).mpr hmark)

/-! ## What is reported -/

/-- The numbers that are compared. -/
theorem inUse_eq_scanned_iff (h : ScanInside img sb) :
    inUseNumbers img sb = scannedNumbers img sb ↔
      ∀ i : ℕ, (i : ℤ) < sb.ninodes → (Scanned img sb i ↔ InUse img sb i) := by
  have hmem (i : ℕ) : (i : ℤ) ∈ inUseNumbers img sb ↔ InUse img sb i := by
    simp only [inUseNumbers, Set.mem_ofPred_eq, Int.natCast_inj, exists_eq_right]
  constructor
  · intro heq i _
    rw [← hmem, heq]
    exact Iff.rfl
  · intro hall
    ext v
    constructor
    · rintro ⟨i, hi, rfl⟩
      exact (hall i hi.2.1).mpr hi
    · intro hv
      obtain ⟨hnonneg, hlt⟩ := h.numbers v hv
      obtain ⟨i, rfl⟩ := Int.eq_ofNat_of_zero_le hnonneg
      exact (hmem i).mpr ((hall i hlt).mp hv)

/-- The arrays that are compared. -/
theorem differs_iff (h : ScanInside img sb) :
    (∃ i ∈ List.range sb.ninodes.toNat, ((recorded img sb).scan img sb).dirInode i ≠
      ((recorded img sb).scan img sb).inodeUse i) ↔
      inUseNumbers img sb ≠ scannedNumbers img sb := by
  have hdir (i : ℕ) : ((recorded img sb).scan img sb).dirInode i = true ↔ Scanned img sb i := by
    rw [scan_dirInode_iff img sb h, recorded_dirInode]
    simp
  have hdiffer (i : ℕ) : ((recorded img sb).scan img sb).dirInode i ≠
      ((recorded img sb).scan img sb).inodeUse i ↔ ¬(Scanned img sb i ↔ InUse img sb i) := by
    rw [← hdir, scan_inodeUse, ← recorded_inodeUse_iff, ← Bool.eq_iff_iff]
  rw [ne_eq, inUse_eq_scanned_iff h]
  simp only [hdiffer, not_forall, List.mem_range, exists_prop]
  exact exists_congr fun i ↦ and_congr_left fun _ ↦ by omega

/-- The run from the multi-structure checks on. -/
theorem Passes.main_eq (h : Passes img sb) : main img Arrays.zero =
    multiStructureChecks img sb (blockOffset sb.inodestart) (recorded img sb) :=
  bind_of_ok (passes_iff.mp h).run

/-- What is left of the run when the directories have been scanned. -/
theorem Passes.main_scanned (h : Passes img sb) (hscan : ScanInside img sb) :
    main img Arrays.zero = ((List.range sb.ninodes.toNat).forM fun i ↦ referCheck sb i)
      ((recorded img sb).scan img sb) :=
  h.main_eq.trans (bind_of_ok ((referNodes_acts img sb).returns hscan _))

theorem Passes.fault_of_not_scanInside (h : Passes img sb) (hn : ¬ScanInside img sb) :
    fscheck img = .error .fault := by
  rw [fscheck_eq_error_iff, h.main_eq]
  exact bind_of_error ((referNodes_acts img sb).fails hn _)

/-- Inside of the file and the arrays the checks compare the scanned numbers with the inodes. -/
theorem Passes.reports_iff (h : Passes img sb) (hscan : ScanInside img sb) :
    fscheck img ≠ .error .fault ∧
      (ReportsReferError img ↔ inUseNumbers img sb ≠ scannedNumbers img sb) := by
  have htests : Tests (fun _ ↦ True) _ _ _ := @referChecks_tests sb (fun _ ↦ True)
  rw [← differs_iff hscan, ne_eq, ReportsReferError]
  simp only [fscheck_eq_error_iff, h.main_scanned hscan]
  by_cases hbad : ∃ i ∈ List.range sb.ninodes.toNat, ((recorded img sb).scan img sb).dirInode i ≠
      ((recorded img sb).scan img sb).inodeUse i
  · obtain ⟨e, hrun, he⟩ := htests.fails _ trivial hbad
    rw [hrun]
    refine ⟨fun hfault ↦ ?_, iff_of_true ⟨e, he, rfl⟩ hbad⟩
    obtain rfl := Except.error.inj hfault
    rcases he with he | he
    · exact nomatch he
    · exact nomatch he
  · rw [htests.passes _ trivial hbad]
    refine ⟨fun hfault ↦ (nomatch hfault), iff_of_false ?_ hbad⟩
    rintro ⟨e, -, he⟩
    exact nomatch he

/-! ## When the checks are exact -/

/-- The checks are exact if and only if the scan stays inside the file and the arrays, and the
numbers that it meets are those in the directories, or both differ from the inodes in use. -/
theorem references_exact_iff (h : Passes img sb) :
    ReferencesExact img sb ↔ ScanInside img sb ∧
      (scannedNumbers img sb = foundNumbers img sb ∨
        inUseNumbers img sb ≠ scannedNumbers img sb ∧
          inUseNumbers img sb ≠ foundNumbers img sb) := by
  have hsets (u s f : Set ℤ) : (u ≠ s ↔ u ≠ f) ↔ s = f ∨ u ≠ s ∧ u ≠ f := by
    constructor
    · intro hiff
      by_cases hs : u = s
      · have hf : u = f := by_contra fun hf ↦ hiff.mpr hf hs
        exact .inl (hs.symm.trans hf)
      · exact .inr ⟨hs, hiff.mp hs⟩
    · rintro (rfl | ⟨hs, hf⟩)
      · exact Iff.rfl
      · exact iff_of_true hs hf
  constructor
  · rintro ⟨hfault, hreport⟩
    have hscan : ScanInside img sb := by_contra fun hn ↦ hfault (h.fault_of_not_scanInside hn)
    rw [(h.reports_iff hscan).2, hsets] at hreport
    exact ⟨hscan, hreport⟩
  · rintro ⟨hscan, hnumbers⟩
    obtain ⟨hfault, hreport⟩ := h.reports_iff hscan
    rw [← hsets, ← hreport] at hnumbers
    exact ⟨hfault, hnumbers⟩

/-! ## A directory of two blocks -/

section Disk

variable {entry : UInt8}

theorem sampleDisk_passes (hentry : entry = 0 ∨ entry = 2) :
    Passes (sampleDisk 0 entry) sampleLayout := by
  have hdir : PassesDirectoryChecks (sampleDisk 0 entry) sampleLayout := by
    rcases hentry with rfl | rfl <;> decide +kernel
  have hmarked : ∀ b < 8, Marked (sampleDisk 0 entry) sampleLayout b ↔ b < 6 := by
    rcases hentry with rfl | rfl <;> decide +kernel
  refine passes_iff.mpr ((sampleDisk_wellFormed hdir).accepted sampleDisk_noOverflow
    (fun i hi b hb ↦ (sampleDisk_inside hi b hb).2) fun b hge hlt ↦ ?_)
  have hbegin : sampleLayout.dataBegin = 4 := by decide
  have hnblocks : sampleLayout.nblocks = 8 := rfl
  rw [sampleDisk_refers_iff, hmarked b (by omega)]
  omega

theorem sampleDisk_isDir_iff {i : ℕ} (hi : 1 ≤ i) (hle : (i : ℤ) ≤ sampleLayout.ninodes) :
    ((sampleDisk 0 entry).inodeAt sampleLayout i).type = T_DIR ↔ i = 1 := by
  have hninodes : sampleLayout.ninodes = 3 := rfl
  obtain rfl | rfl | rfl : i = 1 ∨ i = 2 ∨ i = 3 := by omega
  · exact iff_of_true rfl rfl
  · exact iff_of_false (show ¬(2 : ℤ) = 1 by decide) (by decide)
  · exact iff_of_false (show ¬(0 : ℤ) = 1 by decide) (by decide)

theorem sampleDisk_inUse (entry : UInt8) :
    inUseNumbers (sampleDisk 0 entry) sampleLayout = {1, 2} := by
  ext v
  simp only [inUseNumbers, sampleDisk_inUse_iff, Set.mem_ofPred_eq, or_and_right, exists_or,
    exists_eq_left, Set.mem_insert_iff, Set.mem_singleton_iff]
  omega

section Root

variable (entry) in
/-- The root directory. -/
abbrev sampleRoot : Dinode := (sampleDisk 0 entry).inodeAt sampleLayout 1

theorem sampleDisk_hasEntry_iff (hentry : entry = 0 ∨ entry = 2) {k : ℕ} {v : ℤ} :
    (sampleDisk 0 entry).HasEntry (sampleRoot entry) k v ↔ k < 33 ∧
      (sampleDisk 0 entry).int16At
        ((sampleDisk 0 entry).entryOffset (sampleRoot entry) k) = v := by
  have hinside : ∀ k < 33, (sampleDisk 0 entry).entryBlock (sampleRoot entry) k ≠ 0 ∧
      (sampleDisk 0 entry).entryOffset (sampleRoot entry) k + sizeofDirent ≤
        (sampleDisk 0 entry).length := by
    rcases hentry with rfl | rfl <;> decide +kernel
  have hsize (k : ℕ) : (sizeofDirent * (k + 1) : ℤ) ≤ (sampleRoot entry).size ↔ k < 33 := by
    rw [sampleDisk_size, sizeofDirent]
    omega
  constructor
  · exact fun h ↦ ⟨(hsize k).mp h.size, h.inum⟩
  · rintro ⟨hk, hinum⟩
    exact ⟨(hsize k).mpr hk, (hinside k hk).1, (hinside k hk).2, hinum⟩

theorem sampleDisk_found (hentry : entry = 0 ∨ entry = 2) :
    foundNumbers (sampleDisk 0 entry) sampleLayout = {1, 2} := by
  have hall : ∀ k < 33, (sampleDisk 0 entry).int16At
      ((sampleDisk 0 entry).entryOffset (sampleRoot entry) k) ∈ [0, 1, 2] := by
    rcases hentry with rfl | rfl <;> decide +kernel
  have hends : (sampleDisk 0 entry).int16At
        ((sampleDisk 0 entry).entryOffset (sampleRoot entry) 0) = 1 ∧
      (sampleDisk 0 entry).int16At
        ((sampleDisk 0 entry).entryOffset (sampleRoot entry) 32) = 2 := by
    rcases hentry with rfl | rfl <;> decide +kernel
  have hroot : InUse (sampleDisk 0 entry) sampleLayout 1 ∧ (sampleRoot entry).type = T_DIR :=
    ⟨sampleDisk_inUse_iff.mpr (.inl rfl), rfl⟩
  ext v
  simp only [foundNumbers, Set.mem_ofPred_eq, Set.mem_insert_iff, Set.mem_singleton_iff]
  constructor
  · rintro ⟨hne, i, hi, htype, k, hk⟩
    obtain rfl := (sampleDisk_isDir_iff hi.1 (Int.le_of_lt hi.2.1)).mp htype
    obtain ⟨hlt, rfl⟩ := (sampleDisk_hasEntry_iff hentry).mp hk
    have hmem := hall k hlt
    simp only [List.mem_cons, List.not_mem_nil, or_false] at hmem
    exact hmem.resolve_left hne
  · rintro (rfl | rfl)
    · exact ⟨by decide, 1, hroot.1, hroot.2, 0,
        (sampleDisk_hasEntry_iff hentry).mpr ⟨by decide, hends.1⟩⟩
    · exact ⟨by decide, 1, hroot.1, hroot.2, 32,
        (sampleDisk_hasEntry_iff hentry).mpr ⟨by decide, hends.2⟩⟩

theorem sampleDisk_scanned_iff {v : ℤ} : Scanned (sampleDisk 0 entry) sampleLayout v ↔
    ∃ k < 512 / 16, (sampleDisk 0 entry).firstEntry (sampleRoot entry) k = v ∧ v ≠ 0 := by
  constructor
  · rintro ⟨i, hi, hle, htype, hk⟩
    obtain rfl := (sampleDisk_isDir_iff hi hle).mp htype
    exact hk
  · exact fun hk ↦ ⟨1, le_rfl, by decide, rfl, hk⟩

theorem sampleDisk_scanInside (hentry : entry = 0 ∨ entry = 2) :
    ScanInside (sampleDisk 0 entry) sampleLayout := by
  have hinside : ∀ k < 512 / 16, blockOffset ((sampleRoot entry).addrs 0) + sizeofDirent * k + 2 ≤
      (sampleDisk 0 entry).length := by
    rcases hentry with rfl | rfl <;> decide +kernel
  have hall : ∀ k < 512 / 16, 0 ≤ (sampleDisk 0 entry).firstEntry (sampleRoot entry) k ∧
      (sampleDisk 0 entry).firstEntry (sampleRoot entry) k < 3 := by
    rcases hentry with rfl | rfl <;> decide +kernel
  refine ⟨fun i hi hle ↦ ?_, fun i hi hle htype ↦ ?_, fun i hi hle htype ↦ ?_, fun v hv ↦ ?_⟩
  · have hinodes : ∀ i ≤ 3, sampleLayout.inodePtr i + sizeofDinode ≤ 12 * BSIZE := by decide
    exact hinodes i (Int.ofNat_le.mp hle)
  · obtain rfl := (sampleDisk_isDir_iff hi hle).mp htype
    exact ⟨show (0 : ℤ) ≤ 4 by decide, show (4 : ℤ) * BSIZE < intBound by decide⟩
  · obtain rfl := (sampleDisk_isDir_iff hi hle).mp htype
    exact hinside
  · obtain ⟨k, hk, rfl, -⟩ := sampleDisk_scanned_iff.mp hv
    exact hall k hk

end Root

/-- The checker reports that inode 2 is not in a directory, but the last entry refers to it. -/
theorem references_miss_second_block : Passes (sampleDisk 0 0) sampleLayout ∧
    ¬(ReportsReferError (sampleDisk 0 0) ↔ inUseNumbers (sampleDisk 0 0) sampleLayout ≠
      foundNumbers (sampleDisk 0 0) sampleLayout) := by
  have hpasses : Passes (sampleDisk 0 0) sampleLayout := sampleDisk_passes (.inl rfl)
  have hreport := (hpasses.reports_iff (sampleDisk_scanInside (.inl rfl))).2
  refine ⟨hpasses, fun h ↦ ?_⟩
  have hsame : inUseNumbers (sampleDisk 0 0) sampleLayout =
      foundNumbers (sampleDisk 0 0) sampleLayout := by
    rw [sampleDisk_inUse, sampleDisk_found (.inl rfl)]
  refine h.mp (hreport.mpr fun heq ↦ ?_) hsame
  have hscanned : (2 : ℤ) ∈ scannedNumbers (sampleDisk 0 0) sampleLayout := by
    rw [← heq, sampleDisk_inUse]
    exact .inr rfl
  obtain ⟨k, hk, hentry, -⟩ := sampleDisk_scanned_iff.mp hscanned
  have hnone : ∀ k < 512 / 16, (sampleDisk 0 0).firstEntry (sampleRoot 0) k ≠ 2 := by
    decide +kernel
  exact hnone k hk hentry

theorem references_exact_one_block : ReferencesExact (sampleDisk 0 2) sampleLayout := by
  refine (references_exact_iff (sampleDisk_passes (.inr rfl))).mpr
    ⟨sampleDisk_scanInside (.inr rfl), .inl ?_⟩
  rw [sampleDisk_found (.inr rfl)]
  have hall : ∀ k < 512 / 16, (sampleDisk 0 2).firstEntry (sampleRoot 2) k ∈ [0, 1, 2] := by
    decide +kernel
  ext v
  simp only [scannedNumbers, Set.mem_ofPred_eq, Set.mem_insert_iff, Set.mem_singleton_iff,
    sampleDisk_scanned_iff]
  constructor
  · rintro ⟨k, hk, rfl, hne⟩
    have hmem := hall k hk
    simp only [List.mem_cons, List.not_mem_nil, or_false] at hmem
    exact hmem.resolve_left hne
  · rintro (rfl | rfl)
    · exact ⟨0, by decide, rfl, by decide⟩
    · exact ⟨2, by decide, rfl, by decide⟩

end Disk

end CS537.FsCheck
