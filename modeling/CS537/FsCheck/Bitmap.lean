import CS537.FsCheck.Recorded

/-!
# The bitmap checks

On an image whose layout is the one of `mkfs` the bitmap checks are meant to find every data block
on which the bitmap and the inodes disagree.  They look at the blocks below the number of data blocks
only, while the data blocks lie behind the meta blocks, and they take the data area to begin behind a
bitmap of the data blocks.  This module determines on which images they are exact nevertheless.
-/

namespace CS537.FsCheck

open Foundation

section Statement

variable (img : Image) (sb : Superblock)

/-- The layout is the one of `mkfs`, the inodes in use are valid and refer to data blocks, and the
directories pass their checks. -/
structure WellFormed : Prop where
  formatted : Formatted img sb
  valid : ∀ i, InUse img sb i → img.Valid (img.inodeAt sb i)
  blocks : ∀ i, InUse img sb i → ∀ b ∈ img.blocks (img.inodeAt sb i), sb.nmeta ≤ b ∧ b < sb.size
  directories : PassesDirectoryChecks img sb

/-- The bitmap and the inodes disagree about a block. -/
def Disagrees (b : ℕ) : Prop :=
  (Refers img sb b ∧ ¬Marked img sb b) ∨ (Marked img sb b ∧ ¬Refers img sb b)

def ReportsBitmapError : Prop := ∃ e, IsBitmapError e ∧ fscheck img = .error e

/-- Without a fault up to the end of the bitmap checks, an error is reported if and only if the
bitmap and the inodes disagree about a data block. -/
def BitmapExact : Prop :=
  upToBitmap img Arrays.zero ≠ .error .fault ∧
    (ReportsBitmapError img ↔
      ∃ b : ℕ, sb.nmeta ≤ b ∧ (b : ℤ) < sb.size ∧ Disagrees img sb b)

/-- The products that the checker computes fit into an `int`. -/
structure NoOverflow : Prop where
  data : sb.dataBegin * BSIZE < intBound
  dmap : sb.mapLength < intBound
  indirect : ∀ i, InUse img sb i → (img.inodeAt sb i).addrs NDIRECT * BSIZE < intBound

end Statement

variable {img : Image} {sb : Superblock}

/-! ## Faults -/

theorem Formatted.prepared_iff (h : Formatted img sb) :
    img.Prepared sb ↔ sb.dataBegin * BSIZE < intBound ∧ sb.mapLength < intBound := by
  refine ⟨fun hp ↦ ⟨hp.data.2, hp.dmap.2⟩, fun hlt ↦ ?_⟩
  have hinodestart := h.inodestart_nonneg
  have hle := h.inodestart_le
  have hpos := h.bmapstart_pos
  have hbegin := h.bmapstart_lt_dataBegin
  have hnblocks := h.nblocks_nonneg
  have hmap := lt_mapLength sb hnblocks
  obtain ⟨hdata, hdmap⟩ := hlt
  rw [BSIZE_eq] at hdata
  constructor
  case superblock => exact h.superblock_le
  case inodes => exact ⟨hinodestart, by rw [BSIZE_eq]; omega⟩
  case data => exact ⟨by omega, hdata⟩
  case dmap => exact ⟨by omega, hdmap⟩
  case dataUse => exact ⟨hnblocks, by omega⟩
  case inodeUse => exact ⟨h.ninodes, h.ninodes_lt⟩
  case bitmap => exact ⟨⟨by omega, by rw [BSIZE_eq]; omega⟩, fun k hk ↦ h.bitmap_le (by omega)⟩

namespace WellFormed

variable (h : WellFormed img sb)
include h

theorem block_nonneg {i : ℕ} (hi : InUse img sb i) {b : ℤ}
    (hb : b ∈ img.blocks (img.inodeAt sb i)) : 0 ≤ b := by
  have hpos := h.formatted.bmapstart_pos
  have hsize := h.formatted.size_pos
  have hle := (h.blocks i hi b hb).1
  rw [Superblock.nmeta, BPB_eq] at hle
  omega

theorem recordable_iff : img.Recordable sb ↔
    (∀ i, InUse img sb i → ∀ b ∈ img.blocks (img.inodeAt sb i), b < sb.nblocks) ∧
      ∀ i, InUse img sb i → (img.inodeAt sb i).addrs NDIRECT * BSIZE < intBound := by
  constructor
  · intro hr
    refine ⟨fun i hi b hb ↦ ((hr.inside i hi).1 b hb).2, fun i hi ↦ ?_⟩
    by_cases hzero : (img.inodeAt sb i).addrs NDIRECT = 0
    · rw [hzero]
      decide
    · exact ((hr.inside i hi).2 hzero).1
  · rintro ⟨hblocks, hindirect⟩
    refine ⟨fun i hi hlt ↦ ?_, fun i hi ↦ ⟨fun b hb ↦ ⟨h.block_nonneg hi hb, hblocks i hi b hb⟩,
      fun hne ↦ ⟨hindirect i hi, ?_⟩⟩⟩
    · exact h.formatted.inode_le (Int.le_of_lt hlt)
    · have hmem : (img.inodeAt sb i).addrs NDIRECT ∈ img.blocks (img.inodeAt sb i) := by
        simp [Image.blocks, hne]
      exact h.formatted.blockOffset_add_le (h.block_nonneg hi hmem) (h.blocks i hi _ hmem).2

/-- The run up to the directory checks. -/
theorem acts : Acts (upToDirectories img) (NoOverflow img sb ∧
      ∀ i, InUse img sb i → ∀ b ∈ img.blocks (img.inodeAt sb i), b < sb.nblocks)
    (sb, blockOffset sb.inodestart, blockOffset sb.dataBegin)
    (fun s ↦ (s.withMap 0 sb.nblocks.toNat (img.bitAt sb)).record img sb) .fault := by
  refine Acts.congr (upToDirectories_acts img sb h.formatted.superblock h.valid h.directories)
    ?_ fun s ↦ rfl
  rw [h.formatted.prepared_iff, h.recordable_iff]
  constructor
  · rintro ⟨hno, hblocks⟩
    exact ⟨⟨hno.data, hno.dmap⟩, hblocks, hno.indirect⟩
  · rintro ⟨⟨hdata, hdmap⟩, hblocks, hindirect⟩
    exact ⟨⟨hdata, hdmap, hindirect⟩, hblocks⟩

end WellFormed

/-! ## What is reported -/

theorem multiStructureChecks_raises (img : Image) (sb : Superblock) :
    Raises (multiStructureChecks img sb (blockOffset sb.inodestart)) (¬IsBitmapError ·) := by
  refine Raises.bind (.of_acts (referNodes_acts img sb) ?_) fun _ ↦
    (Raises.of_tests referChecks_tests).weaken ?_
  · rintro (h | h)
    · exact nomatch h
    · exact nomatch h
  · rintro e (rfl | rfl) (h | h)
    all_goals exact absurd h (by decide)

/-- The run from the bitmap checks on. -/
theorem reports_iff_of_ok (h : upToDirectories img Arrays.zero =
    .ok ((sb, blockOffset sb.inodestart, blockOffset sb.dataBegin), recorded img sb))
    (hnblocks : 0 ≤ sb.nblocks) :
    upToBitmap img Arrays.zero ≠ .error .fault ∧ (ReportsBitmapError img ↔
      MapDiffers sb (blockOffset sb.dataBegin / BSIZE) (recorded img sb)) := by
  have htests := bitmapChecks_tests hnblocks (blockOffset sb.dataBegin)
  have hread := recorded_mapRead img sb
  have hfirst : upToBitmap img Arrays.zero = _ := bind_of_ok h
  refine ⟨fun hfault ↦ ?_, fun hreport ↦ ?_, fun hbad ↦ ?_⟩
  · by_cases hbad : MapDiffers sb (blockOffset sb.dataBegin / BSIZE) (recorded img sb)
    · obtain ⟨e, hrun, he⟩ := htests.fails _ hread hbad
      have hstop := hfirst.trans (bind_of_error hrun)
      obtain rfl := Except.error.inj (hstop.symm.trans hfault)
      rcases he with he | he
      · exact nomatch he
      · exact nomatch he
    · exact nomatch (hfirst.trans (bind_of_ok (htests.passes _ hread hbad))).symm.trans hfault
  · by_contra hgood
    obtain ⟨e, he, hrun⟩ := hreport
    rw [fscheck_eq_error_iff] at hrun
    have hpass := hfirst.trans (bind_of_ok (htests.passes _ hread hgood))
    have hmain : main img Arrays.zero =
        multiStructureChecks img sb (blockOffset sb.inodestart) (recorded img sb) :=
      bind_of_ok hpass
    exact multiStructureChecks_raises img sb _ e (hmain.symm.trans hrun) he
  · obtain ⟨e, hrun, he⟩ := htests.fails _ hread hbad
    exact ⟨e, he, fscheck_eq_error_iff.mpr
      (bind_of_error (hfirst.trans (bind_of_error hrun)))⟩

/-- The blocks at which the loops of the checker look. -/
theorem Formatted.mapDiffers_iff (h : Formatted img sb) (hr : img.Recordable sb) :
    MapDiffers sb (blockOffset sb.dataBegin / BSIZE) (recorded img sb) ↔
      (∃ k : ℕ, (k : ℤ) < sb.nblocks ∧ Refers img sb k ∧ ¬Marked img sb k) ∨
        ∃ k : ℕ, sb.dataBegin ≤ k ∧ (k : ℤ) < sb.nblocks ∧ Marked img sb k ∧
          ¬Refers img sb k := by
  have hused := recorded_dataUse_iff img sb hr
  have hunused (k : ℕ) : (recorded img sb).dataUse k = false ↔ ¬Refers img sb k := by
    rw [← hused, Bool.not_eq_true]
  have hmap (k : ℕ) (hk : (k : ℤ) < sb.nblocks) : (recorded img sb).dmap k = img.bitAt sb k := by
    rw [recorded_dmap, if_pos hk]
  have hbegin (k : ℕ) : blockOffset sb.dataBegin / BSIZE ≤ k ↔ sb.dataBegin ≤ k := by
    have hpos := h.bmapstart_pos
    have hlt := h.bmapstart_lt_dataBegin
    rw [blockOffset, BSIZE_eq]
    omega
  refine or_congr ?_ ?_
  · refine exists_congr fun k ↦ and_congr_right fun hk ↦ ?_
    rw [hused, hmap k hk, Marked, not_not]
  · refine exists_congr fun k ↦ (and_congr (hbegin k) (and_congr_right fun hk ↦ ?_))
    rw [hunused, hmap k hk, Marked]

theorem WellFormed.reports_iff (h : WellFormed img sb) (hno : NoOverflow img sb)
    (hinside : ∀ i, InUse img sb i → ∀ b ∈ img.blocks (img.inodeAt sb i), b < sb.nblocks) :
    upToBitmap img Arrays.zero ≠ .error .fault ∧ (ReportsBitmapError img ↔
      (∃ k : ℕ, (k : ℤ) < sb.nblocks ∧ Refers img sb k ∧ ¬Marked img sb k) ∨
        ∃ k : ℕ, sb.dataBegin ≤ k ∧ (k : ℤ) < sb.nblocks ∧ Marked img sb k ∧
          ¬Refers img sb k) := by
  have hrun := h.acts.returns ⟨hno, hinside⟩ Arrays.zero
  rw [← h.formatted.mapDiffers_iff (h.recordable_iff.mpr ⟨hinside, hno.indirect⟩)]
  exact reports_iff_of_ok hrun h.formatted.nblocks_nonneg

/-! ## When the checks are exact -/

theorem or_iff_or_iff_left {p q r : Prop} : ((p ∨ q) ↔ (p ∨ r)) ↔ p ∨ (q ↔ r) := by
  by_cases hp : p
  · simp only [hp, true_or]
  · simp only [hp, false_or]

namespace WellFormed

variable (h : WellFormed img sb)
include h

theorem nmeta_le {b : ℕ} (hb : Refers img sb b) : sb.nmeta ≤ b := by
  obtain ⟨i, hi, hmem⟩ := hb
  exact (h.blocks i hi b hmem).1

/-- What the checker finds. -/
theorem found_iff : ((∃ k : ℕ, (k : ℤ) < sb.nblocks ∧ Refers img sb k ∧ ¬Marked img sb k) ∨
      ∃ k : ℕ, sb.dataBegin ≤ k ∧ (k : ℤ) < sb.nblocks ∧ Marked img sb k ∧ ¬Refers img sb k) ↔
    (∃ b : ℕ, sb.nmeta ≤ b ∧ (b : ℤ) < sb.nblocks ∧ Disagrees img sb b) ∨
      ∃ b : ℕ, sb.dataBegin ≤ b ∧ (b : ℤ) < sb.nmeta ∧ (b : ℤ) < sb.nblocks ∧
        Marked img sb b := by
  have hbegin := h.formatted.dataBegin_le
  constructor
  · rintro (⟨k, hk, href, hmark⟩ | ⟨k, hge, hk, hmark, href⟩)
    · exact .inl ⟨k, h.nmeta_le href, hk, .inl ⟨href, hmark⟩⟩
    · by_cases hmeta : sb.nmeta ≤ k
      · exact .inl ⟨k, hmeta, hk, .inr ⟨hmark, href⟩⟩
      · exact .inr ⟨k, hge, Int.not_le.mp hmeta, hk, hmark⟩
  · rintro (⟨b, hmeta, hb, hdis | hdis⟩ | ⟨b, hge, hmeta, hb, hmark⟩)
    · exact .inl ⟨b, hb, hdis⟩
    · exact .inr ⟨b, Int.le_trans hbegin hmeta, hb, hdis⟩
    · exact .inr ⟨b, hge, hb, hmark, fun href ↦ Int.not_le.mpr hmeta (h.nmeta_le href)⟩

/-- What it ought to find. -/
theorem disagrees_iff (hinside : ∀ i, InUse img sb i → ∀ b ∈ img.blocks (img.inodeAt sb i),
    b < sb.nblocks) : (∃ b : ℕ, sb.nmeta ≤ b ∧ (b : ℤ) < sb.size ∧ Disagrees img sb b) ↔
    (∃ b : ℕ, sb.nmeta ≤ b ∧ (b : ℤ) < sb.nblocks ∧ Disagrees img sb b) ∨
      ∃ b : ℕ, sb.nmeta ≤ b ∧ sb.nblocks ≤ b ∧ (b : ℤ) < sb.size ∧ Marked img sb b := by
  have hlt {b : ℕ} (hb : Refers img sb b) : (b : ℤ) < sb.nblocks := by
    obtain ⟨i, hi, hmem⟩ := hb
    exact hinside i hi b hmem
  have hsize : sb.nblocks ≤ sb.size := by
    have hpos := h.formatted.bmapstart_pos
    have hbegin := h.formatted.bmapstart_lt_dataBegin
    have hnmeta := h.formatted.dataBegin_le
    have hnblocks := h.formatted.nblocks
    omega
  constructor
  · rintro ⟨b, hmeta, hb, hdis⟩
    by_cases hseen : (b : ℤ) < sb.nblocks
    · exact .inl ⟨b, hmeta, hseen, hdis⟩
    · rcases hdis with ⟨href, -⟩ | ⟨hmark, -⟩
      · exact absurd (hlt href) hseen
      · exact .inr ⟨b, hmeta, Int.not_lt.mp hseen, hb, hmark⟩
  · rintro (⟨b, hmeta, hb, hdis⟩ | ⟨b, hmeta, hge, hb, hmark⟩)
    · exact ⟨b, hmeta, Int.lt_of_lt_of_le hb hsize, hdis⟩
    · exact ⟨b, hmeta, hb, .inr ⟨hmark, fun href ↦ Int.not_lt.mpr hge (hlt href)⟩⟩

end WellFormed

/-- The checks are exact if and only if no product overflows, no inode refers to a block with a
number from the number of data blocks on, and what the checker overlooks makes no difference: it
finds a disagreement in the part of the data area that it looks at, or it takes a meta block for an
unused data block that is marked just when there is such a block behind that part. -/
theorem bitmap_exact_iff (h : WellFormed img sb) :
    BitmapExact img sb ↔ NoOverflow img sb ∧
      (∀ i, InUse img sb i → ∀ b ∈ img.blocks (img.inodeAt sb i), b < sb.nblocks) ∧
      ((∃ b : ℕ, sb.nmeta ≤ b ∧ (b : ℤ) < sb.nblocks ∧ Disagrees img sb b) ∨
        ((∃ b : ℕ, sb.dataBegin ≤ b ∧ (b : ℤ) < sb.nmeta ∧ (b : ℤ) < sb.nblocks ∧
            Marked img sb b) ↔
          ∃ b : ℕ, sb.nmeta ≤ b ∧ sb.nblocks ≤ b ∧ (b : ℤ) < sb.size ∧ Marked img sb b)) := by
  constructor
  · rintro ⟨hfault, hreport⟩
    obtain ⟨hno, hinside⟩ : NoOverflow img sb ∧
        ∀ i, InUse img sb i → ∀ b ∈ img.blocks (img.inodeAt sb i), b < sb.nblocks := by
      by_contra hn
      exact hfault (bind_of_error (h.acts.fails hn Arrays.zero))
    refine ⟨hno, hinside, ?_⟩
    rwa [(h.reports_iff hno hinside).2, h.found_iff, h.disagrees_iff hinside,
      or_iff_or_iff_left] at hreport
  · rintro ⟨hno, hinside, hmissed⟩
    obtain ⟨hfault, hreport⟩ := h.reports_iff hno hinside
    refine ⟨hfault, ?_⟩
    rwa [hreport, h.found_iff, h.disagrees_iff hinside, or_iff_or_iff_left]

/-! ## A disk of 12 blocks -/

/-- A disk with a file and a root directory of 33 entries in the blocks 4 and 5.  The last entry
refers to the file.  The bits of the blocks from 8 on and the third entry are parameters. -/
def sampleDisk (map entry : UInt8) : Image where
  length := 12 * BSIZE
  bytes
    -- the super block
    | 512 => 12
    | 516 => 8
    | 520 => 3
    | 528 => 2
    | 532 => 2
    | 536 => 3
    -- inode 1
    | 1088 => 1
    | 1096 => 16
    | 1097 => 2
    | 1100 => 4
    | 1104 => 5
    -- inode 2
    | 1152 => 2
    -- the bitmap
    | 1536 => 63
    | 1537 => map
    -- the root directory
    | 2048 => 1
    | 2064 => 1
    | 2080 => entry
    | 2560 => 2
    | _ => 0

def sampleLayout : Superblock where
  size := 12
  nblocks := 8
  ninodes := 3
  nlog := 0
  logstart := 2
  inodestart := 2
  bmapstart := 3

section Disk

variable {map entry : UInt8}

theorem sampleDisk_inUse_iff {i : ℕ} :
    InUse (sampleDisk map entry) sampleLayout i ↔ i = 1 ∨ i = 2 := by
  constructor
  · rintro ⟨hi, hlt, -⟩
    have hninodes : sampleLayout.ninodes = 3 := rfl
    omega
  · rintro (rfl | rfl)
    · exact ⟨le_rfl, by decide, show (1 : ℤ) ≠ 0 by decide⟩
    · exact ⟨by decide, by decide, show (2 : ℤ) ≠ 0 by decide⟩

theorem sampleDisk_blocks (map entry : UInt8) :
    (sampleDisk map entry).blocks ((sampleDisk map entry).inodeAt sampleLayout 1) = [4, 5] ∧
      (sampleDisk map entry).blocks ((sampleDisk map entry).inodeAt sampleLayout 2) = [] :=
  ⟨rfl, rfl⟩

theorem sampleDisk_refers_iff {b : ℕ} :
    Refers (sampleDisk map entry) sampleLayout b ↔ b = 4 ∨ b = 5 := by
  obtain ⟨hroot, hfile⟩ := sampleDisk_blocks map entry
  simp only [Refers, sampleDisk_inUse_iff, or_and_right, exists_or, exists_eq_left, hroot, hfile,
    List.mem_cons, List.not_mem_nil, or_false]
  omega

theorem sampleDisk_inside {i : ℕ} (hi : InUse (sampleDisk map entry) sampleLayout i) :
    ∀ b ∈ (sampleDisk map entry).blocks ((sampleDisk map entry).inodeAt sampleLayout i),
      sampleLayout.nmeta ≤ b ∧ b < sampleLayout.nblocks := by
  obtain ⟨hroot, hfile⟩ := sampleDisk_blocks map entry
  rcases sampleDisk_inUse_iff.mp hi with rfl | rfl
  · rw [hroot]
    decide
  · rw [hfile]
    decide

theorem sampleDisk_noOverflow : NoOverflow (sampleDisk map entry) sampleLayout := by
  refine ⟨by decide, by decide, fun i hi ↦ ?_⟩
  have hindirect : ((sampleDisk map entry).inodeAt sampleLayout i).addrs NDIRECT = 0 := by
    rcases sampleDisk_inUse_iff.mp hi with rfl | rfl
    · rfl
    · rfl
  rw [hindirect]
  decide

set_option maxRecDepth 4096 in
theorem sampleDisk_size (map entry : UInt8) :
    ((sampleDisk map entry).inodeAt sampleLayout 1).size = 528 := rfl

theorem sampleDisk_valid {i : ℕ} (hi : InUse (sampleDisk map entry) sampleLayout i) :
    (sampleDisk map entry).Valid ((sampleDisk map entry).inodeAt sampleLayout i) := by
  rcases sampleDisk_inUse_iff.mp hi with rfl | rfl
  · have hsize := sampleDisk_size map entry
    have hdata : (sampleDisk map entry).dataBlocks
        ((sampleDisk map entry).inodeAt sampleLayout 1) = [4, 5] := rfl
    refine ⟨.inl rfl, ?_, ?_⟩
    · rw [hsize, hdata]
      decide
    · rw [hsize, hdata]
      decide
  · have hsize : ((sampleDisk map entry).inodeAt sampleLayout 2).size = 0 := rfl
    have hdata : (sampleDisk map entry).dataBlocks
        ((sampleDisk map entry).inodeAt sampleLayout 2) = [] := rfl
    refine ⟨.inr (.inl rfl), ?_, ?_⟩
    · rw [hsize, hdata]
      decide
    · rw [hsize, hdata]
      decide

theorem sampleDisk_wellFormed
    (h : PassesDirectoryChecks (sampleDisk map entry) sampleLayout) :
    WellFormed (sampleDisk map entry) sampleLayout := by
  refine ⟨⟨rfl, rfl, by decide, by decide, rfl, by decide, by decide, by decide, by decide⟩,
    fun i hi ↦ sampleDisk_valid hi, fun i hi b hb ↦ ?_, h⟩
  obtain ⟨hge, hlt⟩ := sampleDisk_inside hi b hb
  exact ⟨hge, Int.lt_trans hlt (by decide)⟩

end Disk

/-- No inode refers to block 10, but its bit is set; no error is reported. -/
theorem bitmap_misses_last_blocks : WellFormed (sampleDisk 4 2) sampleLayout ∧
    ¬(ReportsBitmapError (sampleDisk 4 2) ↔ ∃ b : ℕ, sampleLayout.nmeta ≤ b ∧
      (b : ℤ) < sampleLayout.size ∧ Disagrees (sampleDisk 4 2) sampleLayout b) := by
  have hwell : WellFormed (sampleDisk 4 2) sampleLayout :=
    sampleDisk_wellFormed (by decide +kernel)
  refine ⟨hwell, fun h ↦ ?_⟩
  have hlast : Disagrees (sampleDisk 4 2) sampleLayout 10 :=
    .inr ⟨by decide, fun href ↦ absurd (sampleDisk_refers_iff.mp href) (by decide)⟩
  have hreport := h.mpr ⟨10, by decide, by decide, hlast⟩
  rw [(hwell.reports_iff sampleDisk_noOverflow
    fun i hi b hb ↦ (sampleDisk_inside hi b hb).2).2] at hreport
  have hnblocks : sampleLayout.nblocks = 8 := rfl
  have hmarked : ∀ b < 8, Marked (sampleDisk 4 2) sampleLayout b ↔ b < 6 := by decide +kernel
  rcases hreport with ⟨k, hk, href, hmark⟩ | ⟨k, hge, hk, hmark, href⟩
  · have hlt := sampleDisk_refers_iff.mp href
    exact hmark ((hmarked k (by omega)).mpr (by omega))
  · have hbegin : sampleLayout.dataBegin = 4 := by decide
    have hlt := (hmarked k (by omega)).mp hmark
    exact href (sampleDisk_refers_iff.mpr (by omega))

theorem bitmap_exact_sampleDisk : BitmapExact (sampleDisk 0 2) sampleLayout := by
  have hmarked : ∀ b < 12, Marked (sampleDisk 0 2) sampleLayout b → b < 6 := by decide +kernel
  refine (bitmap_exact_iff (sampleDisk_wellFormed (by decide +kernel))).mpr
    ⟨sampleDisk_noOverflow, fun i hi b hb ↦ (sampleDisk_inside hi b hb).2, .inr ?_⟩
  have hbegin : sampleLayout.dataBegin = 4 := by decide
  have hnmeta : sampleLayout.nmeta = 4 := by decide
  have hnblocks : sampleLayout.nblocks = 8 := rfl
  have hsize : sampleLayout.size = 12 := rfl
  constructor
  · rintro ⟨b, hge, hlt, -⟩
    omega
  · rintro ⟨b, -, hge, hlt, hmark⟩
    have hlt' := hmarked b (by omega) hmark
    omega

end CS537.FsCheck
