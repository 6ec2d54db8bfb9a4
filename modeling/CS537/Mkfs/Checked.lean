import CS537.Mkfs.Image

/-!
# The checker on the images of the formatter

The formatter and the checker disagree about a root directory that fills its last block, about
entries behind the first block of a directory and about blocks with numbers from the number of data
blocks on.  This module determines the images of the formatter that the checker accepts.
-/

namespace CS537.Mkfs

open Foundation
open FsCheck (BSIZE NDIRECT NINDIRECT sizeofDirent ROOTINO signed blockOffset InUse Refers Marked
  Formatted PassesIndividual PassesDirectory PassesBitmap ScanInside inUseNumbers scannedNumbers)

section Statement

variable (img : FsCheck.Image)

/-- The checker reports no error, and the numbers that it records lie inside of `data_use`. -/
structure AcceptedByChecker : Prop where
  fscheck : FsCheck.fscheck img = .ok ()
  recorded : ∀ i, InUse img (img.superblockAt BSIZE) i →
    ∀ b ∈ img.blocks (img.inodeAt (img.superblockAt BSIZE) i),
      0 ≤ b ∧ b < (img.superblockAt BSIZE).nblocks

end Statement

variable {s : State} {files : List HostFile} {i j k m : ℕ}

theorem kinds_ne_zero_iff (files : List HostFile) (j : ℕ) :
    kinds files j ≠ 0 ↔ 1 ≤ j ∧ j < files.length + 2 := by
  rw [kinds, ROOTINO]
  split_ifs with hroot hfile
  · exact iff_of_true (by decide) (by omega)
  · exact iff_of_true (by decide) (by omega)
  · exact iff_of_false (fun hne ↦ hne rfl) (by omega)

/-- The inodes that have data are in use. -/
theorem inUse_of_datas (h : datas files j ≠ []) : 1 ≤ j ∧ j < files.length + 2 := by
  rw [datas, ROOTINO] at h
  split_ifs at h with hroot hfile
  · omega
  · refine ⟨by omega, ?_⟩
    by_contra hlt
    exact h (List.getD_eq_default _ _ (by rw [List.length_map]; omega))
  · exact absurd rfl h

theorem length_datas_le (hfit : Fitting files) (hinodes : files.length + 1 < NINODES) (j : ℕ) :
    (datas files j).length ≤ MAXFILE * BSIZE := by
  have hmax : MAXFILE * BSIZE = 71680 := rfl
  rw [datas]
  split_ifs with hroot hfile
  · rw [length_rootData, sizeofDirent, hmax]
    rw [NINODES] at hinodes
    omega
  · by_cases hlt : j - 2 < files.length
    · have hmem := hfit.sizes _ (List.getElem_mem hlt)
      rwa [List.getD_eq_getElem _ _ (by rwa [List.length_map]), List.getElem_map]
    · rw [List.getD_eq_default _ _ (by rw [List.length_map]; omega)]
      exact Nat.zero_le _
  · exact Nat.zero_le _

namespace Finished

variable (h : Finished files s) (hfit : Fitting files) (hinodes : files.length + 1 < NINODES)
include h

theorem freeblock_le (hfit : Fitting files) : s.freeblock ≤ FSSIZE := h.freeblock ▸ hfit.blocks

theorem formatted : Formatted s.image layout := formatted_image h.contents.blocks.whole h.superblock

theorem inodeAt_type (hj : j < slots) : (s.image.inodeAt layout j).type = kinds files j := by
  have hlt : kinds files j < 2 ^ 15 := by
    rw [kinds]
    split_ifs <;> decide
  rw [Mkfs.inodeAt_type, h.type j hj, signed_of_lt hlt]

theorem isDir_iff (hj : j < slots) : (s.image.inodeAt layout j).type = FsCheck.T_DIR ↔
    j = ROOTINO := by
  rw [h.inodeAt_type hj, kinds]
  split_ifs with hroot hfile
  · exact iff_of_true rfl hroot
  · exact iff_of_false (show ¬(2 : ℤ) = 1 by decide) hroot
  · exact iff_of_false (show ¬(0 : ℤ) = 1 by decide) hroot

/-! ## The root directory -/

section Root

include hfit

/-- The entries in the first block. -/
theorem firstEntry_root (hk : k < 32) :
    s.image.firstEntry (s.image.inodeAt layout ROOTINO) k = entryNumber files k := by
  have hroot : ROOTINO < slots := by decide
  have hle := h.freeblock_le hfit
  have hne : s.address (s.table ROOTINO) 0 ≠ 0 := by
    refine (h.contents.data ROOTINO 0 (by decide)).mpr ?_
    rw [datas_root, length_rootData, sizeofDirent]
    omega
  have haddr := inodeAt_direct h.contents.blocks hle hroot (k := 0) (by decide)
  have hoffset : blockOffset (s.address (s.table ROOTINO) 0) = s.address (s.table ROOTINO) 0 * BSIZE :=
    Int.toNat_natCast _
  have hbyte (r : ℕ) (hr : r < 2) :
      s.bytes (s.address (s.table ROOTINO) 0 * BSIZE + sizeofDirent * k + r) =
        byteOf (entryNumber files k) r := by
    have hinside : sizeofDirent * k + r < BSIZE := by
      rw [sizeofDirent, FsCheck.BSIZE]
      omega
    have hdata := h.contents.byte ROOTINO (sizeofDirent * k + r)
      (Nat.lt_of_lt_of_le hinside (by decide))
    rwa [State.byteAt, Nat.div_eq_of_lt hinside, Nat.mod_eq_of_lt hinside, if_neg hne, datas_root,
      rootData_getD files k hr, ← Nat.add_assoc] at hdata
  have hnumber : entryNumber files k < 2 ^ 15 := by
    rw [entryNumber, ROOTINO]
    split <;> omega
  have hvalue : ushortAt s.bytes (s.address (s.table ROOTINO) 0 * BSIZE + sizeofDirent * k) =
      entryNumber files k := by
    have hfirst := hbyte 0 (by decide)
    rw [Nat.add_zero] at hfirst
    exact ushortAt_of_bytes (by omega) hfirst (hbyte 1 (by decide))
  rw [FsCheck.Image.firstEntry, haddr, hoffset, int16At_image, hvalue, signed_of_lt hnumber]

theorem scanned_iff {v : ℤ} : FsCheck.Scanned s.image layout v ↔
    ∃ k < 32, k < files.length + 2 ∧ (max ROOTINO k : ℕ) = v := by
  have hninodes : layout.ninodes = 200 := rfl
  have hentries : 512 / 16 = 32 := rfl
  have hpos (k : ℕ) : (entryNumber files k ≠ 0 ↔ k < files.length + 2) := by
    rw [entryNumber, ROOTINO]
    split <;> omega
  have hnumber {k : ℕ} (hk : k < files.length + 2) : entryNumber files k = max ROOTINO k := if_pos hk
  rw [FsCheck.Scanned, hninodes, hentries]
  constructor
  · rintro ⟨j, hj, hlast, hdir, k, hk, rfl, hne⟩
    obtain rfl := (h.isDir_iff (by rw [slots_eq]; omega)).mp hdir
    rw [h.firstEntry_root hfit hk, Int.natCast_ne_zero, hpos] at hne
    rw [h.firstEntry_root hfit hk, hnumber hne]
    exact ⟨k, hk, hne, rfl⟩
  · rintro ⟨k, hk, hlt, rfl⟩
    refine ⟨ROOTINO, le_rfl, by decide, (h.isDir_iff (by decide)).mpr rfl, k, hk, ?_, ?_⟩
    · rw [h.firstEntry_root hfit hk, hnumber hlt]
    · rw [← hnumber hlt, Int.natCast_ne_zero, hpos]
      exact hlt

theorem blockReadable_root :
    FsCheck.BlockReadable layout ((s.image.inodeAt layout ROOTINO).addrs 0) := by
  have hle := h.freeblock_le hfit
  have hlt := address_lt h.contents.blocks hle ROOTINO 0
  have hsize : layout.size = 1000 := rfl
  rw [inodeAt_direct h.contents.blocks hle (by decide) (by decide)]
  rw [FSSIZE] at hlt
  refine ⟨Int.natCast_nonneg _, by omega, ?_⟩
  rw [FsCheck.BSIZE, FsCheck.intBound]
  omega

theorem directories (hj : (j : ℤ) < layout.ninodes) : PassesDirectory s.image layout j := by
  have hninodes : layout.ninodes = 200 := rfl
  have hdir := h.isDir_iff (show j < slots by rw [slots_eq]; omega)
  have hentry (k : ℕ) (hk : k < 2) :
      s.image.firstEntry (s.image.inodeAt layout ROOTINO) k = ROOTINO := by
    rw [h.firstEntry_root hfit (Nat.lt_trans hk (by decide)), entryNumber_dots files hk]
  refine ⟨fun hroot ↦ ⟨hdir.mpr hroot, ?_, ?_⟩, fun htype ↦ ⟨?_, ?_⟩⟩
  · rw [hroot]
    exact hentry 0 (by decide)
  · rw [hroot]
    exact hentry 1 (by decide)
  · rw [hdir.mp htype]
    exact h.blockReadable_root hfit
  · rw [hdir.mp htype]
    exact hentry 0 (by decide)

theorem scanInside : ScanInside s.image layout := by
  have hninodes : layout.ninodes = 200 := rfl
  have hreadable := h.blockReadable_root hfit
  have hroot {i : ℕ} (hi : (i : ℤ) ≤ layout.ninodes)
      (htype : (s.image.inodeAt layout i).type = FsCheck.T_DIR) : i = ROOTINO :=
    (h.isDir_iff (by rw [slots_eq]; omega)).mp htype
  refine ⟨fun i _ hi ↦ h.formatted.inode_le hi, fun i _ hi htype ↦ ?_, fun i _ hi htype k hk ↦ ?_,
    fun v hv ↦ ?_⟩
  · rw [hroot hi htype]
    exact ⟨hreadable.nonneg, hreadable.product⟩
  · rw [hroot hi htype]
    have hinside := (h.formatted.readable_iff (b := (s.image.inodeAt layout ROOTINO).addrs 0)
      (k := sizeofDirent * k) (by rw [sizeofDirent, FsCheck.BSIZE]; omega)).mpr hreadable
    exact hinside.2
  · obtain ⟨k, hk, hlt, rfl⟩ := (h.scanned_iff hfit).mp hv
    rw [hninodes, ROOTINO]
    omega

end Root

/-! ## The inodes in use -/

include hinodes

theorem inUse_iff : InUse s.image layout j ↔ 1 ≤ j ∧ j < files.length + 2 := by
  have hninodes : layout.ninodes = 200 := rfl
  rw [InUse, hninodes]
  rw [NINODES] at hinodes
  constructor
  · rintro ⟨-, hlt, htype⟩
    rw [h.inodeAt_type (by rw [slots_eq]; omega)] at htype
    exact (kinds_ne_zero_iff files j).mp (Int.natCast_ne_zero.mp htype)
  · intro hj
    refine ⟨hj.1, by omega, ?_⟩
    rw [h.inodeAt_type (by rw [slots_eq]; omega)]
    exact Int.natCast_ne_zero.mpr ((kinds_ne_zero_iff files j).mpr hj)

theorem lt_slots (hj : InUse s.image layout j) : j < slots := by
  have hlt := ((h.inUse_iff hinodes).mp hj).2
  rw [NINODES] at hinodes
  rw [slots_eq]
  omega

/-- An inode with a block is in use. -/
theorem inUse_of_address (hne : s.address (s.table j) m ≠ 0) : InUse s.image layout j := by
  refine (h.inUse_iff hinodes).mpr (inUse_of_datas fun hnone ↦ hne ?_)
  rcases Nat.lt_trichotomy m MAXFILE with hm | rfl | hm
  · have hdata := (h.contents.data j m hm).not
    rw [hnone] at hdata
    exact not_not.mp (hdata.mpr (Nat.not_lt_zero _))
  · have hdata := (h.contents.indirect j).not
    rw [hnone] at hdata
    exact not_not.mp (hdata.mpr (Nat.not_lt_zero _))
  · exact State.address_behind _ _ hm

include hfit

/-- The inodes refer to the blocks that have been given out. -/
theorem refers_iff {b : ℕ} : Refers s.image layout b ↔ nmeta ≤ b ∧ b < s.freeblock := by
  have hblocks := h.contents.blocks
  constructor
  · rintro ⟨j, hj, hmem⟩
    have hslots := h.lt_slots hinodes hj
    obtain ⟨m, hne, heq⟩ := (mem_blocks_iff hblocks (h.freeblock_le hfit) hslots b).mp hmem
    rw [← Int.natCast_inj.mp heq]
    exact ⟨hblocks.nmeta_le hne, hblocks.lt_freeblock hne⟩
  · rintro ⟨hge, hlt⟩
    obtain ⟨⟨j, m⟩, heq⟩ := hblocks.assigned.surjective b hge hlt
    have hne : s.address (s.table j) m ≠ 0 := by
      have hpos := hblocks.assigned.pos
      rw [heq]
      omega
    have hj := h.inUse_of_address hinodes hne
    have hslots := h.lt_slots hinodes hj
    exact ⟨j, hj, (mem_blocks_iff hblocks (h.freeblock_le hfit) hslots b).mpr
      ⟨m, hne, congrArg Nat.cast heq⟩⟩

theorem blocks_inside_iff : (∀ j, InUse s.image layout j →
      ∀ b ∈ s.image.blocks (s.image.inodeAt layout j), 0 ≤ b ∧ b < layout.nblocks) ↔
    s.freeblock ≤ nblocks := by
  have hrefers {b : ℕ} := h.refers_iff hfit hinodes (b := b)
  have hnblocks : layout.nblocks = (nblocks : ℤ) := rfl
  constructor
  · intro hall
    by_contra hlt
    obtain ⟨j, hj, hmem⟩ := hrefers.mpr ⟨show nmeta ≤ nblocks by decide, Nat.not_le.mp hlt⟩
    exact absurd (hall j hj _ hmem).2 (Int.lt_irrefl _)
  · intro hle j hj b hmem
    obtain ⟨m, -, rfl⟩ := (mem_blocks_iff h.contents.blocks (h.freeblock_le hfit)
      (h.lt_slots hinodes hj) b).mp hmem
    have hlt := (hrefers.mp ⟨j, hj, hmem⟩).2
    rw [hnblocks]
    omega

theorem indirectReadable (hj : InUse s.image layout j) :
    s.image.IndirectReadable (s.image.inodeAt layout j) := by
  have hle := h.freeblock_le hfit
  have hslots := h.lt_slots hinodes hj
  have hlt := address_lt h.contents.blocks hle j MAXFILE
  have haddr := inodeAt_indirect h.contents.blocks hle hslots
  have hsize : layout.size = 1000 := rfl
  intro _
  rw [haddr]
  rw [FSSIZE] at hlt
  refine ⟨?_, h.formatted.blockOffset_add_le (Int.natCast_nonneg _) (by omega)⟩
  rw [FsCheck.BSIZE, FsCheck.intBound]
  omega

omit hfit in
theorem type_of_inUse (hj : InUse s.image layout j) :
    (s.image.inodeAt layout j).type = 1 ∨ (s.image.inodeAt layout j).type = 2 := by
  have hne := hj.2.2
  rw [h.inodeAt_type (h.lt_slots hinodes hj)] at hne ⊢
  rw [kinds] at hne ⊢
  split_ifs at hne ⊢
  · exact .inl rfl
  · exact .inr rfl
  · exact absurd rfl hne

theorem length_blocks (hj : InUse s.image layout j) :
    (s.image.dataBlocks (s.image.inodeAt layout j)).length = ((datas files j).length + 511) / 512 :=
  length_dataBlocks h.contents.blocks (h.freeblock_le hfit) (h.lt_slots hinodes hj)
    (length_datas_le hfit hinodes j) (h.contents.data j) (h.contents.indirect j)

theorem valid_of_ne_root (hj : InUse s.image layout j) (hroot : j ≠ ROOTINO) :
    s.image.Valid (s.image.inodeAt layout j) := by
  have htype := h.type_of_inUse hinodes hj
  have hlength := h.length_blocks hfit hinodes hj
  have hmax := length_datas_le hfit hinodes j
  have hsize := h.size j (h.lt_slots hinodes hj)
  rw [MAXFILE_eq, FsCheck.BSIZE] at hmax
  rw [if_neg hroot] at hsize
  have hread := (inodeAt_size s j).trans (signed_of_lt (show (s.inode j).size < 2 ^ 31 by omega))
  refine ⟨by omega, ?_, ?_⟩
  · rw [hread, hlength, FsCheck.BSIZE, hsize]
    omega
  · rw [hread, hlength, FsCheck.BSIZE, hsize]
    omega

/-- The size of the root directory is wrong when the entries fill the last block. -/
theorem valid_root_iff (hroot : InUse s.image layout ROOTINO) :
    s.image.Valid (s.image.inodeAt layout ROOTINO) ↔ ¬32 ∣ files.length + 2 := by
  have htype := h.type_of_inUse hinodes hroot
  have hlength := h.length_blocks hfit hinodes hroot
  have hsize := h.size ROOTINO (h.lt_slots hinodes hroot)
  rw [datas_root, length_rootData, sizeofDirent] at hlength
  rw [if_pos rfl, length_rootData, sizeofDirent, FsCheck.BSIZE] at hsize
  rw [NINODES] at hinodes
  have hread := (inodeAt_size s ROOTINO).trans
    (signed_of_lt (show (s.inode ROOTINO).size < 2 ^ 31 by omega))
  constructor
  · intro hvalid
    have hle := hvalid.size_le
    rw [hread, hlength, FsCheck.BSIZE, hsize] at hle
    omega
  · intro hdvd
    refine ⟨by omega, ?_, ?_⟩
    · rw [hread, hlength, FsCheck.BSIZE, hsize]
      omega
    · rw [hread, hlength, FsCheck.BSIZE, hsize]
      omega

/-- What the individual checks ask for. -/
theorem individual_iff : (∀ j, PassesIndividual s.image layout j) ↔
    ¬32 ∣ files.length + 2 ∧ s.freeblock ≤ nblocks := by
  have hroot : InUse s.image layout ROOTINO :=
    (h.inUse_iff hinodes).mpr ⟨le_rfl, Nat.succ_lt_succ (Nat.succ_pos _)⟩
  rw [← h.blocks_inside_iff hfit hinodes]
  constructor
  · intro hall
    exact ⟨(h.valid_root_iff hfit hinodes hroot).mp (hall ROOTINO hroot).1,
      fun j hj ↦ (hall j hj).2.1⟩
  · rintro ⟨hsize, hblocks⟩ j hj
    refine ⟨?_, hblocks j hj, h.indirectReadable hfit hinodes hj⟩
    by_cases hne : j = ROOTINO
    · rw [hne]
      exact (h.valid_root_iff hfit hinodes hroot).mpr hsize
    · exact h.valid_of_ne_root hfit hinodes hj hne

/-! ## The checks -/

/-- Only 32 entries are compared with the inodes. -/
theorem numbers_eq_iff (hscan : ScanInside s.image layout) :
    inUseNumbers s.image layout = scannedNumbers s.image layout ↔ files.length ≤ 30 := by
  have hninodes : layout.ninodes = 200 := rfl
  rw [FsCheck.inUse_eq_scanned_iff hscan, hninodes]
  simp only [h.scanned_iff hfit, h.inUse_iff hinodes, ROOTINO]
  rw [NINODES] at hinodes
  constructor
  · intro hall
    by_contra hlt
    obtain ⟨k, hk, -, hmax⟩ := (hall 32 (by decide)).mpr ⟨by decide, by omega⟩
    omega
  · intro hle i hi
    constructor
    · rintro ⟨k, hk, hlt, hmax⟩
      omega
    · rintro ⟨hpos, hlt⟩
      exact ⟨i, by omega, hlt, by omega⟩

theorem bitmap_passes : PassesBitmap s.image layout := by
  have hnblocks : layout.nblocks = 941 := rfl
  have hmarked {b : ℕ} (hb : b < 941) := marked_iff h.bitmap (Nat.lt_trans hb (by decide : 941 < BSIZE * 8))
  have hbegin : layout.dataBegin = 59 := by decide
  refine ⟨fun b hb href ↦ (hmarked (by omega)).mpr ((h.refers_iff hfit hinodes).mp href).2,
    fun b hge hb hmark ↦ (h.refers_iff hfit hinodes).mpr ⟨?_, (hmarked (by omega)).mp hmark⟩⟩
  rw [nmeta_eq]
  omega

/-- The checker accepts the image if and only if the root directory does not fill its only block and
the last block has a place in `data_use`. -/
theorem accepted_iff : AcceptedByChecker s.image ↔
    files.length ≤ 29 ∧ s.freeblock ≤ nblocks := by
  have hsb : s.image.superblockAt BSIZE = layout := h.formatted.superblock
  have hprepared : s.image.Prepared layout :=
    h.formatted.prepared_iff.mpr ⟨by decide, by decide⟩
  have hfscheck : FsCheck.fscheck s.image = .ok () ↔
      (¬32 ∣ files.length + 2 ∧ s.freeblock ≤ nblocks) ∧ files.length ≤ 30 := by
    have hscan := h.scanInside hfit
    rw [FsCheck.fscheck_ok_iff hsb, h.formatted.passes_iff, h.individual_iff hfit hinodes,
      h.numbers_eq_iff hfit hinodes hscan]
    constructor
    · rintro ⟨⟨-, hind, -⟩, -, hle⟩
      exact ⟨hind, hle⟩
    · rintro ⟨hind, hle⟩
      exact ⟨⟨hprepared, hind, fun j hj ↦ h.directories hfit hj,
        h.bitmap_passes hfit hinodes⟩, hscan, hle⟩
  constructor
  · rintro ⟨hok, -⟩
    obtain ⟨⟨hdvd, hblocks⟩, hle⟩ := hfscheck.mp hok
    exact ⟨by omega, hblocks⟩
  · rintro ⟨hle, hblocks⟩
    refine ⟨hfscheck.mpr ⟨⟨by omega, hblocks⟩, by omega⟩, ?_⟩
    rw [hsb]
    exact (h.blocks_inside_iff hfit hinodes).mpr hblocks

end Finished

/-! ## Runs of both programs -/

variable {img : FsCheck.Image}

theorem mkfs_eq_ok_iff : mkfs files = .ok img ↔
    ∃ s, main files .start = .ok ((), s) ∧ s.image = img := by
  rw [mkfs]
  cases main files .start with
  | error e => simp [Except.map]
  | ok r =>
    constructor
    · intro h
      exact ⟨r.2, rfl, Except.ok.inj h⟩
    · rintro ⟨s, hrun, rfl⟩
      obtain rfl := Except.ok.inj hrun
      rfl

theorem mkfs_completes_iff (hinodes : files.length + 1 < NINODES) :
    (∃ img, mkfs files = .ok img) ↔ Fitting files := by
  rw [← (main_completes hinodes).completes_iff]
  constructor
  · rintro ⟨img, hrun⟩
    obtain ⟨s, hmain, -⟩ := mkfs_eq_ok_iff.mp hrun
    exact ⟨(), s, hmain⟩
  · rintro ⟨⟨⟩, s, hmain⟩
    exact ⟨s.image, mkfs_eq_ok_iff.mpr ⟨s, hmain, rfl⟩⟩

theorem exists_of_mkfs (hinodes : files.length + 1 < NINODES) (hrun : mkfs files = .ok img) :
    ∃ s, s.image = img ∧ Fitting files ∧ Finished files s := by
  obtain ⟨s, hmain, himg⟩ := mkfs_eq_ok_iff.mp hrun
  obtain ⟨hfit, hfinished⟩ := (main_completes hinodes).of_run hmain
  exact ⟨s, himg, hfit, hfinished⟩

/-- The checker accepts what the formatter builds if and only if there are at most 29 files, so that
the root directory does not fill its first block, and the last block that is given out has a number
below the number of data blocks. -/
theorem accepted_by_checker_iff (hinodes : files.length + 1 < NINODES)
    (hrun : mkfs files = .ok img) :
    AcceptedByChecker img ↔ files.length ≤ 29 ∧ nmeta + blocksUsed files ≤ nblocks := by
  obtain ⟨s, rfl, hfit, hfinished⟩ := exists_of_mkfs hinodes hrun
  rw [hfinished.accepted_iff hfit hinodes, hfinished.freeblock]

/-- The checker accepts the image with a file of two bytes. -/
theorem accepted_by_checker_iff_oneFile :
    ∃ img, mkfs [⟨[97], [104, 105]⟩] = .ok img ∧ AcceptedByChecker img := by
  have hfit : Fitting [⟨[97], [104, 105]⟩] := by
    refine ⟨fun file hfile ↦ ?_, fun file hfile ↦ ?_, by decide⟩
    · rw [List.mem_singleton.mp hfile]
      decide
    · rw [List.mem_singleton.mp hfile]
      decide
  obtain ⟨img, hrun⟩ := (mkfs_completes_iff (by decide)).mpr hfit
  exact ⟨img, hrun, (accepted_by_checker_iff (by decide) hrun).mpr ⟨by decide, by decide⟩⟩

/-- Thirty empty files, whose entries fill the first block of the root directory with `.` and `..`. -/
def thirtyFiles : List HostFile := (List.range 30).map fun i ↦ ⟨[UInt8.ofNat (97 + i)], []⟩

theorem thirtyFiles_not_accepted : thirtyFiles.length + 1 < NINODES ∧
    ∃ img, mkfs thirtyFiles = .ok img ∧ ¬AcceptedByChecker img := by
  have hinodes : thirtyFiles.length + 1 < NINODES := by decide
  have hfit : Fitting thirtyFiles := ⟨by decide, by decide, by decide⟩
  obtain ⟨img, hrun⟩ := (mkfs_completes_iff hinodes).mpr hfit
  obtain ⟨s, rfl, -, hfinished⟩ := exists_of_mkfs hinodes hrun
  refine ⟨hinodes, s.image, hrun, fun haccepted ↦ ?_⟩
  exact absurd ((hfinished.accepted_iff hfit hinodes).mp haccepted).1 (by decide)

end CS537.Mkfs
