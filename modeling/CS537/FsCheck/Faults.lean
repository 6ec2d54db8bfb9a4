import CS537.FsCheck.References

/-!
# Damaged images

The checker reads images whose inodes, indirect blocks and directories are damaged.  It follows the
addresses and the numbers in them without looking at them first, so that only what an earlier check
has refused keeps it from a fault.  This module determines the images on which it has none.
-/

namespace CS537.FsCheck

open Foundation

section Statement

variable (img : Image) (sb : Superblock)

/-- The pointer to a block can be computed, and the block lies in the file. -/
structure BlockReadable (b : ℤ) : Prop where
  nonneg : 0 ≤ b
  lt_size : b < sb.size
  product : b * BSIZE < intBound

def Dinode.KnownType (inode : Dinode) : Prop := inode.type = 1 ∨ inode.type = 2 ∨ inode.type = 3

/-- The individual checks pass over an inode. -/
def PassesIndividual (i : ℕ) : Prop := InUse img sb i →
  img.Valid (img.inodeAt sb i) ∧ img.BlocksInside (img.inodeAt sb i) sb.nblocks

/-- The directory checks pass over an inode. -/
structure PassesDirectory (i : ℕ) : Prop where
  root : i = ROOTINO → (img.inodeAt sb i).type = T_DIR ∧
    img.firstEntry (img.inodeAt sb i) 0 = ROOTINO ∧ img.firstEntry (img.inodeAt sb i) 1 = ROOTINO
  dot : (img.inodeAt sb i).type = T_DIR → BlockReadable sb ((img.inodeAt sb i).addrs 0) ∧
    img.firstEntry (img.inodeAt sb i) 0 = i

/-- The bitmap and the inodes agree about the blocks at which the checker looks. -/
structure PassesBitmap : Prop where
  marked : ∀ k : ℕ, (k : ℤ) < sb.nblocks → Refers img sb k → Marked img sb k
  refers : ∀ k : ℕ, sb.dataBegin ≤ k → (k : ℤ) < sb.nblocks → Marked img sb k → Refers img sb k

/-- What the checker relies on: of an inode that it gets to the blocks, of a directory that it gets to
the first block, and of the entries that it gets to the inode numbers. -/
structure Survivable : Prop where
  data : sb.dataBegin * BSIZE < intBound
  dmap : sb.mapLength < intBound
  blocks : ∀ i, InUse img sb i → (img.inodeAt sb i).KnownType →
    (∀ j < i, PassesIndividual img sb j) → img.BlocksInside (img.inodeAt sb i) sb.nblocks
  directories : (∀ i, PassesIndividual img sb i) → ∀ i : ℕ, (i : ℤ) < sb.ninodes →
    (img.inodeAt sb i).type = T_DIR → (∀ j < i, PassesDirectory img sb j) →
      BlockReadable sb ((img.inodeAt sb i).addrs 0)
  scan : (∀ i, PassesIndividual img sb i) → (∀ i : ℕ, (i : ℤ) < sb.ninodes →
    PassesDirectory img sb i) → PassesBitmap img sb → ScanInside img sb

end Statement

variable {img : Image} {sb : Superblock}

theorem printErrIf_verdict (c : Prop) [Decidable c] (msg : String) :
    Verdict (printErrIf c msg) (¬c) False .fault where
  returns h s := ⟨(), s, (printErrIf_acts h msg).returns trivial s⟩
  fails := False.elim
  stops h _ s := by
    rw [printErrIf, if_pos (not_not.mp h)]
    exact ⟨.printErr msg, rfl, by simp⟩

/-! ## The individual checks -/

section Individual

theorem checkInode_verdict (inode : Dinode) {i : ℕ} (hi : (i + 1 : ℤ) < sb.ninodes) :
    Verdict (checkInode img sb inode i) (img.Valid inode ∧ img.BlocksInside inode sb.nblocks)
      (inode.KnownType ∧ ¬img.BlocksInside inode sb.nblocks) .fault := by
  have hknown : inode.KnownType ↔ ¬(inode.type ≠ 1 ∧ inode.type ≠ 2 ∧ inode.type ≠ 3) := by
    rw [Dinode.KnownType]
    omega
  have hplace : (0 : ℤ) ≤ i + 1 ∧ (i + 1 : ℤ) < sb.ninodes := ⟨by omega, hi⟩
  refine Verdict.congr (.after (setInodeUse_acts sb (i + 1)) fun _ ↦
    (printErrIf_verdict _ _).bind fun _ _ ↦ .after (calNumBlock_acts img sb inode) fun _ ↦
      printErrIf_verdict _ _) ?_ ?_
  · rw [← hknown, and_iff_right hplace]
    constructor
    · rintro ⟨hvalid, hinside⟩
      have hle := hvalid.le_size
      have hsize := hvalid.size_le
      exact ⟨hvalid.type, hinside, by omega⟩
    · rintro ⟨htype, hinside, hsize⟩
      exact ⟨⟨htype, by omega, by omega⟩, hinside⟩
  · rw [← hknown, forall_prop_of_true hplace, false_or]

theorem individualCheck_verdict (h : Formatted img sb) {i : ℕ} (hi : (i : ℤ) < sb.ninodes)
    (hpos : 1 ≤ i) : Verdict (individualCheck img sb (sb.inodePtr i) (i - 1))
      (PassesIndividual img sb i) (InUse img sb i ∧ (img.inodeAt sb i).KnownType ∧
        ¬img.BlocksInside (img.inodeAt sb i) sb.nblocks) .fault := by
  have hread := h.inode_le (Int.le_of_lt hi)
  have huse : InUse img sb i ↔ (img.inodeAt sb i).type ≠ 0 :=
    ⟨fun hi ↦ hi.2.2, fun htype ↦ ⟨hpos, hi, htype⟩⟩
  have hlast : ((i - 1 : ℕ) + 1 : ℤ) < sb.ninodes := by omega
  refine Verdict.congr (.after (read_acts img (sb.inodePtr i) sizeofDinode (img.inodeAt sb i))
    fun _ ↦ .when fun _ ↦ checkInode_verdict (img.inodeAt sb i) hlast) ?_ ?_
  · rw [PassesIndividual, huse, and_iff_right hread]
  · rw [huse, forall_prop_of_true hread]

/-- A fault of the individual checks comes from the blocks of the first inode that is not passed. -/
theorem individualChecks_verdict (h : Formatted img sb) :
    Verdict (individualChecks img sb (blockOffset sb.inodestart + sizeofDinode * ROOTINO))
      (∀ i, PassesIndividual img sb i)
      (∃ i, (∀ j < i, PassesIndividual img sb j) ∧ InUse img sb i ∧
        (img.inodeAt sb i).KnownType ∧ ¬img.BlocksInside (img.inodeAt sb i) sb.nblocks) .fault := by
  have hloop := Verdict.range (n := (sb.ninodes - 1).toNat) fun i hi ↦
    individualCheck_verdict h (i := i + 1) (by omega) (Nat.le_add_left 1 i)
  have hzero : PassesIndividual img sb 0 := fun hi ↦ absurd hi.1 (by decide)
  have hout {i : ℕ} (hi : ¬(i : ℤ) < sb.ninodes) : PassesIndividual img sb i :=
    fun huse ↦ absurd huse.2.1 hi
  simp only [Nat.add_sub_cancel, ← inodePtr_succ] at hloop
  refine hloop.congr ⟨fun hall i _ ↦ hall (i + 1), fun hall i ↦ ?_⟩ ⟨?_, ?_⟩
  · by_cases hi : (i : ℤ) < sb.ninodes
    · cases i with
      | zero => exact hzero
      | succ i => exact hall i (by omega)
    · exact hout hi
  · rintro ⟨i, hbefore, huse, hbad⟩
    obtain ⟨k, rfl⟩ := Nat.exists_eq_succ_of_ne_zero (Nat.one_le_iff_ne_zero.mp huse.1)
    have hk := ((inUse_succ_iff img sb k).mp huse).1
    exact ⟨k, hk, fun j hj ↦ hbefore (j + 1) (by omega), huse, hbad⟩
  · rintro ⟨k, hk, hbefore, hbad⟩
    refine ⟨k + 1, fun j hj ↦ ?_, hbad⟩
    cases j with
    | zero => exact hzero
    | succ j => exact hbefore j (by omega)

end Individual

/-! ## The directory checks -/

section Directory

/-- An `int16` in the first 512 bytes of a block. -/
theorem Formatted.readable_iff (h : Formatted img sb) {b : ℤ} {k : ℕ} (hk : k + 2 ≤ BSIZE) :
    ((0 ≤ b ∧ b * BSIZE < intBound) ∧ blockOffset b + k + 2 ≤ img.length) ↔
      BlockReadable sb b := by
  have hlength := h.length_eq
  rw [BSIZE_eq] at *
  constructor
  · rintro ⟨⟨hnonneg, hproduct⟩, hle⟩
    rw [blockOffset, BSIZE_eq] at hle
    exact ⟨hnonneg, by omega, hproduct⟩
  · rintro ⟨hnonneg, hlt, hproduct⟩
    refine ⟨⟨hnonneg, hproduct⟩, ?_⟩
    rw [blockOffset, BSIZE_eq]
    omega

variable {inode : Dinode}

theorem checkDirectory_verdict (h : Formatted img sb) (i : ℕ) :
    Verdict (checkDirectory img inode i)
      (inode.type = T_DIR → BlockReadable sb (inode.addrs 0) ∧ img.firstEntry inode 0 = i)
      (inode.type = T_DIR ∧ ¬BlockReadable sb (inode.addrs 0)) .fault := by
  have hreadable := h.readable_iff (b := inode.addrs 0) (k := 0) (by decide)
  refine Verdict.when fun _ ↦ Verdict.congr (.after (blockPtr_acts (inode.addrs 0)) fun _ ↦
    .after (read_acts img _ 2 (img.firstEntry inode 0)) fun _ ↦ printErrIf_verdict _ _) ?_ ?_
  · rw [← hreadable, and_assoc, ne_eq, not_not, eq_comm]
  · rw [← hreadable, not_and]

theorem checkRoot_verdict (h : Formatted img sb) :
    Verdict (checkRoot img inode)
      (inode.type = T_DIR ∧ BlockReadable sb (inode.addrs 0) ∧
        img.firstEntry inode 0 = ROOTINO ∧ img.firstEntry inode 1 = ROOTINO)
      (inode.type = T_DIR ∧ ¬BlockReadable sb (inode.addrs 0)) .fault := by
  have hfirst := h.readable_iff (b := inode.addrs 0) (k := 0) (by decide)
  have hsecond := h.readable_iff (b := inode.addrs 0) (k := sizeofDirent) (by decide)
  refine Verdict.congr ((printErrIf_verdict _ _).bind fun _ _ ↦
    .after (blockPtr_acts (inode.addrs 0)) fun _ ↦
    .after (read_acts img _ 2 (img.firstEntry inode 0)) fun _ ↦
    (printErrIf_verdict _ _).bind fun _ _ ↦
    .after (read_acts img _ 2 (img.firstEntry inode 1)) fun _ ↦ printErrIf_verdict _ _) ?_ ?_
  · constructor
    · rintro ⟨htype, hread, hone, htwo⟩
      obtain ⟨hpointer, hle⟩ := hfirst.mpr hread
      exact ⟨not_not.mpr htype, hpointer, hle, not_not.mpr hone, (hsecond.mpr hread).2,
        not_not.mpr htwo⟩
    · rintro ⟨htype, hpointer, hle, hone, -, htwo⟩
      exact ⟨not_not.mp htype, hfirst.mp ⟨hpointer, hle⟩, not_not.mp hone, not_not.mp htwo⟩
  · constructor
    · rintro ⟨htype, hn⟩
      exact .inr ⟨not_not.mpr htype, fun hpointer hle ↦ absurd (hfirst.mp ⟨hpointer, hle⟩) hn⟩
    · rintro (hfalse | ⟨htype, hall⟩)
      · exact hfalse.elim
      · refine ⟨not_not.mp htype, fun hread ↦ ?_⟩
        obtain ⟨hpointer, hle⟩ := hfirst.mpr hread
        rcases hall hpointer hle with hfalse | ⟨-, hfalse⟩
        · exact hfalse
        · exact hfalse (hsecond.mpr hread).2

theorem directoryCheck_verdict (h : Formatted img sb) {i : ℕ} (hi : (i : ℤ) < sb.ninodes) :
    Verdict (directoryCheck img (sb.inodePtr i) i) (PassesDirectory img sb i)
      ((img.inodeAt sb i).type = T_DIR ∧ ¬BlockReadable sb ((img.inodeAt sb i).addrs 0))
      .fault := by
  have hread := h.inode_le (Int.le_of_lt hi)
  have hrest : Verdict (checkDirectory img (img.inodeAt sb i) i) _ _ _ := checkDirectory_verdict h i
  by_cases hroot : i = ROOTINO
  · refine Verdict.congr (.after (read_acts img (sb.inodePtr i) sizeofDinode (img.inodeAt sb i))
      fun _ ↦ by
        simp only [if_pos hroot]
        exact (checkRoot_verdict h).bind fun _ _ ↦ hrest) ?_ ?_
    · constructor
      · intro hpass
        obtain ⟨htype, hone, htwo⟩ := hpass.root hroot
        exact ⟨hread, ⟨htype, (hpass.dot htype).1, hone, htwo⟩, hpass.dot⟩
      · rintro ⟨-, ⟨htype, -, hone, htwo⟩, hdot⟩
        exact ⟨fun _ ↦ ⟨htype, hone, htwo⟩, hdot⟩
    · rw [forall_prop_of_true hread]
      tauto
  · refine Verdict.congr (.after (read_acts img (sb.inodePtr i) sizeofDinode (img.inodeAt sb i))
      fun _ ↦ by
        simp only [if_neg hroot]
        exact hrest) ?_ ?_
    · rw [and_iff_right hread]
      exact ⟨fun hpass ↦ hpass.dot, fun hdot ↦ ⟨fun heq ↦ absurd heq hroot, hdot⟩⟩
    · rw [forall_prop_of_true hread]

/-- A fault of the directory checks comes from the first block of a directory. -/
theorem directoryChecks_verdict (h : Formatted img sb) :
    Verdict (directoryChecks img sb (blockOffset sb.inodestart))
      (∀ i : ℕ, (i : ℤ) < sb.ninodes → PassesDirectory img sb i)
      (∃ i : ℕ, (i : ℤ) < sb.ninodes ∧ (∀ j < i, PassesDirectory img sb j) ∧
        (img.inodeAt sb i).type = T_DIR ∧ ¬BlockReadable sb ((img.inodeAt sb i).addrs 0))
      .fault := by
  have hlt (i : ℕ) : i < sb.ninodes.toNat ↔ (i : ℤ) < sb.ninodes := by omega
  have hloop := Verdict.range (n := sb.ninodes.toNat) fun i hi ↦
    directoryCheck_verdict h ((hlt i).mp hi)
  simp only [hlt] at hloop
  exact hloop

end Directory

/-! ## The whole run -/

section Run

theorem upToDirectories_verdict (h : Formatted img sb) :
    Verdict (upToDirectories img)
      (img.Prepared sb ∧ (∀ i, PassesIndividual img sb i) ∧
        ∀ i : ℕ, (i : ℤ) < sb.ninodes → PassesDirectory img sb i)
      (img.Prepared sb → (∃ i, (∀ j < i, PassesIndividual img sb j) ∧ InUse img sb i ∧
          (img.inodeAt sb i).KnownType ∧ ¬img.BlocksInside (img.inodeAt sb i) sb.nblocks) ∨
        ((∀ i, PassesIndividual img sb i) ∧ ∃ i : ℕ, (i : ℤ) < sb.ninodes ∧
          (∀ j < i, PassesDirectory img sb j) ∧ (img.inodeAt sb i).type = T_DIR ∧
            ¬BlockReadable sb ((img.inodeAt sb i).addrs 0))) .fault := by
  have hreturn (r : Superblock × ℕ × ℕ) : Verdict (pure r : Checker _) True False .fault :=
    (Verdict.of_acts (.pure r)).congr Iff.rfl (by simp)
  refine Verdict.congr (.after (prepare_acts img sb h.superblock) fun _ ↦
    (individualChecks_verdict h).bind fun _ _ ↦ (directoryChecks_verdict h).bind fun _ _ ↦
      hreturn _) ?_ ?_
  · simp only [and_true]
  · simp only [and_false, or_false]

/-- What the bitmap checks compare. -/
theorem Formatted.passesBitmap_iff (h : Formatted img sb) (hr : img.Recordable sb) :
    PassesBitmap img sb ↔
      ¬MapDiffers sb (blockOffset sb.dataBegin / BSIZE) (recorded img sb) := by
  rw [h.mapDiffers_iff hr]
  constructor
  · rintro hpass (⟨k, hk, href, hmark⟩ | ⟨k, hge, hk, hmark, href⟩)
    · exact hmark (hpass.marked k hk href)
    · exact href (hpass.refers k hge hk hmark)
  · intro hn
    exact ⟨fun k hk href ↦ by_contra fun hmark ↦ hn (.inl ⟨k, hk, href, hmark⟩),
      fun k hge hk hmark ↦ by_contra fun href ↦ hn (.inr ⟨k, hge, hk, hmark, href⟩)⟩

/-- What is left of the run when the directories have been checked. -/
theorem fault_iff_of_passes (h : Formatted img sb) (hprepared : img.Prepared sb)
    (hind : ∀ i, PassesIndividual img sb i)
    (hdir : ∀ i : ℕ, (i : ℤ) < sb.ninodes → PassesDirectory img sb i) :
    fscheck img = .error .fault ↔ PassesBitmap img sb ∧ ¬ScanInside img sb := by
  have hrecordable : img.Recordable sb :=
    ⟨fun i _ hi ↦ h.inode_le (Int.le_of_lt hi), fun i hi ↦ (hind i hi).2⟩
  have hdirectories : PassesDirectoryChecks img sb := by
    obtain ⟨⟨⟩, t, hrun⟩ := (directoryChecks_verdict h).returns hdir Arrays.zero
    exact ⟨t, hrun⟩
  have hvalid (i : ℕ) (hi : InUse img sb i) := (hind i hi).1
  have hbitmap := h.passesBitmap_iff hrecordable
  have hfirst := (upToDirectories_acts img sb h.superblock hvalid hdirectories).returns
    ⟨hprepared, hrecordable⟩ Arrays.zero
  by_cases hpass : PassesBitmap img sb
  · have hpasses : Passes img sb := passes_iff.mpr
      ⟨h.superblock, hprepared, hrecordable, hvalid, hdirectories, hbitmap.mp hpass⟩
    rw [and_iff_right hpass]
    exact ⟨fun hfault hscan ↦ (hpasses.reports_iff hscan).1 hfault,
      hpasses.fault_of_not_scanInside⟩
  · refine iff_of_false (fun hfault ↦ ?_) fun hbad ↦ hpass hbad.1
    have hdiffer := not_not.mp (mt hbitmap.mpr hpass)
    obtain ⟨e, he, hrun⟩ := (reports_iff_of_ok hfirst h.nblocks_nonneg).2.mpr hdiffer
    obtain rfl := Except.error.inj (hrun.symm.trans hfault)
    rcases he with he | he
    · exact nomatch he
    · exact nomatch he

theorem fscheck_of_upToDirectories {e : Stop} (h : upToDirectories img Arrays.zero = .error e) :
    fscheck img = .error e :=
  fscheck_eq_error_iff.mpr (bind_of_error (bind_of_error h))

/-- On an image whose super block describes the layout, the checker is free of faults if and only if
each address, pointer and number is in range that it uses before it has refused the image. -/
theorem survives_iff (h : Formatted img sb) :
    fscheck img ≠ .error .fault ↔ Survivable img sb := by
  have hhead := upToDirectories_verdict h
  constructor
  · intro hok
    have hprepared : img.Prepared sb := by
      by_contra hn
      exact hok (fscheck_of_upToDirectories (hhead.fails (fun hp ↦ absurd hp hn) Arrays.zero))
    obtain ⟨hdata, hdmap⟩ := h.prepared_iff.mp hprepared
    refine ⟨hdata, hdmap, fun i hi hknown hbefore ↦ ?_, fun hind i hi htype hbefore ↦ ?_,
      fun hind hdir hbitmap ↦ ?_⟩
    · by_contra hbad
      exact hok (fscheck_of_upToDirectories
        (hhead.fails (fun _ ↦ .inl ⟨i, hbefore, hi, hknown, hbad⟩) Arrays.zero))
    · by_contra hbad
      exact hok (fscheck_of_upToDirectories
        (hhead.fails (fun _ ↦ .inr ⟨hind, i, hi, hbefore, htype, hbad⟩) Arrays.zero))
    · by_contra hscan
      exact hok ((fault_iff_of_passes h hprepared hind hdir).mpr ⟨hbitmap, hscan⟩)
  · intro hs hfault
    have hprepared := h.prepared_iff.mpr ⟨hs.data, hs.dmap⟩
    by_cases hpass : (∀ i, PassesIndividual img sb i) ∧
        ∀ i : ℕ, (i : ℤ) < sb.ninodes → PassesDirectory img sb i
    · obtain ⟨hbitmap, hscan⟩ := (fault_iff_of_passes h hprepared hpass.1 hpass.2).mp hfault
      exact hscan (hs.scan hpass.1 hpass.2 hbitmap)
    · refine absurd (hhead.stops (fun hp ↦ hpass hp.2) (fun hbad ↦ ?_) Arrays.zero) ?_
      · rcases hbad hprepared with ⟨i, hbefore, hi, hknown, hout⟩ | ⟨hind, i, hi, hbefore, htype, hout⟩
        · exact hout (hs.blocks i hi hknown hbefore)
        · exact hout (hs.directories hind i hi htype hbefore)
      · rintro ⟨e, hrun, hne⟩
        exact hne (Except.error.inj ((fscheck_of_upToDirectories hrun).symm.trans hfault))

end Run

/-! ## A negative address -/

/-- The root directory of the disk of 12 blocks has a negative address. -/
def damagedDisk : Image where
  length := 12 * BSIZE
  bytes i := if i = 1103 then 255 else (sampleDisk 0 2).bytes i

theorem damagedDisk_formatted : Formatted damagedDisk sampleLayout :=
  ⟨rfl, rfl, by decide, by decide, rfl, by decide, by decide, by decide, by decide⟩

/-- The address is the index of the first access to `data_use`. -/
theorem damaged_image_faults :
    Formatted damagedDisk sampleLayout ∧ fscheck damagedDisk = .error .fault := by
  refine ⟨damagedDisk_formatted, fscheck_of_upToDirectories
    ((upToDirectories_verdict damagedDisk_formatted).fails (fun _ ↦ .inl ⟨1, ?_, ?_⟩) _)⟩
  · intro j hj huse
    exact absurd huse.1 (by omega)
  · have haddr : (damagedDisk.inodeAt sampleLayout 1).addrs 0 = -16777212 := by decide +kernel
    refine ⟨⟨by decide, by decide, by decide +kernel⟩, .inl (by decide +kernel), fun hinside ↦ ?_⟩
    have hmem : -16777212 ∈ damagedDisk.blocks (damagedDisk.inodeAt sampleLayout 1) := by
      refine List.mem_append_left _ (mem_nonzero.mpr ⟨0, by decide, haddr, by decide⟩)
    exact absurd (hinside.1 _ hmem).1 (by decide)

/-- The checker accepts the disk of 12 blocks, so all that it uses there is in range. -/
theorem survives_sampleDisk :
    fscheck (sampleDisk 0 2) = .ok () ∧ Survivable (sampleDisk 0 2) sampleLayout := by
  have hok : fscheck (sampleDisk 0 2) = .ok () := by decide +kernel
  have hformatted : Formatted (sampleDisk 0 2) sampleLayout :=
    (sampleDisk_wellFormed (by decide +kernel)).formatted
  refine ⟨hok, (survives_iff hformatted).mp ?_⟩
  rw [hok]
  intro heq
  cases heq

end CS537.FsCheck
