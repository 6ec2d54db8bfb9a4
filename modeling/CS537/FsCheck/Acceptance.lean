import CS537.FsCheck.Faults

/-!
# Accepted images

The images on which the checker reports no error and has no fault: each check passes over the inodes,
the directories and the bitmap, and the numbers in the directories are those of the inodes in use.
-/

namespace CS537.FsCheck

open Foundation

variable {img : Image} {sb : Superblock}

/-- What an image has passed at the end of the bitmap checks. -/
theorem Formatted.passes_iff (h : Formatted img sb) : Passes img sb ↔ img.Prepared sb ∧
    (∀ i, PassesIndividual img sb i) ∧
    (∀ i : ℕ, (i : ℤ) < sb.ninodes → PassesDirectory img sb i) ∧ PassesBitmap img sb := by
  have hdirectories : PassesDirectoryChecks img sb ↔
      ∀ i : ℕ, (i : ℤ) < sb.ninodes → PassesDirectory img sb i := by
    rw [← (directoryChecks_verdict h).ok_iff Arrays.zero, PassesDirectoryChecks]
    exact ⟨fun ⟨s, hs⟩ ↦ ⟨(), s, hs⟩, fun ⟨_, s, hs⟩ ↦ ⟨s, hs⟩⟩
  rw [FsCheck.passes_iff]
  constructor
  · intro hok
    exact ⟨hok.prepared, fun i hi ↦ ⟨hok.valid i hi, hok.recordable.inside i hi⟩,
      hdirectories.mp hok.directories, (h.passesBitmap_iff hok.recordable).mpr hok.bitmap⟩
  · rintro ⟨hprepared, hind, hdir, hmap⟩
    have hrecordable : img.Recordable sb :=
      ⟨fun i _ hi ↦ h.inode_le (Int.le_of_lt hi), fun i hi ↦ (hind i hi).2⟩
    exact ⟨h.superblock, hprepared, hrecordable, fun i hi ↦ (hind i hi).1, hdirectories.mpr hdir,
      (h.passesBitmap_iff hrecordable).mp hmap⟩

/-- The checker accepts an image if and only if it passes all checks. -/
theorem fscheck_ok_iff (hsb : img.superblockAt BSIZE = sb) : fscheck img = .ok () ↔
    Passes img sb ∧ ScanInside img sb ∧ inUseNumbers img sb = scannedNumbers img sb := by
  have htests : Tests (fun _ ↦ True) _ _ _ := @referChecks_tests sb (fun _ ↦ True)
  constructor
  · intro hok
    obtain ⟨t, hmain⟩ : ∃ t, main img Arrays.zero = .ok ((), t) := by
      rw [fscheck] at hok
      cases hrun : main img Arrays.zero with
      | error e => simp [hrun, Except.map] at hok
      | ok r => exact ⟨r.2, rfl⟩
    obtain ⟨⟨sb', inodes⟩, s, hfirst, -⟩ := exists_of_bind_ok hmain
    have hpasses : Passes img sb' := ⟨inodes, s, hfirst⟩
    obtain rfl : sb' = sb := (passes_iff.mp hpasses).superblock.symm.trans hsb
    have hscan : ScanInside img sb' := by
      by_contra hn
      cases hok.symm.trans (hpasses.fault_of_not_scanInside hn)
    refine ⟨hpasses, hscan, ?_⟩
    by_contra hne
    obtain ⟨e, -, herror⟩ := (hpasses.reports_iff hscan).2.mpr hne
    cases hok.symm.trans herror
  · rintro ⟨hpasses, hscan, heq⟩
    have hrun := htests.passes _ trivial ((differs_iff hscan).not.mpr (not_not.mpr heq))
    rw [fscheck, hpasses.main_scanned hscan, hrun]
    rfl

end CS537.FsCheck
