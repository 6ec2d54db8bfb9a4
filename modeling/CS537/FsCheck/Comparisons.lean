import CS537.FsCheck.Effects

/-!
# What the functions of the checker compare

For each loop that compares two arrays: the states in which it reports an error.
-/

namespace CS537.FsCheck

open Foundation

variable (sb : Superblock)

theorem index_returns {length : ℤ} {i : ℕ} (h : (i : ℤ) < length) (s : Arrays) :
    index length i s = .ok (i, s) :=
  (index_acts length i).returns ⟨Int.natCast_nonneg i, h⟩ s

theorem printErrIf_tests {P : Arrays → Prop} {c : Prop} [Decidable c] (msg : String) :
    Tests P (printErrIf c msg) (fun _ ↦ c) (· = .printErr msg) := by
  by_cases h : c
  · exact ⟨fun s _ _ ↦ ⟨_, by rw [printErrIf, if_pos h]; rfl, rfl⟩, fun s _ hn ↦ absurd h hn⟩
  · exact ⟨fun s _ hp ↦ absurd hp h, fun s _ _ ↦ by rw [printErrIf, if_neg h]; rfl⟩

/-! ## The bitmap -/

def usedNotMarked : String := "ERROR: bitmap marks data free but data block used by inode."

def markedNotUsed : String := "ERROR: bitmap marks data block in use but not used."

section Bitmap

variable {sb} {i : ℕ} {s : Arrays}

theorem getDataUse_returns (h : (i : ℤ) < sb.nblocks) (s : Arrays) :
    getDataUse sb i s = .ok (s.dataUse i, s) :=
  bind_of_ok (index_returns h s)

theorem getDmap_returns (h : (i : ℤ) < sb.mapLength) (s : Arrays) :
    getDmap sb i s = .ok (s.dmap i, s) :=
  bind_of_ok (index_returns h s)

/-- Behind the last block no bit has been read. -/
def MapRead (sb : Superblock) (s : Arrays) : Prop := ∀ k : ℕ, s.dmap k ≠ 0 → (k : ℤ) < sb.nblocks

/-- The errors of the bitmap checks. -/
def IsBitmapError (e : Stop) : Prop := e = .printErr usedNotMarked ∨ e = .printErr markedNotUsed

theorem bitmapCheck1_tests {P : Arrays → Prop} (h : (i : ℤ) < sb.nblocks) :
    Tests P (bitmapCheck1 sb i) (fun s ↦ s.dataUse i = true ∧ s.dmap i = 0)
      (· = .printErr usedNotMarked) := by
  have hmap : (i : ℤ) < sb.mapLength := Int.lt_trans h (lt_mapLength sb (by omega))
  have hrun (s : Arrays) : bitmapCheck1 sb i s =
      if s.dataUse i = true then printErrIf (s.dmap i = 0) usedNotMarked s else .ok ((), s) := by
    rw [bitmapCheck1, bind_of_ok (getDataUse_returns h s)]
    by_cases hused : s.dataUse i = true
    · simp only [if_pos hused]
      exact bind_of_ok (getDmap_returns hmap s)
    · simp only [if_neg hused]
      rfl
  refine ⟨fun s hs hbad ↦ ?_, fun s hs hgood ↦ ?_⟩
  · rw [hrun, if_pos hbad.1]
    exact (printErrIf_tests (P := P) usedNotMarked).fails s hs hbad.2
  · rw [hrun]
    by_cases hused : s.dataUse i = true
    · rw [if_pos hused]
      exact (printErrIf_tests (P := P) usedNotMarked).passes s hs fun h ↦ hgood ⟨hused, h⟩
    · rw [if_neg hused]

theorem bitmapCheck2_tests (h : (i : ℤ) < sb.mapLength) :
    Tests (MapRead sb) (bitmapCheck2 sb i) (fun s ↦ s.dmap i ≠ 0 ∧ s.dataUse i = false)
      (· = .printErr markedNotUsed) := by
  have hrun (s : Arrays) (hs : MapRead sb s) : bitmapCheck2 sb i s =
      if s.dmap i ≠ 0 then printErrIf (s.dataUse i = false) markedNotUsed s else .ok ((), s) := by
    rw [bitmapCheck2, bind_of_ok (getDmap_returns h s)]
    by_cases hmarked : s.dmap i ≠ 0
    · simp only [if_pos hmarked]
      exact bind_of_ok (getDataUse_returns (hs i hmarked) s)
    · simp only [if_neg hmarked]
      rfl
  refine ⟨fun s hs hbad ↦ ?_, fun s hs hgood ↦ ?_⟩
  · rw [hrun s hs, if_pos hbad.1]
    exact (printErrIf_tests markedNotUsed).fails s hs hbad.2
  · rw [hrun s hs]
    by_cases hmarked : s.dmap i ≠ 0
    · rw [if_pos hmarked]
      exact (printErrIf_tests markedNotUsed).passes s hs fun h ↦ hgood ⟨hmarked, h⟩
    · rw [if_neg hmarked]

/-- The arrays differ at a block at which one of the two loops looks. -/
def MapDiffers (sb : Superblock) (dataBegin : ℕ) (s : Arrays) : Prop :=
  (∃ k : ℕ, (k : ℤ) < sb.nblocks ∧ s.dataUse k = true ∧ s.dmap k = 0) ∨
    ∃ k : ℕ, dataBegin ≤ k ∧ (k : ℤ) < sb.nblocks ∧ s.dmap k ≠ 0 ∧ s.dataUse k = false

theorem bitmapChecks_tests (hnblocks : 0 ≤ sb.nblocks) (dataPtr : ℕ) :
    Tests (MapRead sb) (bitmapChecks sb dataPtr) (MapDiffers sb (dataPtr / BSIZE))
      IsBitmapError := by
  have hfirst : Tests (MapRead sb) ((List.range sb.nblocks.toNat).forM fun i ↦ bitmapCheck1 sb i)
      _ IsBitmapError := .forM fun i hi ↦
    (bitmapCheck1_tests (by rw [List.mem_range] at hi; omega)).weaken fun _ h ↦ .inl h
  have hsecond : Tests (MapRead sb) ((List.range' (dataPtr / BSIZE)
      (sb.mapLength.toNat - dataPtr / BSIZE)).forM fun i ↦ bitmapCheck2 sb i) _ IsBitmapError :=
    .forM fun i hi ↦
      (bitmapCheck2_tests (by rw [List.mem_range'_1] at hi; omega)).weaken fun _ h ↦ .inr h
  have hboth := hfirst.bind hsecond
  have hmap := lt_mapLength sb hnblocks
  refine ⟨fun s hs hbad ↦ hboth.fails s hs ?_, fun s hs hgood ↦ hboth.passes s hs ?_⟩
  · rcases hbad with ⟨k, hk, hbad⟩ | ⟨k, hbegin, hk, hbad⟩
    · exact .inl ⟨k, List.mem_range.mpr (by omega), hbad⟩
    · exact .inr ⟨k, List.mem_range'_1.mpr (by omega), hbad⟩
  · rintro (⟨k, hk, hbad⟩ | ⟨k, hk, hbad⟩)
    · rw [List.mem_range] at hk
      exact hgood (.inl ⟨k, by omega, hbad⟩)
    · rw [List.mem_range'_1] at hk
      exact hgood (.inr ⟨k, hk.1, hs k hbad.1, hbad⟩)

end Bitmap

/-! ## The references -/

def freeButReferred : String := "ERROR: inode marked free but referred to in directory."

def usedNotFound : String := "ERROR: inode marked in use but not found in a directory."

/-- The errors of the multi-structure checks. -/
def IsReferError (e : Stop) : Prop := e = .printErr freeButReferred ∨ e = .printErr usedNotFound

section References

variable {sb} {i : ℕ}

theorem referCheck_tests {P : Arrays → Prop} (h : (i : ℤ) < sb.ninodes) :
    Tests P (referCheck sb i) (fun s ↦ s.dirInode i ≠ s.inodeUse i) IsReferError := by
  have hfirst (c : Prop) [Decidable c] : Tests P (printErrIf c freeButReferred) _ IsReferError :=
    (printErrIf_tests freeButReferred).weaken fun _ ↦ .inl
  have hsecond (c : Prop) [Decidable c] : Tests P (printErrIf c usedNotFound) _ IsReferError :=
    (printErrIf_tests usedNotFound).weaken fun _ ↦ .inr
  have hrun (s : Arrays) : referCheck sb i s =
      (printErrIf (s.dirInode i = true ∧ s.inodeUse i = false) freeButReferred >>= fun _ ↦
        printErrIf (s.inodeUse i = true ∧ s.dirInode i = false) usedNotFound) s :=
    (bind_of_ok (bind_of_ok (index_returns h s))).trans
      (bind_of_ok (bind_of_ok (index_returns h s)))
  have hboth (d u : Bool) := (hfirst (d = true ∧ u = false)).bind (hsecond (u = true ∧ d = false))
  have hiff (d u : Bool) : ((d = true ∧ u = false) ∨ u = true ∧ d = false) ↔ d ≠ u := by
    cases d <;> cases u <;> decide
  refine ⟨fun s hs hbad ↦ ?_, fun s hs hgood ↦ ?_⟩
  · rw [hrun]
    exact (hboth _ _).fails s hs ((hiff _ _).mpr hbad)
  · rw [hrun]
    exact (hboth _ _).passes s hs fun hbad ↦ hgood ((hiff _ _).mp hbad)

theorem referChecks_tests {P : Arrays → Prop} :
    Tests P ((List.range sb.ninodes.toNat).forM fun i ↦ referCheck sb i)
      (fun s ↦ ∃ i ∈ List.range sb.ninodes.toNat, s.dirInode i ≠ s.inodeUse i) IsReferError :=
  .forM fun _ hi ↦ referCheck_tests (by rw [List.mem_range] at hi; omega)

end References

end CS537.FsCheck
