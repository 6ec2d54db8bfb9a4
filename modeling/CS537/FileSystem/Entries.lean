import CS537.FileSystem.Calls
import Mathlib.Data.List.Find

/-!
# Directory entries that are written

`dirlink` writes an entry over one that is not in use or behind the last one.  The directory then
has the new name, and all other names lead where they did.
-/

namespace CS537.FileSystem

open Foundation

/-! ## The bytes of an entry -/

theorem length_nameOf_le (name : List UInt8) : (nameOf name).bytes.length ≤ DIRSIZ := by
  simp only [nameOf, CString.ofBytes]
  exact (List.takeWhile_sublist _).length_le.trans (List.length_take_le _ _)

theorem length_direntBytes (inum : Inum) (name : List UInt8) :
    (direntBytes inum name).length = sizeofDirent := by
  have hname := length_nameOf_le name
  simp only [direntBytes, sizeofDirent, List.length_append, List.length_cons, List.length_nil,
    List.length_replicate]
  omega

/-- The number is read back as it was written. -/
theorem inum_ofBytes_direntBytes (inum : Inum) (name : List UInt8) :
    (Dirent.ofBytes (direntBytes inum name)).inum = inum := by
  have hinum := inum.isLt
  simp only [Dirent.ofBytes, direntBytes, List.cons_append, List.headD_cons, List.tail_cons,
    UInt8.toNat_ofNat']
  apply Fin.ext
  simp only [Fin.ofNat]
  omega

theorem ofBytes_append_zeros (s : CString) (n : ℕ) :
    CString.ofBytes (s.bytes ++ List.replicate n 0) = s := by
  apply CString.ext
  have hbytes : ∀ b ∈ s.bytes, (decide (b ≠ 0)) = true := by
    intro b hb
    simpa using fun h : b = 0 ↦ s.noNul (h ▸ hb)
  simp only [CString.ofBytes, List.takeWhile_append_of_pos hbytes]
  cases n <;> simp [List.replicate_succ]

/-- The name is read back as `namecmp` sees it. -/
theorem nameOf_ofBytes_direntBytes (inum : Inum) (name : List UInt8) :
    nameOf (Dirent.ofBytes (direntBytes inum name)).name = nameOf name := by
  have hname := length_nameOf_le name
  have hdrop : (Dirent.ofBytes (direntBytes inum name)).name =
      (nameOf name).bytes ++ List.replicate (DIRSIZ - (nameOf name).bytes.length) 0 := by
    simp [Dirent.ofBytes, direntBytes]
  rw [hdrop, nameOf, List.take_of_length_le, ofBytes_append_zeros]
  simp only [List.length_append, List.length_replicate]
  omega

/-! ## The entries after a write -/

namespace Inode

variable {dp : Inode} {off k : ℕ} {src : List UInt8}

theorem direntAt_write (hoff : off ≤ dp.size) (hmax : off + src.length ≤ MAXFILE * BSIZE)
    (hsrc : src.length = sizeofDirent) : (dp.write off src hoff hmax).direntAt off = .ofBytes src := by
  have hlength : (dp.content.take off).length = off := List.length_take_of_le hoff
  simp only [direntAt, write]
  rw [List.append_assoc, List.drop_left' hlength, List.take_left' hsrc]

/-- The entries that do not overlap with the bytes written. -/
theorem direntAt_write_of_ne (hoff : off ≤ dp.size) (hmax : off + src.length ≤ MAXFILE * BSIZE)
    {off' : ℕ} (hne : off' + sizeofDirent ≤ off ∨ off + src.length ≤ off') :
    (dp.write off src hoff hmax).direntAt off' = dp.direntAt off' := by
  simp only [Inode.size] at hoff
  simp only [direntAt, write]
  congr 1
  apply List.ext_getElem?
  intro j
  simp only [List.getElem?_take, List.getElem?_drop, List.getElem?_append, List.length_append,
    List.length_take, Nat.min_eq_left hoff]
  split
  · rcases hne with h | h
    · rw [if_pos (by omega), if_pos (by omega), if_pos (by omega)]
    · rw [if_neg (by omega)]
      congr 1
      omega
  · rfl

theorem size_write (hoff : off ≤ dp.size) (hmax : off + src.length ≤ MAXFILE * BSIZE) :
    (dp.write off src hoff hmax).size = max dp.size (off + src.length) := by
  simp only [Inode.size] at hoff ⊢
  simp only [write, List.length_append, List.length_take, List.length_drop]
  omega

/-- The entry with the number `k` is in use and has the name. -/
def hasName (dp : Inode) (c : CString) (k : ℕ) : Bool :=
  (dp.direntAt (k * sizeofDirent)).inum ≠ 0 ∧ nameOf (dp.direntAt (k * sizeofDirent)).name = c

theorem lookup_eq (dp : Inode) (c : CString) :
    dp.lookup c = ((List.range' 0 (dp.size / sizeofDirent)).find? (dp.hasName c)).map
      fun k ↦ (dp.direntAt (k * sizeofDirent)).inum := by
  rw [lookup, findIn, dirents, direntsFrom, List.find?_map, Option.map_map]
  rfl

/-- The offset at which `dirlink` writes: an entry that is not in use, or the end. -/
structure Vacant (dp : Inode) (k : ℕ) : Prop where
  le : k ≤ dp.size / sizeofDirent
  unused : k < dp.size / sizeofDirent → (dp.direntAt (k * sizeofDirent)).inum = 0

section Written

variable {inum : Inum} {name : List UInt8} {c : CString}
  (hoff : k * sizeofDirent ≤ dp.size)
  (hmax : k * sizeofDirent + (direntBytes inum name).length ≤ MAXFILE * BSIZE)

theorem hasName_write (hinum : inum ≠ 0) :
    (dp.write (k * sizeofDirent) (direntBytes inum name) hoff hmax).hasName c k = true ↔
      nameOf name = c := by
  rw [hasName, direntAt_write hoff hmax (length_direntBytes inum name),
    inum_ofBytes_direntBytes, nameOf_ofBytes_direntBytes]
  simp [hinum]

theorem hasName_write_of_ne {j : ℕ} (hj : j ≠ k) :
    (dp.write (k * sizeofDirent) (direntBytes inum name) hoff hmax).hasName c j =
      dp.hasName c j := by
  have hlength := length_direntBytes inum name
  have hapart : j * sizeofDirent + sizeofDirent ≤ k * sizeofDirent ∨
      k * sizeofDirent + (direntBytes inum name).length ≤ j * sizeofDirent := by
    simp only [hlength, sizeofDirent, DIRSIZ]
    omega
  rw [hasName, hasName, direntAt_write_of_ne hoff hmax hapart]

theorem count_write (hwhole : dp.Whole) :
    (dp.write (k * sizeofDirent) (direntBytes inum name) hoff hmax).size / sizeofDirent =
      max (dp.size / sizeofDirent) (k + 1) := by
  have hlength := length_direntBytes inum name
  rw [size_write, hlength]
  simp only [Whole, sizeofDirent, DIRSIZ] at hwhole ⊢
  omega

/-- The new name leads to the new inode. -/
theorem lookup_write_self (hwhole : dp.Whole) (hinum : inum ≠ 0) (hvacant : dp.Vacant k)
    (hnone : dp.lookup (nameOf name) = none) :
    (dp.write (k * sizeofDirent) (direntBytes inum name) hoff hmax).lookup (nameOf name) =
      some inum := by
  have hold : ∀ j, j < dp.size / sizeofDirent → dp.hasName (nameOf name) j = false := by
    rw [lookup_eq, Option.map_eq_none_iff, List.find?_range'_eq_none] at hnone
    intro j hj
    simpa using hnone j (Nat.zero_le j) (by omega)
  have hle := hvacant.le
  have hfind : (List.range' 0 (max (dp.size / sizeofDirent) (k + 1))).find?
      ((dp.write (k * sizeofDirent) (direntBytes inum name) hoff hmax).hasName (nameOf name)) =
      some k := by
    rw [List.find?_range'_eq_some]
    refine ⟨(hasName_write hoff hmax hinum).mpr rfl, ?_, fun j _ hj ↦ ?_⟩
    · rw [List.mem_range'_1]
      omega
    · rw [hasName_write_of_ne hoff hmax hj.ne, hold j (by omega)]
      rfl
  rw [lookup_eq, count_write hoff hmax hwhole, hfind]
  rw [Option.map_some, direntAt_write hoff hmax (length_direntBytes inum name),
    inum_ofBytes_direntBytes]

/-- All other names lead where they did. -/
theorem lookup_write_of_ne (hwhole : dp.Whole) (hinum : inum ≠ 0) (hvacant : dp.Vacant k)
    (hc : nameOf name ≠ c) :
    (dp.write (k * sizeofDirent) (direntBytes inum name) hoff hmax).lookup c = dp.lookup c := by
  have hnew : (dp.write (k * sizeofDirent) (direntBytes inum name) hoff hmax).hasName c k =
      false := by
    rw [← Bool.not_eq_true, hasName_write hoff hmax hinum]
    exact hc
  have hsame : ∀ j, j < dp.size / sizeofDirent →
      (dp.write (k * sizeofDirent) (direntBytes inum name) hoff hmax).hasName c j =
        dp.hasName c j := by
    intro j hj
    by_cases hjk : j = k
    · have hunused := hvacant.unused (hjk ▸ hj)
      rw [hjk, hnew]
      simp [hasName, hunused]
    · exact hasName_write_of_ne hoff hmax hjk
  have hle := hvacant.le
  have hfind : (List.range' 0 (max (dp.size / sizeofDirent) (k + 1))).find?
      ((dp.write (k * sizeofDirent) (direntBytes inum name) hoff hmax).hasName c) =
      (List.range' 0 (dp.size / sizeofDirent)).find? (dp.hasName c) := by
    have hcongr : (List.range' 0 (dp.size / sizeofDirent)).find?
        ((dp.write (k * sizeofDirent) (direntBytes inum name) hoff hmax).hasName c) =
        (List.range' 0 (dp.size / sizeofDirent)).find? (dp.hasName c) := by
      apply List.find?_congr
      intro j hj
      rw [List.mem_range'_1] at hj
      exact hsame j (by omega)
    rcases Nat.lt_or_ge k (dp.size / sizeofDirent) with hk | hk
    · rw [max_eq_left (by omega), hcongr]
    · obtain rfl : k = dp.size / sizeofDirent := Nat.le_antisymm hle hk
      rw [max_eq_right (Nat.le_succ _), List.range'_concat, List.find?_append, hcongr]
      simp [hnew]
  rw [lookup_eq, lookup_eq, count_write hoff hmax hwhole, hfind]
  apply Option.map_congr
  intro j hj
  have hname : dp.hasName c j = true := List.find?_some hj
  by_cases hjk : j = k
  · have hlt : j < dp.size / sizeofDirent := by
      have hmem := List.mem_range'_1.mp (List.mem_of_find?_eq_some hj)
      omega
    rw [← hsame j hlt, hjk, hnew] at hname
    exact absurd hname Bool.false_ne_true
  · have hlength := length_direntBytes inum name
    have hapart : j * sizeofDirent + sizeofDirent ≤ k * sizeofDirent ∨
        k * sizeofDirent + (direntBytes inum name).length ≤ j * sizeofDirent := by
      simp only [hlength, sizeofDirent, DIRSIZ]
      omega
    rw [direntAt_write_of_ne hoff hmax hapart]

end Written

end Inode

/-! ## The place of the new entry -/

theorem dirlinkLoop_vacant {dp : Inode} (hwhole : dp.Whole) {n k m : ℕ}
    (hm : k + m = dp.size / sizeofDirent) (hn : m < n) :
    ∃ j, dirlinkLoop dp n (k * sizeofDirent) = .ok (j * sizeofDirent) ∧ dp.Vacant j := by
  have hsizeof : sizeofDirent = 16 := rfl
  induction m generalizing n k with
  | zero =>
    obtain ⟨n, rfl⟩ : ∃ n', n = n' + 1 := Nat.exists_eq_succ_of_ne_zero (by omega)
    have hend : ¬k * sizeofDirent < dp.size := by
      simp only [Inode.Whole, hsizeof] at hwhole hm ⊢
      omega
    exact ⟨k, by rw [dirlinkLoop, if_neg hend], by omega, fun h ↦ by omega⟩
  | succ m ih =>
    obtain ⟨n, rfl⟩ : ∃ n', n = n' + 1 := Nat.exists_eq_succ_of_ne_zero (by omega)
    obtain ⟨hoff, hlong⟩ := dp.length_entry (k := k) (by omega)
    have hentry : Dirent.ofBytes ((dp.content.drop (k * sizeofDirent)).take sizeofDirent) =
        dp.direntAt (k * sizeofDirent) := rfl
    rw [dirlinkLoop, if_pos hoff, readi_of_le hoff.le (by decide)]
    simp only [if_neg (not_not.mpr hlong), hentry]
    by_cases hfree : (dp.direntAt (k * sizeofDirent)).inum = 0
    · exact ⟨k, by rw [if_pos hfree], by omega, fun _ ↦ hfree⟩
    · obtain ⟨j, hloop, hj⟩ := ih (n := n) (k := k + 1) (by omega) (by omega)
      rw [Nat.add_mul, Nat.one_mul] at hloop
      exact ⟨j, by rw [if_neg hfree, hloop], hj⟩

/-- In a directory of whole entries `dirlink` finds a place. -/
theorem exists_emptyDirent {dp : Inum} {s : FsState} (hwhole : (s.inode dp).Whole) :
    ∃ k, emptyDirent dp s = .ok (k * sizeofDirent, s) ∧ (s.inode dp).Vacant k := by
  obtain ⟨k, hloop, hk⟩ := dirlinkLoop_vacant hwhole (Nat.zero_add _) (Nat.lt_succ_self _)
  rw [Nat.zero_mul] at hloop
  exact ⟨k, by rw [emptyDirent, hloop]; rfl, hk⟩

end CS537.FileSystem
