import CS537.Mkfs.Runs
import CS537.FsCheck.Acceptance
import Mathlib.Data.Nat.Bitwise

/-!
# The image as the checker reads it

The checker reads signed integers.  It finds the super block, the inodes with their blocks and the
bitmap as the formatter has left them.
-/

namespace CS537.Mkfs

open Foundation
open FsCheck (BSIZE NDIRECT NINDIRECT IPB sizeofDinode sizeofDirent sizeofInt ROOTINO signed nonzero
  mem_nonzero blockOffset Formatted InUse Refers Marked)

variable {s : State} {files : List HostFile} {j k m : ℕ}

/-- The image file. -/
def State.image (s : State) : FsCheck.Image := ⟨s.bytes, s.length⟩

/-- The super block that the formatter writes. -/
def layout : FsCheck.Superblock where
  size := FSSIZE
  nblocks := nblocks
  ninodes := NINODES
  nlog := nlog
  logstart := 2
  inodestart := inodestart
  bmapstart := bmapstart

theorem signed_of_lt {half n : ℕ} (h : n < half) : signed half n = n := if_pos h

theorem int32At_image (s : State) (off : ℕ) :
    s.image.int32At off = signed (2 ^ 31) (uintAt s.bytes off) :=
  rfl

theorem int16At_image (s : State) (off : ℕ) :
    s.image.int16At off = signed (2 ^ 15) (ushortAt s.bytes off) :=
  rfl

/-! ## The super block -/

theorem superblockAt_image (h : ∀ r < BSIZE, s.bytes (1 * BSIZE + r) = sbSector r) :
    s.image.superblockAt BSIZE = layout := by
  have hfield (k : ℕ) (hk : k < 7) : s.image.int32At (BSIZE + sizeofInt * k) = sb.getD k 0 := by
    have hlt : ∀ k < 7, sb.getD k 0 < 2 ^ 31 := by decide
    have hvalue : uintAt s.bytes (BSIZE + sizeofInt * k) = sb.getD k 0 := by
      refine uintAt_of_bytes (Nat.lt_trans (hlt k hk) (by decide)) fun r hr ↦ ?_
      have hinside : sizeofInt * k + r < BSIZE := by
        rw [sizeofInt, FsCheck.BSIZE]
        omega
      have hdiv : (sizeofInt * k + r) / sizeofInt = k := by
        rw [sizeofInt]
        omega
      have hmod : (sizeofInt * k + r) % sizeofInt = r := by
        rw [sizeofInt]
        omega
      have hread := h (sizeofInt * k + r) hinside
      rw [Nat.one_mul, ← Nat.add_assoc, sbSector, hdiv, hmod] at hread
      exact hread
    rw [int32At_image, hvalue, signed_of_lt (hlt k hk)]
  simp only [FsCheck.Image.superblockAt, layout, FsCheck.Superblock.mk.injEq]
  exact ⟨hfield 0 (by decide), hfield 1 (by decide), hfield 2 (by decide), hfield 3 (by decide),
    hfield 4 (by decide), hfield 5 (by decide), hfield 6 (by decide)⟩

theorem formatted_image (hwhole : s.Whole)
    (h : ∀ r < BSIZE, s.bytes (1 * BSIZE + r) = sbSector r) : Formatted s.image layout where
  superblock := superblockAt_image h
  length := hwhole
  nlog := by decide
  ninodes := by decide
  logstart := rfl
  inodestart := rfl
  bmapstart := by decide
  nblocks := by decide
  nmeta := by decide

/-! ## The inodes -/

theorem inodeAt_type (s : State) (j : ℕ) :
    (s.image.inodeAt layout j).type = signed (2 ^ 15) (s.inode j).type :=
  rfl

theorem inodeAt_size (s : State) (j : ℕ) :
    (s.image.inodeAt layout j).size = signed (2 ^ 31) (s.inode j).size :=
  rfl

theorem inodeAt_addrs (s : State) (j : ℕ) (hk : k ≤ NDIRECT) :
    (s.image.inodeAt layout j).addrs k = signed (2 ^ 31) ((s.inode j).addrs k) := by
  have haddr : (s.inode j).addrs k = uintAt s.bytes (inodeOffset j + 12 + sizeofInt * k) := if_pos hk
  rw [haddr]
  rfl

/-- The numbers of a table that are not zero come first. -/
theorem length_nonzero {n k : ℕ} {g : ℕ → ℤ} (h : ∀ i < n, g i ≠ 0 ↔ i < k) :
    (nonzero n g).length = min n k := by
  induction n with
  | zero => rfl
  | succ n ih =>
    have hrest := ih fun i hi ↦ h i (Nat.lt_succ_of_lt hi)
    have hlast := h n (Nat.lt_succ_self n)
    have hsplit : nonzero (n + 1) g = nonzero n g ++ if g n ≠ 0 then [g n] else [] := by
      simp only [nonzero, List.range_succ, List.map_append, List.filter_append, List.map_singleton,
        List.filter_cons, List.filter_nil, decide_eq_true_eq]
    rw [hsplit, List.length_append, hrest]
    by_cases hn : n < k
    · rw [if_pos (hlast.mpr hn), List.length_singleton]
      omega
    · rw [if_neg (fun hne ↦ hn (hlast.mp hne)), List.length_nil]
      omega

section Blocks

variable (h : Blocks s s.table) (hle : s.freeblock ≤ FSSIZE) (hj : j < slots)
include h hle

theorem address_lt (j m : ℕ) : s.address (s.table j) m < FSSIZE := by
  by_cases hzero : s.address (s.table j) m = 0
  · rw [hzero]
    decide
  · exact Nat.lt_of_lt_of_le (h.lt_freeblock hzero) hle

theorem signed_address (j m : ℕ) :
    signed (2 ^ 31) (s.address (s.table j) m) = s.address (s.table j) m :=
  signed_of_lt (Nat.lt_trans (address_lt h hle j m) (by decide))

include hj

theorem inodeAt_direct (hk : k < NDIRECT) :
    (s.image.inodeAt layout j).addrs k = s.address (s.table j) k := by
  rw [inodeAt_addrs s j (Nat.le_of_lt hk), ← signed_address h hle, State.address_direct _ _ hk,
    State.table_of_lt hj]

theorem inodeAt_indirect :
    (s.image.inodeAt layout j).addrs NDIRECT = s.address (s.table j) MAXFILE := by
  rw [inodeAt_addrs s j le_rfl, ← signed_address h hle, State.address_indirect, State.table_of_lt hj]

theorem inodeAt_entry (hm : m < NINDIRECT) (hne : s.address (s.table j) MAXFILE ≠ 0) :
    s.image.indirectAt (s.image.inodeAt layout j) m = s.address (s.table j) (NDIRECT + m) := by
  have hoffset (b : ℕ) : blockOffset b = b * BSIZE := Int.toNat_natCast (b * BSIZE)
  have hlt : NDIRECT + m < MAXFILE := Nat.add_lt_add_left hm NDIRECT
  have hne' := hne
  rw [State.address_indirect] at hne'
  rw [FsCheck.Image.indirectAt, inodeAt_indirect h hle hj, hoffset, int32At_image,
    ← signed_address h hle, State.address_entry _ _ (Nat.le_add_right _ _) hlt, if_neg hne',
    State.address_indirect, Nat.add_sub_cancel_left]
  rfl

/-- The blocks of an inode. -/
theorem mem_blocks_iff (b : ℤ) : b ∈ s.image.blocks (s.image.inodeAt layout j) ↔
    ∃ m, s.address (s.table j) m ≠ 0 ∧ (s.address (s.table j) m : ℤ) = b := by
  have hdirect (k : ℕ) (hk : k < NDIRECT) := inodeAt_direct h hle hj hk
  have hindirect := inodeAt_indirect h hle hj
  have hentry (m : ℕ) (hm : m < NINDIRECT) := inodeAt_entry h hle hj hm
  rw [FsCheck.Image.blocks, List.mem_append, List.mem_append, FsCheck.Dinode.directBlocks,
    FsCheck.Image.indirectBlocks, hindirect]
  constructor
  · rintro (hb | hb | hb)
    · obtain ⟨k, hk, rfl, hne⟩ := mem_nonzero.mp hb
      rw [hdirect k hk] at hne ⊢
      exact ⟨k, Int.natCast_ne_zero.mp hne, rfl⟩
    · split at hb
      case isTrue => exact absurd hb List.not_mem_nil
      case isFalse hne => exact ⟨MAXFILE, Int.natCast_ne_zero.mp hne, (List.mem_singleton.mp hb).symm⟩
    · split at hb
      case isTrue => exact absurd hb List.not_mem_nil
      case isFalse hne =>
        obtain ⟨m, hm, rfl, hne'⟩ := mem_nonzero.mp hb
        rw [hentry m hm (Int.natCast_ne_zero.mp hne)] at hne' ⊢
        exact ⟨NDIRECT + m, Int.natCast_ne_zero.mp hne', rfl⟩
  · rintro ⟨m, hne, rfl⟩
    rcases Nat.lt_trichotomy m MAXFILE with hm | rfl | hm
    · by_cases hlt : m < NDIRECT
      · exact .inl (mem_nonzero.mpr ⟨m, hlt, hdirect m hlt, Int.natCast_ne_zero.mpr hne⟩)
      · obtain ⟨r, rfl⟩ := Nat.exists_eq_add_of_le (Nat.not_lt.mp hlt)
        have hr : r < NINDIRECT := Nat.lt_of_add_lt_add_left hm
        have hblock : s.address (s.table j) MAXFILE ≠ 0 := by
          rw [State.address_entry _ _ (Nat.le_add_right _ _) hm] at hne
          rw [State.address_indirect]
          exact fun hzero ↦ hne (if_pos hzero)
        refine .inr (.inr ?_)
        rw [if_neg (Int.natCast_ne_zero.mpr hblock)]
        exact mem_nonzero.mpr ⟨r, hr, hentry r hr hblock, Int.natCast_ne_zero.mpr hne⟩
    · refine .inr (.inl ?_)
      rw [if_neg (Int.natCast_ne_zero.mpr hne)]
      exact List.mem_singleton_self _
    · exact absurd (State.address_behind _ _ hm) hne

/-- The blocks of an inode that hold data. -/
theorem length_dataBlocks {size : ℕ} (hsize : size ≤ MAXFILE * BSIZE)
    (hdata : ∀ m < MAXFILE, s.address (s.table j) m ≠ 0 ↔ m * BSIZE < size)
    (hsecond : s.address (s.table j) MAXFILE ≠ 0 ↔ NDIRECT * BSIZE < size) :
    (s.image.dataBlocks (s.image.inodeAt layout j)).length = (size + (BSIZE - 1)) / BSIZE := by
  rw [MAXFILE_eq] at hsize
  have hdirect : (s.image.inodeAt layout j).directBlocks.length =
      min NDIRECT ((size + (BSIZE - 1)) / BSIZE) := by
    refine length_nonzero fun k hk ↦ ?_
    rw [inodeAt_direct h hle hj hk, Int.natCast_ne_zero, hdata k (Nat.lt_trans hk (by decide)),
      FsCheck.BSIZE]
    omega
  have hindirect : (s.image.indirectBlocks (s.image.inodeAt layout j)).length =
      min NINDIRECT ((size + (BSIZE - 1)) / BSIZE - NDIRECT) := by
    rw [FsCheck.Image.indirectBlocks, inodeAt_indirect h hle hj]
    by_cases hzero : s.address (s.table j) MAXFILE = 0
    · have hsmall := hsecond.not.mp (not_not.mpr hzero)
      rw [if_pos (Int.natCast_eq_zero.mpr hzero), List.length_nil]
      rw [FsCheck.BSIZE, NDIRECT] at *
      omega
    · rw [if_neg (Int.natCast_ne_zero.mpr hzero)]
      refine length_nonzero fun m hm ↦ ?_
      rw [inodeAt_entry h hle hj hm hzero, Int.natCast_ne_zero,
        hdata _ (Nat.add_lt_add_left hm NDIRECT), FsCheck.BSIZE, NDIRECT]
      omega
  have hNINDIRECT : NINDIRECT = 128 := rfl
  rw [FsCheck.Image.dataBlocks, List.length_append, hdirect, hindirect, hNINDIRECT, NDIRECT]
  rw [FsCheck.BSIZE] at *
  omega

end Blocks

/-! ## The bitmap -/

theorem bitmap_succ (used : ℕ) : bitmap (used + 1) = Function.update (bitmap used) (used / 8)
    (bitmap used (used / 8) ||| UInt8.ofNat (2 ^ (used % 8))) := by
  rw [bitmap, List.range_succ, List.foldl_append, List.foldl_cons, List.foldl_nil, ← bitmap]

theorem testBit_bitmap (used r : ℕ) (hk : k < 8) :
    (bitmap used r).toNat.testBit k = decide (8 * r + k < used) := by
  induction used with
  | zero =>
    rw [decide_eq_false (Nat.not_lt_zero _)]
    exact Nat.zero_testBit k
  | succ used ih =>
    rw [bitmap_succ]
    by_cases hr : r = used / 8
    · have hbit : 2 ^ (used % 8) % 2 ^ 8 = 2 ^ (used % 8) :=
        Nat.mod_eq_of_lt (Nat.pow_lt_pow_right (by decide) (Nat.mod_lt _ (by decide)))
      rw [hr, Function.update_self, UInt8.toNat_or, Nat.testBit_or, ← hr, ih, UInt8.toNat_ofNat',
        hbit, Nat.testBit_two_pow, ← Bool.decide_or]
      exact decide_eq_decide.mpr (by omega)
    · rw [Function.update_of_ne hr, ih]
      exact decide_eq_decide.mpr (by omega)

/-- The blocks that have been given out, and those before them, are marked. -/
theorem marked_iff (h : ∀ r < BSIZE, s.bytes (bmapstart * BSIZE + r) = bitmap s.freeblock r) {b : ℕ}
    (hb : b < BSIZE * 8) : Marked s.image layout b ↔ b < s.freeblock := by
  have hinside : b / 8 < BSIZE := Nat.div_lt_of_lt_mul (by rwa [Nat.mul_comm])
  have hoffset : blockOffset layout.bmapstart = bmapstart * BSIZE := rfl
  have hbyte : s.image.bytes (bmapstart * BSIZE + b / 8) = bitmap s.freeblock (b / 8) :=
    h (b / 8) hinside
  rw [Marked, FsCheck.Image.bitAt, hoffset, hbyte, Nat.two_pow_and,
    testBit_bitmap _ _ (Nat.mod_lt b (by decide)), Nat.div_add_mod]
  by_cases hlt : b < s.freeblock
  · exact iff_of_true (by simp [hlt]) hlt
  · exact iff_of_false (by simp [hlt]) hlt

/-! ## The entries of the root directory -/

/-- An element of a list of lists of one length. -/
theorem getD_flatMap {α : Type} {f : α → List UInt8} {n r : ℕ} (hf : ∀ a, (f a).length = n)
    (hr : r < n) (l : List α) (k : ℕ) :
    (l.flatMap f).getD (n * k + r) 0 = (l[k]?.map fun a ↦ (f a).getD r 0).getD 0 := by
  induction l generalizing k with
  | nil => rfl
  | cons a l ih =>
    rw [List.flatMap_cons]
    cases k with
    | zero =>
      rw [Nat.mul_zero, Nat.zero_add, List.getD_append _ _ _ _ (by rwa [hf])]
      rfl
    | succ k =>
      have hskip : n * (k + 1) + r - (f a).length = n * k + r := by
        rw [hf, Nat.mul_succ]
        omega
      have hbehind : (f a).length ≤ n * (k + 1) + r := by
        rw [hf, Nat.mul_succ]
        omega
      rw [List.getD_append_right _ _ _ _ hbehind, hskip, ih, List.getElem?_cons_succ]

/-- The inode number of an entry; zero behind the last one. -/
def entryNumber (files : List HostFile) (k : ℕ) : ℕ :=
  if k < files.length + 2 then max ROOTINO k else 0

theorem entryNumber_dots (files : List HostFile) (hk : k < 2) : entryNumber files k = ROOTINO := by
  rw [entryNumber, if_pos (by omega), ROOTINO]
  omega

theorem rootEntries_number (files : List HostFile) (k : ℕ) :
    ((rootEntries files)[k]?.map Prod.fst).getD 0 = entryNumber files k := by
  rw [entryNumber, rootEntries]
  rcases k with _ | _ | k
  · exact (if_pos (Nat.succ_pos _)).symm
  · exact (if_pos (Nat.succ_lt_succ (Nat.succ_pos _))).symm
  · rw [List.getElem?_cons_succ, List.getElem?_cons_succ, List.getElem?_map, List.getElem?_zipIdx]
    by_cases hk : k < files.length
    · rw [List.getElem?_eq_getElem hk, if_pos (by omega)]
      simp only [Option.map_some, Option.getD_some, ROOTINO]
      omega
    · rw [List.getElem?_eq_none (Nat.not_lt.mp hk), if_neg (by omega)]
      rfl

theorem rootData_getD (files : List HostFile) (k : ℕ) {r : ℕ} (hr : r < 2) :
    (rootData files).getD (sizeofDirent * k + r) 0 = byteOf (entryNumber files k) r := by
  have hdirent (entry : ℕ × List UInt8) : (dirent entry.1 entry.2).getD r 0 = byteOf entry.1 r := by
    have hlt : r < sizeofDirent := Nat.lt_trans hr (by decide)
    rw [dirent, List.getD_eq_getElem?_getD, List.getElem?_map, List.getElem?_range hlt,
      Option.map_some, Option.getD_some, if_pos hr]
  have hread := getD_flatMap (f := fun entry : ℕ × List UInt8 ↦ dirent entry.1 entry.2) (r := r)
    (fun _ ↦ length_dirent _ _) (Nat.lt_trans hr (by decide)) (rootEntries files) k
  rw [← rootEntries_number, rootData, sizeofDirent, hread]
  simp only [hdirent]
  cases (rootEntries files)[k]? with
  | none =>
    rw [Option.map_none, Option.map_none, Option.getD_none, Option.getD_none, byteOf, Nat.zero_div]
    rfl
  | some entry => rfl

end CS537.Mkfs
