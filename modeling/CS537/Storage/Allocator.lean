import CS537.Storage.Model
import CS537.Foundation.Endings
import CS537.Foundation.Ownership
import Mathlib.Data.Nat.Bitwise

/-!
# The block allocator

`balloc` finds the first block that is not marked in the bitmap, marks it and erases it, and `bfree`
takes the mark away.
-/

namespace CS537.Storage

open Foundation Log
open FsCheck (BSIZE NDIRECT NINDIRECT IPB BPB sizeofDinode sizeofInt)
open Mkfs (Dinode byteOf uintAt MAXFILE bcopy)

/-! ## Bits -/

theorem toNat_mask (bi : ℕ) : (mask bi).toNat = 2 ^ (bi % 8) := by
  have hlt : 2 ^ (bi % 8) < 2 ^ 8 := Nat.pow_lt_pow_right (by decide) (Nat.mod_lt bi (by decide))
  rw [mask, UInt8.toNat_ofNat', Nat.mod_eq_of_lt hlt]

theorem and_mask_eq_zero (x : UInt8) (bi : ℕ) :
    x &&& mask bi = 0 ↔ x.toNat.testBit (bi % 8) = false := by
  rw [← UInt8.toNat_inj, UInt8.toNat_and, toNat_mask, Nat.and_two_pow]
  cases x.toNat.testBit (bi % 8) <;> simp

theorem testBit_or_mask (x : UInt8) (bi k : ℕ) :
    (x ||| mask bi).toNat.testBit k = (x.toNat.testBit k || decide (bi % 8 = k)) := by
  rw [UInt8.toNat_or, Nat.testBit_or, toNat_mask, Nat.testBit_two_pow]

theorem testBit_clear_mask (x : UInt8) (bi : ℕ) {k : ℕ} (hk : k < 8) :
    (x &&& ~~~mask bi).toNat.testBit k = (x.toNat.testBit k && !decide (bi % 8 = k)) := by
  have hnot : (~~~mask bi).toNat.testBit k = !(mask bi).toNat.testBit k := by
    change (~~~mask bi).toBitVec.getLsbD k = !(mask bi).toBitVec.getLsbD k
    rw [UInt8.toBitVec_not, BitVec.getLsbD_not]
    simp [hk]
  rw [UInt8.toNat_and, Nat.testBit_and, hnot, toNat_mask, Nat.testBit_two_pow]

/-- Bit `k` of a block. -/
def bit (data : Block) (k : ℕ) : Bool := (data (k / 8)).toNat.testBit (k % 8)

theorem bit_update (data : Block) (bi k : ℕ) (x : UInt8) : bit (Function.update data (bi / 8) x) k =
    if bi / 8 = k / 8 then x.toNat.testBit (k % 8) else bit data k := by
  by_cases hbyte : bi / 8 = k / 8
  · rw [bit, if_pos hbyte, hbyte, Function.update_self]
  · rw [bit, if_neg hbyte, Function.update_of_ne (fun heq ↦ hbyte heq.symm), bit]

theorem bit_set (data : Block) (bi k : ℕ) :
    bit (Function.update data (bi / 8) (data (bi / 8) ||| mask bi)) k = true ↔
      bit data k = true ∨ bi = k := by
  rw [bit_update]
  by_cases hbyte : bi / 8 = k / 8
  · rw [if_pos hbyte, testBit_or_mask, hbyte, bit, Bool.or_eq_true, decide_eq_true_eq]
    exact or_congr Iff.rfl ⟨fun hmod ↦ by omega, fun heq ↦ by rw [heq]⟩
  · rw [if_neg hbyte]
    exact (or_iff_left fun heq ↦ hbyte (by rw [heq])).symm

theorem bit_clear (data : Block) (bi k : ℕ) :
    bit (Function.update data (bi / 8) (data (bi / 8) &&& ~~~mask bi)) k = true ↔
      bit data k = true ∧ bi ≠ k := by
  rw [bit_update]
  by_cases hbyte : bi / 8 = k / 8
  · rw [if_pos hbyte, testBit_clear_mask _ _ (Nat.mod_lt k (by decide)), hbyte, bit, Bool.and_eq_true,
      Bool.not_eq_true', decide_eq_false_iff_not]
    exact and_congr_right fun _ ↦ not_congr ⟨fun hmod ↦ by omega, fun heq ↦ by rw [heq]⟩
  · rw [if_neg hbyte]
    exact (and_iff_left fun heq ↦ hbyte (by rw [heq])).symm

/-! ## The layout of the disk -/

/-- The first block behind the bitmap. -/
def SuperBlock.nmeta (sb : SuperBlock) : ℕ := sb.bmapstart + (sb.size / BPB + 1)

/-- The inodes lie before the bitmap and the bitmap before the data. -/
structure SuperBlock.Laid (sb : SuperBlock) : Prop where
  inodes : sb.inodestart + (sb.ninodes / IPB + 1) ≤ sb.bmapstart
  nmeta : sb.nmeta ≤ sb.size
  size_lt : sb.size < 2 ^ 31

/-- The bitmap says that the block is in use. -/
def Volume.Marked (sb : SuperBlock) (s : Volume) (b : ℕ) : Prop :=
  bit (s.block (sb.bblock b)) (b % BPB) = true

/-- A block has been given to `log_write` with new data. -/
def Volume.write (s : Volume) (b : ℕ) (data : Block) : Volume :=
  { s with block := Function.update s.block b data, logged := s.logged ++ [b] }

/-- The state after `balloc`. -/
def Volume.allocated (sb : SuperBlock) (s : Volume) (b : ℕ) : Volume :=
  (s.write (sb.bblock b) (Function.update (s.block (sb.bblock b)) (b % BPB / 8)
    (s.block (sb.bblock b) (b % BPB / 8) ||| mask (b % BPB)))).write b fun _ ↦ 0

/-- The state after `bfree`. -/
def Volume.freed (sb : SuperBlock) (s : Volume) (b : ℕ) : Volume :=
  s.write (sb.bblock b) (Function.update (s.block (sb.bblock b)) (b % BPB / 8)
    (s.block (sb.bblock b) (b % BPB / 8) &&& ~~~mask (b % BPB)))

section

variable {sb : SuperBlock} {s : Volume} {b c : ℕ}

theorem logWrite_run (b : ℕ) (f : Block → Block) (s : Volume) :
    logWrite b f s = .ok ((), s.write b (f (s.block b))) := rfl

@[simp]
theorem Volume.write_self (s : Volume) (b : ℕ) (data : Block) : (s.write b data).block b = data :=
  Function.update_self _ _ _

theorem Volume.write_of_ne (s : Volume) (data : Block) (hc : c ≠ b) :
    (s.write b data).block c = s.block c :=
  Function.update_of_ne hc _ _

/-! ## `balloc` -/

theorem scanBits_some {data : Block} {n bi k : ℕ} (h : scanBits sb data b n bi = some k) :
    bi ≤ k ∧ k < bi + n ∧ b + k < sb.size ∧ bit data k = false ∧
      ∀ j, bi ≤ j → j < k → bit data j = true := by
  induction n generalizing bi with
  | zero => cases h
  | succ n ih =>
    rw [scanBits] at h
    by_cases hsize : b + bi < sb.size
    · rw [if_pos hsize] at h
      by_cases hfree : data (bi / 8) &&& mask bi = 0
      · rw [if_pos hfree] at h
        obtain rfl := Option.some.inj h
        exact ⟨le_rfl, by omega, hsize, (and_mask_eq_zero _ _).mp hfree, fun j hj hj' ↦ by omega⟩
      · rw [if_neg hfree] at h
        obtain ⟨hle, hlt, hk, hbit, hbefore⟩ := ih h
        refine ⟨by omega, by omega, hk, hbit, fun j hj hj' ↦ ?_⟩
        rcases Nat.eq_or_lt_of_le hj with rfl | hlt'
        · exact Bool.eq_true_of_not_eq_false (mt (and_mask_eq_zero _ _).mpr hfree)
        · exact hbefore j hlt' hj'
    · rw [if_neg hsize] at h
      cases h

theorem scanBits_none {data : Block} {n bi : ℕ} (h : scanBits sb data b n bi = none) {k : ℕ}
    (hle : bi ≤ k) (hlt : k < bi + n) (hk : b + k < sb.size) : bit data k = true := by
  induction n generalizing bi with
  | zero => omega
  | succ n ih =>
    rw [scanBits, if_pos (by omega)] at h
    by_cases hfree : data (bi / 8) &&& mask bi = 0
    · rw [if_pos hfree] at h
      cases h
    · rw [if_neg hfree] at h
      rcases Nat.eq_or_lt_of_le hle with rfl | hlt'
      · exact Bool.eq_true_of_not_eq_false (mt (and_mask_eq_zero _ _).mpr hfree)
      · exact ih h hlt' (by omega)

theorem bblock_add (sb : SuperBlock) {b bi : ℕ} (hb : b % BPB = 0) (hbi : bi < BPB) :
    sb.bblock (b + bi) = sb.bblock b ∧ (b + bi) % BPB = bi := by
  have hBPB : BPB = 4096 := rfl
  rw [hBPB] at hb hbi
  rw [SuperBlock.bblock, SuperBlock.bblock, hBPB]
  omega

/-- The ends of `balloc`. -/
def OutOfBlocks (e : Stop) : Prop := e = .panic "balloc: out of blocks"

theorem ballocFrom_ends (n : ℕ) {b : ℕ} (hb : b % BPB = 0) :
    Ends (ballocFrom sb n b) s
      (fun c t ↦ c < sb.size ∧ ¬s.Marked sb c ∧ t = s.allocated sb c ∧
        ∀ j, b ≤ j → j < c → s.Marked sb j)
      (fun e ↦ OutOfBlocks e ∧ ∀ j, b ≤ j → j < b + n * BPB → j < sb.size → s.Marked sb j) := by
  induction n generalizing b with
  | zero => exact .throw ⟨rfl, fun j hj hj' ↦ by omega⟩
  | succ n ih =>
    have hBPB : BPB = 4096 := rfl
    refine .after (a := s.block (sb.bblock b)) (t := s) rfl ?_
    have hmarked (bi : ℕ) (hbi : bi < BPB) :
        s.Marked sb (b + bi) ↔ bit (s.block (sb.bblock b)) bi = true := by
      obtain ⟨hblock, hmod⟩ := bblock_add sb hb hbi
      rw [Volume.Marked, hblock, hmod]
    cases hscan : scanBits sb (s.block (sb.bblock b)) b BPB 0 with
    | some bi =>
      obtain ⟨-, hlt, hsize, hfree, hbefore⟩ := scanBits_some hscan
      rw [Nat.zero_add] at hlt
      obtain ⟨hblock, hmod⟩ := bblock_add sb hb hlt
      have hstate : s.allocated sb (b + bi) = (s.write (sb.bblock b) (Function.update
          (s.block (sb.bblock b)) (bi / 8) (s.block (sb.bblock b) (bi / 8) ||| mask bi))).write (b + bi)
          fun _ ↦ 0 := by
        rw [Volume.allocated, hblock, hmod]
      refine .of_ok (a := b + bi) (t := s.allocated sb (b + bi)) (hstate ▸ rfl) ⟨hsize, ?_, rfl, ?_⟩
      · rw [hmarked bi hlt, hfree]
        exact Bool.false_ne_true
      · intro j hj hj'
        have hindex := hbefore (j - b) (Nat.zero_le _) (by omega)
        rwa [← hmarked (j - b) (by omega), Nat.add_sub_cancel' hj] at hindex
    | none =>
      have hall (j : ℕ) (hj : b ≤ j) (hlt : j < b + BPB) (hsize : j < sb.size) : s.Marked sb j := by
        have hbit := scanBits_none hscan (k := j - b) (Nat.zero_le _) (by omega) (by omega)
        rwa [← hmarked (j - b) (by omega), Nat.add_sub_cancel' hj] at hbit
      refine (ih (b := b + BPB) (by rw [Nat.add_mod_right, hb])).weaken ?_ ?_
      · rintro c t ⟨hsize, hfree, rfl, hbefore⟩
        refine ⟨hsize, hfree, rfl, fun j hj hj' ↦ ?_⟩
        by_cases hblock : j < b + BPB
        · exact hall j hj hblock (hj'.trans hsize)
        · exact hbefore j (Nat.le_of_not_lt hblock) hj'
      · rintro e ⟨he, hrest⟩
        refine ⟨he, fun j hj hj' hsize ↦ ?_⟩
        by_cases hblock : j < b + BPB
        · exact hall j hj hblock hsize
        · exact hrest j (Nat.le_of_not_lt hblock) (by rw [Nat.succ_mul] at hj'; omega) hsize

/-- `balloc` takes the first block that is not marked, and panics if there is none. -/
theorem balloc_ends (sb : SuperBlock) (s : Volume) :
    Ends (balloc sb) s
      (fun c t ↦ c < sb.size ∧ ¬s.Marked sb c ∧ t = s.allocated sb c ∧ ∀ j < c, s.Marked sb j)
      (fun e ↦ OutOfBlocks e ∧ ∀ j < sb.size, s.Marked sb j) := by
  refine (ballocFrom_ends (s := s) _ (Nat.zero_mod BPB)).weaken ?_ ?_
  · rintro c t ⟨hsize, hfree, ht, hbefore⟩
    exact ⟨hsize, hfree, ht, fun j hj ↦ hbefore j (Nat.zero_le j) hj⟩
  · rintro e ⟨he, hall⟩
    refine ⟨he, fun j hj ↦ hall j (Nat.zero_le j) ?_ hj⟩
    have hBPB : BPB = 4096 := rfl
    rw [hBPB]
    omega

/-- `bfree` of a block that is marked. -/
theorem bfree_run (h : s.Marked sb b) : bfree sb b s = .ok ((), s.freed sb b) := by
  have hmarked : ¬s.block (sb.bblock b) (b % BPB / 8) &&& mask (b % BPB) = 0 := by
    rw [and_mask_eq_zero]
    exact fun hfalse ↦ Bool.false_ne_true (hfalse.symm.trans h)
  have hrun : bfree sb b s = (if s.block (sb.bblock b) (b % BPB / 8) &&& mask (b % BPB) = 0 then
      throw (.panic "freeing free block") else logWrite (sb.bblock b) fun data ↦ Function.update data
        (b % BPB / 8) (data (b % BPB / 8) &&& ~~~mask (b % BPB)) : Kernel Unit) s := rfl
  rw [hrun, if_neg hmarked]
  rfl

end

end CS537.Storage
