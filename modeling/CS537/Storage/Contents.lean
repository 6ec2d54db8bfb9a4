import CS537.Storage.Bmap
import Mathlib.Data.List.GetD

/-!
# The content of the inodes

The content of every inode as a list of bytes: its blocks are the ones that the bytes need, and behind
the bytes they are zero.  `readi` returns the bytes and leaves the disk alone, and `writei` overwrites
them, extends them or does both.
-/

namespace CS537.Storage

open Foundation Log
open FsCheck (BSIZE NDIRECT NINDIRECT IPB BPB sizeofDinode sizeofInt)
open Mkfs (Dinode byteOf uintAt MAXFILE bcopy BSIZE_pos MAXFILE_eq)

/-- The inodes hold the bytes. -/
structure Contents (sb : SuperBlock) (s : Volume) (ino : ℕ → Dinode) (c : ℕ → List UInt8) : Prop where
  mapped : Mapped sb s ino
  data : ∀ j m, m < MAXFILE → (s.address (ino j) m ≠ 0 ↔ m * BSIZE < (c j).length)
  indirect : ∀ j, s.address (ino j) MAXFILE ≠ 0 ↔ NDIRECT * BSIZE < (c j).length
  byte : ∀ j p, p < MAXFILE * BSIZE → s.byteAt (ino j) p = (c j).getD p 0
  length_le : ∀ j, (c j).length ≤ MAXFILE * BSIZE

variable {sb : SuperBlock} {s t u : Volume} {ino ino' : ℕ → Dinode} {c : ℕ → List UInt8}
  {i j k m b n off : ℕ} {src : List UInt8}

/-! ## Bytes -/

/-- The bytes after some have been written from `off` on. -/
def overwrite (l : List UInt8) (off : ℕ) (w : List UInt8) : List UInt8 :=
  l.take off ++ w ++ l.drop (off + w.length)

theorem length_overwrite {l w : List UInt8} (hoff : off ≤ l.length) :
    (overwrite l off w).length = max l.length (off + w.length) := by
  simp only [overwrite, List.length_append, List.length_take, List.length_drop]
  omega

theorem getD_overwrite {l w : List UInt8} (hoff : off ≤ l.length) (p : ℕ) :
    (overwrite l off w).getD p 0 =
      if off ≤ p ∧ p < off + w.length then w.getD (p - off) 0 else l.getD p 0 := by
  have htake : (l.take off).length = off := List.length_take_of_le hoff
  rw [overwrite, List.append_assoc]
  by_cases hbefore : p < off
  · rw [if_neg (by omega), List.getD_append _ _ _ _ (by omega), List.getD_eq_getElem?_getD,
      List.getElem?_take, if_pos hbefore, List.getD_eq_getElem?_getD]
  · rw [List.getD_append_right _ _ _ _ (by omega), htake]
    by_cases hinside : p < off + w.length
    · rw [if_pos ⟨by omega, hinside⟩, List.getD_append _ _ _ _ (by omega)]
    · rw [if_neg (by omega), List.getD_append_right _ _ _ _ (by omega), List.getD_eq_getElem?_getD,
        List.getElem?_drop, List.getD_eq_getElem?_getD]
      congr 2
      omega

/-- Bytes that are written in two parts. -/
theorem overwrite_overwrite {l : List UInt8} (hoff : off ≤ l.length) (n : ℕ) (hn : n ≤ src.length) :
    overwrite (overwrite l off (src.take n)) (off + n) (src.drop n) = overwrite l off src := by
  have htake : (src.take n).length = n := List.length_take_of_le hn
  have hdrop : (src.drop n).length = src.length - n := List.length_drop
  have hmiddle : off + n ≤ (overwrite l off (src.take n)).length := by
    rw [length_overwrite hoff, htake]
    omega
  refine List.ext_getElem ?_ fun p hp hp' ↦ ?_
  · rw [length_overwrite hmiddle, length_overwrite hoff, length_overwrite hoff, htake, hdrop]
    omega
  · have hget := getD_overwrite (w := src.drop n) hmiddle p
    rw [getD_overwrite hoff, htake, hdrop] at hget
    have hget' := getD_overwrite (w := src) hoff p
    rw [List.getD_eq_getElem _ _ hp] at hget
    rw [List.getD_eq_getElem _ _ hp'] at hget'
    rw [hget, hget']
    by_cases hfirst : off ≤ p ∧ p < off + n
    · rw [if_neg (by omega), if_pos hfirst, if_pos (by omega), List.getD_eq_getElem?_getD,
        List.getElem?_take, if_pos (by omega), List.getD_eq_getElem?_getD]
    · rw [if_neg hfirst]
      by_cases hsecond : off + n ≤ p ∧ p < off + n + (src.length - n)
      · rw [if_pos hsecond, if_pos (by omega), List.getD_eq_getElem?_getD, List.getElem?_drop,
          List.getD_eq_getElem?_getD]
        congr 2
        omega
      · rw [if_neg hsecond, if_neg (by omega)]

/-! ## Reading -/

/-- `bmap` of a slot that has a block. -/
theorem bmap_run (hip : s.icache i = ino i) (hk : k < MAXFILE) (hne : s.address (ino i) k ≠ 0) :
    bmap sb i k s = .ok (s.address (ino i) k, s) := by
  have haddr (k : ℕ) (hk : (ino i).addrs k ≠ 0) : addrFor sb i k s = .ok ((ino i).addrs k, s) := by
    have hrun : addrFor sb i k s = (if (s.icache i).addrs k = 0 then do
        let addr ← balloc sb
        setIp i (·.setAddr k addr)
        return addr
      else return (s.icache i).addrs k : Kernel ℕ) s := rfl
    rw [hrun, hip, if_neg hk]
    rfl
  rw [bmap]
  by_cases hdirect : k < NDIRECT
  · rw [if_pos hdirect, Volume.address_direct _ _ hdirect]
    rw [Volume.address_direct _ _ hdirect] at hne
    exact haddr k hne
  · have hk' : NDIRECT ≤ k := Nat.le_of_not_lt hdirect
    have hlast : k - NDIRECT < NINDIRECT := Nat.sub_lt_left_of_lt_add hk' hk
    rw [Volume.address_entry _ _ hk' hk] at hne ⊢
    have hindirect : (ino i).addrs NDIRECT ≠ 0 := fun hzero ↦ hne (if_pos hzero)
    rw [if_neg hindirect, Volume.entry] at hne ⊢
    have hread : bread ((ino i).addrs NDIRECT) s = .ok (s.block ((ino i).addrs NDIRECT), s) := rfl
    rw [if_neg hdirect, if_pos hlast, bind_of_ok (haddr NDIRECT hindirect), bind_of_ok hread, if_neg hne]
    rfl

theorem chunk_le (off n : ℕ) : chunk off n ≤ n := Nat.min_le_left _ _

theorem mod_add_chunk_le (off n : ℕ) : off % BSIZE + chunk off n ≤ BSIZE := by
  have hmod : off % BSIZE < BSIZE := Nat.mod_lt _ BSIZE_pos
  rw [chunk]
  omega

/-- A byte that is read or written at once with the byte at `off`. -/
theorem div_of_chunk {r : ℕ} (hr : off % BSIZE + r < BSIZE) :
    (off + r) / BSIZE = off / BSIZE ∧ (off + r) % BSIZE = off % BSIZE + r := by
  have hBSIZE : BSIZE = 512 := rfl
  rw [hBSIZE] at hr ⊢
  omega

namespace Contents

variable (h : Contents sb s ino c)
include h

theorem readLoop_run (hip : s.icache i = ino i) (n : ℕ) {off : ℕ} (hn : off + n ≤ (c i).length) :
    readLoop sb i off n s = .ok (((c i).drop off).take n, s) := by
  induction n using Nat.strongRecOn generalizing off with
  | ind n ih =>
    rw [readLoop]
    by_cases hpos : 0 < n
    · have hstep := chunk_pos off hpos
      have hle := chunk_le off n
      have hend := mod_add_chunk_le off n
      have hmax := h.length_le i
      have hk : off / BSIZE < MAXFILE := Nat.div_lt_of_lt_mul (by rw [Nat.mul_comm]; omega)
      have hslot : s.address (ino i) (off / BSIZE) ≠ 0 := by
        rw [h.data i _ hk]
        exact (Nat.div_mul_le_self off BSIZE).trans_lt (by omega)
      have hoff : off + chunk off n + (n - chunk off n) ≤ (c i).length := by omega
      have hrest := ih (n - chunk off n) (by omega) hoff
      have hread : bread (s.address (ino i) (off / BSIZE)) s =
        .ok (s.block (s.address (ino i) (off / BSIZE)), s) := rfl
      have hbytes : (List.range (chunk off n)).map
          (fun r ↦ s.block (s.address (ino i) (off / BSIZE)) (off % BSIZE + r)) =
          ((c i).drop off).take (chunk off n) := by
        refine List.ext_getElem (by simp; omega) fun r hr hr' ↦ ?_
        rw [List.length_map, List.length_range] at hr
        have hinside : off % BSIZE + r < BSIZE := by omega
        obtain ⟨hdiv, hmod⟩ := div_of_chunk hinside
        have hbyte := h.byte i (off + r) (by omega)
        rw [Volume.byteAt, hdiv, hmod, if_neg hslot, List.getD_eq_getElem _ _ (by omega)] at hbyte
        rw [List.getElem_map, List.getElem_range, hbyte, List.getElem_take, List.getElem_drop]
      rw [dif_pos hpos, bind_of_ok (bmap_run hip hk hslot), bind_of_ok hread, bind_of_ok hrest, hbytes]
      have hsplit : ((c i).drop off).take n =
          ((c i).drop off).take (chunk off n) ++ ((c i).drop (off + chunk off n)).take (n - chunk off n) := by
        rw [← List.drop_drop, ← List.take_add]
        congr 1
        omega
      rw [hsplit]
      rfl
    · obtain rfl : n = 0 := by omega
      rw [dif_neg hpos, List.take_zero]
      rfl

/-- `readi` returns bytes of the content and leaves the disk alone. -/
theorem readi_run (hip : s.icache i = ino i) (hsize : (ino i).size = (c i).length) (off n : ℕ) :
    readi sb i off n s = .ok (if (c i).length < off ∨ (off + n) % 2 ^ 32 < off then none
      else some (((c i).drop off).take n), s) := by
  have hrun : readi sb i off n s = (if (s.icache i).size < off ∨ (off + n) % 2 ^ 32 < off then
      return none else do
        let bytes ← readLoop sb i off (if (s.icache i).size < off + n then (s.icache i).size - off else n)
        return some bytes : Kernel (Option (List UInt8))) s := rfl
  rw [hrun, hip, hsize]
  by_cases hrange : (c i).length < off ∨ (off + n) % 2 ^ 32 < off
  · rw [if_pos hrange, if_pos hrange]
    rfl
  · rw [if_neg hrange, if_neg hrange]
    have hoff : off ≤ (c i).length := Nat.le_of_not_lt (not_or.mp hrange).1
    have hbytes : readLoop sb i off (if (c i).length < off + n then (c i).length - off else n) s =
        .ok (((c i).drop off).take n, s) := by
      by_cases hend : (c i).length < off + n
      · rw [if_pos hend, h.readLoop_run hip _ (by omega), List.take_of_length_le (by simp),
          List.take_of_length_le (by rw [List.length_drop]; omega)]
      · rw [if_neg hend, h.readLoop_run hip n (Nat.le_of_not_lt hend)]
    rw [bind_of_ok hbytes]
    rfl

end Contents

end CS537.Storage
