import CS537.Mkfs.Blocks
import CS537.Foundation.Completion
import Mathlib.Data.List.GetD

/-!
# Appending to files

The data of the inodes as lists of bytes, and what `iappend` does to them.
-/

namespace CS537.Mkfs

open Foundation
open FsCheck (BSIZE NDIRECT NINDIRECT IPB sizeofDinode sizeofDirent sizeofInt ROOTINO)

/-- The number of blocks of a file with so many bytes, the indirect block among them. -/
def blocksOf (size : ℕ) : ℕ :=
  (size + (BSIZE - 1)) / BSIZE + if NDIRECT * BSIZE < size then 1 else 0

/-- The inodes hold the data. -/
structure Contents (s : State) (ino : ℕ → Dinode) (c : ℕ → List UInt8) : Prop where
  blocks : Blocks s ino
  data : ∀ j m, m < MAXFILE → (s.address (ino j) m ≠ 0 ↔ m * BSIZE < (c j).length)
  indirect : ∀ j, s.address (ino j) MAXFILE ≠ 0 ↔ NDIRECT * BSIZE < (c j).length
  byte : ∀ j p, p < MAXFILE * BSIZE → s.byteAt (ino j) p = (c j).getD p 0

variable {s s' : State} {ino : ℕ → Dinode} {c : ℕ → List UInt8} {i n : ℕ} {d : Dinode}
  {data : List UInt8}

theorem getD_append_take (l data : List UInt8) (n p : ℕ) : (l ++ data.take n).getD p 0 =
    if p < l.length then l.getD p 0 else if p < l.length + n then data.getD (p - l.length) 0
    else 0 := by
  by_cases hp : p < l.length
  · rw [if_pos hp, List.getD_append _ _ _ _ hp]
  · rw [if_neg hp, List.getD_append_right _ _ _ _ (Nat.not_lt.mp hp), List.getD_eq_getElem?_getD,
      List.getD_eq_getElem?_getD, List.getElem?_take]
    by_cases hn : p < l.length + n
    · rw [if_pos hn, if_pos (by omega)]
    · rw [if_neg hn, if_neg (by omega)]
      rfl

/-! ## One block -/

/-- The number of bytes that are written at once. -/
def chunk (off : ℕ) (data : List UInt8) : ℕ := min data.length ((off / BSIZE + 1) * BSIZE - off)

theorem chunk_pos (off : ℕ) (hdata : data ≠ []) : 0 < chunk off data := by
  have hlength := List.length_pos_iff.mpr hdata
  have hoff : off < (off / BSIZE + 1) * BSIZE := Nat.lt_mul_of_div_lt (Nat.lt_succ_self _) BSIZE_pos
  rw [chunk]
  omega

theorem chunk_le (off : ℕ) (data : List UInt8) : chunk off data ≤ data.length := Nat.min_le_left _ _

theorem add_chunk_le (off : ℕ) (data : List UInt8) :
    off + chunk off data ≤ (off / BSIZE + 1) * BSIZE := by
  have hoff : off < (off / BSIZE + 1) * BSIZE := Nat.lt_mul_of_div_lt (Nat.lt_succ_self _) BSIZE_pos
  rw [chunk]
  omega

theorem iappendLoop_of_ne_nil (din : Dinode) (off : ℕ) (hdata : data ≠ []) :
    iappendLoop din off data = (do
      assert (off / BSIZE < MAXFILE)
      let (din, x) ← blockFor din (off / BSIZE)
      let buf ← rsect x
      wsect x (bcopy data (off - off / BSIZE * BSIZE) (chunk off data) buf)
      iappendLoop din (off + chunk off data) (data.drop (chunk off data))) := by
  obtain ⟨byte, rest, rfl⟩ := List.exists_cons_of_ne_nil hdata
  rw [iappendLoop]
  rfl

namespace Contents

variable (h : Contents s ino c)
include h

/-- The blocks that are needed for the bytes that are written at once. -/
theorem needed_eq (hk : (c i).length / BSIZE < MAXFILE) (hn : 0 < n)
    (hend : (c i).length + n ≤ ((c i).length / BSIZE + 1) * BSIZE) :
    blocksOf (c i).length + needed s (ino i) ((c i).length / BSIZE) =
      blocksOf ((c i).length + n) := by
  have hdata : s.address (ino i) ((c i).length / BSIZE) = 0 ↔
      (c i).length ≤ (c i).length / BSIZE * BSIZE := by
    rw [← Nat.not_lt, ← h.data i _ hk, not_not]
  have hindirect : (ino i).addrs NDIRECT = 0 ↔ (c i).length ≤ NDIRECT * BSIZE := by
    rw [← Nat.not_lt, ← h.indirect i, not_not, s.address_indirect]
  rw [needed]
  simp only [hdata, hindirect, blocksOf]
  rw [FsCheck.BSIZE, NDIRECT] at *
  split_ifs <;> omega

/-- The bytes are written behind the data of the inode. -/
theorem write (hk : (c i).length / BSIZE < MAXFILE)
    (hp : Provided s ino i ((c i).length / BSIZE) d s')
    (hend : (c i).length + n ≤ ((c i).length / BSIZE + 1) * BSIZE) (hn : 0 < n)
    (hlength : n ≤ data.length) :
    Contents (s'.setSector (s'.address d ((c i).length / BSIZE))
        (bcopy data ((c i).length - (c i).length / BSIZE * BSIZE) n
          fun r ↦ s'.bytes (s'.address d ((c i).length / BSIZE) * BSIZE + r)))
      (Function.update ino i d) (Function.update c i (c i ++ data.take n)) := by
  have hself : Function.update ino i d i = d := Function.update_self i d ino
  have hx : s'.address (Function.update ino i d i) ((c i).length / BSIZE) ≠ 0 :=
    (hp.ne_zero_iff i _).mpr (.inr ⟨rfl, .inl rfl⟩)
  have hlen : (Function.update c i (c i ++ data.take n) i).length = (c i).length + n := by
    rw [Function.update_self, List.length_append, List.length_take, Nat.min_eq_left hlength]
  obtain ⟨buf, hbuf⟩ : ∃ buf, buf = bcopy data ((c i).length - (c i).length / BSIZE * BSIZE) n
      fun r ↦ s'.bytes (s'.address d ((c i).length / BSIZE) * BSIZE + r) := ⟨_, rfl⟩
  have haddress := hp.blocks.address_setSector hk hx buf
  have hblocks := hp.blocks.setSector hk hx buf
  have hbyte := hp.blocks.byteAt_setSector hk hx buf
  rw [hself] at haddress hblocks hbyte
  rw [← hbuf]
  refine ⟨hblocks, fun j m hm ↦ ?_, fun j ↦ ?_, fun j p hpos ↦ ?_⟩
  · rw [haddress, hp.ne_zero_iff, h.data j m hm]
    by_cases hj : j = i
    · subst hj
      rw [hlen]
      simp only [FsCheck.BSIZE, MAXFILE_eq, true_and] at hend hm ⊢
      omega
    · rw [Function.update_of_ne hj]
      exact or_iff_left fun hslot ↦ hj hslot.1
  · rw [haddress, hp.ne_zero_iff, h.indirect j]
    by_cases hj : j = i
    · subst hj
      rw [hlen]
      simp only [FsCheck.BSIZE, MAXFILE_eq, NDIRECT, true_and] at hend hk ⊢
      omega
    · rw [Function.update_of_ne hj]
      exact or_iff_left fun hslot ↦ hj hslot.1
  · rw [hbyte, hp.byteAt j p hpos, h.byte j p hpos]
    by_cases hj : j = i
    · subst hj
      have hold : s'.byteAt d p = (c j).getD p 0 := by
        rw [← h.byte j p hpos, ← hp.byteAt j p hpos, hself]
      have hbehind (hge : (c j).length ≤ p) : (c j).getD p 0 = 0 := List.getD_eq_default _ _ hge
      rw [Function.update_self, getD_append_take]
      by_cases hblock : p / BSIZE = (c j).length / BSIZE
      · rw [State.byteAt, hblock, if_neg (by rwa [hself] at hx)] at hold
        rw [if_pos ⟨rfl, hblock⟩, hbuf, bcopy]
        simp only [hold]
        simp only [FsCheck.BSIZE] at hblock hend ⊢
        by_cases hlt : p < (c j).length
        · have houtside : ¬((c j).length - (c j).length / 512 * 512 ≤ p % 512 ∧
              p % 512 < (c j).length - (c j).length / 512 * 512 + n) := by omega
          simp only [houtside, hlt, if_true, if_false]
        · rw [if_neg hlt]
          have hiff : ((c j).length - (c j).length / 512 * 512 ≤ p % 512 ∧
              p % 512 < (c j).length - (c j).length / 512 * 512 + n) ↔ p < (c j).length + n := by
            omega
          have hindex : p % 512 - ((c j).length - (c j).length / 512 * 512) = p - (c j).length := by
            omega
          simp only [hiff, hindex, hbehind (Nat.not_lt.mp hlt)]
      · rw [if_neg fun hslot ↦ hblock hslot.2]
        by_cases hlt : p < (c j).length
        · rw [if_pos hlt]
        · have houtside : ¬p < (c j).length + n := by
            simp only [FsCheck.BSIZE] at hblock hend
            omega
          rw [if_neg hlt, if_neg houtside, hbehind (Nat.not_lt.mp hlt)]
    · rw [Function.update_of_ne hj, if_neg fun hslot ↦ hj hslot.1]

end Contents

/-- What appending does to an image. -/
structure Appended (s : State) (ino : ℕ → Dinode) (c : ℕ → List UInt8) (i : ℕ) (data : List UInt8)
    (d : Dinode) (s' : State) : Prop where
  contents : Contents s' (Function.update ino i d) (Function.update c i (c i ++ data))
  freeblock : s'.freeblock + blocksOf (c i).length =
    s.freeblock + blocksOf ((c i).length + data.length)
  freeinode : s'.freeinode = s.freeinode
  head : ∀ p < nmeta * BSIZE, s'.bytes p = s.bytes p
  self : d = { ino i with addrs := d.addrs }
  fits : (ino i).Fits → d.Fits

theorem assert_true {q : Prop} [Decidable q] (hq : q) (s : State) : assert q s = .ok ((), s) := by
  rw [assert, if_pos hq]
  rfl

theorem assert_false {q : Prop} [Decidable q] (hq : ¬q) (s : State) :
    assert q s = .error .assertion := by
  rw [assert, if_neg hq]
  rfl

section Iteration

variable (h : Contents s ino c) (hdata : data ≠ [])
include h hdata

theorem Contents.iteration_run (hk : (c i).length / BSIZE < MAXFILE)
    (hroom : s.freeblock + needed s (ino i) ((c i).length / BSIZE) ≤ FSSIZE) :
    ∃ d s', iappendLoop (ino i) (c i).length data s = iappendLoop d
        ((c i).length + chunk (c i).length data) (data.drop (chunk (c i).length data)) s' ∧
      Appended s ino c i (data.take (chunk (c i).length data)) d s' := by
  obtain ⟨d, s', hrun, hp⟩ := h.blocks.blockFor_run hk hroom
  have hself : Function.update ino i d i = d := Function.update_self i d ino
  have hx : s'.address d ((c i).length / BSIZE) ≠ 0 := by
    have hne := (hp.ne_zero_iff i ((c i).length / BSIZE)).mpr (.inr ⟨rfl, .inl rfl⟩)
    rwa [hself] at hne
  have hlt : s'.address d ((c i).length / BSIZE) < FSSIZE := by
    have hbelow := hp.blocks.lt_freeblock (i := i) (k := (c i).length / BSIZE) (by rwa [hself])
    rw [hself, hp.freeblock] at hbelow
    omega
  have hpos := chunk_pos (c i).length hdata
  have hlength := chunk_le (c i).length data
  have hend := add_chunk_le (c i).length data
  have hmeta : nmeta ≤ s'.address d ((c i).length / BSIZE) := by
    have hle := hp.blocks.nmeta_le (i := i) (k := (c i).length / BSIZE) (by rwa [hself])
    rwa [hself] at hle
  refine ⟨d, _, ?_, h.write hk hp hend hpos hlength, ?_, hp.freeinode, fun p hlast ↦ ?_, hp.self,
    hp.fits⟩
  · rw [iappendLoop_of_ne_nil _ _ hdata, bind_of_ok (assert_true hk s), bind_of_ok hrun]
    simp only
    rw [bind_of_ok (rsect_run hp.blocks.whole hlt), bind_of_ok (wsect_run _ hp.blocks.whole hlt)]
  · have hneeded := h.needed_eq hk hpos hend
    have hfree : (s'.setSector (s'.address d ((c i).length / BSIZE)) (bcopy data
        ((c i).length - (c i).length / BSIZE * BSIZE) (chunk (c i).length data)
        fun r ↦ s'.bytes (s'.address d ((c i).length / BSIZE) * BSIZE + r))).freeblock =
        s.freeblock + needed s (ino i) ((c i).length / BSIZE) := hp.freeblock
    rw [hfree, List.length_take, Nat.min_eq_left hlength]
    omega
  · have hle : nmeta * BSIZE ≤ s'.address d ((c i).length / BSIZE) * BSIZE :=
      Nat.mul_le_mul_right _ hmeta
    rw [State.setSector_outside _ (.inl (Nat.lt_of_lt_of_le hlast hle))]
    exact hp.head p hlast

theorem Contents.iteration_fails (hle : s.freeblock ≤ FSSIZE)
    (hroom : ¬((c i).length / BSIZE < MAXFILE ∧
      s.freeblock + needed s (ino i) ((c i).length / BSIZE) ≤ FSSIZE)) :
    ∃ e, iappendLoop (ino i) (c i).length data s = .error e := by
  rw [iappendLoop_of_ne_nil _ _ hdata]
  by_cases hk : (c i).length / BSIZE < MAXFILE
  · rw [bind_of_ok (assert_true hk s)]
    have hneeded : FSSIZE < s.freeblock + needed s (ino i) ((c i).length / BSIZE) :=
      Nat.not_le.mp fun hle ↦ hroom ⟨hk, hle⟩
    rcases h.blocks.blockFor_no_room hk hle hneeded with ⟨e, hrun⟩ | ⟨d, x, s', hrun, hwhole, hx⟩
    · exact ⟨e, bind_of_error hrun⟩
    · rw [bind_of_ok hrun]
      exact ⟨.exit, bind_of_error (rsect_fails hwhole hx)⟩
  · exact ⟨.assertion, bind_of_error (assert_false hk s)⟩

end Iteration

/-! ## The loop -/

theorem blocksOf_mono {a b : ℕ} (h : a ≤ b) : blocksOf a ≤ blocksOf b := by
  rw [blocksOf, blocksOf, FsCheck.BSIZE, NDIRECT]
  split_ifs <;> omega

/-- There is room for the data, in the inode and in the image. -/
structure Room (s : State) (c : ℕ → List UInt8) (i : ℕ) (data : List UInt8) : Prop where
  length : data ≠ [] → (c i).length + data.length ≤ MAXFILE * BSIZE
  blocks : s.freeblock + blocksOf ((c i).length + data.length) ≤ FSSIZE + blocksOf (c i).length

theorem Appended.refl (h : Contents s ino c) (i : ℕ) : Appended s ino c i [] (ino i) s where
  contents := by
    rwa [Function.update_eq_self, List.append_nil, Function.update_eq_self]
  freeblock := rfl
  freeinode := rfl
  head _ _ := rfl
  self := rfl
  fits := id

theorem Appended.trans {s'' : State} {d' : Dinode} {front rest : List UInt8}
    (h : Appended s ino c i front d s')
    (h' : Appended s' (Function.update ino i d) (Function.update c i (c i ++ front)) i rest d' s'') :
    Appended s ino c i (front ++ rest) d' s'' := by
  have hcontent : Function.update c i (c i ++ front) i = c i ++ front := Function.update_self i _ c
  have hdinode : Function.update ino i d i = d := Function.update_self i d ino
  have hfree := h'.freeblock
  have hcontents := h'.contents
  rw [hcontent, List.length_append] at hfree
  rw [hcontent, Function.update_idem, Function.update_idem, List.append_assoc] at hcontents
  refine ⟨hcontents, ?_, h'.freeinode.trans h.freeinode,
    fun p hp ↦ (h'.head p hp).trans (h.head p hp), ?_, fun hfits ↦ ?_⟩
  · have hfirst := h.freeblock
    rw [List.length_append]
    rw [Nat.add_assoc] at hfree
    omega
  · have hself := h'.self
    rw [hdinode, h.self] at hself
    exact hself
  · have hd := h'.fits
    rw [hdinode] at hd
    exact hd (h.fits hfits)

/-- Room for all of the data is room for the bytes that are written first. -/
theorem Contents.room_first (h : Contents s ino c) (hdata : data ≠ []) (hroom : Room s c i data) :
    (c i).length / BSIZE < MAXFILE ∧
      s.freeblock + needed s (ino i) ((c i).length / BSIZE) ≤ FSSIZE := by
  have hlength := hroom.length hdata
  have hblocks := hroom.blocks
  have hpos := List.length_pos_iff.mpr hdata
  have hk : (c i).length / BSIZE < MAXFILE :=
    Nat.div_lt_of_lt_mul (by rw [Nat.mul_comm]; omega)
  have hneeded := h.needed_eq hk (chunk_pos (c i).length hdata) (add_chunk_le (c i).length data)
  have hmono := blocksOf_mono (Nat.add_le_add_left (chunk_le (c i).length data) (c i).length)
  exact ⟨hk, by omega⟩

/-- Once the first bytes are written there is room for the rest just when there was for all. -/
theorem Appended.room_iff (h : Appended s ino c i (data.take (chunk (c i).length data)) d s')
    (hk : (c i).length / BSIZE < MAXFILE) :
    Room s' (Function.update c i (c i ++ data.take (chunk (c i).length data))) i
      (data.drop (chunk (c i).length data)) ↔ Room s c i data := by
  have hle := chunk_le (c i).length data
  have hend := add_chunk_le (c i).length data
  have hlast : ((c i).length / BSIZE + 1) * BSIZE ≤ MAXFILE * BSIZE := Nat.mul_le_mul_right _ hk
  have hfree := h.freeblock
  have hsum : (c i).length + chunk (c i).length data + (data.length - chunk (c i).length data) =
      (c i).length + data.length := by omega
  have hcontent : (Function.update c i (c i ++ data.take (chunk (c i).length data)) i).length =
      (c i).length + chunk (c i).length data := by
    rw [Function.update_self, List.length_append, List.length_take, Nat.min_eq_left hle]
  rw [List.length_take, Nat.min_eq_left hle] at hfree
  constructor
  · rintro ⟨hlength, hblocks⟩
    rw [hcontent, List.length_drop, hsum] at hlength hblocks
    refine ⟨fun _ ↦ ?_, by omega⟩
    by_cases hrest : data.drop (chunk (c i).length data) = []
    · have hzero := congrArg List.length hrest
      rw [List.length_drop, List.length_nil] at hzero
      omega
    · exact hlength hrest
  · rintro ⟨hlength, hblocks⟩
    refine ⟨fun hrest ↦ ?_, ?_⟩
    · rw [hcontent, List.length_drop, hsum]
      refine hlength fun hnil ↦ hrest ?_
      rw [hnil, List.drop_nil]
    · rw [hcontent, List.length_drop, hsum]
      omega

/-- The loop completes if and only if there is room for the data. -/
theorem Contents.iappendLoop_completes (h : Contents s ino c) (hle : s.freeblock ≤ FSSIZE) (i : ℕ)
    (data : List UInt8) :
    Completes (iappendLoop (ino i) (c i).length data) s (Room s c i data) fun r s' ↦
      r.2 = (c i).length + data.length ∧ Appended s ino c i data r.1 s' := by
  induction hlength : data.length using Nat.strong_induction_on generalizing s ino c data with
  | _ n ih =>
    by_cases hdata : data = []
    · subst hdata hlength
      have hroom : Room s c i [] := ⟨fun hne ↦ absurd rfl hne, by
        rw [List.length_nil, Nat.add_zero]
        omega⟩
      have hrun : iappendLoop (ino i) (c i).length [] s = .ok ((ino i, (c i).length), s) := by
        rw [iappendLoop]
        rfl
      exact Completes.congr (.of_ok hrun ⟨rfl, .refl h i⟩) (iff_true_intro hroom)
    · by_cases hfirst : (c i).length / BSIZE < MAXFILE ∧
          s.freeblock + needed s (ino i) ((c i).length / BSIZE) ≤ FSSIZE
      · obtain ⟨d, s', hrun, happended⟩ := h.iteration_run hdata hfirst.1 hfirst.2
        have hpos := chunk_pos (c i).length hdata
        have hchunk := chunk_le (c i).length data
        have hfree : s'.freeblock ≤ FSSIZE := by
          have hneeded := h.needed_eq hfirst.1 hpos (add_chunk_le (c i).length data)
          have hsum := happended.freeblock
          rw [List.length_take, Nat.min_eq_left hchunk] at hsum
          omega
        have hcontent : (Function.update c i (c i ++ data.take (chunk (c i).length data)) i).length =
            (c i).length + chunk (c i).length data := by
          rw [Function.update_self, List.length_append, List.length_take, Nat.min_eq_left hchunk]
        have hrest := ih (data.length - chunk (c i).length data) (by omega) happended.contents hfree
          (data.drop (chunk (c i).length data)) List.length_drop
        rw [happended.room_iff hfirst.1, hcontent, Function.update_self] at hrest
        refine ⟨fun hroom ↦ ?_, fun hroom ↦ hrun ▸ hrest.fails hroom⟩
        obtain ⟨r, s'', hrun', hend, happended'⟩ := hrest.returns hroom
        have hjoin := happended.trans happended'
        rw [List.take_append_drop] at hjoin
        refine ⟨r, s'', hrun.trans hrun', ?_, hjoin⟩
        rw [hend, ← hlength, Nat.add_assoc, Nat.add_sub_cancel' hchunk]
      · exact ⟨fun hroom ↦ absurd (h.room_first hdata hroom) hfirst,
          fun _ ↦ h.iteration_fails hdata hle hfirst⟩

end CS537.Mkfs
