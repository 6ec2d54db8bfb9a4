import CS537.Storage.Contents

/-!
# Writing to inodes

`writei` writes the bytes up to the end of a block at a time.  It either writes all the bytes or panics
for want of a block, and no other content changes.
-/

namespace CS537.Storage

open Foundation Log
open FsCheck (BSIZE NDIRECT NINDIRECT IPB BPB sizeofDinode sizeofInt)
open Mkfs (Dinode byteOf uintAt MAXFILE bcopy BSIZE_pos MAXFILE_eq)

variable {sb : SuperBlock} {s t u : Volume} {ino ino' : ℕ → Dinode} {c : ℕ → List UInt8}
  {i j k m b n off : ℕ} {src : List UInt8}

/-! ## A block of data -/

namespace Mapped

variable (h : Mapped sb s ino) (hk : k < MAXFILE) (hne : s.address (ino i) k ≠ 0) (data : Block)
include h hk hne

theorem address_write (j m : ℕ) :
    (s.write (s.address (ino i) k) data).address (ino j) m = s.address (ino j) m := by
  refine Volume.address_congr (fun _ ↦ Volume.write_of_ne _ _ fun heq ↦ ?_) m
  rw [← s.address_indirect] at heq
  exact (Nat.ne_of_lt hk) (h.slot_eq hne heq.symm).2

theorem write : Mapped sb (s.write (s.address (ino i) k) data) ino := by
  refine Owned.congr h (fun u ↦ h.address_write hk hne data u.1 u.2) fun c hc ↦ ?_
  have hblock : sb.bblock c ≠ s.address (ino i) k :=
    Nat.ne_of_lt ((sb.bblock_lt hc).trans_le (h.nmeta_le hne))
  rw [Volume.marked_write, if_neg hblock]

theorem byteAt_write (j p : ℕ) :
    (s.write (s.address (ino i) k) data).byteAt (ino j) p =
      if j = i ∧ p / BSIZE = k then data (p % BSIZE) else s.byteAt (ino j) p := by
  rw [Volume.byteAt, Volume.byteAt, h.address_write hk hne]
  by_cases hji : j = i ∧ p / BSIZE = k
  · rw [if_pos hji, hji.1, hji.2, if_neg hne, Volume.write_self]
  · rw [if_neg hji]
    by_cases hnone : s.address (ino j) (p / BSIZE) = 0
    · rw [if_pos hnone, if_pos hnone]
    · rw [if_neg hnone, if_neg hnone, Volume.write_of_ne _ _ fun heq ↦ hji (h.slot_eq hnone heq)]

end Mapped

/-! ## The bytes up to the end of a block -/

section Arithmetic

variable {len p : ℕ} (hend : off % BSIZE + n ≤ BSIZE)
include hend

/-- The blocks that are needed after bytes have been written. -/
theorem block_lt_iff (hoff : off ≤ len) (hn : 0 < n) (m : ℕ) :
    m * BSIZE < max len (off + n) ↔ m * BSIZE < len ∨ m = off / BSIZE := by
  have hBSIZE : BSIZE = 512 := rfl
  rw [hBSIZE] at hend ⊢
  omega

theorem indirect_lt_iff (hoff : off ≤ len) (hn : 0 < n) :
    NDIRECT * BSIZE < max len (off + n) ↔ NDIRECT * BSIZE < len ∨ NDIRECT ≤ off / BSIZE := by
  have hBSIZE : BSIZE = 512 := rfl
  have hNDIRECT : NDIRECT = 12 := rfl
  rw [hBSIZE] at hend
  rw [hBSIZE, hNDIRECT]
  omega

omit hend in
theorem index_in_block (hblock : p / BSIZE = off / BSIZE) :
    (off % BSIZE ≤ p % BSIZE ∧ p % BSIZE < off % BSIZE + n ↔ off ≤ p ∧ p < off + n) ∧
      p % BSIZE - off % BSIZE = p - off := by
  have hBSIZE : BSIZE = 512 := rfl
  rw [hBSIZE] at hblock ⊢
  omega

theorem outside_block (hblock : p / BSIZE ≠ off / BSIZE) : ¬(off ≤ p ∧ p < off + n) := by
  have hBSIZE : BSIZE = 512 := rfl
  rw [hBSIZE] at hend hblock
  omega

end Arithmetic

/-- The bytes are written into the block that `bmap` has returned. -/
theorem Contents.write (h : Contents sb s ino c) (ht : Bmapped sb s ino i (off / BSIZE) b t)
    (hoff : off ≤ (c i).length) (hk : off / BSIZE < MAXFILE) (hn : 0 < n)
    (hend : off % BSIZE + n ≤ BSIZE) (hlength : n ≤ src.length) :
    Contents sb (t.write b (bcopy src (off % BSIZE) n (t.block b)))
      (Function.update ino i (t.icache i)) (Function.update c i (overwrite (c i) off (src.take n))) := by
  obtain ⟨ino', hino'⟩ : ∃ f, f = Function.update ino i (t.icache i) := ⟨_, rfl⟩
  have hself : ino' i = t.icache i := by rw [hino', Function.update_self]
  have hgrown := ht.grown
  have hb := ht.address
  rw [← hino'] at hgrown ⊢
  rw [← hself] at hb
  have hne : t.address (ino' i) (off / BSIZE) ≠ 0 := by
    rw [hgrown.ne_zero_iff]
    by_cases hzero : s.address (ino i) (off / BSIZE) = 0
    · exact .inr ⟨rfl, hzero, .inl rfl⟩
    · exact .inl hzero
  obtain ⟨data, hdata⟩ : ∃ data, data = bcopy src (off % BSIZE) n (t.block b) := ⟨_, rfl⟩
  have haddress := hgrown.mapped.address_write hk hne data
  have hmapped := hgrown.mapped.write hk hne data
  have hbyte := hgrown.mapped.byteAt_write hk hne data
  rw [hb] at haddress hmapped hbyte
  rw [← hdata]
  have htaken : (src.take n).length = n := List.length_take_of_le hlength
  have hlen := length_overwrite (w := src.take n) hoff
  rw [htaken] at hlen
  have hnew (m : ℕ) : t.address (ino' i) m ≠ 0 ↔ s.address (ino i) m ≠ 0 ∨ Needs (off / BSIZE) m := by
    rw [hgrown.ne_zero_iff]
    by_cases hzero : s.address (ino i) m = 0
    · simp only [hzero, true_and, ne_eq, not_true_eq_false, false_or]
    · simp only [hzero, false_and, and_false, or_false, ne_eq, not_false_eq_true, true_or]
  have hold {j : ℕ} (hj : j ≠ i) (m : ℕ) : t.address (ino' j) m = s.address (ino j) m :=
    hgrown.old j m fun hji ↦ hj hji.1
  refine ⟨hmapped, fun j m hm ↦ ?_, fun j ↦ ?_, fun j p hp ↦ ?_, fun j ↦ ?_⟩
  · rw [haddress]
    by_cases hj : j = i
    · have hneeds : Needs (off / BSIZE) m ↔ m = off / BSIZE :=
        or_iff_left fun hfar ↦ (Nat.ne_of_lt hm) hfar.2
      rw [hj, Function.update_self, hlen, hnew, h.data i m hm, hneeds, block_lt_iff hend hoff hn]
    · rw [hold hj, Function.update_of_ne hj, h.data j m hm]
  · rw [haddress]
    by_cases hj : j = i
    · have hneeds : Needs (off / BSIZE) MAXFILE ↔ NDIRECT ≤ off / BSIZE := by
        rw [Needs, or_iff_right (Nat.ne_of_gt hk), and_iff_left rfl]
      rw [hj, Function.update_self, hlen, hnew, h.indirect i, hneeds, indirect_lt_iff hend hoff hn]
    · rw [hold hj, Function.update_of_ne hj, h.indirect j]
  · rw [hbyte, hgrown.byteAt j p hp, h.byte j p hp]
    by_cases hj : j = i
    · have hthere : t.byteAt (ino' i) p = (c i).getD p 0 := by rw [hgrown.byteAt i p hp, h.byte i p hp]
      rw [hj, Function.update_self, getD_overwrite hoff, htaken]
      by_cases hblock : p / BSIZE = off / BSIZE
      · obtain ⟨hinside, hindex⟩ := index_in_block hblock
        rw [Volume.byteAt, hblock, if_neg hne, hb] at hthere
        rw [if_pos ⟨rfl, hblock⟩, hdata, bcopy]
        by_cases hwritten : off ≤ p ∧ p < off + n
        · rw [if_pos hwritten, if_pos (hinside.mpr hwritten), hindex, List.getD_eq_getElem?_getD,
            List.getD_eq_getElem?_getD, List.getElem?_take, if_pos (by omega)]
        · rw [if_neg hwritten, if_neg (mt hinside.mp hwritten), hthere]
      · rw [if_neg fun hji ↦ hblock hji.2, if_neg (outside_block hend hblock)]
    · rw [if_neg fun hji ↦ hj hji.1, Function.update_of_ne hj]
  · by_cases hj : j = i
    · have hmax := h.length_le i
      have hfits : off + n ≤ MAXFILE * BSIZE := by
        have hBSIZE : BSIZE = 512 := rfl
        have hMAXFILE : MAXFILE = 140 := rfl
        rw [hBSIZE] at hend
        rw [hBSIZE, hMAXFILE] at hk ⊢
        omega
      rw [hj, Function.update_self, hlen]
      exact max_le hmax hfits
    · rw [Function.update_of_ne hj]
      exact h.length_le j

/-! ## The loop -/

/-- A block that `writei` may give to `log_write`: a block of the bytes that are written, the indirect
block, and the block of the bitmap for a block that has been allocated. -/
inductive WrittenTo (sb : SuperBlock) (s : Volume) (d : Dinode) (off n : ℕ) (t : Volume) (d' : Dinode) :
    ℕ → Prop
  | data {m : ℕ} (hm : m * BSIZE < off + n ∧ off < (m + 1) * BSIZE) (hne : t.address d' m ≠ 0) :
    WrittenTo sb s d off n t d' (t.address d' m)
  | indirect (hne : t.address d' MAXFILE ≠ 0) : WrittenTo sb s d off n t d' (t.address d' MAXFILE)
  | bitmap {m : ℕ} (hnew : s.address d m = 0)
    (hm : m * BSIZE < off + n ∧ off < (m + 1) * BSIZE ∨ m = MAXFILE) (hne : t.address d' m ≠ 0) :
    WrittenTo sb s d off n t d' (sb.bblock (t.address d' m))

/-- What the loop of `writei` does. -/
structure Wrote (sb : SuperBlock) (s : Volume) (ino : ℕ → Dinode) (c : ℕ → List UInt8) (i off : ℕ)
    (src : List UInt8) (t : Volume) : Prop where
  contents : Contents sb t (Function.update ino i (t.icache i))
    (Function.update c i (overwrite (c i) off src))
  frame : Frame s i t
  kept : ∀ m, s.address (ino i) m ≠ 0 → t.address (t.icache i) m = s.address (ino i) m
  low : ∀ b < sb.bmapstart, t.block b = s.block b
  inside : off + src.length ≤ (c i).length → t.icache i = s.icache i
  logged : ∃ l, t.logged = s.logged ++ l ∧
    ∀ b ∈ l, WrittenTo sb s (ino i) off src.length t (t.icache i) b

theorem Contents.wrote_nil (h : Contents sb s ino c) (hip : s.icache i = ino i) (off : ℕ) :
    Wrote sb s ino c i off [] s := by
  have hsame : overwrite (c i) off [] = c i := by
    simp only [overwrite, List.append_nil, List.length_nil, Nat.add_zero, List.take_append_drop]
  refine ⟨?_, .refl s i, fun m _ ↦ by rw [hip], fun _ _ ↦ rfl, fun _ ↦ rfl, [], (List.append_nil _).symm,
    fun b hb ↦ (by cases hb)⟩
  rw [hsame, hip, Function.update_eq_self, Function.update_eq_self]
  exact h

/-- The bytes up to the end of the block. -/
theorem Contents.wrote_chunk (h : Contents sb s ino c) (ht : Bmapped sb s ino i (off / BSIZE) b t)
    (hoff : off ≤ (c i).length) (hmax : off + src.length ≤ MAXFILE * BSIZE)
    (hsrc : src ≠ []) : Wrote sb s ino c i off (src.take (chunk off src.length))
      (t.write b (bcopy src (off % BSIZE) (chunk off src.length) (t.block b))) := by
  have hlength : 0 < src.length := List.length_pos_iff.mpr hsrc
  have hpos := chunk_pos off hlength
  have hle := chunk_le off src.length
  have hend := mod_add_chunk_le off src.length
  have hk : off / BSIZE < MAXFILE := Nat.div_lt_of_lt_mul (by rw [Nat.mul_comm]; omega)
  have htaken : (src.take (chunk off src.length)).length = chunk off src.length :=
    List.length_take_of_le hle
  have hcontents := h.write ht hoff hk hpos hend hle
  obtain ⟨ino', hino'⟩ : ∃ f, f = Function.update ino i (t.icache i) := ⟨_, rfl⟩
  have hself : ino' i = t.icache i := by rw [hino', Function.update_self]
  have hgrown := ht.grown
  have hb := ht.address
  rw [← hino'] at hgrown hcontents
  rw [← hself] at hb
  have hnew (m : ℕ) (hm : s.address (ino i) m = 0 ∧ Needs (off / BSIZE) m ∨ s.address (ino i) m ≠ 0) :
      t.address (ino' i) m ≠ 0 := by
    rw [hgrown.ne_zero_iff]
    exact hm.elim (fun hzero ↦ .inr ⟨rfl, hzero⟩) .inl
  have hne : t.address (ino' i) (off / BSIZE) ≠ 0 := by
    refine hnew _ ?_
    by_cases hzero : s.address (ino i) (off / BSIZE) = 0
    · exact .inl ⟨hzero, .inl rfl⟩
    · exact .inr hzero
  have haddress (m : ℕ) := hgrown.mapped.address_write hk hne
    (bcopy src (off % BSIZE) (chunk off src.length) (t.block b)) i m
  rw [hb, hself] at haddress
  have hrange : off / BSIZE * BSIZE < off + chunk off src.length ∧ off < (off / BSIZE + 1) * BSIZE := by
    have hBSIZE : BSIZE = 512 := rfl
    rw [hBSIZE]
    omega
  obtain ⟨l, hl, hlogged⟩ := ht.logged
  refine ⟨?_, ?_, fun m hm ↦ ?_, fun d hd ↦ ?_, fun hinside ↦ ?_, l ++ [b], ?_, fun d hd ↦ ?_⟩
  · have hicache : (t.write b (bcopy src (off % BSIZE) (chunk off src.length) (t.block b))).icache i =
        t.icache i := rfl
    rw [hicache, ← hino']
    exact hcontents
  · exact ht.frame.trans ⟨fun _ _ ↦ rfl, rfl, rfl, id⟩
  · refine (haddress m).trans ?_
    rw [← hself]
    exact hgrown.old i m fun hji ↦ hm hji.2.1
  · have hmeta := hgrown.mapped.nmeta_le hne
    have hbmap := sb.bmapstart_le
    rw [hb] at hmeta
    rw [Volume.write_of_ne _ _ (by omega), hgrown.low d hd]
  · have hslot : s.address (ino i) (off / BSIZE) ≠ 0 := by
      rw [h.data i _ hk]
      rw [htaken] at hinside
      exact hrange.1.trans_le hinside
    have hsame := ht.same hslot
    rw [hsame]
    rfl
  · have hwritten : (t.write b (bcopy src (off % BSIZE) (chunk off src.length) (t.block b))).logged =
      t.logged ++ [b] := rfl
    rw [hwritten, hl, List.append_assoc]
  · rw [htaken]
    rcases List.mem_append.mp hd with hd | hd
    · rcases hlogged d hd with ⟨m, hzero, hneeds, hdm⟩ | ⟨hfar, rfl⟩
      · have hm : m * BSIZE < off + chunk off src.length ∧ off < (m + 1) * BSIZE ∨ m = MAXFILE :=
          hneeds.imp (fun (heq : m = off / BSIZE) ↦ by rw [heq]; exact hrange) And.right
        have hmne := hnew m (.inl ⟨hzero, hneeds⟩)
        rw [hself, ← haddress] at hmne
        rw [← haddress] at hdm
        rcases hdm with rfl | rfl
        · rcases hm with hm | rfl
          · exact .data hm hmne
          · exact .indirect hmne
        · exact .bitmap hzero hm hmne
      · have hmne : t.address (ino' i) MAXFILE ≠ 0 := by
          refine hnew _ ?_
          by_cases hzero : s.address (ino i) MAXFILE = 0
          · exact .inl ⟨hzero, .inr ⟨hfar, rfl⟩⟩
          · exact .inr hzero
        rw [hself, ← haddress] at hmne
        rw [← haddress]
        exact .indirect hmne
    · obtain rfl := List.mem_singleton.mp hd
      have hlast := haddress (off / BSIZE)
      rw [← hself, hb, hself] at hlast
      have hdata : WrittenTo sb s (ino i) off (chunk off src.length) _ (t.icache i) _ :=
        .data (t := t.write d (bcopy src (off % BSIZE) (chunk off src.length) (t.block d))) hrange
          (by rw [hlast, ← hb]; exact hne)
      rwa [hlast] at hdata

/-- The blocks that are written first are among those that are written altogether. -/
theorem WrittenTo.mono {d d' d'' : Dinode} {n' : ℕ} (h : WrittenTo sb s d off n t d' b) (hn : n ≤ n')
    (hkept : ∀ m, t.address d' m ≠ 0 → u.address d'' m = t.address d' m) :
    WrittenTo sb s d off n' u d'' b := by
  cases h with
  | @data m hm hne =>
    have hsame := hkept m hne
    rw [← hsame] at hne ⊢
    exact .data ⟨by omega, hm.2⟩ hne
  | indirect hne =>
    have hsame := hkept MAXFILE hne
    rw [← hsame] at hne ⊢
    exact .indirect hne
  | @bitmap m hnew hm hne =>
    have hsame := hkept m hne
    rw [← hsame] at hne ⊢
    exact .bitmap hnew (hm.imp_left fun hm ↦ ⟨by omega, hm.2⟩) hne

/-- The blocks that are written later are among those that are written altogether. -/
theorem WrittenTo.after {d d' d'' : Dinode} (h : WrittenTo sb t d' (off + n) (src.length - n) u d'' b)
    (hn : n ≤ src.length) (hkept : ∀ m, s.address d m ≠ 0 → t.address d' m = s.address d m) :
    WrittenTo sb s d off src.length u d'' b := by
  cases h with
  | data hm hne => exact .data ⟨by omega, by omega⟩ hne
  | indirect hne => exact .indirect hne
  | @bitmap m hnew hm hne =>
    refine .bitmap ?_ (hm.imp_left fun hm ↦ ⟨by omega, by omega⟩) hne
    by_contra hold
    exact hold ((hkept m hold).symm.trans hnew)

theorem Wrote.trans (h : Wrote sb s ino c i off (src.take n) t) (hn : n ≤ src.length)
    (hoff : off ≤ (c i).length)
    (h' : Wrote sb t (Function.update ino i (t.icache i))
      (Function.update c i (overwrite (c i) off (src.take n))) i (off + n) (src.drop n) u) :
    Wrote sb s ino c i off src u := by
  have htaken : (src.take n).length = n := List.length_take_of_le hn
  obtain ⟨l, hl, hlogged⟩ := h.logged
  obtain ⟨l', hl', hlogged'⟩ := h'.logged
  have hkept := h'.kept
  rw [Function.update_self] at hkept hlogged'
  rw [htaken] at hlogged
  rw [List.length_drop] at hlogged'
  refine ⟨?_, h.frame.trans h'.frame, fun m hm ↦ ?_, fun b hb ↦ (h'.low b hb).trans (h.low b hb),
    fun hinside ↦ ?_, l ++ l', by rw [hl', hl, List.append_assoc], fun b hb ↦ ?_⟩
  · have hcontents := h'.contents
    rwa [Function.update_idem, Function.update_idem, Function.update_self,
      overwrite_overwrite hoff n hn] at hcontents
  · have hsame := h.kept m hm
    rw [← hsame]
    exact hkept m (by rwa [hsame])
  · have hfirst := h.inside (by rw [htaken]; omega)
    have hsecond := h'.inside (by
      rw [Function.update_self, length_overwrite hoff, htaken, List.length_drop]
      omega)
    exact hsecond.trans hfirst
  · rcases List.mem_append.mp hb with hb | hb
    · exact (hlogged b hb).mono hn hkept
    · exact (hlogged' b hb).after hn h.kept

theorem Contents.writeLoop_ends (h : Contents sb s ino c) (hsize : sb.size ≤ 2 ^ 32)
    (hip : s.icache i = ino i) (hoff : off ≤ (c i).length) (hmax : off + src.length ≤ MAXFILE * BSIZE) :
    Ends (writeLoop sb i off src) s (fun _ t ↦ Wrote sb s ino c i off src t) OutOfBlocks := by
  induction hlength : src.length using Nat.strongRecOn generalizing s ino c off src with
  | ind r ih =>
    rw [writeLoop]
    by_cases hsrc : src ≠ []
    · have hpos := chunk_pos off (List.length_pos_iff.mpr hsrc)
      have hle := chunk_le off src.length
      have hk : off / BSIZE < MAXFILE := Nat.div_lt_of_lt_mul (by rw [Nat.mul_comm]; omega)
      have htaken : (src.take (chunk off src.length)).length = chunk off src.length :=
        List.length_take_of_le hle
      rw [dif_pos hsrc]
      refine (bmap_ends h.mapped hsize hip hk).bind fun b t ht ↦ ?_
      have hchunk := h.wrote_chunk ht hoff hmax hsrc
      refine .after (logWrite_run b _ t) ?_
      refine (ih (src.length - chunk off src.length) (by omega) hchunk.contents
        (by rw [Function.update_self]) ?_ ?_ List.length_drop).imp fun _ u hu ↦ hchunk.trans hle hoff hu
      · rw [Function.update_self, length_overwrite hoff, htaken]
        exact Nat.le_max_right _ _
      · rw [List.length_drop]
        omega
    · rw [dif_neg hsrc]
      obtain rfl := not_not.mp hsrc
      exact .pure (h.wrote_nil hip off)

end CS537.Storage
