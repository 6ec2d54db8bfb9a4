import CS537.Storage.Writes

/-!
# Inodes on the disk

Between the calls of the file system an inode in memory that is valid is the one on the disk, and its
size is the number of its bytes.  `writei` comes to such a state again, as it calls `iupdate` when it has
extended the content and does not change the inode otherwise.
-/

namespace CS537.Storage

open Foundation Log
open FsCheck (BSIZE NDIRECT NINDIRECT IPB BPB sizeofDinode sizeofInt)
open Mkfs (Dinode byteOf uintAt MAXFILE bcopy BSIZE_pos MAXFILE_eq)

variable {sb : SuperBlock} {s t u : Volume} {ino ino' : ℕ → Dinode} {c : ℕ → List UInt8}
  {i j k m b n off : ℕ} {src : List UInt8}

/-! ## The blocks of the inodes -/

/-- An inode on the disk. -/
def Volume.dinode (sb : SuperBlock) (s : Volume) (i : ℕ) : Dinode :=
  if i < sb.ninodes then .ofBytes (s.block (sb.iblock i)) (slot i) else .zero

/-- The state after `iupdate`. -/
def Volume.updated (sb : SuperBlock) (s : Volume) (i : ℕ) : Volume :=
  s.write (sb.iblock i) (putDinode i (s.icache i) (s.block (sb.iblock i)))

theorem iupdate_run (sb : SuperBlock) (i : ℕ) (s : Volume) :
    iupdate sb i s = .ok ((), s.updated sb i) := rfl

theorem SuperBlock.Laid.iblock_lt (hl : sb.Laid) (hi : i < sb.ninodes) : sb.iblock i < sb.bmapstart := by
  have hle := hl.inodes
  have hdiv : i / IPB ≤ sb.ninodes / IPB := Nat.div_le_div_right hi.le
  rw [SuperBlock.iblock]
  omega

theorem fits_dinode (sb : SuperBlock) (s : Volume) (i : ℕ) : (s.dinode sb i).Fits := by
  rw [Volume.dinode]
  by_cases hi : i < sb.ninodes
  · rw [if_pos hi]
    exact Dinode.fits_ofBytes _ _
  · rw [if_neg hi]
    exact ⟨by decide, by decide, by decide, by decide, by decide, fun _ ↦ Nat.two_pow_pos 32,
      fun _ _ ↦ rfl⟩

theorem dinode_congr (hl : sb.Laid) (hlow : ∀ b < sb.bmapstart, t.block b = s.block b) :
    t.dinode sb = s.dinode sb := by
  funext i
  rw [Volume.dinode, Volume.dinode]
  by_cases hi : i < sb.ninodes
  · rw [if_pos hi, if_pos hi, hlow _ (hl.iblock_lt hi)]
  · rw [if_neg hi, if_neg hi]

theorem ofBytes_putDinode_self {d : Dinode} (hd : d.Fits) (i : ℕ) (data : Block) :
    Dinode.ofBytes (putDinode i d data) (slot i) = d := by
  refine Dinode.ofBytes_of_bytes hd fun r hr ↦ ?_
  have hinside : slot i ≤ slot i + r ∧ slot i + r < slot i + sizeofDinode := by omega
  rw [putDinode, if_pos hinside, Nat.add_sub_cancel_left]

/-- Another inode of the block. -/
theorem ofBytes_putDinode_of_ne (hblock : sb.iblock j = sb.iblock i) (hj : j ≠ i) (d : Dinode)
    (data : Block) : Dinode.ofBytes (putDinode i d data) (slot j) = .ofBytes data (slot j) := by
  refine Dinode.ofBytes_congr fun r hr ↦ ?_
  have houtside : ¬(slot i ≤ slot j + r ∧ slot j + r < slot i + sizeofDinode) := by
    have hIPB : IPB = 8 := rfl
    have hsizeof : sizeofDinode = 64 := rfl
    rw [SuperBlock.iblock, SuperBlock.iblock, hIPB] at hblock
    rw [hsizeof] at hr
    rw [slot, slot, hIPB, hsizeof]
    omega
  rw [putDinode, if_neg houtside]

/-- An inode is written to the disk. -/
theorem dinode_write {d : Dinode} (hd : d.Fits) (hi : i < sb.ninodes) :
    (s.write (sb.iblock i) (putDinode i d (s.block (sb.iblock i)))).dinode sb =
      Function.update (s.dinode sb) i d := by
  funext j
  by_cases hj : j = i
  · rw [hj, Function.update_self, Volume.dinode, if_pos hi, Volume.write_self, ofBytes_putDinode_self hd]
  · rw [Function.update_of_ne hj, Volume.dinode, Volume.dinode]
    by_cases hlt : j < sb.ninodes
    · rw [if_pos hlt, if_pos hlt]
      by_cases hblock : sb.iblock j = sb.iblock i
      · rw [hblock, Volume.write_self, ofBytes_putDinode_of_ne hblock hj]
      · rw [Volume.write_of_ne _ _ hblock]
    · rw [if_neg hlt, if_neg hlt]

/-! ## What the content depends on -/

theorem address_addrs {d d' : Dinode} (h : d'.addrs = d.addrs) (s : Volume) (k : ℕ) :
    s.address d' k = s.address d k := by
  simp only [Volume.address, h]

/-- The blocks of the inodes and the other fields of the inodes do not matter. -/
theorem Contents.transfer (h : Contents sb s ino c)
    (hblocks : ∀ b, sb.bmapstart ≤ b → b < sb.nmeta ∨ b < sb.size → t.block b = s.block b)
    (haddrs : ∀ j, (ino' j).addrs = (ino j).addrs) : Contents sb t ino' c := by
  have hdata {j m : ℕ} (hne : s.address (ino j) m ≠ 0) :
      t.block (s.address (ino j) m) = s.block (s.address (ino j) m) :=
    hblocks _ (sb.bmapstart_le.trans (h.mapped.nmeta_le hne)) (.inr (h.mapped.lt_size hne))
  have haddress (j m : ℕ) : t.address (ino' j) m = s.address (ino j) m := by
    rw [address_addrs (haddrs j)]
    refine Volume.address_congr (fun hne ↦ ?_) m
    rw [← s.address_indirect] at hne ⊢
    exact hdata hne
  refine ⟨h.mapped.congr (fun u ↦ haddress u.1 u.2) fun b hb ↦ ?_, fun j m hm ↦ ?_, fun j ↦ ?_,
    fun j p hp ↦ ?_, h.length_le⟩
  · rw [Volume.Marked, Volume.Marked, hblocks _ (sb.bblock_ge b) (.inl (sb.bblock_lt hb))]
  · rw [haddress]
    exact h.data j m hm
  · rw [haddress]
    exact h.indirect j
  · rw [← h.byte j p hp, Volume.byteAt, Volume.byteAt, haddress]
    by_cases hzero : s.address (ino j) (p / BSIZE) = 0
    · rw [if_pos hzero, if_pos hzero]
    · rw [if_neg hzero, if_neg hzero, hdata hzero]

/-- An inode on the disk is replaced by one with the same addresses. -/
theorem Contents.putDinode {d d' : Dinode} (h : Contents sb t (Function.update (s.dinode sb) i d') c)
    (hl : sb.Laid) (hlow : ∀ b < sb.bmapstart, t.block b = s.block b) (hi : i < sb.ninodes) (hd : d.Fits)
    (haddrs : d.addrs = d'.addrs) :
    (t.write (sb.iblock i) (putDinode i d (t.block (sb.iblock i)))).dinode sb =
        Function.update (s.dinode sb) i d ∧
      Contents sb (t.write (sb.iblock i) (putDinode i d (t.block (sb.iblock i))))
        (Function.update (s.dinode sb) i d) c := by
  refine ⟨by rw [dinode_write hd hi, dinode_congr hl hlow], h.transfer (fun b hb _ ↦ ?_) fun j ↦ ?_⟩
  · exact Volume.write_of_ne _ _ (Nat.ne_of_gt ((hl.iblock_lt hi).trans_le hb))
  · by_cases hj : j = i
    · rw [hj, Function.update_self, Function.update_self, haddrs]
    · rw [Function.update_of_ne hj, Function.update_of_ne hj]

/-! ## Between the calls -/

/-- The disk holds the content of the inodes, free inodes have none, and the inodes in memory that are
valid are those on the disk. -/
structure Consistent (sb : SuperBlock) (s : Volume) (c : ℕ → List UInt8) : Prop where
  contents : Contents sb s (s.dinode sb) c
  size : ∀ j, (s.dinode sb j).size = (c j).length
  free : ∀ j, (s.dinode sb j).type = 0 → c j = []
  cached : ∀ j, s.valid j = true → s.icache j = s.dinode sb j ∧ (s.dinode sb j).type ≠ 0

theorem Consistent.lt_ninodes (h : Consistent sb s c) (hv : s.valid i = true) : i < sb.ninodes := by
  by_contra hi
  have htype := (h.cached i hv).2
  rw [Volume.dinode, if_neg hi] at htype
  exact htype rfl

/-- Inode `i` on the disk is replaced by `d` and its content by `l`. -/
structure Replaced (sb : SuperBlock) (s : Volume) (c : ℕ → List UInt8) (i : ℕ) (d : Dinode)
    (l : List UInt8) (t : Volume) : Prop where
  consistent : Consistent sb t (Function.update c i l)
  dinode : t.dinode sb = Function.update (s.dinode sb) i d

/-- An inode is written to the disk after its blocks. -/
theorem Consistent.put (h : Consistent sb s c) (hl : sb.Laid) (hi : i < sb.ninodes) {d d' : Dinode}
    {l : List UInt8} (ht : Contents sb t (Function.update (s.dinode sb) i d') (Function.update c i l))
    (hlow : ∀ b < sb.bmapstart, t.block b = s.block b) (hd : d.Fits) (haddrs : d.addrs = d'.addrs)
    (hsize : d.size = l.length) (hfree : d.type = 0 → l = [])
    (hself : t.valid i = true → t.icache i = d ∧ d.type ≠ 0)
    (hothers : ∀ j, j ≠ i → t.valid j = true → s.valid j = true ∧ t.icache j = s.icache j) :
    Replaced sb s c i d l (t.write (sb.iblock i) (putDinode i d (t.block (sb.iblock i)))) := by
  obtain ⟨hdinode, hcontents⟩ := ht.putDinode hl hlow hi hd haddrs
  rw [← hdinode] at hcontents
  refine ⟨⟨hcontents, fun j ↦ ?_, fun j ↦ ?_, fun j hj ↦ ?_⟩, hdinode⟩
  · rw [hdinode]
    by_cases hji : j = i
    · rw [hji, Function.update_self, Function.update_self, hsize]
    · rw [Function.update_of_ne hji, Function.update_of_ne hji, h.size]
  · rw [hdinode]
    by_cases hji : j = i
    · rw [hji, Function.update_self, Function.update_self]
      exact hfree
    · rw [Function.update_of_ne hji, Function.update_of_ne hji]
      exact h.free j
  · change t.icache j = _ ∧ _
    rw [hdinode]
    by_cases hji : j = i
    · rw [hji, Function.update_self]
      exact hself (hji ▸ hj)
    · obtain ⟨hv, hicache⟩ := hothers j hji hj
      rw [Function.update_of_ne hji, hicache]
      exact h.cached j hv

/-- The fields of an inode that do not belong to its content. -/
def attributes (d : Dinode) : ℕ × ℕ × ℕ × ℕ := (d.type, d.major, d.minor, d.nlink)

/-- The blocks that a call has given to `log_write`. -/
def LoggedIn (s t : Volume) (P : ℕ → Prop) : Prop := ∃ l, t.logged = s.logged ++ l ∧ ∀ b ∈ l, P b

/-- What `writei` does. -/
structure Written (sb : SuperBlock) (s : Volume) (c : ℕ → List UInt8) (i off : ℕ) (src : List UInt8)
    (t : Volume) : Prop where
  consistent : Consistent sb t (Function.update c i (overwrite (c i) off src))
  attributes : ∀ j, attributes (t.dinode sb j) = attributes (s.dinode sb j)
  valid : t.valid = s.valid
  logged : LoggedIn s t fun b ↦ b = sb.iblock i ∨
    WrittenTo sb s (s.dinode sb i) off src.length t (t.dinode sb i) b

/-- The range of bytes that `writei` takes. -/
def Writable (size off n : ℕ) : Prop :=
  ¬(size < off ∨ (off + n) % 2 ^ 32 < off) ∧ off + n ≤ MAXFILE * BSIZE

instance decidableWritable (size off n : ℕ) : Decidable (Writable size off n) :=
  inferInstanceAs (Decidable (_ ∧ _))

/-! ## `writei` -/

theorem attributes_eq {d d' : Dinode} {size : ℕ} {addrs : ℕ → ℕ} (h : d' = { d with addrs := addrs }) :
    attributes (d'.setSize size) = attributes d ∧ attributes d' = attributes d := by
  subst h
  exact ⟨rfl, rfl⟩

section

variable (h : Consistent sb s c) (hl : sb.Laid) (hv : s.valid i = true)
include h hl hv

/-- The content has not been extended. -/
theorem Consistent.written_inside (hw : Wrote sb s (s.dinode sb) c i off src t)
    (hinside : off + src.length ≤ (c i).length) : Written sb s c i off src t := by
  have hip := (h.cached i hv).1
  have hsame := hw.inside hinside
  have hdinode := dinode_congr hl hw.low
  have hcontents := hw.contents
  rw [hsame, hip, Function.update_eq_self, ← hdinode] at hcontents
  refine ⟨⟨hcontents, fun j ↦ ?_, fun j hj ↦ ?_, fun j hj ↦ ?_⟩, fun j ↦ by rw [hdinode], hw.frame.valid,
    ?_⟩
  · rw [hdinode, h.size]
    by_cases hj : j = i
    · rw [hj, Function.update_self, length_overwrite (by omega)]
      omega
    · rw [Function.update_of_ne hj]
  · rw [hdinode] at hj
    have hji : j ≠ i := fun hji ↦ (h.cached i hv).2 (hji ▸ hj)
    rw [Function.update_of_ne hji, h.free j hj]
  · rw [hw.frame.valid] at hj
    rw [hdinode]
    refine ⟨?_, (h.cached j hj).2⟩
    by_cases hji : j = i
    · rw [hji, hsame, hip]
    · rw [hw.frame.icache j hji, (h.cached j hj).1]
  · obtain ⟨l, hlogged, hmem⟩ := hw.logged
    refine ⟨l, hlogged, fun b hb ↦ .inr ?_⟩
    have hwritten := hmem b hb
    rw [hdinode]
    rwa [hsame, hip] at hwritten

/-- The content has been extended. -/
theorem Consistent.written_extended (hw : Wrote sb s (s.dinode sb) c i off src t)
    (hoff : off ≤ (c i).length) (hmax : off + src.length ≤ MAXFILE * BSIZE)
    (hext : (c i).length < off + src.length) : Written sb s c i off src
      ((t.setInode i ((t.icache i).setSize (off + src.length))).updated sb i) := by
  obtain ⟨d, hd⟩ : ∃ d, d = (t.icache i).setSize (off + src.length) := ⟨_, rfl⟩
  obtain ⟨u, hu⟩ : ∃ u, u = (t.setInode i d).updated sb i := ⟨_, rfl⟩
  rw [← hd, ← hu]
  have hi := h.lt_ninodes hv
  have hip := (h.cached i hv).1
  have hfits : d.Fits := by
    have hold := hw.frame.fits (hip ▸ fits_dinode sb s i)
    rw [hd]
    exact ⟨hold.type, hold.major, hold.minor, hold.nlink, hmax.trans_lt (by decide), hold.addrs, hold.tail⟩
  have hattributes : attributes d = attributes (s.dinode sb i) := by
    rw [hd, (attributes_eq hw.frame.fields).1, hip]
  have htype : d.type ≠ 0 := fun hzero ↦
    (h.cached i hv).2 ((congrArg Prod.fst hattributes).symm.trans hzero)
  have hlength : (overwrite (c i) off src).length = off + src.length := by
    rw [length_overwrite hoff, Nat.max_eq_right hext.le]
  have hreplaced : Replaced sb s c i d (overwrite (c i) off src) u := by
    have hcontents := hw.contents.transfer (t := t.setInode i d) (fun _ _ _ ↦ rfl) fun _ ↦ rfl
    have haddrs : d.addrs = (t.icache i).addrs := hd ▸ rfl
    have hsize : d.size = (overwrite (c i) off src).length := by
      rw [hlength, hd]
      rfl
    have hput := h.put hl hi hcontents hw.low hfits haddrs hsize (fun hzero ↦ absurd hzero htype)
      (fun _ ↦ ⟨Volume.setInode_self t i d, htype⟩) fun j hj hvalid ↦
      ⟨hw.frame.valid ▸ hvalid, (Function.update_of_ne hj _ _).trans (hw.frame.icache j hj)⟩
    rw [hu, Volume.updated, Volume.setInode_self]
    exact hput
  have hblocks (b : ℕ) (hb : sb.bmapstart ≤ b) : u.block b = t.block b := by
    rw [hu, Volume.updated, Volume.write_of_ne _ _ (Nat.ne_of_gt ((hl.iblock_lt hi).trans_le hb))]
    rfl
  have haddrs : (u.dinode sb i).addrs = (t.icache i).addrs := by
    rw [hreplaced.dinode, Function.update_self, hd]
    rfl
  refine ⟨hreplaced.consistent, fun j ↦ ?_, hu ▸ hw.frame.valid, ?_⟩
  · rw [hreplaced.dinode]
    by_cases hj : j = i
    · rw [hj, Function.update_self, hattributes]
    · rw [Function.update_of_ne hj]
  · obtain ⟨l, hlogged, hmem⟩ := hw.logged
    refine ⟨l ++ [sb.iblock i], ?_, fun b hb ↦ ?_⟩
    · have hwritten : u.logged = t.logged ++ [sb.iblock i] := by
        rw [hu]
        rfl
      rw [hwritten, hlogged, List.append_assoc]
    · rcases List.mem_append.mp hb with hb | hb
      · refine .inr ((hmem b hb).mono le_rfl fun m hm ↦ ?_)
        rw [address_addrs haddrs]
        refine Volume.address_congr (fun hne ↦ hblocks _ ?_) m
        have hmeta := hw.contents.mapped.nmeta_le (i := i) (k := MAXFILE)
        rw [Function.update_self, Volume.address_indirect] at hmeta
        exact sb.bmapstart_le.trans (hmeta hne)
      · exact .inl (List.mem_singleton.mp hb)

/-- `writei` returns -1 for bytes that it does not take.  Otherwise it writes them all, unless there
are no blocks left. -/
theorem Consistent.writei_ends (off : ℕ) (src : List UInt8) : Ends (writei sb i src off) s
    (fun r t ↦ if Writable (c i).length off src.length then
        r = some src.length ∧ Written sb s c i off src t
      else r = none ∧ t = s) OutOfBlocks := by
  have hip := (h.cached i hv).1
  refine .after (a := s.icache i) (t := s) rfl ?_
  rw [hip, h.size]
  by_cases hrange : (c i).length < off ∨ (off + src.length) % 2 ^ 32 < off
  · rw [if_pos hrange]
    exact .pure (by rw [if_neg fun hw : Writable _ _ _ ↦ hw.1 hrange]; exact ⟨rfl, rfl⟩)
  rw [if_neg hrange]
  by_cases hmax : MAXFILE * BSIZE < off + src.length
  · rw [if_pos hmax]
    have hno : ¬Writable (c i).length off src.length := fun hw ↦ absurd hw.2 (Nat.not_le.mpr hmax)
    exact .pure (by rw [if_neg hno]; exact ⟨rfl, rfl⟩)
  rw [if_neg hmax]
  have hwritable : Writable (c i).length off src.length := ⟨hrange, Nat.le_of_not_lt hmax⟩
  have hoff : off ≤ (c i).length := Nat.le_of_not_lt (not_or.mp hrange).1
  have hsize : sb.size ≤ 2 ^ 32 := hl.size_lt.le.trans (by decide)
  refine (h.contents.writeLoop_ends hsize hip hoff (Nat.le_of_not_lt hmax)).bind fun _ t ht ↦ ?_
  by_cases hext : 0 < src.length ∧ (c i).length < off + src.length
  · rw [if_pos hext]
    refine .of_ok (a := some src.length) (t := (t.setInode i ((t.icache i).setSize
      (off + src.length))).updated sb i) rfl ?_
    rw [if_pos hwritable]
    exact ⟨rfl, h.written_extended hl hv ht hoff (Nat.le_of_not_lt hmax) hext.2⟩
  · rw [if_neg hext]
    refine .of_ok (a := some src.length) (t := t) rfl ?_
    rw [if_pos hwritable]
    exact ⟨rfl, h.written_inside hl hv ht (by omega)⟩

end

end CS537.Storage
