import CS537.Mkfs.Sectors

/-!
# The blocks of the inodes

Every inode has a slot for each block of data and one for its indirect block.  The slots are given
the blocks in order, behind the meta blocks.  A block that has not been given out is zero.
-/

namespace CS537.Mkfs

open Foundation
open FsCheck (BSIZE NDIRECT NINDIRECT IPB sizeofDinode sizeofDirent sizeofInt ROOTINO)

theorem MAXFILE_eq : MAXFILE = 140 := rfl

theorem nmeta_eq : nmeta = 59 := rfl

theorem BSIZE_pos : 0 < BSIZE := by decide

namespace State

variable (s : State) (d : Dinode)

/-- An entry of an indirect block. -/
def entry (b k : ℕ) : ℕ := uintAt s.bytes (b * BSIZE + sizeofInt * k)

/-- The block in a slot of an inode; slot `MAXFILE` is the one of the indirect block. -/
def address (k : ℕ) : ℕ :=
  if k < NDIRECT then d.addrs k
  else if k < MAXFILE then
    if d.addrs NDIRECT = 0 then 0 else s.entry (d.addrs NDIRECT) (k - NDIRECT)
  else if k = MAXFILE then d.addrs NDIRECT
  else 0

/-- Byte `p` of the data of an inode. -/
def byteAt (p : ℕ) : UInt8 :=
  if s.address d (p / BSIZE) = 0 then 0 else s.bytes (s.address d (p / BSIZE) * BSIZE + p % BSIZE)

theorem address_direct {k : ℕ} (hk : k < NDIRECT) : s.address d k = d.addrs k := if_pos hk

theorem address_indirect : s.address d MAXFILE = d.addrs NDIRECT := by
  rw [address, if_neg (by decide), if_neg (Nat.lt_irrefl _), if_pos rfl]

theorem address_entry {k : ℕ} (hk : NDIRECT ≤ k) (hlt : k < MAXFILE) : s.address d k =
    if d.addrs NDIRECT = 0 then 0 else s.entry (d.addrs NDIRECT) (k - NDIRECT) := by
  rw [address, if_neg (Nat.not_lt.mpr hk), if_pos hlt]

theorem address_behind {k : ℕ} (hk : MAXFILE < k) : s.address d k = 0 := by
  rw [MAXFILE_eq] at hk
  rw [address, MAXFILE_eq, NDIRECT, if_neg (by omega), if_neg (by omega), if_neg (by omega)]

end State

/-- The slots of the inodes have been given the blocks up to the next free one. -/
structure Blocks (s : State) (ino : ℕ → Dinode) : Prop where
  whole : s.Whole
  assigned : Assigned (fun t : ℕ × ℕ ↦ s.address (ino t.1) t.2) nmeta s.freeblock
  fresh : ∀ p, s.freeblock * BSIZE ≤ p → s.bytes p = 0

/-- Slot `k` of inode `i` has been given the next block. -/
structure Given (s : State) (ino : ℕ → Dinode) (i k : ℕ) (s' : State) (ino' : ℕ → Dinode) :
    Prop where
  blocks : Blocks s' ino'
  address : ∀ j m, s'.address (ino' j) m =
    if j = i ∧ m = k then s.freeblock else s.address (ino j) m
  byteAt : ∀ j p, p < MAXFILE * BSIZE → s'.byteAt (ino' j) p = s.byteAt (ino j) p
  freeblock : s'.freeblock = s.freeblock + 1
  freeinode : s'.freeinode = s.freeinode
  head : ∀ p < nmeta * BSIZE, s'.bytes p = s.bytes p

variable {s s' : State} {ino ino' : ℕ → Dinode} {i j k m b : ℕ}

namespace Blocks

variable (h : Blocks s ino)
include h

theorem nmeta_le (hb : s.address (ino i) k ≠ 0) : nmeta ≤ s.address (ino i) k :=
  (h.assigned.range (i, k) hb).1

theorem lt_freeblock (hb : s.address (ino i) k ≠ 0) : s.address (ino i) k < s.freeblock :=
  (h.assigned.range (i, k) hb).2

theorem slot_eq (hb : s.address (ino i) k ≠ 0) (heq : s.address (ino i) k = s.address (ino j) m) :
    i = j ∧ k = m :=
  Prod.mk.inj (h.assigned.injective (i, k) (j, m) hb heq)

/-- Only indirect blocks may change when a block is given to a slot. -/
theorem given (hk : s.address (ino i) k = 0) (hlength : s'.length = s.length)
    (hfreeblock : s'.freeblock = s.freeblock + 1) (hfreeinode : s'.freeinode = s.freeinode)
    (haddress : ∀ j m, s'.address (ino' j) m =
      if j = i ∧ m = k then s.freeblock else s.address (ino j) m)
    (hbytes : ∀ b, b < nmeta ∨ (∀ j, s.address (ino j) MAXFILE ≠ b) →
      ∀ r < BSIZE, s'.bytes (b * BSIZE + r) = s.bytes (b * BSIZE + r)) :
    Given s ino i k s' ino' := by
  have hsame (b : ℕ) (hb : b < nmeta ∨ ∀ j, s.address (ino j) MAXFILE ≠ b) (p : ℕ)
      (hp : p / BSIZE = b) : s'.bytes p = s.bytes p := by
    have hrun := hbytes b hb (p % BSIZE) (Nat.mod_lt p BSIZE_pos)
    rwa [← hp, Nat.mul_comm, Nat.div_add_mod] at hrun
  have hpos : s.freeblock ≠ 0 := Nat.ne_of_gt (Nat.lt_of_lt_of_le h.assigned.pos h.assigned.le)
  have hbehind (b : ℕ) (hb : s.freeblock ≤ b) : b < nmeta ∨ ∀ j, s.address (ino j) MAXFILE ≠ b := by
    refine .inr fun j hj ↦ ?_
    have hlt := h.lt_freeblock (i := j) (k := MAXFILE) (by rw [hj]; omega)
    omega
  refine ⟨⟨hlength.trans h.whole, ?_, fun p hp ↦ ?_⟩, haddress, fun j p hp ↦ ?_, hfreeblock,
    hfreeinode, fun p hp ↦ hsame (p / BSIZE) (.inl ?_) p rfl⟩
  · have hassign := h.assigned.assign (s := (i, k)) hk
    rw [hfreeblock]
    have hmap : (fun t : ℕ × ℕ ↦ s'.address (ino' t.1) t.2) = Function.update
        (fun t : ℕ × ℕ ↦ s.address (ino t.1) t.2) (i, k) s.freeblock := by
      funext t
      rw [haddress, Function.update_apply]
      simp only [Prod.ext_iff]
    rwa [hmap]
  · have hle : s.freeblock * BSIZE ≤ p :=
      Nat.le_trans (Nat.mul_le_mul_right _ (hfreeblock ▸ Nat.le_succ _)) hp
    rw [hsame _ (hbehind _ ((Nat.le_div_iff_mul_le BSIZE_pos).mpr hle)) p rfl]
    exact h.fresh p hle
  · have hr : p % BSIZE < BSIZE := Nat.mod_lt p BSIZE_pos
    have hslot : p / BSIZE < MAXFILE := Nat.div_lt_of_lt_mul (Nat.mul_comm MAXFILE BSIZE ▸ hp)
    rw [State.byteAt, State.byteAt, haddress]
    by_cases hji : j = i ∧ p / BSIZE = k
    · have hzero := (hbytes _ (hbehind _ le_rfl) _ hr).trans (h.fresh _ (Nat.le_add_right _ _))
      rw [if_pos hji, hji.1, hji.2, if_pos hk, if_neg hpos, hzero]
    · rw [if_neg hji]
      by_cases hzero : s.address (ino j) (p / BSIZE) = 0
      · rw [if_pos hzero, if_pos hzero]
      · rw [if_neg hzero, if_neg hzero]
        refine hbytes _ (.inr fun l hl ↦ ?_) _ hr
        have hne := (h.slot_eq hzero hl.symm).2
        omega
  · exact Nat.div_lt_of_lt_mul (Nat.mul_comm nmeta BSIZE ▸ hp)

theorem freeblock_pos : 0 < s.freeblock := Nat.lt_of_lt_of_le h.assigned.pos h.assigned.le

end Blocks

theorem Given.ne_zero_iff (h : Given s ino i k s' ino') (hs : Blocks s ino) :
    s'.address (ino' j) m ≠ 0 ↔ s.address (ino j) m ≠ 0 ∨ (j = i ∧ m = k) := by
  have hpos := hs.freeblock_pos
  rw [h.address]
  by_cases hslot : j = i ∧ m = k
  · rw [if_pos hslot]
    exact iff_of_true (by omega) (.inr hslot)
  · rw [if_neg hslot]
    exact (or_iff_left hslot).symm

/-! ## A block for a slot -/

/-- `freeblock++` -/
def State.bump (s : State) : State := { s with freeblock := s.freeblock + 1 }

section Alloc

variable {d : Dinode}

theorem allocAddr_of_zero (hk : d.addrs k = 0) :
    allocAddr d k s = .ok (d.setAddr k s.freeblock, s.bump) := by
  rw [allocAddr, if_pos hk]
  rfl

theorem allocAddr_of_ne (hk : d.addrs k ≠ 0) : allocAddr d k s = .ok (d, s) := by
  rw [allocAddr, if_neg hk]
  rfl

theorem address_update (hself : ∀ m, s'.address d m =
      if m = k then s.freeblock else s.address (ino i) m)
    (hother : ∀ j, j ≠ i → ∀ m, s'.address (ino j) m = s.address (ino j) m) (j m : ℕ) :
    s'.address (Function.update ino i d j) m =
      if j = i ∧ m = k then s.freeblock else s.address (ino j) m := by
  by_cases hj : j = i
  · subst hj
    rw [Function.update_self, hself]
    simp only [true_and]
  · rw [Function.update_of_ne hj, hother j hj, if_neg fun h ↦ hj h.1]

theorem Blocks.given_direct (h : Blocks s ino) (hk : k < NDIRECT) (hzero : (ino i).addrs k = 0) :
    Given s ino i k s.bump (Function.update ino i ((ino i).setAddr k s.freeblock)) := by
  have hslot : s.address (ino i) k = 0 := (s.address_direct (ino i) hk).trans hzero
  refine h.given hslot rfl rfl rfl (address_update (fun m ↦ ?_) fun _ _ _ ↦ rfl) fun _ _ _ _ ↦ rfl
  have hindirect := (ino i).addrs_setAddr_of_ne (Nat.ne_of_gt hk) s.freeblock
  by_cases hm : m < NDIRECT
  · rw [State.address_direct _ _ hm, State.address_direct _ _ hm]
    exact Function.update_apply _ _ _ _
  · have hne : m ≠ k := by omega
    simp only [State.address, if_neg hm, if_neg hne, hindirect]
    rfl

theorem Blocks.given_indirect (h : Blocks s ino) (hzero : (ino i).addrs NDIRECT = 0) :
    Given s ino i MAXFILE s.bump
      (Function.update ino i ((ino i).setAddr NDIRECT s.freeblock)) := by
  have hslot : s.address (ino i) MAXFILE = 0 := (s.address_indirect (ino i)).trans hzero
  refine h.given hslot rfl rfl rfl (address_update (fun m ↦ ?_) fun _ _ _ ↦ rfl) fun _ _ _ _ ↦ rfl
  have hindirect := (ino i).addrs_setAddr_self NDIRECT s.freeblock
  have hdirect (m : ℕ) (hm : m < NDIRECT) :=
    (ino i).addrs_setAddr_of_ne (Nat.ne_of_lt hm) s.freeblock
  have hfresh (m : ℕ) : s.bump.entry s.freeblock m = 0 :=
    uintAt_zero fun _ _ ↦ h.fresh _ (by omega)
  rcases Nat.lt_trichotomy m MAXFILE with hm | rfl | hm
  · rw [if_neg (Nat.ne_of_lt hm)]
    by_cases hlt : m < NDIRECT
    · rw [State.address_direct _ _ hlt, State.address_direct _ _ hlt, hdirect m hlt]
    · rw [State.address_entry _ _ (Nat.not_lt.mp hlt) hm, State.address_entry _ _
        (Nat.not_lt.mp hlt) hm, if_pos hzero, hindirect, hfresh, ite_self]
  · rw [if_pos rfl, State.address_indirect, hindirect]
  · rw [if_neg (Nat.ne_of_gt hm), State.address_behind _ _ hm, State.address_behind _ _ hm]

/-! ## A block in an indirect block -/

/-- Entry `k` of an indirect block becomes the next block. -/
def State.setEntry (s : State) (b k : ℕ) : State :=
  s.bump.setSector b (sectorOf (Function.update
    (entriesOf fun r ↦ s.bytes (b * BSIZE + r)) k s.freeblock))

theorem entriesOf_eq (s : State) (b k : ℕ) :
    entriesOf (fun r ↦ s.bytes (b * BSIZE + r)) k = s.entry b k :=
  uintAt_shift s.bytes (b * BSIZE) (sizeofInt * k)

theorem entry_setEntry (hfit : s.freeblock < 2 ^ 32) (b k : ℕ) (hm : m < NINDIRECT) :
    (s.setEntry b k).entry b m = if m = k then s.freeblock else s.entry b m := by
  have hlt : Function.update (entriesOf fun r ↦ s.bytes (b * BSIZE + r)) k s.freeblock m < 2 ^ 32 := by
    rw [Function.update_apply]
    split
    · exact hfit
    · exact uintAt_lt _ _
  have hwritten : (s.setEntry b k).entry b m =
      Function.update (entriesOf fun r ↦ s.bytes (b * BSIZE + r)) k s.freeblock m := by
    refine uintAt_of_bytes hlt fun j hj ↦ ?_
    have hinside : sizeofInt * m + j < BSIZE := by
      rw [NINDIRECT, BSIZE, sizeofInt] at hm
      rw [BSIZE, sizeofInt]
      omega
    have hdiv : (sizeofInt * m + j) / sizeofInt = m := by
      rw [sizeofInt]
      omega
    have hmod : (sizeofInt * m + j) % sizeofInt = j := by
      rw [sizeofInt]
      omega
    rw [Nat.add_assoc, State.setEntry, State.setSector_inside _ hinside, sectorOf, hdiv, hmod]
  rw [hwritten, Function.update_apply, entriesOf_eq]

theorem entry_setEntry_of_ne {c : ℕ} (hc : c ≠ b) (k : ℕ) (hm : m < NINDIRECT) :
    (s.setEntry b k).entry c m = s.entry c m := by
  refine uintAt_congr fun j hj ↦ ?_
  have hinside : sizeofInt * m + j < BSIZE := by
    rw [NINDIRECT, BSIZE, sizeofInt] at hm
    rw [BSIZE, sizeofInt]
    omega
  rw [Nat.add_assoc, State.setEntry, State.setSector_of_ne _ hc hinside]
  rfl

section EntryFor

variable (hs : s.Whole) (hb : b < FSSIZE)
include hs hb

theorem entryFor_of_ne (hk : s.entry b k ≠ 0) : entryFor b k s = .ok (s.entry b k, s) := by
  rw [← entriesOf_eq] at hk
  rw [entryFor, bind_of_ok (rsect_run hs hb), if_neg hk, entriesOf_eq]
  rfl

theorem entryFor_of_zero (hk : s.entry b k = 0) :
    entryFor b k s = .ok (s.freeblock, s.setEntry b k) := by
  rw [← entriesOf_eq] at hk
  have hwrite := @wsect_run s.bump b (sectorOf (Function.update
    (entriesOf fun r ↦ s.bytes (b * BSIZE + r)) k s.freeblock)) hs hb
  have hnext : nextBlock s = .ok (s.freeblock, s.bump) := rfl
  rw [entryFor, bind_of_ok (rsect_run hs hb), if_pos hk, bind_of_ok hnext, bind_of_ok hwrite]
  rfl

end EntryFor

theorem Blocks.given_entry (h : Blocks s ino) (hk : NDIRECT ≤ k) (hlt : k < MAXFILE)
    (hb : (ino i).addrs NDIRECT ≠ 0) (hzero : s.entry ((ino i).addrs NDIRECT) (k - NDIRECT) = 0)
    (hfit : s.freeblock < 2 ^ 32) :
    Given s ino i k (s.setEntry ((ino i).addrs NDIRECT) (k - NDIRECT)) ino := by
  have hslot : s.address (ino i) k = 0 := by
    rw [State.address_entry _ _ hk hlt, hzero, ite_self]
  have hindirect : s.address (ino i) MAXFILE = (ino i).addrs NDIRECT := s.address_indirect (ino i)
  refine h.given hslot rfl rfl rfl (fun j m ↦ ?_) fun b hne r hr ↦ ?_
  · by_cases hm : NDIRECT ≤ m ∧ m < MAXFILE
    · have hlast : m - NDIRECT < NINDIRECT := Nat.sub_lt_left_of_lt_add hm.1 hm.2
      rw [State.address_entry _ _ hm.1 hm.2, State.address_entry _ _ hm.1 hm.2]
      by_cases hnone : (ino j).addrs NDIRECT = 0
      · have hji : ¬(j = i ∧ m = k) := fun hji ↦ hb (hji.1 ▸ hnone)
        rw [if_pos hnone, if_pos hnone, if_neg hji]
      · rw [if_neg hnone, if_neg hnone]
        by_cases hji : j = i
        · subst hji
          have hiff : m - NDIRECT = k - NDIRECT ↔ j = j ∧ m = k := by omega
          rw [entry_setEntry hfit _ _ hlast]
          simp only [hiff]
        · have hne : (ino j).addrs NDIRECT ≠ (ino i).addrs NDIRECT := fun heq ↦ by
            rw [← s.address_indirect, ← s.address_indirect] at heq
            exact hji (h.slot_eq (by rwa [s.address_indirect]) heq).1
          rw [entry_setEntry_of_ne hne _ hlast, if_neg fun hji' ↦ hji hji'.1]
    · have hmk : m ≠ k := by
        rintro rfl
        exact hm ⟨hk, hlt⟩
      rw [if_neg fun hji ↦ hmk hji.2]
      by_cases hdirect : m < NDIRECT
      · rw [State.address_direct _ _ hdirect, State.address_direct _ _ hdirect]
      · have hbehind : ¬m < MAXFILE := fun hlt' ↦ hm ⟨Nat.not_lt.mp hdirect, hlt'⟩
        simp only [State.address, if_neg hdirect, if_neg hbehind]
  · refine State.setSector_of_ne _ ?_ hr
    rintro rfl
    rcases hne with hmeta | hne
    · have hle := h.nmeta_le (i := i) (k := MAXFILE) (by rwa [hindirect])
      omega
    · exact hne i hindirect

end Alloc

/-! ## The block at an index -/

/-- The number of blocks that have to be given out for the block at an index. -/
def needed (s : State) (d : Dinode) (k : ℕ) : ℕ :=
  (if s.address d k = 0 then 1 else 0) + if NDIRECT ≤ k ∧ d.addrs NDIRECT = 0 then 1 else 0

/-- Slot `k` of inode `i`, which is now `d`, has a block. -/
structure Provided (s : State) (ino : ℕ → Dinode) (i k : ℕ) (d : Dinode) (s' : State) : Prop where
  blocks : Blocks s' (Function.update ino i d)
  ne_zero_iff : ∀ j m, s'.address (Function.update ino i d j) m ≠ 0 ↔
    s.address (ino j) m ≠ 0 ∨ (j = i ∧ (m = k ∨ (m = MAXFILE ∧ NDIRECT ≤ k)))
  byteAt : ∀ j p, p < MAXFILE * BSIZE →
    s'.byteAt (Function.update ino i d j) p = s.byteAt (ino j) p
  freeblock : s'.freeblock = s.freeblock + needed s (ino i) k
  freeinode : s'.freeinode = s.freeinode
  head : ∀ p < nmeta * BSIZE, s'.bytes p = s.bytes p
  self : d = { ino i with addrs := d.addrs }
  fits : (ino i).Fits → d.Fits

theorem Dinode.Fits.setAddr {d : Dinode} (h : d.Fits) {x : ℕ} (hk : k ≤ NDIRECT) (hx : x < 2 ^ 32) :
    (d.setAddr k x).Fits := by
  refine ⟨h.type, h.major, h.minor, h.nlink, h.size, fun m ↦ ?_, fun m hm ↦ ?_⟩
  · by_cases hmk : m = k
    · rwa [hmk, d.addrs_setAddr_self]
    · rw [d.addrs_setAddr_of_ne hmk]
      exact h.addrs m
  · rw [d.addrs_setAddr_of_ne (by omega)]
    exact h.tail m hm

namespace Blocks

variable (h : Blocks s ino) (hk : k < MAXFILE)
include h hk

/-- The slot has a block already. -/
theorem blockFor_of_ne (hle : s.freeblock ≤ FSSIZE) (hne : s.address (ino i) k ≠ 0) :
    blockFor (ino i) k s = .ok ((ino i, s.address (ino i) k), s) ∧
      Provided s ino i k (ino i) s := by
  have hindirect (hge : NDIRECT ≤ k) : (ino i).addrs NDIRECT ≠ 0 := by
    intro hzero
    rw [State.address_entry _ _ hge hk, if_pos hzero] at hne
    exact hne rfl
  have hneeded : needed s (ino i) k = 0 := by
    rw [needed, if_neg hne, if_neg fun hnone ↦ hindirect hnone.1 hnone.2]
  constructor
  · by_cases hlt : k < NDIRECT
    · rw [State.address_direct _ _ hlt] at hne ⊢
      rw [blockFor, if_pos hlt, bind_of_ok (allocAddr_of_ne hne)]
      rfl
    · have hge := Nat.not_lt.mp hlt
      rw [State.address_entry _ _ hge hk, if_neg (hindirect hge)] at hne ⊢
      have hb : (ino i).addrs NDIRECT < FSSIZE := by
        rw [← s.address_indirect]
        exact Nat.lt_of_lt_of_le (h.lt_freeblock (by rw [s.address_indirect]; exact hindirect hge))
          hle
      rw [blockFor, if_neg hlt, bind_of_ok (allocAddr_of_ne (hindirect hge)),
        bind_of_ok (entryFor_of_ne h.whole hb hne)]
      rfl
  · have hsame : Function.update ino i (ino i) = ino := Function.update_eq_self i ino
    refine ⟨by rwa [hsame], fun j m ↦ ?_, fun j p _ ↦ by rw [hsame], by rw [hneeded]; rfl, rfl,
      fun p _ ↦ rfl, rfl, id⟩
    rw [hsame]
    refine ⟨.inl, ?_⟩
    rintro (hslot | ⟨rfl, rfl | ⟨rfl, hge⟩⟩)
    · exact hslot
    · exact hne
    · rw [s.address_indirect]
      exact hindirect hge

omit hk in
/-- A direct block is given out. -/
theorem blockFor_of_direct (hlt : k < NDIRECT) (hzero : (ino i).addrs k = 0)
    (hroom : s.freeblock < FSSIZE) :
    ∃ d, blockFor (ino i) k s = .ok ((d, s.bump.address d k), s.bump) ∧
      Provided s ino i k d s.bump := by
  have hgiven := h.given_direct hlt hzero
  have hneeded : needed s (ino i) k = 1 := by
    rw [needed, State.address_direct _ _ hlt, if_pos hzero,
      if_neg fun hnone ↦ Nat.not_le.mpr hlt hnone.1]
  refine ⟨_, ?_, hgiven.blocks, fun j m ↦ ?_, hgiven.byteAt, by rw [hneeded]; rfl, rfl, hgiven.head,
    rfl, fun hfits ↦ hfits.setAddr (Nat.le_of_lt hlt) ?_⟩
  · rw [State.address_direct _ _ hlt, blockFor, if_pos hlt, bind_of_ok (allocAddr_of_zero hzero)]
    rfl
  · rw [hgiven.ne_zero_iff h]
    have hnone : ¬NDIRECT ≤ k := Nat.not_le.mpr hlt
    simp only [hnone, and_false, or_false]
  · rw [FSSIZE] at hroom
    omega

variable (hge : NDIRECT ≤ k)
include hge

/-- A block is given out and recorded in the indirect block. -/
theorem blockFor_of_entry (hb : (ino i).addrs NDIRECT ≠ 0) (hzero : s.address (ino i) k = 0)
    (hroom : s.freeblock < FSSIZE) :
    ∃ d s', blockFor (ino i) k s = .ok ((d, s'.address d k), s') ∧ Provided s ino i k d s' := by
  have hentry : s.entry ((ino i).addrs NDIRECT) (k - NDIRECT) = 0 := by
    rwa [State.address_entry _ _ hge hk, if_neg hb] at hzero
  have hfit : s.freeblock < 2 ^ 32 := Nat.lt_trans hroom (by decide)
  have hgiven := h.given_entry hge hk hb hentry hfit
  have hlt : (ino i).addrs NDIRECT < FSSIZE := by
    rw [← s.address_indirect] at hb ⊢
    exact Nat.lt_trans (h.lt_freeblock hb) hroom
  have hneeded : needed s (ino i) k = 1 := by
    rw [needed, if_pos hzero, if_neg fun hnone ↦ hb hnone.2]
  have hsame : Function.update ino i (ino i) = ino := Function.update_eq_self i ino
  refine ⟨ino i, _, ?_, by rw [hsame]; exact hgiven.blocks, fun j m ↦ ?_, fun j p hp ↦ ?_,
    by rw [hneeded]; exact hgiven.freeblock, hgiven.freeinode, hgiven.head, rfl, id⟩
  · rw [hgiven.address, if_pos ⟨rfl, rfl⟩, blockFor, if_neg (Nat.not_lt.mpr hge),
      bind_of_ok (allocAddr_of_ne hb), bind_of_ok (entryFor_of_zero h.whole hlt hentry)]
    rfl
  · rw [hsame, hgiven.ne_zero_iff h]
    refine ⟨?_, ?_⟩
    · rintro (hslot | ⟨hj, hm⟩)
      · exact .inl hslot
      · exact .inr ⟨hj, .inl hm⟩
    · rintro (hslot | ⟨rfl, rfl | ⟨rfl, -⟩⟩)
      · exact .inl hslot
      · exact .inr ⟨rfl, rfl⟩
      · exact .inl (by rwa [s.address_indirect])
  · rw [hsame, hgiven.byteAt j p hp]

/-- The indirect block is given out, and a block is recorded in it. -/
theorem blockFor_of_indirect (hb : (ino i).addrs NDIRECT = 0) (hroom : s.freeblock + 1 < FSSIZE) :
    ∃ d s', blockFor (ino i) k s = .ok ((d, s'.address d k), s') ∧ Provided s ino i k d s' := by
  have hfirst := h.given_indirect hb
  obtain ⟨d, hd⟩ : ∃ d, d = (ino i).setAddr NDIRECT s.freeblock := ⟨_, rfl⟩
  rw [← hd] at hfirst
  have hself : Function.update ino i d i = d := Function.update_self i d ino
  have haddr : d.addrs NDIRECT = s.freeblock := by rw [hd, Dinode.addrs_setAddr_self]
  have hpos := h.freeblock_pos
  have hne : d.addrs NDIRECT ≠ 0 := by omega
  have hzero : s.address (ino i) k = 0 := by rw [State.address_entry _ _ hge hk, if_pos hb]
  have hentry : s.bump.entry (d.addrs NDIRECT) (k - NDIRECT) = 0 := by
    rw [haddr]
    exact uintAt_zero fun _ _ ↦ h.fresh _ (by omega)
  have hfit : s.bump.freeblock < 2 ^ 32 := Nat.lt_trans hroom (by decide)
  have hsecond := hfirst.blocks.given_entry (i := i) hge hk (by rwa [hself]) (by rwa [hself]) hfit
  rw [hself] at hsecond
  have hneeded : needed s (ino i) k = 2 := by rw [needed, if_pos hzero, if_pos ⟨hge, hb⟩]
  refine ⟨d, _, ?_, hsecond.blocks, fun j m ↦ ?_, fun j p hp ↦ ?_, ?_, ?_, fun p hp ↦ ?_, ?_,
    fun hfits ↦ ?_⟩
  · have haddress := hsecond.address i k
    rw [if_pos ⟨rfl, rfl⟩, hself] at haddress
    have hlt : s.freeblock < FSSIZE := Nat.lt_of_succ_lt hroom
    have hrun := entryFor_of_zero (s := s.bump) h.whole hlt (by rwa [haddr] at hentry)
    rw [haddress, blockFor, if_neg (Nat.not_lt.mpr hge), bind_of_ok (allocAddr_of_zero hb), ← hd,
      haddr, bind_of_ok hrun]
    rfl
  · rw [hsecond.ne_zero_iff hfirst.blocks, hfirst.ne_zero_iff h]
    tauto
  · rw [hsecond.byteAt j p hp, hfirst.byteAt j p hp]
  · rw [hsecond.freeblock, hfirst.freeblock, hneeded]
  · rw [hsecond.freeinode, hfirst.freeinode]
  · rw [hsecond.head p hp, hfirst.head p hp]
  · rw [hd]
    rfl
  · rw [hd]
    exact hfits.setAddr le_rfl (by rw [FSSIZE] at hroom; omega)

end Blocks

/-- With room for the blocks that are needed the slot is provided with a block. -/
theorem Blocks.blockFor_run (h : Blocks s ino) (hk : k < MAXFILE)
    (hroom : s.freeblock + needed s (ino i) k ≤ FSSIZE) :
    ∃ d s', blockFor (ino i) k s = .ok ((d, s'.address d k), s') ∧ Provided s ino i k d s' := by
  by_cases hzero : s.address (ino i) k = 0
  · rw [needed, if_pos hzero] at hroom
    by_cases hlt : k < NDIRECT
    · rw [State.address_direct _ _ hlt] at hzero
      obtain ⟨d, hrun, hprovided⟩ := h.blockFor_of_direct hlt hzero (by omega)
      exact ⟨d, s.bump, hrun, hprovided⟩
    · have hge := Nat.not_lt.mp hlt
      by_cases hb : (ino i).addrs NDIRECT = 0
      · rw [if_pos ⟨hge, hb⟩] at hroom
        exact h.blockFor_of_indirect hk hge hb (by omega)
      · exact h.blockFor_of_entry hk hge hb hzero (by omega)
  · obtain ⟨hrun, hprovided⟩ := h.blockFor_of_ne hk (by omega) hzero
    exact ⟨ino i, s, hrun, hprovided⟩

/-- Without room the call fails, or it returns a block behind the end of the image. -/
theorem Blocks.blockFor_no_room (h : Blocks s ino) (hk : k < MAXFILE) (hle : s.freeblock ≤ FSSIZE)
    (hroom : FSSIZE < s.freeblock + needed s (ino i) k) :
    (∃ e, blockFor (ino i) k s = .error e) ∨
      ∃ d x s', blockFor (ino i) k s = .ok ((d, x), s') ∧ s'.Whole ∧ FSSIZE ≤ x := by
  have hzero : s.address (ino i) k = 0 := by
    by_contra hne
    have hindirect (hge : NDIRECT ≤ k) : (ino i).addrs NDIRECT ≠ 0 := by
      intro hzero
      rw [State.address_entry _ _ hge hk, if_pos hzero] at hne
      exact hne rfl
    rw [needed, if_neg hne, if_neg fun hnone ↦ hindirect hnone.1 hnone.2] at hroom
    omega
  rw [needed, if_pos hzero] at hroom
  by_cases hlt : k < NDIRECT
  · -- the direct block is the one behind the end
    rw [if_neg fun hnone ↦ Nat.not_le.mpr hlt hnone.1] at hroom
    rw [State.address_direct _ _ hlt] at hzero
    refine .inr ⟨(ino i).setAddr k s.freeblock, s.freeblock, s.bump, ?_, h.whole, by omega⟩
    rw [blockFor, if_pos hlt, bind_of_ok (allocAddr_of_zero hzero)]
    simp only [Dinode.addrs_setAddr_self]
    rfl
  · have hge := Nat.not_lt.mp hlt
    by_cases hb : (ino i).addrs NDIRECT = 0
    · rw [if_pos ⟨hge, hb⟩] at hroom
      by_cases hend : FSSIZE ≤ s.freeblock
      · -- the indirect block cannot be read
        refine .inl ⟨.exit, ?_⟩
        have hfail : entryFor s.freeblock (k - NDIRECT) s.bump = .error .exit :=
          bind_of_error (rsect_fails (s := s.bump) h.whole hend)
        rw [blockFor, if_neg hlt, bind_of_ok (allocAddr_of_zero hb), Dinode.addrs_setAddr_self]
        exact bind_of_error hfail
      · have hfresh : s.bump.entry s.freeblock (k - NDIRECT) = 0 :=
          uintAt_zero fun _ _ ↦ h.fresh _ (by omega)
        have hrun := entryFor_of_zero (s := s.bump) h.whole (Nat.not_le.mp hend) hfresh
        refine .inr ⟨(ino i).setAddr NDIRECT s.freeblock, s.freeblock + 1,
          s.bump.setEntry s.freeblock (k - NDIRECT), ?_, h.whole, by omega⟩
        rw [blockFor, if_neg hlt, bind_of_ok (allocAddr_of_zero hb), Dinode.addrs_setAddr_self,
          bind_of_ok hrun]
        rfl
    · rw [if_neg fun hnone ↦ hb hnone.2] at hroom
      have hentry : s.entry ((ino i).addrs NDIRECT) (k - NDIRECT) = 0 := by
        rwa [State.address_entry _ _ hge hk, if_neg hb] at hzero
      have hin : (ino i).addrs NDIRECT < FSSIZE := by
        rw [← s.address_indirect] at hb ⊢
        exact Nat.lt_of_lt_of_le (h.lt_freeblock hb) hle
      refine .inr ⟨ino i, s.freeblock, s.setEntry ((ino i).addrs NDIRECT) (k - NDIRECT), ?_, h.whole,
        by omega⟩
      rw [blockFor, if_neg hlt, bind_of_ok (allocAddr_of_ne hb),
        bind_of_ok (entryFor_of_zero h.whole hin hentry)]
      rfl

/-! ## Writing a block of data -/

namespace Blocks

variable (h : Blocks s ino) (hk : k < MAXFILE) (hx : s.address (ino i) k ≠ 0) (buf : Sector)
include h hk hx

/-- A block of data is not an indirect block. -/
theorem address_setSector (j m : ℕ) :
    (s.setSector (s.address (ino i) k) buf).address (ino j) m = s.address (ino j) m := by
  by_cases hm : NDIRECT ≤ m ∧ m < MAXFILE
  · rw [State.address_entry _ _ hm.1 hm.2, State.address_entry _ _ hm.1 hm.2]
    by_cases hnone : (ino j).addrs NDIRECT = 0
    · rw [if_pos hnone, if_pos hnone]
    · rw [if_neg hnone, if_neg hnone]
      refine uintAt_congr fun r hr ↦ ?_
      have hinside : sizeofInt * (m - NDIRECT) + r < BSIZE := by
        have hlast : m - NDIRECT < NINDIRECT := Nat.sub_lt_left_of_lt_add hm.1 hm.2
        rw [NINDIRECT, BSIZE, sizeofInt] at hlast
        rw [BSIZE, sizeofInt]
        omega
      rw [Nat.add_assoc]
      refine State.setSector_of_ne buf (fun heq ↦ ?_) hinside
      rw [← s.address_indirect] at heq
      exact Nat.ne_of_lt hk (h.slot_eq hx heq.symm).2
  · by_cases hdirect : m < NDIRECT
    · rw [State.address_direct _ _ hdirect, State.address_direct _ _ hdirect]
    · have hbehind : ¬m < MAXFILE := fun hlt' ↦ hm ⟨Nat.not_lt.mp hdirect, hlt'⟩
      simp only [State.address, if_neg hdirect, if_neg hbehind]

theorem setSector : Blocks (s.setSector (s.address (ino i) k) buf) ino := by
  have hmap : (fun t : ℕ × ℕ ↦ (s.setSector (s.address (ino i) k) buf).address (ino t.1) t.2) =
      fun t : ℕ × ℕ ↦ s.address (ino t.1) t.2 := by
    funext t
    exact h.address_setSector hk hx buf t.1 t.2
  refine ⟨h.whole, by rw [hmap]; exact h.assigned, fun p hp ↦ ?_⟩
  have hlt := h.lt_freeblock hx
  have hle : s.address (ino i) k * BSIZE + BSIZE ≤ s.freeblock * BSIZE := by
    rw [← Nat.succ_mul]
    exact Nat.mul_le_mul_right _ hlt
  rw [State.setSector_outside buf (.inr (Nat.le_trans hle hp))]
  exact h.fresh p hp

theorem byteAt_setSector (j p : ℕ) :
    (s.setSector (s.address (ino i) k) buf).byteAt (ino j) p =
      if j = i ∧ p / BSIZE = k then buf (p % BSIZE) else s.byteAt (ino j) p := by
  have hr : p % BSIZE < BSIZE := Nat.mod_lt p BSIZE_pos
  rw [State.byteAt, h.address_setSector hk hx]
  by_cases hslot : j = i ∧ p / BSIZE = k
  · rw [if_pos hslot, hslot.1, hslot.2, if_neg hx, State.setSector_inside _ hr]
  · rw [if_neg hslot, State.byteAt]
    by_cases hzero : s.address (ino j) (p / BSIZE) = 0
    · rw [if_pos hzero, if_pos hzero]
    · rw [if_neg hzero, if_neg hzero]
      refine State.setSector_of_ne buf (fun heq ↦ ?_) hr
      exact hslot (h.slot_eq hzero heq)

end Blocks

end CS537.Mkfs
