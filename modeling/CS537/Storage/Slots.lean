import CS537.Storage.Allocator
import CS537.Mkfs.Blocks

/-!
# The blocks of the inodes

Every inode has a slot for each block of its content and one for its indirect block.  The bitmap marks
the blocks before the data and those in the slots, and no block is in two slots.
-/

namespace CS537.Storage

open Foundation Log
open FsCheck (BSIZE NDIRECT NINDIRECT IPB BPB sizeofDinode sizeofInt)
open Mkfs (Dinode byteOf uintAt MAXFILE bcopy uintAt_congr uintAt_zero uintAt_of_bytes BSIZE_pos MAXFILE_eq)

namespace Volume

variable (s : Volume) (d : Dinode)

/-- An entry of an indirect block. -/
def entry (b k : ℕ) : ℕ := uintAt (s.block b) (sizeofInt * k)

/-- The block in a slot of an inode; slot `MAXFILE` is the one of the indirect block. -/
def address (k : ℕ) : ℕ :=
  if k < NDIRECT then d.addrs k
  else if k < MAXFILE then
    if d.addrs NDIRECT = 0 then 0 else s.entry (d.addrs NDIRECT) (k - NDIRECT)
  else if k = MAXFILE then d.addrs NDIRECT
  else 0

/-- Byte `p` of the content of an inode. -/
def byteAt (p : ℕ) : UInt8 :=
  if s.address d (p / BSIZE) = 0 then 0 else s.block (s.address d (p / BSIZE)) (p % BSIZE)

theorem address_direct {k : ℕ} (hk : k < NDIRECT) : s.address d k = d.addrs k := if_pos hk

theorem address_indirect : s.address d MAXFILE = d.addrs NDIRECT := by
  rw [address, if_neg (by decide), if_neg (Nat.lt_irrefl _), if_pos rfl]

theorem address_entry {k : ℕ} (hk : NDIRECT ≤ k) (hlt : k < MAXFILE) : s.address d k =
    if d.addrs NDIRECT = 0 then 0 else s.entry (d.addrs NDIRECT) (k - NDIRECT) := by
  rw [address, if_neg (Nat.not_lt.mpr hk), if_pos hlt]

theorem address_behind {k : ℕ} (hk : MAXFILE < k) : s.address d k = 0 := by
  rw [MAXFILE_eq] at hk
  rw [address, MAXFILE_eq, NDIRECT, if_neg (by omega), if_neg (by omega), if_neg (by omega)]

variable {s d} {t : Volume}

/-- The slots of an inode change with its indirect block only. -/
theorem address_congr (h : d.addrs NDIRECT ≠ 0 → t.block (d.addrs NDIRECT) = s.block (d.addrs NDIRECT))
    (k : ℕ) : t.address d k = s.address d k := by
  rw [address, address]
  by_cases hzero : d.addrs NDIRECT = 0
  · rw [if_pos hzero, if_pos hzero]
  · rw [entry, entry, h hzero]

end Volume

/-- The slots and the bitmap agree. -/
def Mapped (sb : SuperBlock) (s : Volume) (ino : ℕ → Dinode) : Prop :=
  Owned (fun t : ℕ × ℕ ↦ s.address (ino t.1) t.2) (s.Marked sb) sb.nmeta sb.size

/-- Slot `k` of inode `i` has been given block `b`. -/
structure Given (sb : SuperBlock) (s : Volume) (ino : ℕ → Dinode) (i k b : ℕ) (t : Volume)
    (ino' : ℕ → Dinode) : Prop where
  mapped : Mapped sb t ino'
  address : ∀ j m, t.address (ino' j) m = if j = i ∧ m = k then b else s.address (ino j) m
  byteAt : ∀ j p, p < MAXFILE * BSIZE → t.byteAt (ino' j) p = s.byteAt (ino j) p
  low : ∀ c < sb.bmapstart, t.block c = s.block c

variable {sb : SuperBlock} {s t : Volume} {ino ino' : ℕ → Dinode} {i j k m b c : ℕ}

/-! ## The bitmap -/

theorem SuperBlock.bblock_ge (sb : SuperBlock) (b : ℕ) : sb.bmapstart ≤ sb.bblock b := Nat.le_add_left _ _

theorem SuperBlock.bblock_lt (sb : SuperBlock) (hb : b < sb.size) : sb.bblock b < sb.nmeta := by
  have hdiv : b / BPB ≤ sb.size / BPB := Nat.div_le_div_right hb.le
  rw [SuperBlock.bblock, SuperBlock.nmeta]
  omega

theorem SuperBlock.bmapstart_le (sb : SuperBlock) : sb.bmapstart ≤ sb.nmeta := Nat.le_add_right _ _

theorem eq_of_bblock (h : sb.bblock b = sb.bblock c) (hmod : b % BPB = c % BPB) : b = c := by
  have hBPB : BPB = 4096 := rfl
  rw [SuperBlock.bblock, SuperBlock.bblock, hBPB] at h
  rw [hBPB] at hmod
  omega

/-- The marks after a block of the bitmap has been written. -/
theorem Volume.marked_write (s : Volume) (data : Block) : (s.write b data).Marked sb c ↔
    if sb.bblock c = b then bit data (c % BPB) = true else s.Marked sb c := by
  by_cases hc : sb.bblock c = b
  · rw [Volume.Marked, if_pos hc, hc, Volume.write_self]
  · rw [Volume.Marked, if_neg hc, Volume.write_of_ne s data hc, Volume.Marked]

theorem Volume.marked_allocated (hb : sb.nmeta ≤ b) (hc : c < sb.size) :
    (s.allocated sb b).Marked sb c ↔ s.Marked sb c ∨ c = b := by
  have hne : sb.bblock c ≠ b := Nat.ne_of_lt ((sb.bblock_lt hc).trans_le hb)
  rw [Volume.allocated, Volume.marked_write, if_neg hne, Volume.marked_write]
  by_cases hblock : sb.bblock c = sb.bblock b
  · rw [if_pos hblock, bit_set, ← hblock, Volume.Marked]
    exact or_congr_right ⟨fun hmod ↦ (eq_of_bblock hblock.symm hmod).symm, fun heq ↦ by rw [heq]⟩
  · rw [if_neg hblock]
    exact (or_iff_left fun heq ↦ hblock (by rw [heq])).symm

theorem Volume.marked_freed :
    (s.freed sb b).Marked sb c ↔ s.Marked sb c ∧ c ≠ b := by
  rw [Volume.freed, Volume.marked_write]
  by_cases hblock : sb.bblock c = sb.bblock b
  · rw [if_pos hblock, bit_clear, ← hblock, Volume.Marked]
    exact and_congr_right fun _ ↦
      not_congr ⟨fun hmod ↦ (eq_of_bblock hblock.symm hmod).symm, fun heq ↦ by rw [heq]⟩
  · rw [if_neg hblock]
    exact (and_iff_left fun heq ↦ hblock (by rw [heq])).symm

theorem Volume.block_allocated_self : (s.allocated sb b).block b = fun _ ↦ 0 := Volume.write_self _ _ _

theorem Volume.block_allocated_of_ne (hc : c ≠ b) (hbitmap : c ≠ sb.bblock b) :
    (s.allocated sb b).block c = s.block c := by
  rw [Volume.allocated, Volume.write_of_ne _ _ hc, Volume.write_of_ne _ _ hbitmap]

theorem Volume.block_freed_of_ne (hbitmap : c ≠ sb.bblock b) : (s.freed sb b).block c = s.block c :=
  Volume.write_of_ne _ _ hbitmap

/-! ## A block for a slot -/

namespace Mapped

variable (h : Mapped sb s ino)
include h

theorem nmeta_le (hne : s.address (ino i) k ≠ 0) : sb.nmeta ≤ s.address (ino i) k :=
  (h.range (i, k) hne).1

theorem lt_size (hne : s.address (ino i) k ≠ 0) : s.address (ino i) k < sb.size :=
  (h.range (i, k) hne).2

theorem slot_eq (hne : s.address (ino i) k ≠ 0) (heq : s.address (ino i) k = s.address (ino j) m) :
    i = j ∧ k = m :=
  Prod.mk.inj (h.injective (i, k) (j, m) hne heq)

/-- Only indirect blocks and the bitmap may change when a block is given to a slot. -/
theorem given (hslot : s.address (ino i) k = 0) (hb : b < sb.size) (hfree : ¬s.Marked sb b)
    (hmarked : ∀ c, c < sb.size → (t.Marked sb c ↔ s.Marked sb c ∨ c = b))
    (haddress : ∀ j m, t.address (ino' j) m = if j = i ∧ m = k then b else s.address (ino j) m)
    (hzero : t.block b = fun _ ↦ 0)
    (hblocks : ∀ c, sb.nmeta ≤ c → c ≠ b → (∀ j, s.address (ino j) MAXFILE ≠ c) →
      t.block c = s.block c)
    (hlow : ∀ c < sb.bmapstart, t.block c = s.block c) : Given sb s ino i k b t ino' := by
  have hfirst : sb.nmeta ≤ b := h.first_le hfree hb
  have hpos := h.pos
  refine ⟨?_, haddress, fun j p hp ↦ ?_, hlow⟩
  · have hassign := h.assign (s := (i, k)) hslot hfree hb hmarked
    have hmap : (fun u : ℕ × ℕ ↦ t.address (ino' u.1) u.2) =
        Function.update (fun u : ℕ × ℕ ↦ s.address (ino u.1) u.2) (i, k) b := by
      funext u
      rw [haddress, Function.update_apply]
      simp only [Prod.ext_iff]
    rw [Mapped, hmap]
    exact hassign
  · have hindex : p / BSIZE < MAXFILE := Nat.div_lt_of_lt_mul (Nat.mul_comm MAXFILE BSIZE ▸ hp)
    rw [Volume.byteAt, Volume.byteAt, haddress]
    by_cases hji : j = i ∧ p / BSIZE = k
    · rw [if_pos hji, hji.1, hji.2, if_pos hslot, if_neg (by omega), hzero]
    · rw [if_neg hji]
      by_cases hnone : s.address (ino j) (p / BSIZE) = 0
      · rw [if_pos hnone, if_pos hnone]
      · have hdata : ∀ l, s.address (ino l) MAXFILE ≠ s.address (ino j) (p / BSIZE) := fun l hl ↦
          (Nat.ne_of_lt hindex) (h.slot_eq hnone hl.symm).2
        rw [if_neg hnone, if_neg hnone,
          hblocks _ (h.nmeta_le hnone) (h.number_ne hfree hb (j, p / BSIZE)) hdata]

/-- The slots after a block has been taken from the bitmap. -/
theorem address_allocated (hb : b < sb.size) (hfree : ¬s.Marked sb b) (j m : ℕ) :
    (s.allocated sb b).address (ino j) m = s.address (ino j) m := by
  refine Volume.address_congr (fun hne ↦ ?_) m
  rw [← s.address_indirect] at hne ⊢
  refine Volume.block_allocated_of_ne (h.number_ne hfree hb (j, MAXFILE)) ?_
  exact Nat.ne_of_gt ((sb.bblock_lt hb).trans_le (h.nmeta_le hne))

omit h in
/-- Blocks of data after a block has been taken from the bitmap. -/
theorem block_allocated (hb : b < sb.size) (hc : sb.nmeta ≤ c) (hne : c ≠ b) :
    (s.allocated sb b).block c = s.block c :=
  Volume.block_allocated_of_ne hne (Nat.ne_of_gt ((sb.bblock_lt hb).trans_le hc))

theorem low_allocated (hb : b < sb.size) (hfree : ¬s.Marked sb b) (hc : c < sb.bmapstart) :
    (s.allocated sb b).block c = s.block c := by
  have hfirst : sb.nmeta ≤ b := h.first_le hfree hb
  have hmeta := sb.bmapstart_le
  exact Volume.block_allocated_of_ne (by omega) (Nat.ne_of_lt (hc.trans_le (sb.bblock_ge b)))

/-- A block becomes an address of an inode. -/
theorem given_addr {d : Dinode} (hb : b < sb.size) (hfree : ¬s.Marked sb b)
    (hslot : s.address (ino i) k = 0)
    (haddress : ∀ m, (s.allocated sb b).address d m = if m = k then b else s.address (ino i) m) :
    Given sb s ino i k b (s.allocated sb b) (Function.update ino i d) := by
  refine h.given hslot hb hfree (fun c hc ↦ Volume.marked_allocated (h.first_le hfree hb) hc)
    (fun j m ↦ ?_) Volume.block_allocated_self (fun c hc hne _ ↦ block_allocated hb hc hne)
    fun c hc ↦ h.low_allocated hb hfree hc
  by_cases hj : j = i
  · subst hj
    rw [Function.update_self, haddress]
    simp only [true_and]
  · rw [Function.update_of_ne hj, h.address_allocated hb hfree, if_neg fun hji ↦ hj hji.1]

theorem given_direct (hb : b < sb.size) (hfree : ¬s.Marked sb b) (hk : k < NDIRECT)
    (hzero : (ino i).addrs k = 0) : Given sb s ino i k b (s.allocated sb b)
      (Function.update ino i ((ino i).setAddr k b)) := by
  refine h.given_addr hb hfree ((s.address_direct (ino i) hk).trans hzero) fun m ↦ ?_
  have hindirect := (ino i).addrs_setAddr_of_ne (Nat.ne_of_gt hk) b
  by_cases hm : m < NDIRECT
  · rw [Volume.address_direct _ _ hm, Volume.address_direct _ _ hm]
    exact Function.update_apply _ _ _ _
  · have hne : m ≠ k := by omega
    rw [if_neg hne, ← h.address_allocated hb hfree]
    simp only [Volume.address, if_neg hm, hindirect]

theorem given_indirect (hb : b < sb.size) (hfree : ¬s.Marked sb b) (hzero : (ino i).addrs NDIRECT = 0) :
    Given sb s ino i MAXFILE b (s.allocated sb b)
      (Function.update ino i ((ino i).setAddr NDIRECT b)) := by
  refine h.given_addr hb hfree ((s.address_indirect (ino i)).trans hzero) fun m ↦ ?_
  have hindirect := (ino i).addrs_setAddr_self NDIRECT b
  have hempty (m : ℕ) : (s.allocated sb b).entry b m = 0 :=
    uintAt_zero fun _ _ ↦ by rw [Volume.block_allocated_self]
  rcases Nat.lt_trichotomy m MAXFILE with hm | rfl | hm
  · rw [if_neg (Nat.ne_of_lt hm)]
    by_cases hlt : m < NDIRECT
    · rw [Volume.address_direct _ _ hlt, Volume.address_direct _ _ hlt,
        Dinode.addrs_setAddr_of_ne _ (Nat.ne_of_lt hlt)]
    · rw [Volume.address_entry _ _ (Nat.not_lt.mp hlt) hm, Volume.address_entry _ _
        (Nat.not_lt.mp hlt) hm, if_pos hzero, hindirect, hempty, ite_self]
  · rw [if_pos rfl, Volume.address_indirect, hindirect]
  · rw [if_neg (Nat.ne_of_gt hm), Volume.address_behind _ _ hm, Volume.address_behind _ _ hm]

end Mapped

/-! ## A block in an indirect block -/

theorem uintAt_putEntry {addr : ℕ} (haddr : addr < 2 ^ 32) (bn : ℕ) (data : Block) (m : ℕ) :
    uintAt (putEntry bn addr data) (sizeofInt * m) =
      if m = bn then addr else uintAt data (sizeofInt * m) := by
  by_cases hm : m = bn
  · rw [if_pos hm]
    refine uintAt_of_bytes haddr fun j hj ↦ ?_
    have hinside : sizeofInt * bn ≤ sizeofInt * m + j ∧ sizeofInt * m + j < sizeofInt * bn + sizeofInt := by
      rw [hm, sizeofInt]
      omega
    rw [putEntry, if_pos hinside, hm, Nat.add_sub_cancel_left]
  · rw [if_neg hm]
    refine uintAt_congr fun j hj ↦ ?_
    have houtside :
        ¬(sizeofInt * bn ≤ sizeofInt * m + j ∧ sizeofInt * m + j < sizeofInt * bn + sizeofInt) := by
      rw [sizeofInt]
      omega
    rw [putEntry, if_neg houtside]

/-- The state after an entry of the indirect block `a` has been given block `b`. -/
def Volume.setEntry (sb : SuperBlock) (s : Volume) (a k b : ℕ) : Volume :=
  (s.allocated sb b).write a (putEntry k b ((s.allocated sb b).block a))

namespace Mapped

variable (h : Mapped sb s ino)
include h

theorem given_entry (hb : b < sb.size) (hfree : ¬s.Marked sb b) (hfit : b < 2 ^ 32) (hk : NDIRECT ≤ k)
    (hlt : k < MAXFILE) (ha : (ino i).addrs NDIRECT ≠ 0)
    (hzero : s.entry ((ino i).addrs NDIRECT) (k - NDIRECT) = 0) :
    Given sb s ino i k b (s.setEntry sb ((ino i).addrs NDIRECT) (k - NDIRECT) b) ino := by
  have hindirect : s.address (ino i) MAXFILE = (ino i).addrs NDIRECT := s.address_indirect (ino i)
  have hslot : s.address (ino i) k = 0 := by
    rw [Volume.address_entry _ _ hk hlt, hzero, ite_self]
  have hmeta : sb.nmeta ≤ (ino i).addrs NDIRECT := by
    rw [← hindirect] at ha ⊢
    exact h.nmeta_le ha
  have hbne : b ≠ (ino i).addrs NDIRECT := fun heq ↦
    h.number_ne hfree hb (i, MAXFILE) (hindirect.trans heq.symm)
  refine h.given hslot hb hfree (fun c hc ↦ ?_) (fun j m ↦ ?_) ?_ (fun c hc hne hnone ↦ ?_) fun c hc ↦ ?_
  · have hne : sb.bblock c ≠ (ino i).addrs NDIRECT := Nat.ne_of_lt ((sb.bblock_lt hc).trans_le hmeta)
    rw [Volume.setEntry, Volume.marked_write, if_neg hne]
    exact Volume.marked_allocated (h.first_le hfree hb) hc
  · by_cases hj : j = i
    · subst hj
      by_cases hm : NDIRECT ≤ m ∧ m < MAXFILE
      · have hiff : m - NDIRECT = k - NDIRECT ↔ j = j ∧ m = k := by omega
        rw [Volume.address_entry _ _ hm.1 hm.2, Volume.address_entry _ _ hm.1 hm.2, if_neg ha, if_neg ha,
          Volume.entry, Volume.setEntry, Volume.write_self, uintAt_putEntry hfit,
          block_allocated hb hmeta hbne.symm]
        simp only [hiff]
        rfl
      · have hmk : m ≠ k := by
          rintro rfl
          exact hm ⟨hk, hlt⟩
        rw [if_neg fun hji ↦ hmk hji.2]
        by_cases hdirect : m < NDIRECT
        · rw [Volume.address_direct _ _ hdirect, Volume.address_direct _ _ hdirect]
        · have hbehind : ¬m < MAXFILE := fun hlt' ↦ hm ⟨Nat.not_lt.mp hdirect, hlt'⟩
          simp only [Volume.address, if_neg hdirect, if_neg hbehind]
    · rw [if_neg fun hji ↦ hj hji.1, ← h.address_allocated hb hfree]
      refine Volume.address_congr (fun hother ↦ Volume.write_of_ne _ _ fun heq ↦ ?_) m
      rw [← s.address_indirect] at hother heq
      exact hj (h.slot_eq hother (heq.trans hindirect.symm)).1
  · rw [Volume.setEntry, Volume.write_of_ne _ _ hbne, Volume.block_allocated_self]
  · have hother : c ≠ (ino i).addrs NDIRECT := fun heq ↦ hnone i (hindirect.trans heq.symm)
    rw [Volume.setEntry, Volume.write_of_ne _ _ hother, block_allocated hb hc hne]
  · have hle := sb.bmapstart_le
    have hne : c ≠ (ino i).addrs NDIRECT := by omega
    rw [Volume.setEntry, Volume.write_of_ne _ _ hne, h.low_allocated hb hfree hc]

end Mapped

end CS537.Storage
