import CS537.Storage.Slots

/-!
# The block at an index

`bmap` returns the block in a slot of an inode.  Where the slot has none it allocates one, and one for
the indirect block first if need be; all other slots and the content of all inodes stay as they are.
-/

namespace CS537.Storage

open Foundation Log
open FsCheck (BSIZE NDIRECT NINDIRECT IPB BPB sizeofDinode sizeofInt)
open Mkfs (Dinode byteOf uintAt MAXFILE bcopy BSIZE_pos MAXFILE_eq)

/-- The slots of inode `i` for which `new` holds have been given blocks. -/
structure Grown (sb : SuperBlock) (s : Volume) (ino : ℕ → Dinode) (i : ℕ) (new : ℕ → Prop) (t : Volume)
    (ino' : ℕ → Dinode) : Prop where
  mapped : Mapped sb t ino'
  old : ∀ j m, ¬(j = i ∧ new m) → t.address (ino' j) m = s.address (ino j) m
  fresh : ∀ m, new m → s.address (ino i) m = 0 ∧ t.address (ino' i) m ≠ 0
  byteAt : ∀ j p, p < MAXFILE * BSIZE → t.byteAt (ino' j) p = s.byteAt (ino j) p
  low : ∀ c < sb.bmapstart, t.block c = s.block c

variable {sb : SuperBlock} {s t u : Volume} {ino ino' ino'' : ℕ → Dinode} {i j k m b c : ℕ}
  {new new' : ℕ → Prop}

theorem Mapped.grown_none (h : Mapped sb s ino) : Grown sb s ino i (fun _ ↦ False) s ino :=
  ⟨h, fun _ _ _ ↦ rfl, fun _ hm ↦ hm.elim, fun _ _ _ ↦ rfl, fun _ _ ↦ rfl⟩

theorem Given.grown (h : Given sb s ino i k b t ino') (hslot : s.address (ino i) k = 0) (hb : b ≠ 0) :
    Grown sb s ino i (fun m ↦ m = k) t ino' where
  mapped := h.mapped
  old j m hjm := by rw [h.address, if_neg hjm]
  fresh m hm := by
    rw [h.address, if_pos ⟨rfl, hm⟩, hm]
    exact ⟨hslot, hb⟩
  byteAt := h.byteAt
  low := h.low

namespace Grown

theorem congr (h : Grown sb s ino i new t ino') (hnew : ∀ m, new' m ↔ new m) :
    Grown sb s ino i new' t ino' := by
  obtain rfl : new' = new := funext fun m ↦ propext (hnew m)
  exact h

theorem trans (h : Grown sb s ino i new t ino') (h' : Grown sb t ino' i new' u ino'') :
    Grown sb s ino i (fun m ↦ new m ∨ new' m) u ino'' where
  mapped := h'.mapped
  old j m hjm := by
    rw [h'.old j m fun hj ↦ hjm ⟨hj.1, .inr hj.2⟩, h.old j m fun hj ↦ hjm ⟨hj.1, .inl hj.2⟩]
  fresh m hm := by
    by_cases hlast : new' m
    · have hzero := (h'.fresh m hlast).1
      refine ⟨?_, (h'.fresh m hlast).2⟩
      by_contra hne
      have hfirst : ¬new m := fun hfirst ↦ hne (h.fresh m hfirst).1
      exact hne (by rw [← h.old i m fun hi ↦ hfirst hi.2, hzero])
    · have hfirst := h.fresh m (hm.resolve_right hlast)
      exact ⟨hfirst.1, by rw [h'.old i m fun hi ↦ hlast hi.2]; exact hfirst.2⟩
  byteAt j p hp := (h'.byteAt j p hp).trans (h.byteAt j p hp)
  low c hc := (h'.low c hc).trans (h.low c hc)

theorem ne_zero_iff (h : Grown sb s ino i new t ino') (j m : ℕ) :
    t.address (ino' j) m ≠ 0 ↔ s.address (ino j) m ≠ 0 ∨ (j = i ∧ new m) := by
  by_cases hnew : j = i ∧ new m
  · rw [hnew.1]
    exact iff_of_true (h.fresh m hnew.2).2 (.inr ⟨rfl, hnew.2⟩)
  · rw [h.old j m hnew]
    exact (or_iff_left hnew).symm

end Grown

/-! ## Addresses of an inode -/

/-- An inode in memory has been changed. -/
def Volume.setInode (s : Volume) (i : ℕ) (d : Dinode) : Volume :=
  { s with icache := Function.update s.icache i d }

@[simp]
theorem Volume.setInode_self (s : Volume) (i : ℕ) (d : Dinode) : (s.setInode i d).icache i = d :=
  Function.update_self _ _ _

/-- The end of `addrFor`. -/
structure AddrFor (sb : SuperBlock) (s : Volume) (i k b : ℕ) (t : Volume) : Prop where
  ends : (s.icache i).addrs k ≠ 0 ∧ b = (s.icache i).addrs k ∧ t = s ∨
    (s.icache i).addrs k = 0 ∧ b < sb.size ∧ ¬s.Marked sb b ∧
      t = (s.allocated sb b).setInode i ((s.icache i).setAddr k b)

theorem addrFor_ends (sb : SuperBlock) (s : Volume) (i k : ℕ) :
    Ends (addrFor sb i k) s (AddrFor sb s i k) OutOfBlocks := by
  refine .after (a := s.icache i) (t := s) rfl ?_
  by_cases hzero : (s.icache i).addrs k = 0
  · rw [if_pos hzero]
    refine ((balloc_ends sb s).weaken (fun _ _ ↦ id) fun _ he ↦ he.1).bind fun b t hgot ↦ ?_
    obtain ⟨hb, hfree, rfl, -⟩ := hgot
    exact .of_ok (a := b) (t := (s.allocated sb b).setInode i ((s.icache i).setAddr k b)) rfl
      ⟨.inr ⟨hzero, hb, hfree, rfl⟩⟩
  · rw [if_neg hzero]
    exact .pure ⟨.inl ⟨hzero, rfl, rfl⟩⟩

/-- The slots that `bmap` needs. -/
def Needs (k m : ℕ) : Prop := m = k ∨ NDIRECT ≤ k ∧ m = MAXFILE

/-- What a call of `bmap` that returns `b` does, apart from the slots. -/
structure Frame (s : Volume) (i : ℕ) (t : Volume) : Prop where
  icache : ∀ j, j ≠ i → t.icache j = s.icache j
  valid : t.valid = s.valid
  fields : t.icache i = { s.icache i with addrs := (t.icache i).addrs }
  fits : (s.icache i).Fits → (t.icache i).Fits

theorem Frame.refl (s : Volume) (i : ℕ) : Frame s i s :=
  ⟨fun _ _ ↦ rfl, rfl, rfl, id⟩

theorem Frame.trans (h : Frame s i t) (h' : Frame t i u) : Frame s i u where
  icache j hj := (h'.icache j hj).trans (h.icache j hj)
  valid := h'.valid.trans h.valid
  fields := by
    rw [h'.fields, h.fields]
  fits hs := h'.fits (h.fits hs)

theorem fits_setAddr {d : Dinode} (hd : d.Fits) (hk : k ≤ NDIRECT) (hb : b < 2 ^ 32) :
    (d.setAddr k b).Fits where
  type := hd.type
  major := hd.major
  minor := hd.minor
  nlink := hd.nlink
  size := hd.size
  addrs m := by
    by_cases hm : m = k
    · rw [hm, Dinode.addrs_setAddr_self]
      exact hb
    · rw [Dinode.addrs_setAddr_of_ne _ hm]
      exact hd.addrs m
  tail m hm := by
    rw [Dinode.addrs_setAddr_of_ne _ (by omega)]
    exact hd.tail m hm

theorem Grown.setInode (h : Grown sb s ino i new t ino') (j : ℕ) (d : Dinode) :
    Grown sb s ino i new (t.setInode j d) ino' :=
  ⟨h.mapped, h.old, h.fresh, h.byteAt, h.low⟩

/-- `bmap` may give block `c` to `log_write`. -/
def Touched (sb : SuperBlock) (s : Volume) (ino : ℕ → Dinode) (i k : ℕ) (t : Volume) (c : ℕ) : Prop :=
  (∃ m, s.address (ino i) m = 0 ∧ Needs k m ∧
    (c = t.address (t.icache i) m ∨ c = sb.bblock (t.address (t.icache i) m))) ∨
  NDIRECT ≤ k ∧ c = t.address (t.icache i) MAXFILE

/-- What a call of `bmap` that returns `b` does. -/
structure Bmapped (sb : SuperBlock) (s : Volume) (ino : ℕ → Dinode) (i k b : ℕ) (t : Volume) : Prop where
  grown : Grown sb s ino i (fun m ↦ s.address (ino i) m = 0 ∧ Needs k m) t
    (Function.update ino i (t.icache i))
  address : t.address (t.icache i) k = b
  frame : Frame s i t
  same : s.address (ino i) k ≠ 0 → t = s
  logged : ∃ l, t.logged = s.logged ++ l ∧ ∀ c ∈ l, Touched sb s ino i k t c

section Bmap

variable (h : Mapped sb s ino) (hsize : sb.size ≤ 2 ^ 32) (hip : s.icache i = ino i)
include h hsize hip

omit h hip in
/-- The frame of an allocation for `addrs[k]`. -/
theorem frame_allocated (hk : k ≤ NDIRECT) (hb : b < sb.size) :
    Frame s i ((s.allocated sb b).setInode i ((s.icache i).setAddr k b)) := by
  refine ⟨fun j hj ↦ Function.update_of_ne hj _ _, rfl, ?_, fun hfits ↦ ?_⟩
  · rw [Volume.setInode_self]
    rfl
  · rw [Volume.setInode_self]
    exact fits_setAddr hfits hk (hb.trans_le hsize)

theorem AddrFor.direct (ha : AddrFor sb s i k b t) (hk : k < NDIRECT) : Bmapped sb s ino i k b t := by
  have hneeds (m : ℕ) (hm : Needs k m) : m = k := hm.resolve_right fun hfar ↦ by omega
  rcases ha.ends with ⟨hne, rfl, rfl⟩ | ⟨hzero, hb, hfree, rfl⟩
  · have haddress : t.address (ino i) k ≠ 0 := by
      rwa [Volume.address_direct _ _ hk, ← hip]
    refine ⟨?_, Volume.address_direct _ _ hk, .refl t i, fun _ ↦ rfl, [], (List.append_nil _).symm,
      fun c hc ↦ (by cases hc)⟩
    rw [hip, Function.update_eq_self]
    refine h.grown_none.congr fun m ↦ iff_of_false (fun hm ↦ haddress ?_) id
    rw [← hneeds m hm.2]
    exact hm.1
  · have hslot : s.address (ino i) k = 0 := by
      rwa [Volume.address_direct _ _ hk, ← hip]
    have hgiven := h.given_direct hb hfree hk (hip ▸ hzero)
    have hbne : b ≠ 0 := fun hb0 ↦ h.number_ne hfree hb (i, k) (by rw [hb0]; exact hslot)
    have haddress : ((s.allocated sb b).setInode i ((s.icache i).setAddr k b)).address
        ((s.icache i).setAddr k b) k = b := by
      rw [Volume.address_direct _ _ hk, Dinode.addrs_setAddr_self]
    refine ⟨?_, ?_, frame_allocated hsize hk.le hb, fun hne ↦ absurd hslot hne,
      [sb.bblock b, b], ?_, fun c hc ↦ .inl ⟨k, hslot, .inl rfl, ?_⟩⟩
    · rw [Volume.setInode_self, hip]
      refine ((hgiven.grown hslot hbne).congr fun m ↦ ?_).setInode i _
      exact ⟨fun hm ↦ hneeds m hm.2, fun hm ↦ ⟨hm ▸ hslot, .inl hm⟩⟩
    · rw [Volume.setInode_self, haddress]
    · exact List.append_assoc s.logged [sb.bblock b] [b]
    · rw [Volume.setInode_self, haddress]
      simp only [List.mem_cons, List.not_mem_nil, or_false] at hc
      exact hc.symm

/-- Inode `i` has the indirect block `a`, which was allocated for it if need be. -/
structure HasIndirect (sb : SuperBlock) (s : Volume) (ino : ℕ → Dinode) (i a : ℕ) (t : Volume) : Prop where
  grown : Grown sb s ino i (fun m ↦ s.address (ino i) m = 0 ∧ m = MAXFILE) t
    (Function.update ino i (t.icache i))
  addr : (t.icache i).addrs NDIRECT = a
  ne_zero : a ≠ 0
  frame : Frame s i t
  same : s.address (ino i) MAXFILE ≠ 0 → t = s
  logged : ∃ l, t.logged = s.logged ++ l ∧ ∀ c ∈ l, s.address (ino i) MAXFILE = 0 ∧ (c = a ∨ c = sb.bblock a)

theorem AddrFor.indirect (ha : AddrFor sb s i NDIRECT b t) : HasIndirect sb s ino i b t := by
  have hindirect : s.address (ino i) MAXFILE = (s.icache i).addrs NDIRECT := by
    rw [Volume.address_indirect, hip]
  rcases ha.ends with ⟨hne, rfl, rfl⟩ | ⟨hzero, hb, hfree, rfl⟩
  · refine ⟨?_, rfl, hne, .refl t i, fun _ ↦ rfl, [], (List.append_nil _).symm, fun c hc ↦ (by cases hc)⟩
    rw [hip, Function.update_eq_self]
    refine h.grown_none.congr fun m ↦ iff_of_false (fun hm ↦ hne ?_) id
    rw [← hindirect, ← hm.2]
    exact hm.1
  · have hslot : s.address (ino i) MAXFILE = 0 := hindirect.trans hzero
    have hgiven := h.given_indirect hb hfree (hip ▸ hzero)
    have hbne : b ≠ 0 := fun hb0 ↦ h.number_ne hfree hb (i, MAXFILE) (by rw [hb0]; exact hslot)
    refine ⟨?_, ?_, hbne, frame_allocated hsize le_rfl hb, fun hne ↦ absurd hslot hne,
      [sb.bblock b, b], ?_, fun c hc ↦ ⟨hslot, ?_⟩⟩
    · rw [Volume.setInode_self, hip]
      refine ((hgiven.grown hslot hbne).congr fun m ↦ ?_).setInode i _
      exact ⟨fun hm ↦ hm.2, fun hm ↦ ⟨hm ▸ hslot, hm⟩⟩
    · rw [Volume.setInode_self, Dinode.addrs_setAddr_self]
    · exact List.append_assoc s.logged [sb.bblock b] [b]
    · simp only [List.mem_cons, List.not_mem_nil, or_false] at hc
      exact hc.symm

end Bmap

namespace HasIndirect

variable {a : ℕ} (h : HasIndirect sb s ino i a t)
include h

theorem address_indirect : t.address (t.icache i) MAXFILE = a := by
  rw [Volume.address_indirect, h.addr]

/-- Slot `k` is as it was before the indirect block was allocated. -/
theorem address_slot (hk : k < MAXFILE) : t.address (t.icache i) k = s.address (ino i) k := by
  have hold := h.grown.old i k fun hm ↦ Nat.ne_of_lt hk hm.2.2
  rwa [Function.update_self] at hold

theorem address_entry (hk' : NDIRECT ≤ k) (hk : k < MAXFILE) :
    t.address (t.icache i) k = uintAt (t.block a) (sizeofInt * (k - NDIRECT)) := by
  rw [Volume.address_entry _ _ hk' hk, h.addr, if_neg h.ne_zero, Volume.entry]

omit h in
theorem touched (hk' : NDIRECT ≤ k) (hu : u.address (u.icache i) MAXFILE = a)
    (hc : s.address (ino i) MAXFILE = 0 ∧ (c = a ∨ c = sb.bblock a)) : Touched sb s ino i k u c := by
  rw [← hu] at hc
  exact .inl ⟨MAXFILE, hc.1, .inr ⟨hk', rfl⟩, hc.2⟩

/-- The indirect block has an entry for slot `k`. -/
theorem found (hk' : NDIRECT ≤ k) (hk : k < MAXFILE) (hne : s.address (ino i) k ≠ 0) :
    Bmapped sb s ino i k (uintAt (t.block a) (sizeofInt * (k - NDIRECT))) t := by
  obtain ⟨l, hl, hlogged⟩ := h.logged
  refine ⟨?_, h.address_entry hk' hk, h.frame, fun _ ↦ h.same fun hnone ↦ hne ?_, l, hl,
    fun c hc ↦ touched hk' h.address_indirect (hlogged c hc)⟩
  · refine h.grown.congr fun m ↦ ⟨fun hm ↦ ⟨hm.1, ?_⟩, fun hm ↦ ⟨hm.1, .inr ⟨hk', hm.2⟩⟩⟩
    refine (hm.2.resolve_left fun hmk ↦ hne ?_).2
    rw [← hmk]
    exact hm.1
  · rw [Volume.address_entry _ _ hk' hk, if_pos]
    rwa [Volume.address_indirect] at hnone

/-- Slot `k` is given a block through the indirect block. -/
theorem fresh (hk' : NDIRECT ≤ k) (hk : k < MAXFILE) (hsize : sb.size ≤ 2 ^ 32)
    (hzero : s.address (ino i) k = 0) (hb : b < sb.size) (hfree : ¬t.Marked sb b) :
    Bmapped sb s ino i k b (t.setEntry sb a (k - NDIRECT) b) := by
  obtain ⟨l, hl, hlogged⟩ := h.logged
  have hself : Function.update ino i (t.icache i) i = t.icache i := Function.update_self _ _ _
  have haddr : (Function.update ino i (t.icache i) i).addrs NDIRECT = a := by rw [hself, h.addr]
  have hslot : t.address (Function.update ino i (t.icache i) i) k = 0 := by
    rw [hself, h.address_slot hk, hzero]
  have hgiven := h.grown.mapped.given_entry (i := i) (k := k) hb hfree (hb.trans_le hsize) hk' hk
    (by rw [haddr]; exact h.ne_zero)
    (by rw [haddr, Volume.entry, ← h.address_entry hk' hk, h.address_slot hk, hzero])
  rw [haddr] at hgiven
  have hbne : b ≠ 0 := fun hb0 ↦
    h.grown.mapped.number_ne hfree hb (i, k) (by rw [hb0]; exact hslot)
  have hnew := h.grown.trans (hgiven.grown hslot hbne)
  have haddress : (t.setEntry sb a (k - NDIRECT) b).address (t.icache i) k = b := by
    rw [← hself, hgiven.address, if_pos ⟨rfl, rfl⟩]
  have hmax : (t.setEntry sb a (k - NDIRECT) b).address (t.icache i) MAXFILE = a := by
    rw [Volume.address_indirect, h.addr]
  refine ⟨?_, haddress, h.frame.trans ⟨fun _ _ ↦ rfl, rfl, rfl, id⟩, fun hne ↦ absurd hzero hne,
    l ++ [sb.bblock b, b, a], ?_, fun c hc ↦ ?_⟩
  · refine hnew.congr fun m ↦ ⟨fun hm ↦ ?_, fun hm ↦ ?_⟩
    · exact hm.2.elim .inr fun hfar ↦ .inl ⟨hm.1, hfar.2⟩
    · rcases hm with hm | hm
      · exact ⟨hm.1, .inr ⟨hk', hm.2⟩⟩
      · exact ⟨hm ▸ hzero, .inl hm⟩
  · have hwritten : (t.setEntry sb a (k - NDIRECT) b).logged = t.logged ++ [sb.bblock b] ++ [b] ++ [a] :=
      rfl
    rw [hwritten, hl]
    simp only [List.append_assoc, List.cons_append, List.nil_append]
  · rcases List.mem_append.mp hc with hc | hc
    · exact touched hk' hmax (hlogged c hc)
    · simp only [List.mem_cons, List.not_mem_nil, or_false] at hc
      rcases hc with rfl | rfl | rfl
      · exact .inl ⟨k, hzero, .inl rfl, .inr (congrArg sb.bblock haddress.symm)⟩
      · exact .inl ⟨k, hzero, .inl rfl, .inl haddress.symm⟩
      · exact .inr ⟨hk', hmax.symm⟩

end HasIndirect

theorem bmap_ends (h : Mapped sb s ino) (hsize : sb.size ≤ 2 ^ 32) (hip : s.icache i = ino i)
    (hk : k < MAXFILE) : Ends (bmap sb i k) s (Bmapped sb s ino i k) OutOfBlocks := by
  rw [bmap]
  by_cases hdirect : k < NDIRECT
  · rw [if_pos hdirect]
    exact (addrFor_ends sb s i k).imp fun b t ha ↦ ha.direct h hsize hip hdirect
  have hk' : NDIRECT ≤ k := Nat.le_of_not_lt hdirect
  have hlast : k - NDIRECT < NINDIRECT := Nat.sub_lt_left_of_lt_add hk' hk
  rw [if_neg hdirect, if_pos hlast]
  refine (addrFor_ends sb s i NDIRECT).bind fun a t ha ↦ ?_
  have hindirect := ha.indirect h hsize hip
  have hentry := hindirect.address_entry hk' hk
  rw [hindirect.address_slot hk] at hentry
  refine .after (a := t.block a) (t := t) rfl ?_
  by_cases hzero : uintAt (t.block a) (sizeofInt * (k - NDIRECT)) = 0
  · rw [if_pos hzero]
    refine ((balloc_ends sb t).weaken (fun _ _ ↦ id) fun _ he ↦ he.1).bind fun b u hgot ↦ ?_
    obtain ⟨hb, hfree, rfl, -⟩ := hgot
    exact .of_ok (a := b) (t := t.setEntry sb a (k - NDIRECT) b) rfl
      (hindirect.fresh hk' hk hsize (hentry.trans hzero) hb hfree)
  · rw [if_neg hzero]
    exact .pure (hindirect.found hk' hk (hentry ▸ hzero))

end CS537.Storage
