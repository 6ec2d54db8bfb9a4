import CS537.Mkfs.Append

/-!
# Inodes with their data

The image holds inodes of given types with given data.  `ialloc` changes the type of one inode and
`iappend` the data of one.
-/

namespace CS537.Mkfs

open Foundation
open FsCheck (BSIZE NDIRECT NINDIRECT IPB sizeofDinode sizeofDirent sizeofInt ROOTINO)

variable {s s' : State} {ino ino' : ℕ → Dinode} {c : ℕ → List UInt8} {kind : ℕ → ℕ} {i j : ℕ}
  {d d' : Dinode} {data : List UInt8}

theorem slots_eq : slots = 208 := rfl

theorem inodestart_eq : inodestart = 32 := rfl

/-! ## The table of the inodes -/

namespace State

/-- The inodes in the image, as far as there is room for them. -/
def table (s : State) (i : ℕ) : Dinode := if i < slots then s.inode i else .zero

theorem table_of_lt (hi : i < slots) : s.table i = s.inode i := if_pos hi

theorem inodeOffset_add_le (hi : i < slots) : inodeOffset i + sizeofDinode ≤ bmapstart * BSIZE := by
  have hbmap : bmapstart = 58 := rfl
  rw [slots_eq] at hi
  rw [inodeOffset, inodestart_eq, hbmap, sizeofDinode, FsCheck.BSIZE]
  omega

theorem inode_congr (hi : i < slots) (h : ∀ p < bmapstart * BSIZE, s'.bytes p = s.bytes p) :
    s'.inode i = s.inode i := by
  have hle := inodeOffset_add_le hi
  exact Dinode.ofBytes_congr fun k hk ↦ h _ (by omega)

theorem table_congr (h : ∀ p < bmapstart * BSIZE, s'.bytes p = s.bytes p) : s'.table = s.table := by
  funext i
  by_cases hi : i < slots
  · rw [table_of_lt hi, table_of_lt hi, inode_congr hi h]
  · rw [table, table, if_neg hi, if_neg hi]

theorem table_setInode (hi : i < slots) (hd : d.Fits) :
    (s.setInode i d).table = Function.update s.table i d := by
  funext j
  by_cases hji : j = i
  · rw [hji, Function.update_self, table_of_lt hi, inode_setInode_self hd]
  · rw [Function.update_of_ne hji, table, table, inode_setInode_of_ne hji]

end State

theorem bmapstart_lt_nmeta : bmapstart * BSIZE < nmeta * BSIZE := by decide

/-! ## The part of the image that matters for the data -/

section Congr

variable (hlength : s'.length = s.length) (hfree : s'.freeblock = s.freeblock)
  (hbytes : ∀ p, nmeta * BSIZE ≤ p → s'.bytes p = s.bytes p)
  (haddrs : ∀ j, (ino' j).addrs = (ino j).addrs)
include hbytes haddrs

theorem Blocks.address_congr (h : Blocks s ino) (j m : ℕ) :
    s'.address (ino' j) m = s.address (ino j) m := by
  rw [State.address, State.address, haddrs]
  by_cases hzero : (ino j).addrs NDIRECT = 0
  · rw [if_pos hzero, if_pos hzero]
  · have hle := h.nmeta_le (i := j) (k := MAXFILE) (by rwa [s.address_indirect])
    rw [s.address_indirect] at hle
    have hblock : nmeta * BSIZE ≤ (ino j).addrs NDIRECT * BSIZE := Nat.mul_le_mul_right _ hle
    have hentry : s'.entry ((ino j).addrs NDIRECT) (m - NDIRECT) =
        s.entry ((ino j).addrs NDIRECT) (m - NDIRECT) :=
      uintAt_congr fun r _ ↦ hbytes _ (by omega)
    rw [hentry]

include hlength hfree

theorem Blocks.congr (h : Blocks s ino) : Blocks s' ino' where
  whole := hlength.trans h.whole
  assigned := by
    have hmap : (fun t : ℕ × ℕ ↦ s'.address (ino' t.1) t.2) =
        fun t : ℕ × ℕ ↦ s.address (ino t.1) t.2 :=
      funext fun t ↦ h.address_congr hbytes haddrs t.1 t.2
    rw [hmap, hfree]
    exact h.assigned
  fresh p hp := by
    rw [hfree] at hp
    have hle : nmeta * BSIZE ≤ s.freeblock * BSIZE := Nat.mul_le_mul_right _ h.assigned.le
    rw [hbytes p (Nat.le_trans hle hp)]
    exact h.fresh p hp

theorem Contents.congr (h : Contents s ino c) : Contents s' ino' c where
  blocks := h.blocks.congr hlength hfree hbytes haddrs
  data j m hm := by
    rw [h.blocks.address_congr hbytes haddrs]
    exact h.data j m hm
  indirect j := by
    rw [h.blocks.address_congr hbytes haddrs]
    exact h.indirect j
  byte j p hp := by
    rw [← h.byte j p hp, State.byteAt, State.byteAt, h.blocks.address_congr hbytes haddrs]
    by_cases hzero : s.address (ino j) (p / BSIZE) = 0
    · rw [if_pos hzero, if_pos hzero]
    · have hle := Nat.mul_le_mul_right BSIZE (h.blocks.nmeta_le hzero)
      rw [if_neg hzero, if_neg hzero, hbytes _ (by omega)]

end Congr

/-- An inode is written that has the addresses it ought to have. -/
theorem Contents.setInode (h : Contents s (Function.update s.table i d) c) (hi : i < slots)
    (hfits : d'.Fits) (haddrs : d'.addrs = d.addrs) :
    Contents (s.setInode i d') (s.setInode i d').table c := by
  have hle := State.inodeOffset_add_le hi
  have hmeta := bmapstart_lt_nmeta
  refine Contents.congr (s := s) rfl rfl (fun p hp ↦ ?_) (fun j ↦ ?_) h
  · exact State.setInode_outside (.inr (by omega))
  · rw [State.table_setInode hi hfits]
    by_cases hji : j = i
    · rw [hji, Function.update_self, Function.update_self, haddrs]
    · rw [Function.update_of_ne hji, Function.update_of_ne hji]

/-! ## Inodes with types and data -/

/-- The image holds inodes of these types with these data, and the super block. -/
structure Holds (s : State) (kind : ℕ → ℕ) (c : ℕ → List UInt8) : Prop where
  contents : Contents s s.table c
  type : ∀ j < slots, (s.inode j).type = kind j
  size : ∀ j < slots, (s.inode j).size = (c j).length
  superblock : ∀ r < BSIZE, s.bytes (1 * BSIZE + r) = sbSector r

namespace Holds

variable (h : Holds s kind c)
include h

/-- An inode without data has no addresses. -/
theorem addrs_eq_zero (hi : i < slots) (hnone : c i = []) : (s.inode i).addrs = fun _ ↦ 0 := by
  funext k
  rw [← State.table_of_lt hi]
  rcases Nat.lt_trichotomy k NDIRECT with hk | rfl | hk
  · have haddress := (h.contents.data i k (Nat.lt_trans hk (by decide))).not
    rw [hnone, State.address_direct _ _ hk] at haddress
    exact not_not.mp (haddress.mpr (Nat.not_lt_zero _))
  · have haddress := (h.contents.indirect i).not
    rw [hnone, State.address_indirect] at haddress
    exact not_not.mp (haddress.mpr (Nat.not_lt_zero _))
  · rw [State.table_of_lt hi]
    exact (Dinode.fits_ofBytes _ _).tail k hk

/-- An inode is written. -/
theorem setInode (hi : i < slots) (hhead : ∀ p < nmeta * BSIZE, s'.bytes p = s.bytes p)
    (hcontents : Contents s' (Function.update s.table i d) (Function.update c i data))
    (hfits : d'.Fits) (haddrs : d'.addrs = d.addrs) (hsize : d'.size = data.length) :
    Holds (s'.setInode i d') (Function.update kind i d'.type) (Function.update c i data) := by
  have hmeta := bmapstart_lt_nmeta
  have hbefore (p : ℕ) (hp : p < bmapstart * BSIZE) : s'.bytes p = s.bytes p :=
    hhead p (Nat.lt_trans hp hmeta)
  have hother {j : ℕ} (hj : j < slots) (hji : j ≠ i) : (s'.setInode i d').inode j = s.inode j := by
    rw [State.inode_setInode_of_ne hji, State.inode_congr hj hbefore]
  rw [← State.table_congr hbefore] at hcontents
  refine ⟨hcontents.setInode hi hfits haddrs, fun j hj ↦ ?_, fun j hj ↦ ?_, fun r hr ↦ ?_⟩
  · by_cases hji : j = i
    · rw [hji, State.inode_setInode_self hfits, Function.update_self]
    · rw [hother hj hji, Function.update_of_ne hji, h.type j hj]
  · by_cases hji : j = i
    · rw [hji, State.inode_setInode_self hfits, Function.update_self, hsize]
    · rw [hother hj hji, Function.update_of_ne hji, h.size j hj]
  · have houtside : 1 * BSIZE + r < inodeOffset i := by
      rw [FsCheck.BSIZE] at hr ⊢
      rw [inodeOffset, inodestart_eq, FsCheck.BSIZE]
      omega
    have hlt : 1 * BSIZE + r < nmeta * BSIZE := by
      rw [nmeta_eq]
      rw [FsCheck.BSIZE] at hr ⊢
      omega
    rw [State.setInode_outside (.inl houtside), hhead _ hlt, h.superblock r hr]

theorem ialloc_run {type : ℕ} (hi : s.freeinode < slots) (hnone : c s.freeinode = [])
    (htype : type < 2 ^ 16) :
    ∃ s', ialloc type s = .ok (s.freeinode, s') ∧
      Holds s' (Function.update kind s.freeinode type) c ∧ s'.freeinode = s.freeinode + 1 ∧
      s'.freeblock = s.freeblock := by
  obtain ⟨s₁, hs₁⟩ : ∃ s₁, s₁ = { s with freeinode := s.freeinode + 1 } := ⟨_, rfl⟩
  obtain ⟨d, hd⟩ : ∃ d, d = { Dinode.zero with type, nlink := 1 } := ⟨_, rfl⟩
  have hwhole : s₁.Whole := hs₁ ▸ h.contents.blocks.whole
  have hwinode := winode_run hwhole hi d
  have hrun : ialloc type s = .ok (s.freeinode, s₁.setInode s.freeinode d) := by
    have hbind : ialloc type s =
        (do winode s.freeinode d; return s.freeinode : Formatter ℕ) s₁ := by
      rw [hd, hs₁]
      rfl
    exact hbind.trans (bind_of_ok hwinode)
  have hfits : d.Fits := by
    rw [hd]
    exact ⟨htype, Nat.two_pow_pos 16, Nat.two_pow_pos 16, Nat.one_lt_two_pow (by decide),
      Nat.two_pow_pos 32, fun _ ↦ Nat.two_pow_pos 32, fun _ _ ↦ rfl⟩
  have hsame : Function.update c s.freeinode [] = c := by rw [← hnone, Function.update_eq_self]
  have hcontents : Contents s₁ (Function.update s.table s.freeinode (s.table s.freeinode))
      (Function.update c s.freeinode []) := by
    rw [Function.update_eq_self, hsame, hs₁]
    exact Contents.congr (s := s) rfl rfl (fun _ _ ↦ rfl) (fun _ ↦ rfl) h.contents
  have haddrs : d.addrs = (s.table s.freeinode).addrs := by
    rw [State.table_of_lt hi, h.addrs_eq_zero hi hnone, hd]
    rfl
  have hholds := h.setInode hi (fun p _ ↦ by rw [hs₁]) hcontents hfits haddrs (by rw [hd]; rfl)
  rw [hsame] at hholds
  refine ⟨_, hrun, ?_, ?_, ?_⟩
  · rwa [hd] at hholds ⊢
  · rw [hs₁]
    rfl
  · rw [hs₁]
    rfl

/-- The call completes if and only if there is room for the data. -/
theorem iappend_completes (hi : i < slots) (hle : s.freeblock ≤ FSSIZE) (data : List UInt8) :
    Completes (iappend i data) s (Room s c i data) fun _ s' ↦
      Holds s' kind (Function.update c i (c i ++ data)) ∧ s'.freeinode = s.freeinode ∧
      s'.freeblock + blocksOf (c i).length = s.freeblock + blocksOf ((c i).length + data.length) := by
  have hsize := h.size i hi
  have hloop := h.contents.iappendLoop_completes hle i data
  rw [State.table_of_lt hi, ← hsize] at hloop
  refine .after (rinode_run h.contents.blocks.whole hi) ?_
  refine hloop.andThen fun hroom r s' ⟨hend, happended⟩ ↦ ?_
  have hself := happended.self
  have hfits := happended.fits
  rw [State.table_of_lt hi] at hself hfits
  have hlength : (s.inode i).size + data.length = (c i ++ data).length := by
    rw [hsize, List.length_append]
  have hbound : (s.inode i).size + data.length < 2 ^ 32 := by
    by_cases hdata : data = []
    · rw [hdata]
      exact (Dinode.fits_ofBytes _ _).size
    · have hmax := hroom.length hdata
      rw [MAXFILE_eq, FsCheck.BSIZE] at hmax
      omega
  have hsetSize : (r.1.setSize r.2).Fits := by
    have hf := hfits (Dinode.fits_ofBytes _ _)
    exact ⟨hf.type, hf.major, hf.minor, hf.nlink, by rwa [← hend] at hbound, hf.addrs, hf.tail⟩
  have hholds := h.setInode hi happended.head happended.contents hsetSize rfl (hend.trans hlength)
  have htype : (r.1.setSize r.2).type = kind i := by
    rw [← h.type i hi, hself]
    rfl
  rw [htype, Function.update_eq_self] at hholds
  refine ⟨(), _, winode_run happended.contents.blocks.whole hi _, hholds, happended.freeinode, ?_⟩
  rw [← happended.freeblock]
  rfl

end Holds

end CS537.Mkfs
