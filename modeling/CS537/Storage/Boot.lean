import CS537.Storage.Refinement
import CS537.Mkfs.Checked

/-!
# The disk of the formatter

The kernel starts with the image that the formatter has written: `readsb` reads the layout, no inode is
in memory and no block has been logged.  Unless the entries of the root directory fill its last block,
the disk holds the root directory and the host files.
-/

namespace CS537.Storage

open Foundation Log
open FileSystem (Inum InodeType Inode FsState Fault)
open FsCheck (BSIZE NDIRECT NINDIRECT IPB BPB ROOTINO sizeofInt sizeofDirent sizeofDinode)
open Mkfs (Dinode HostFile MAXFILE FSSIZE NINODES byteOf uintAt ushortAt uintAt_of_bytes rootData kinds datas
  Finished Fitting slots)

/-- `readsb` on the data of block 1. -/
def readsb (data : Block) : SuperBlock where
  size := uintAt data 0
  ninodes := uintAt data 8
  inodestart := uintAt data 20
  bmapstart := uintAt data 24

/-- The disk when the kernel starts. -/
def Volume.ofImage (img : FsCheck.Image) : Volume where
  block b r := img.bytes (b * BSIZE + r)
  icache _ := Dinode.zero
  valid _ := false
  logged := []

/-- The inode cache when the kernel starts. -/
def Cache.boot (img : FsCheck.Image) : Cache := ⟨.ofImage img, 0, ∅⟩

/-- The layout of the formatter. -/
def layout : SuperBlock := ⟨FSSIZE, NINODES, Mkfs.inodestart, Mkfs.bmapstart⟩

theorem laid_layout : layout.Laid := ⟨by decide, by decide, by decide⟩

/-- The content of the root directory, whose size is rounded up. -/
def rootContent (files : List HostFile) : List UInt8 :=
  rootData files ++ List.replicate (BSIZE - (rootData files).length % BSIZE) 0

/-- The content of the inodes. -/
def formatted (files : List HostFile) (j : ℕ) : List UInt8 :=
  if j = ROOTINO then rootContent files else datas files j

variable {s : Mkfs.State} {files : List HostFile} {img : FsCheck.Image} {i j k m : ℕ}

theorem length_rootContent (files : List HostFile) :
    (rootContent files).length = ((rootData files).length / BSIZE + 1) * BSIZE := by
  have hmod : (rootData files).length % BSIZE < BSIZE := Nat.mod_lt _ (by decide)
  rw [rootContent, List.length_append, List.length_replicate]
  have hdiv := Nat.div_add_mod (rootData files).length BSIZE
  rw [Nat.add_mul, Nat.one_mul, Nat.mul_comm]
  omega

theorem getD_rootContent (files : List HostFile) (p : ℕ) :
    (rootContent files).getD p 0 = (rootData files).getD p 0 := by
  by_cases hp : p < (rootData files).length
  · rw [rootContent, List.getD_append _ _ _ _ hp]
  · rw [rootContent, List.getD_append_right _ _ _ _ (Nat.le_of_not_lt hp),
      List.getD_eq_default (rootData files) _ (Nat.le_of_not_lt hp), List.getD_eq_getElem?_getD,
      List.getElem?_replicate]
    split <;> rfl

theorem ofBytes_shift (buf : ℕ → UInt8) (a off : ℕ) :
    Dinode.ofBytes (fun r ↦ buf (a + r)) off = .ofBytes buf (a + off) := by
  simp only [Dinode.ofBytes, ushortAt, uintAt, Nat.add_assoc]

theorem iblock_mul_add_slot (j : ℕ) : layout.iblock j * BSIZE + slot j = Mkfs.inodeOffset j := by
  have hinodestart : layout.inodestart = 32 := rfl
  have hIPB : IPB = 8 := rfl
  rw [SuperBlock.iblock, slot, Mkfs.inodeOffset, Mkfs.inodestart_eq, hinodestart, hIPB, sizeofDinode,
    FsCheck.BSIZE]
  omega

theorem datas_behind (hinodes : files.length + 1 < NINODES) (hj : NINODES ≤ j) : datas files j = [] :=
  not_not.mp (mt Mkfs.inUse_of_datas fun hlt ↦
    absurd ((Nat.le_of_lt_succ hlt.2).trans_lt hinodes) (Nat.not_lt.mpr hj))

theorem dinode_image (hj : j < NINODES) : (Volume.ofImage s.image).dinode layout j = s.table j := by
  have hslots : j < slots := hj.trans (by decide)
  rw [Volume.dinode, Mkfs.State.table_of_lt hslots]
  refine (if_pos hj).trans ((ofBytes_shift s.bytes _ _).trans ?_)
  rw [iblock_mul_add_slot]
  rfl

theorem address_ofImage (s : Mkfs.State) (d : Dinode) (k : ℕ) :
    (Volume.ofImage s.image).address d k = s.address d k := by
  have hentry (b m : ℕ) : (Volume.ofImage s.image).entry b m = s.entry b m :=
    Mkfs.uintAt_shift s.bytes (b * BSIZE) (sizeofInt * m)
  simp only [Volume.address, Mkfs.State.address, hentry]

section Finished

variable (h : Finished files s)
include h

/-- The fields of the superblock. -/
theorem superblock_image {k : ℕ} (hk : k < 7) :
    uintAt ((Volume.ofImage s.image).block 1) (sizeofInt * k) = Mkfs.sb.getD k 0 := by
  have hlt : ∀ k < 7, Mkfs.sb.getD k 0 < 2 ^ 32 := by decide
  refine uintAt_of_bytes (hlt k hk) fun r hr ↦ ?_
  have hinside : sizeofInt * k + r < BSIZE := by
    rw [sizeofInt, FsCheck.BSIZE]
    omega
  have hdiv : (sizeofInt * k + r) / sizeofInt = k := by
    rw [sizeofInt]
    omega
  have hmod : (sizeofInt * k + r) % sizeofInt = r := by
    rw [sizeofInt]
    omega
  have hread := h.superblock (sizeofInt * k + r) hinside
  rw [Mkfs.sbSector, hdiv, hmod] at hread
  exact hread

theorem readsb_image : readsb ((Volume.ofImage s.image).block 1) = layout := by
  simp only [readsb, layout, SuperBlock.mk.injEq]
  exact ⟨superblock_image h (k := 0) (by decide), superblock_image h (k := 2) (by decide),
    superblock_image h (k := 5) (by decide), superblock_image h (k := 6) (by decide)⟩

/-- Inodes that the kernel does not use have no blocks. -/
theorem address_image (hinodes : files.length + 1 < NINODES) (j m : ℕ) :
    (Volume.ofImage s.image).address ((Volume.ofImage s.image).dinode layout j) m =
      s.address (s.table j) m := by
  by_cases hj : j < NINODES
  · rw [dinode_image hj, address_ofImage]
  · have hnone := datas_behind hinodes (Nat.le_of_not_lt hj)
    have hzero : (Volume.ofImage s.image).dinode layout j = .zero := if_neg hj
    rw [hzero, Volume.address_none fun _ _ ↦ rfl]
    by_contra hne
    rcases Nat.lt_trichotomy m MAXFILE with hm | rfl | hm
    · have hdata := (h.contents.data j m hm).mp fun heq ↦ hne heq.symm
      rw [hnone] at hdata
      exact Nat.not_lt_zero _ hdata
    · have hindirect := (h.contents.indirect j).mp fun heq ↦ hne heq.symm
      rw [hnone] at hindirect
      exact Nat.not_lt_zero _ hindirect
    · exact hne (Mkfs.State.address_behind _ _ hm).symm

theorem marked_image {b : ℕ} (hb : b < layout.size) :
    (Volume.ofImage s.image).Marked layout b ↔ b < s.freeblock := by
  have hsize : layout.size = 1000 := rfl
  have hBPB : BPB = 4096 := rfl
  rw [hsize] at hb
  have hblock : layout.bblock b = Mkfs.bmapstart := by
    have hstart : layout.bmapstart = Mkfs.bmapstart := rfl
    rw [SuperBlock.bblock, hstart, hBPB]
    omega
  have hmod : b % BPB = b := by
    rw [hBPB]
    omega
  have hbyte : (Volume.ofImage s.image).block Mkfs.bmapstart (b / 8) = Mkfs.bitmap s.freeblock (b / 8) := by
    refine h.bitmap (b / 8) ?_
    rw [FsCheck.BSIZE]
    omega
  rw [Volume.Marked, bit, hblock, hmod, hbyte, Mkfs.testBit_bitmap _ _ (Nat.mod_lt b (by decide)),
    decide_eq_true_eq, Nat.div_add_mod]

theorem type_image (hinodes : files.length + 1 < NINODES) (j : ℕ) :
    ((Volume.ofImage s.image).dinode layout j).type = kinds files j := by
  by_cases hj : j < NINODES
  · have hslots : j < slots := hj.trans (by decide)
    rw [dinode_image hj, Mkfs.State.table_of_lt hslots, h.type j hslots]
  · have hzero : (Volume.ofImage s.image).dinode layout j = .zero := if_neg hj
    have hunused : ¬(1 ≤ j ∧ j < files.length + 2) := fun hlt ↦
      hj ((Nat.le_of_lt_succ hlt.2).trans_lt hinodes)
    rw [hzero, not_not.mp (mt (Mkfs.kinds_ne_zero_iff files j).mp hunused)]
    rfl

omit h in
/-- The rounding does not add a block where the entries do not fill the last one. -/
theorem lt_length_formatted (hroot : ¬32 ∣ files.length + 2) (j m : ℕ) :
    m * BSIZE < (formatted files j).length ↔ m * BSIZE < (datas files j).length := by
  rw [formatted]
  by_cases hj : j = ROOTINO
  · have hlength := Mkfs.length_rootData files
    have hdatas : datas files j = rootData files := by rw [hj, Mkfs.datas_root]
    rw [if_pos hj, length_rootContent, hdatas, hlength, sizeofDirent, FsCheck.BSIZE]
    omega
  · rw [if_neg hj]

omit h in
theorem getD_formatted (files : List HostFile) (j p : ℕ) :
    (formatted files j).getD p 0 = (datas files j).getD p 0 := by
  rw [formatted]
  by_cases hj : j = ROOTINO
  · rw [if_pos hj, getD_rootContent, hj, Mkfs.datas_root]
  · rw [if_neg hj]

omit h in
theorem length_formatted_le (hfit : Fitting files) (hinodes : files.length + 1 < NINODES) (j : ℕ) :
    (formatted files j).length ≤ MAXFILE * BSIZE := by
  have hmax : MAXFILE * BSIZE = 71680 := rfl
  rw [formatted]
  by_cases hj : j = ROOTINO
  · rw [if_pos hj, length_rootContent, Mkfs.length_rootData, hmax, sizeofDirent, FsCheck.BSIZE]
    rw [NINODES] at hinodes
    omega
  · rw [if_neg hj]
    exact Mkfs.length_datas_le hfit hinodes j

section Boot

variable (hfit : Fitting files) (hinodes : files.length + 1 < NINODES) (hroot : ¬32 ∣ files.length + 2)
include hfit hinodes hroot

theorem contents_image : Contents layout (Volume.ofImage s.image) ((Volume.ofImage s.image).dinode layout)
    (formatted files) := by
  have hblocks := h.contents.blocks
  have haddress := address_image h hinodes
  have hle : s.freeblock ≤ layout.size := h.freeblock_le hfit
  refine ⟨⟨hblocks.assigned.pos, fun v hv ↦ ?_, fun v w hv hvw ↦ ?_, fun b hb ↦ ?_⟩, fun j m hm ↦ ?_,
    fun j ↦ ?_, fun j p hp ↦ ?_, length_formatted_le hfit hinodes⟩
  · rw [haddress] at hv ⊢
    have hrange := hblocks.assigned.range v hv
    exact ⟨hrange.1, hrange.2.trans_le hle⟩
  · rw [haddress] at hv
    rw [haddress, haddress] at hvw
    exact hblocks.assigned.injective v w hv hvw
  · rw [marked_image h hb]
    constructor
    · intro hlt
      by_cases hmeta : b < layout.nmeta
      · exact .inl hmeta
      · obtain ⟨v, hv⟩ := hblocks.assigned.surjective b (Nat.le_of_not_lt hmeta) hlt
        exact .inr ⟨v, (haddress v.1 v.2).trans hv⟩
    · rintro (hmeta | ⟨v, hv⟩)
      · exact hmeta.trans_le hblocks.assigned.le
      · rw [haddress] at hv
        by_cases hzero : b = 0
        · rw [hzero]
          exact hblocks.assigned.pos.trans_le hblocks.assigned.le
        · rw [← hv] at hzero ⊢
          exact (hblocks.assigned.range v hzero).2
  · rw [haddress, lt_length_formatted hroot]
    exact h.contents.data j m hm
  · rw [haddress, lt_length_formatted hroot]
    exact h.contents.indirect j
  · rw [getD_formatted, ← h.contents.byte j p hp, Volume.byteAt, haddress, Mkfs.State.byteAt]
    rfl

theorem consistent_image : Consistent layout (Volume.ofImage s.image) (formatted files) where
  contents := contents_image h hfit hinodes hroot
  size j := by
    by_cases hj : j < NINODES
    · have hslots : j < slots := hj.trans (by decide)
      rw [dinode_image hj, Mkfs.State.table_of_lt hslots, h.size j hslots, formatted]
      by_cases hjr : j = ROOTINO
      · rw [if_pos hjr, if_pos hjr, length_rootContent]
      · rw [if_neg hjr, if_neg hjr]
    · have hjr : j ≠ ROOTINO := fun heq ↦ hj (heq ▸ by decide)
      have hzero : (Volume.ofImage s.image).dinode layout j = .zero := if_neg hj
      rw [hzero, formatted, if_neg hjr, datas_behind hinodes (Nat.le_of_not_lt hj)]
      rfl
  free j htype := by
    rw [type_image h hinodes] at htype
    have hunused := mt (Mkfs.kinds_ne_zero_iff files j).mpr (not_not.mpr htype)
    have hjr : j ≠ ROOTINO := fun heq ↦ hunused (by rw [heq, FsCheck.ROOTINO]; omega)
    rw [formatted, if_neg hjr]
    exact not_not.mp (mt Mkfs.inUse_of_datas hunused)
  cached j hj := by cases hj

end Boot

end Finished

/-! ## The files of the formatter -/

/-- The types of the inodes. -/
def bootType (files : List HostFile) (i : Inum) : InodeType :=
  if (i : ℕ) = ROOTINO then .dir else if 2 ≤ (i : ℕ) ∧ (i : ℕ) < files.length + 2 then .file else .free

theorem typeCode_bootType (files : List HostFile) (i : Inum) : typeCode (bootType files i) = kinds files i := by
  rw [bootType, kinds]
  split_ifs <;> rfl

/-- The files on the disk when the kernel starts. -/
structure BootFiles (files : List HostFile) (fs : FsState) : Prop where
  type : ∀ i, (fs.inode i).type = bootType files i
  content : ∀ i : Inum, (fs.inode i).content = formatted files i
  refs : fs.refs = 0
  locks : fs.locks = ∅

/-- The content of a host file. -/
theorem formatted_file (hk : k < files.length) : formatted files (k + 2) = files[k].content := by
  have hroot : k + 2 ≠ ROOTINO := by
    rw [FsCheck.ROOTINO]
    omega
  rw [formatted, if_neg hroot, datas, if_neg hroot, if_pos (by omega), Nat.add_sub_cancel,
    List.getD_eq_getElem _ _ (by rwa [List.length_map]), List.getElem_map]

theorem represents_boot (hinodes : files.length + 1 < NINODES) (hroot : ¬32 ∣ files.length + 2)
    (hrun : Mkfs.mkfs files = .ok img) : ∃ fs, BootFiles files fs ∧ Represents layout (.boot img) fs := by
  obtain ⟨s, rfl, hfit, h⟩ := Mkfs.exists_of_mkfs hinodes hrun
  have hconsistent := consistent_image h hfit hinodes hroot
  obtain ⟨inode, hinode⟩ : ∃ inode : Inum → Inode, inode = fun i ↦ {
      type := bootType files i
      nlink := ((Volume.ofImage s.image).dinode layout i).nlink
      content := formatted files i
      size_le := length_formatted_le hfit hinodes i } := ⟨_, rfl⟩
  have hcontents : contents inode = formatted files := by
    funext j
    rw [contents, hinode]
    by_cases hj : j < 65536
    · rw [dif_pos hj]
    · have hge : NINODES ≤ j := le_trans (by decide) (Nat.le_of_not_lt hj)
      have hjr : j ≠ ROOTINO := fun heq ↦ hj (heq ▸ by decide)
      rw [dif_neg hj, formatted, if_neg hjr, datas_behind hinodes hge]
  refine ⟨⟨inode, 0, fun _ ↦ false, ∅, false, FileSystem.ROOTINO⟩, ⟨?_, ?_, rfl, rfl⟩, ⟨?_, ?_, ?_⟩,
    fun _ ↦ rfl, rfl, rfl, ?_, ?_⟩
  · exact fun i ↦ by rw [hinode]
  · exact fun i ↦ by rw [hinode]
  · rw [hcontents]
    exact hconsistent
  · exact fun i ↦ by rw [hinode, typeCode_bootType]; exact type_image h hinodes i
  · exact fun i ↦ by rw [hinode]; rfl
  · exact fun i hi ↦ absurd hi (Nat.not_lt_zero _)
  · exact fun i hi ↦ absurd hi (Finset.notMem_empty i)

theorem readsb_mkfs (hinodes : files.length + 1 < NINODES) (hrun : Mkfs.mkfs files = .ok img) :
    readsb ((Volume.ofImage img).block 1) = layout := by
  obtain ⟨s, rfl, -, h⟩ := Mkfs.exists_of_mkfs hinodes hrun
  exact readsb_image h

/-- A file of two bytes. -/
theorem exists_oneFile : ∃ img, Mkfs.mkfs [⟨[97], [104, 105]⟩] = .ok img := by
  refine (Mkfs.mkfs_completes_iff (by decide)).mpr ⟨fun file hfile ↦ ?_, fun file hfile ↦ ?_, by decide⟩
  · rw [List.mem_singleton.mp hfile]
    decide
  · rw [List.mem_singleton.mp hfile]
    decide

end CS537.Storage
