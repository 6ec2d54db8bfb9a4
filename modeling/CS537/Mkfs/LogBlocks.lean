import CS537.Mkfs.Checked

/-!
# The log of a new image

The formatter writes zeroes to the blocks of the log and leaves them so: it writes the super block before
them, and the inodes, the bitmap and the data behind them.
-/

namespace CS537.Mkfs

open Foundation
open FsCheck (BSIZE sizeofDinode ROOTINO)

/-- The blocks of the log are zero. -/
def State.LogZero (s : State) : Prop := ∀ p, 2 * BSIZE ≤ p → p < inodestart * BSIZE → s.bytes p = 0

/-- The image holds some data, the next inode is `n`, and the log is zero. -/
structure Formatting (n : ℕ) (s : State) : Prop where
  holds : ∃ kind c, Holds s kind c ∧ ∀ j, n ≤ j → c j = []
  freeblock_le : s.freeblock ≤ FSSIZE
  freeinode : s.freeinode = n
  logZero : s.LogZero

variable {s t : State} {i n : ℕ} {files : List HostFile}

theorem State.LogZero.of_bytes (h : s.LogZero) (hbytes : ∀ p < inodestart * BSIZE, t.bytes p = s.bytes p) :
    t.LogZero := fun p hp hlt ↦ (hbytes p hlt).trans (h p hp hlt)

theorem bytes_setInode (d : Dinode) {p : ℕ} (hp : p < inodestart * BSIZE) :
    (s.setInode i d).bytes p = s.bytes p :=
  State.setInode_outside (.inl (hp.trans_le (Nat.le_add_right _ _)))

namespace Formatting

theorem iappend (hi : i < n) (hn : n ≤ slots) (data : List UInt8) :
    Ensures (Formatting n) (iappend i data) fun _ ↦ Formatting n := by
  rintro s ⟨⟩ t ⟨⟨kind, c, hholds, hempty⟩, hle, hinode, hzero⟩ hrun
  have hslot : i < slots := hi.trans_le hn
  have hwhole := hholds.contents.blocks.whole
  obtain ⟨hroom, hholds', hinode', hblock⟩ := (hholds.iappend_completes hslot hle data).of_run hrun
  refine ⟨⟨kind, _, hholds', fun j hj ↦ ?_⟩, ?_, hinode'.trans hinode, ?_⟩
  · rw [Function.update_of_ne (Nat.ne_of_gt (hi.trans_le hj)), hempty j hj]
  · have hblocks := hroom.blocks
    omega
  · obtain ⟨d, u, hread, hrest⟩ := exists_of_bind_ok hrun
    rw [rinode_run hwhole hslot] at hread
    obtain ⟨rfl, rfl⟩ := Prod.mk.inj (Except.ok.inj hread)
    obtain ⟨⟨d, off⟩, u, hloop, hwrite⟩ := exists_of_bind_ok hrest
    have hcompletes := hholds.contents.iappendLoop_completes hle i data
    rw [State.table_of_lt hslot, ← hholds.size i hslot] at hcompletes
    obtain ⟨-, -, happended⟩ := hcompletes.of_run hloop
    have hwrite' := (winode_run happended.contents.blocks.whole hslot _).symm.trans hwrite
    obtain ⟨-, rfl⟩ := Prod.mk.inj (Except.ok.inj hwrite')
    have hmeta : inodestart * BSIZE ≤ nmeta * BSIZE := by decide
    exact hzero.of_bytes fun p hp ↦ (bytes_setInode _ hp).trans (happended.head p (hp.trans_le hmeta))

theorem ialloc {type : ℕ} (hn : n < slots) (htype : type < 2 ^ 16) :
    Ensures (Formatting n) (ialloc type) fun inum s ↦ inum = n ∧ Formatting (n + 1) s := by
  rintro s inum t ⟨⟨kind, c, hholds, hempty⟩, hle, rfl, hzero⟩ hrun
  obtain ⟨u, hrun', hholds', hinode, hblock⟩ := hholds.ialloc_run hn (hempty _ le_rfl) htype
  obtain ⟨rfl, rfl⟩ := Prod.mk.inj (Except.ok.inj (hrun.symm.trans hrun'))
  refine ⟨rfl, ⟨_, c, hholds', fun j hj ↦ hempty j (Nat.le_of_succ_le hj)⟩, hblock ▸ hle, hinode, ?_⟩
  obtain ⟨w, hw⟩ : ∃ w, w = { s with freeinode := s.freeinode + 1 } := ⟨_, rfl⟩
  have hwhole : w.Whole := hw ▸ hholds.contents.blocks.whole
  have hwrite : (do
      winode s.freeinode { Dinode.zero with type, nlink := 1 }
      return s.freeinode : Formatter ℕ) w = .ok (s.freeinode, t) := hw ▸ hrun
  rw [bind_of_ok (winode_run hwhole hn _)] at hwrite
  obtain ⟨-, rfl⟩ := Prod.mk.inj (Except.ok.inj hwrite)
  exact hzero.of_bytes fun p hp ↦ (bytes_setInode _ hp).trans (by rw [hw])

theorem forM {α : Type} {g : α → Formatter Unit} (l : List α)
    (hg : ∀ x ∈ l, Ensures (Formatting n) (g x) fun _ ↦ Formatting n) :
    Ensures (Formatting n) (l.forM g) fun _ ↦ Formatting n := by
  induction l with
  | nil => exact Ensures.pure fun _ ↦ id
  | cons x l ih =>
    exact (hg x List.mem_cons_self).bind fun _ ↦ ih fun y hy ↦ hg y (List.mem_cons_of_mem x hy)

theorem addFile (hroot : ROOTINO < n) (hn : n < slots) (file : HostFile) :
    Ensures (Formatting n) (addFile ROOTINO file) fun _ ↦ Formatting (n + 1) := by
  have hassert : Ensures (Formatting n) (assert (slash ∉ file.name)) fun _ ↦ Formatting n := by
    rw [assert]
    split
    · exact Ensures.pure fun _ ↦ id
    · exact Ensures.throw _
  rw [addFile_eq]
  refine hassert.bind fun _ ↦ (ialloc hn (by decide)).bind fun inum ↦ .of_fact fun hinum ↦ ?_
  subst hinum
  exact (iappend (hroot.trans (Nat.lt_succ_self _)) hn _).bind fun _ ↦
    forM _ fun buf _ ↦ iappend (Nat.lt_succ_self _) hn buf

theorem addFiles (hroot : ROOTINO < n) (hn : n + files.length ≤ slots) :
    Ensures (Formatting n) (files.forM fun file ↦ Mkfs.addFile ROOTINO file)
      fun _ ↦ Formatting (n + files.length) := by
  induction files generalizing n with
  | nil => exact Ensures.pure fun _ ↦ id
  | cons file files ih =>
    rw [List.length_cons] at hn
    have hrest := ih (hroot.trans (Nat.lt_succ_self n)) (by omega)
    rw [Nat.succ_add_eq_add_succ] at hrest
    exact (addFile hroot (by omega) file).bind fun _ ↦ hrest

theorem finish (hroot : ROOTINO < slots) (h : Formatting n s) (hrun : finish ROOTINO s = .ok ((), t)) :
    t.LogZero := by
  obtain ⟨kind, c, hholds, -⟩ := h.holds
  have hwhole := hholds.contents.blocks.whole
  obtain ⟨d, u, hread, hrest⟩ := exists_of_bind_ok hrun
  rw [rinode_run hwhole hroot] at hread
  obtain ⟨rfl, rfl⟩ := Prod.mk.inj (Except.ok.inj hread)
  obtain ⟨⟨⟩, u, hwrite, hrest⟩ := exists_of_bind_ok hrest
  rw [winode_run hwhole hroot] at hwrite
  obtain ⟨-, rfl⟩ := Prod.mk.inj (Except.ok.inj hwrite)
  obtain ⟨r, u, hget, hrest⟩ := exists_of_bind_ok hrest
  obtain ⟨rfl, rfl⟩ := Prod.mk.inj (Except.ok.inj hget)
  have hballoc := (balloc_run (s := s.setInode ROOTINO _) hwhole h.freeblock_le).symm.trans hrest
  obtain ⟨-, rfl⟩ := Prod.mk.inj (Except.ok.inj hballoc)
  have hmap : inodestart * BSIZE ≤ bmapstart * BSIZE := by decide
  exact h.logZero.of_bytes fun p hp ↦
    (State.setSector_outside _ (.inl (hp.trans_le hmap))).trans (bytes_setInode _ hp)

end Formatting

theorem formatting_empty : Formatting 1 .empty where
  holds := ⟨_, _, empty_holds, fun _ _ ↦ rfl⟩
  freeblock_le := by decide
  freeinode := rfl
  logZero _ hp _ := State.setSector_outside sbSector (.inr hp)

/-- The blocks of the log are zero in the image. -/
theorem mkfs_log_zero {img : FsCheck.Image} (hinodes : files.length + 1 < NINODES)
    (hrun : mkfs files = .ok img) {p : ℕ} (hp : 2 * BSIZE ≤ p) (hlt : p < inodestart * BSIZE) :
    img.bytes p = 0 := by
  obtain ⟨s, hmain, rfl⟩ := mkfs_eq_ok_iff.mp hrun
  have hzeroes := zeroes_run 0 FSSIZE
  rw [← List.range_eq_range', Nat.zero_add] at hzeroes
  have hstart : State.zeroed 0 = .start := rfl
  rw [hstart] at hzeroes
  have hsb : wsect 1 sbSector (.zeroed FSSIZE) = .ok ((), .empty) := wsect_run _ rfl (by decide)
  rw [main_eq, bind_of_ok hzeroes, bind_of_ok hsb] at hmain
  have hroot : Ensures (Formatting 1) (ialloc T_DIR) fun inum s ↦ inum = ROOTINO ∧ Formatting 2 s :=
    Formatting.ialloc (by decide) (by decide)
  obtain ⟨inum, s₁, hialloc, hmain⟩ := exists_of_bind_ok hmain
  obtain ⟨rfl, h₁⟩ := hroot _ _ _ formatting_empty hialloc
  rw [bind_of_ok (assert_true rfl s₁)] at hmain
  obtain ⟨⟨⟩, s₂, hdot, hmain⟩ := exists_of_bind_ok hmain
  obtain ⟨⟨⟩, s₃, hdotdot, hmain⟩ := exists_of_bind_ok hmain
  obtain ⟨⟨⟩, s₄, hfiles, hfinish⟩ := exists_of_bind_ok hmain
  have h₂ := Formatting.iappend (n := 2) (by decide) (by decide) _ _ _ _ h₁ hdot
  have h₃ := Formatting.iappend (n := 2) (by decide) (by decide) _ _ _ _ h₂ hdotdot
  have hslots : 2 + files.length ≤ slots := by
    rw [NINODES] at hinodes
    rw [slots_eq]
    omega
  exact (Formatting.addFiles (by decide) hslots _ _ _ h₃ hfiles).finish (by decide) hfinish p hp hlt

end CS537.Mkfs
