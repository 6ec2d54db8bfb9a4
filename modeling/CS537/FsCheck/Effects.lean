import CS537.FsCheck.Checker
import CS537.Foundation.Loops

/-!
# What the functions of the checker do

For each function that fills an array: when it is free of faults, and what it adds to the array.
-/

namespace CS537.FsCheck

open Foundation

/-! ## The blocks of an inode -/

/-- The numbers of a table that are not zero. -/
def nonzero (n : ℕ) (g : ℕ → ℤ) : List ℤ := ((List.range n).map g).filter (· ≠ 0)

theorem mem_nonzero {n : ℕ} {g : ℕ → ℤ} {b : ℤ} :
    b ∈ nonzero n g ↔ ∃ i < n, g i = b ∧ b ≠ 0 := by
  simp only [nonzero, List.mem_filter, List.mem_map, List.mem_range, decide_eq_true_eq]
  constructor
  · rintro ⟨⟨i, hi, rfl⟩, hb⟩
    exact ⟨i, hi, rfl, hb⟩
  · rintro ⟨i, hi, rfl, hb⟩
    exact ⟨⟨i, hi, rfl⟩, hb⟩

/-- The data blocks that the inode refers to itself. -/
def Dinode.directBlocks (inode : Dinode) : List ℤ := nonzero NDIRECT inode.addrs

namespace Image

variable (img : Image) (inode : Dinode)

/-- The numbers in the indirect block. -/
def indirectAt (i : ℕ) : ℤ :=
  img.int32At (blockOffset (inode.addrs NDIRECT) + sizeofInt * i)

def indirectBlocks : List ℤ :=
  if inode.addrs NDIRECT = 0 then [] else nonzero NINDIRECT (img.indirectAt inode)

/-- The blocks that hold the data of the inode. -/
def dataBlocks : List ℤ := inode.directBlocks ++ img.indirectBlocks inode

/-- All blocks of the inode, the indirect block among them. -/
def blocks : List ℤ :=
  inode.directBlocks ++ ((if inode.addrs NDIRECT = 0 then [] else [inode.addrs NDIRECT]) ++
    img.indirectBlocks inode)

/-- The indirect block, if there is one, can be read. -/
def IndirectReadable : Prop :=
  inode.addrs NDIRECT ≠ 0 → inode.addrs NDIRECT * BSIZE < intBound ∧
    blockOffset (inode.addrs NDIRECT) + BSIZE ≤ img.length

/-- The blocks of the inode have places in an array of the given length. -/
def BlocksInside (nblocks : ℤ) : Prop :=
  (∀ b ∈ img.blocks inode, 0 ≤ b ∧ b < nblocks) ∧ img.IndirectReadable inode

end Image

/-! ## Single steps -/

namespace Arrays

variable (s : Arrays)

def useBlock (b : ℤ) : Arrays := { s with dataUse := Function.update s.dataUse b.toNat true }

def useInode (i : ℤ) : Arrays := { s with inodeUse := Function.update s.inodeUse i.toNat true }

def referTo (i : ℤ) : Arrays := { s with dirInode := Function.update s.dirInode i.toNat true }

def useBlocks (l : List ℤ) : Arrays := l.foldl useBlock s

theorem useBlock_iff (b : ℤ) (k : ℕ) :
    (s.useBlock b).dataUse k = true ↔ s.dataUse k = true ∨ b.toNat = k := by
  by_cases h : k = b.toNat
  · simp [useBlock, h]
  · simp [useBlock, Function.update_of_ne h, Ne.symm h]

theorem useInode_iff (i : ℤ) (k : ℕ) :
    (s.useInode i).inodeUse k = true ↔ s.inodeUse k = true ∨ i.toNat = k := by
  by_cases h : k = i.toNat
  · simp [useInode, h]
  · simp [useInode, Function.update_of_ne h, Ne.symm h]

theorem referTo_iff (i : ℤ) (k : ℕ) :
    (s.referTo i).dirInode k = true ↔ s.dirInode k = true ∨ i.toNat = k := by
  by_cases h : k = i.toNat
  · simp [referTo, h]
  · simp [referTo, Function.update_of_ne h, Ne.symm h]

theorem useBlocks_iff (l : List ℤ) (k : ℕ) :
    (s.useBlocks l).dataUse k = true ↔ s.dataUse k = true ∨ ∃ b ∈ l, b.toNat = k := by
  have hstep : ∀ b ∈ l, ∀ s : Arrays,
      (s.useBlock b).dataUse k = true ↔ s.dataUse k = true ∨ b.toNat = k :=
    fun b _ s ↦ s.useBlock_iff b k
  exact foldl_iff (p := fun s ↦ Arrays.dataUse s k = true) hstep s

theorem useBlocks_keeps {γ : Type} {g : Arrays → γ} (h : ∀ b s, g (useBlock s b) = g s)
    (l : List ℤ) : g (s.useBlocks l) = g s :=
  foldl_keeps (fun b _ s ↦ h b s) s

end Arrays

section Steps

variable (img : Image) (sb : Superblock)

theorem read_acts {σ α : Type} (off n : ℕ) (value : α) :
    Acts (img.read off n value : Program σ Stop α) (off + n ≤ img.length) value id .fault :=
  .require

theorem blockPtr_acts {σ : Type} (n : ℤ) :
    Acts (blockPtr n : Program σ Stop ℕ) (0 ≤ n ∧ n * BSIZE < intBound) (blockOffset n) id .fault :=
  .require

theorem index_acts (length i : ℤ) :
    Acts (index length i) (0 ≤ i ∧ i < length) i.toNat id .fault :=
  .require

theorem setDataUse_acts (i : ℤ) :
    Acts (setDataUse sb i) (0 ≤ i ∧ i < sb.nblocks) () (·.useBlock i) .fault :=
  Acts.congr ((index_acts sb.nblocks i).andThen (.modify _)) .rfl fun _ ↦ rfl

theorem setInodeUse_acts (i : ℤ) :
    Acts (setInodeUse sb i) (0 ≤ i ∧ i < sb.ninodes) () (·.useInode i) .fault :=
  Acts.congr ((index_acts sb.ninodes i).andThen (.modify _)) .rfl fun _ ↦ rfl

theorem setDirInode_acts (i : ℤ) :
    Acts (setDirInode sb i) (0 ≤ i ∧ i < sb.ninodes) () (·.referTo i) .fault :=
  Acts.congr ((index_acts sb.ninodes i).andThen (.modify _)) .rfl fun _ ↦ rfl

theorem countBlock_acts (numB : ℕ) (addr : ℤ) :
    Acts (countBlock sb numB addr) (addr ≠ 0 → 0 ≤ addr ∧ addr < sb.nblocks)
      (if addr ≠ 0 then numB + 1 else numB) (fun s ↦ if addr ≠ 0 then s.useBlock addr else s)
      .fault := by
  by_cases h : addr ≠ 0
  · simp only [countBlock, if_pos h]
    exact Acts.congr ((setDataUse_acts sb addr).andThen (.pure _)) (forall_prop_of_true h)
      fun _ ↦ rfl
  · simp only [countBlock, if_neg h]
    exact Acts.congr (.pure numB) (iff_true_intro fun h' ↦ absurd h' h) fun _ ↦ rfl

end Steps

/-! ## The blocks of an inode are marked and counted -/

section Blocks

variable (img : Image) (sb : Superblock)

theorem foldl_count {α : Type} (l : List α) (n : ℕ) : l.foldl (fun n _ ↦ n + 1) n = n + l.length := by
  induction l generalizing n with
  | nil => rfl
  | cons a l ih =>
    rw [List.foldl_cons, ih, List.length_cons]
    omega

/-- A loop that counts and marks the numbers of a table. -/
theorem countLoop_acts {step : ℕ → ℕ → Checker ℕ} {ok : ℕ → Prop} {g : ℕ → ℤ} {n : ℕ}
    (h : ∀ i < n, ∀ numB, Acts (step numB i) (ok i ∧ (g i ≠ 0 → 0 ≤ g i ∧ g i < sb.nblocks))
      (if g i ≠ 0 then numB + 1 else numB) (fun s ↦ if g i ≠ 0 then s.useBlock (g i) else s) .fault)
    (numB : ℕ) :
    Acts ((List.range n).foldlM step numB)
      ((∀ i < n, ok i) ∧ ∀ b ∈ nonzero n g, 0 ≤ b ∧ b < sb.nblocks)
      (numB + (nonzero n g).length) (·.useBlocks (nonzero n g)) .fault := by
  have hloop := Acts.foldlM (fun i hi ↦ h i (List.mem_range.mp hi)) numB
  have hcount : (List.range n).foldl (fun numB i ↦ if g i ≠ 0 then numB + 1 else numB) numB =
      numB + (nonzero n g).length := by
    rw [← foldl_count, nonzero, List.foldl_filter, List.foldl_map]
    simp
  rw [hcount] at hloop
  refine Acts.congr hloop ?_ fun s ↦ ?_
  · simp only [List.mem_range, mem_nonzero]
    constructor
    · rintro ⟨hok, hb⟩ i hi
      exact ⟨hok i hi, fun hne ↦ hb _ ⟨i, hi, rfl, hne⟩⟩
    · intro hall
      refine ⟨fun i hi ↦ (hall i hi).1, ?_⟩
      rintro b ⟨i, hi, rfl, hne⟩
      exact (hall i hi).2 hne
  · simp only [Arrays.useBlocks, nonzero, List.foldl_filter, List.foldl_map, decide_eq_true_eq]

/-- All entries of the indirect block can be read if the block lies in the file. -/
theorem forall_entry_iff (img : Image) (off : ℕ) :
    (∀ i < NINDIRECT, off + sizeofInt * i + sizeofInt ≤ img.length) ↔
      off + BSIZE ≤ img.length := by
  simp only [NINDIRECT, sizeofInt, BSIZE]
  constructor
  · intro h
    have hlast := h 127 (by decide)
    omega
  · intro h i hi
    omega

theorem directLoop_acts (inode : Dinode) :
    Acts ((List.range NDIRECT).foldlM (fun numB i ↦ countBlock sb numB (inode.addrs i)) 0)
      (∀ b ∈ inode.directBlocks, 0 ≤ b ∧ b < sb.nblocks) inode.directBlocks.length
      (·.useBlocks inode.directBlocks) .fault := by
  have hstep : ∀ i < NDIRECT, ∀ numB, Acts (countBlock sb numB (inode.addrs i))
      (True ∧ (inode.addrs i ≠ 0 → 0 ≤ inode.addrs i ∧ inode.addrs i < sb.nblocks))
      (if inode.addrs i ≠ 0 then numB + 1 else numB)
      (fun s ↦ if inode.addrs i ≠ 0 then s.useBlock (inode.addrs i) else s) .fault :=
    fun i _ numB ↦ (countBlock_acts sb numB (inode.addrs i)).congr (by simp) fun _ ↦ rfl
  have hloop := countLoop_acts sb hstep 0
  rw [Nat.zero_add] at hloop
  exact hloop.congr (by simp [Dinode.directBlocks]) fun _ ↦ rfl

theorem indirectLoop_acts {inode : Dinode} (h : inode.addrs NDIRECT ≠ 0) (numB : ℕ) :
    Acts ((List.range NINDIRECT).foldlM (fun numB i ↦ (do
        let addr ← img.int32 (blockOffset (inode.addrs NDIRECT) + sizeofInt * i)
        countBlock sb numB addr : Checker ℕ)) numB)
      (blockOffset (inode.addrs NDIRECT) + BSIZE ≤ img.length ∧
        ∀ b ∈ img.indirectBlocks inode, 0 ≤ b ∧ b < sb.nblocks)
      (numB + (img.indirectBlocks inode).length) (·.useBlocks (img.indirectBlocks inode))
      .fault := by
  have hblocks : img.indirectBlocks inode = nonzero NINDIRECT (img.indirectAt inode) := if_neg h
  rw [hblocks, ← forall_entry_iff]
  refine countLoop_acts sb (fun i _ numB ↦ ?_) numB
  exact (read_acts img _ _ _).bind fun _ ↦ countBlock_acts sb numB (img.indirectAt inode i)

theorem countIndirect_acts (inode : Dinode) (numB : ℕ) :
    Acts (countIndirect img sb inode numB)
      ((inode.addrs NDIRECT ≠ 0 → 0 ≤ inode.addrs NDIRECT ∧ inode.addrs NDIRECT < sb.nblocks) ∧
        img.IndirectReadable inode ∧ ∀ b ∈ img.indirectBlocks inode, 0 ≤ b ∧ b < sb.nblocks)
      (numB + (img.indirectBlocks inode).length)
      (·.useBlocks ((if inode.addrs NDIRECT = 0 then [] else [inode.addrs NDIRECT]) ++
        img.indirectBlocks inode)) .fault := by
  by_cases h : inode.addrs NDIRECT = 0
  · simp only [countIndirect, Image.IndirectReadable, Image.indirectBlocks, h, if_true, ne_eq,
      not_true_eq_false, false_implies, true_and]
    exact Acts.congr (.pure numB) (by simp) fun _ ↦ rfl
  · simp only [countIndirect, if_neg h]
    refine Acts.congr ((setDataUse_acts sb (inode.addrs NDIRECT)).bind fun _ ↦
      (blockPtr_acts (inode.addrs NDIRECT)).bind fun _ ↦ indirectLoop_acts img sb h numB) ?_ ?_
    · simp only [Image.IndirectReadable, forall_prop_of_true h]
      tauto
    · intro s
      simp [Arrays.useBlocks]

theorem calNumBlock_acts (inode : Dinode) :
    Acts (calNumBlock img sb inode) (img.BlocksInside inode sb.nblocks)
      (img.dataBlocks inode).length (·.useBlocks (img.blocks inode)) .fault := by
  have hlength : (img.dataBlocks inode).length =
      inode.directBlocks.length + (img.indirectBlocks inode).length := List.length_append
  rw [hlength]
  refine Acts.congr ((directLoop_acts sb inode).bind fun _ ↦ countIndirect_acts img sb inode _)
    ?_ fun s ↦ ?_
  · have hindirect : (∀ b ∈ if inode.addrs NDIRECT = 0 then [] else [inode.addrs NDIRECT],
        0 ≤ b ∧ b < sb.nblocks) ↔ (inode.addrs NDIRECT ≠ 0 →
          0 ≤ inode.addrs NDIRECT ∧ inode.addrs NDIRECT < sb.nblocks) := by
      by_cases h : inode.addrs NDIRECT = 0 <;> simp [h]
    simp only [Image.BlocksInside, Image.blocks, List.forall_mem_append, hindirect]
    tauto
  · simp only [Arrays.useBlocks, Image.blocks, List.foldl_append, Function.comp_apply]

end Blocks

/-! ## The bitmap -/

section Bitmap

variable (img : Image) (sb : Superblock)

/-- The bit of a block in the bitmap, at its place in a byte. -/
def Image.bitAt (b : ℕ) : ℕ :=
  2 ^ (b % 8) &&& (img.bytes (blockOffset sb.bmapstart + b / 8)).toNat

/-- The elements of `dmap` from `i` on, `n` of them, are set. -/
def Arrays.withMap (s : Arrays) (i n : ℕ) (value : ℕ → ℕ) : Arrays :=
  { s with dmap := fun k ↦ if i ≤ k ∧ k < i + n then value k else s.dmap k }

theorem setDmap_acts (i : ℤ) (value : ℕ) :
    Acts (setDmap sb i value) (0 ≤ i ∧ i < sb.mapLength) ()
      (fun s ↦ { s with dmap := Function.update s.dmap i.toNat value }) .fault :=
  Acts.congr ((index_acts sb.mapLength i).andThen (.modify _)) .rfl fun _ ↦ rfl

/-- `curr_pos` and `map_ptr` follow the number of the block. -/
theorem initMapLoop_acts (p n i : ℕ) :
    Acts (initMapLoop img sb n i (i % 8) (p + i / 8))
      (∀ k, i ≤ k → k < i + n → p + k / 8 + 1 ≤ img.length ∧ (k : ℤ) < sb.mapLength) ()
      (·.withMap i n fun k ↦ 2 ^ (k % 8) &&& (img.bytes (p + k / 8)).toNat) .fault := by
  induction n generalizing i with
  | zero =>
    refine Acts.congr (.pure ()) (iff_true_intro fun k hk hk' ↦ by omega) fun s ↦ ?_
    have hnone : ∀ k, ¬(i ≤ k ∧ k < i + 0) := fun k ↦ by omega
    simp only [Arrays.withMap, hnone, if_false, id]
  | succ n ih =>
    have hnext : (if i % 8 = 7 then initMapLoop img sb n (i + 1) 0 (p + i / 8 + 1)
        else initMapLoop img sb n (i + 1) (i % 8 + 1) (p + i / 8)) =
        initMapLoop img sb n (i + 1) ((i + 1) % 8) (p + (i + 1) / 8) := by
      by_cases h : i % 8 = 7
      · rw [if_pos h]
        congr 1 <;> omega
      · rw [if_neg h]
        congr 1 <;> omega
    rw [initMapLoop]
    simp only [hnext]
    refine Acts.congr ((read_acts img (p + i / 8) 1 _).bind fun _ ↦
      (setDmap_acts sb i _).bind fun _ ↦ ih (i + 1)) ?_ fun s ↦ ?_
    · constructor
      · intro h
        refine ⟨(h i le_rfl (by omega)).1, ⟨Int.natCast_nonneg i, (h i le_rfl (by omega)).2⟩, ?_⟩
        exact fun k hk hk' ↦ h k (by omega) (by omega)
      · rintro ⟨hread, ⟨-, hmap⟩, hrest⟩ k hk hk'
        rcases Nat.eq_or_lt_of_le hk with rfl | hlt
        · exact ⟨hread, hmap⟩
        · exact hrest k hlt (by omega)
    · simp only [Arrays.withMap, Function.comp_apply, id, Int.toNat_natCast]
      congr 1
      funext k
      by_cases hk : k = i
      · subst hk
        simp
      · by_cases hrange : i + 1 ≤ k ∧ k < i + 1 + n
        · rw [if_pos hrange, if_pos (by omega)]
        · rw [if_neg hrange, if_neg (by omega), Function.update_of_ne hk]

theorem lt_mapLength (hnblocks : 0 ≤ sb.nblocks) : sb.nblocks < sb.mapLength := by
  rw [Superblock.mapLength, Superblock.mapNum, Int.tdiv_eq_ediv_of_nonneg hnblocks]
  simp only [BPB, BSIZE]
  omega

theorem initMap_acts (hnblocks : 0 ≤ sb.nblocks) :
    Acts (initMap img sb) ((0 ≤ sb.bmapstart ∧ sb.bmapstart * BSIZE < intBound) ∧
        ∀ k < sb.nblocks.toNat, blockOffset sb.bmapstart + k / 8 + 1 ≤ img.length) ()
      (·.withMap 0 sb.nblocks.toNat (img.bitAt sb)) .fault := by
  have hloop := initMapLoop_acts img sb (blockOffset sb.bmapstart) sb.nblocks.toNat 0
  rw [Nat.zero_mod, Nat.zero_div, Nat.add_zero] at hloop
  refine Acts.congr ((blockPtr_acts sb.bmapstart).bind fun _ ↦ hloop) (and_congr_right' ?_)
    fun s ↦ rfl
  have hmap := lt_mapLength sb hnblocks
  constructor
  · exact fun h k _ hk ↦ ⟨h k (by omega), by omega⟩
  · exact fun h k hk ↦ (h k (Nat.zero_le k) (by omega)).1

end Bitmap

/-! ## The inodes -/

section Inodes

variable (img : Image) (sb : Superblock)

/-- What the individual checks ask of an inode in use. -/
structure Image.Valid (img : Image) (inode : Dinode) : Prop where
  type : inode.type = 1 ∨ inode.type = 2 ∨ inode.type = 3
  le_size : (((img.dataBlocks inode).length : ℤ) - 1) * BSIZE ≤ inode.size
  size_le : inode.size ≤ (img.dataBlocks inode).length * BSIZE

/-- What is recorded of an inode. -/
def Arrays.useDinode (img : Image) (inode : Dinode) (i : ℕ) (s : Arrays) : Arrays :=
  if inode.type ≠ 0 then (s.useInode (i + 1)).useBlocks (img.blocks inode) else s

theorem printErrIf_acts {c : Prop} [Decidable c] (h : ¬c) (msg : String) :
    Acts (printErrIf c msg) True () id .fault := by
  rw [printErrIf, if_neg h]
  exact .pure ()

theorem not_of_printErrIf {c : Prop} [Decidable c] {msg : String} {s t : Arrays}
    (h : printErrIf c msg s = .ok ((), t)) : ¬c := by
  intro hc
  rw [printErrIf, if_pos hc] at h
  exact nomatch h

theorem checkInode_acts (inode : Dinode) (i : ℕ) (hvalid : img.Valid inode) :
    Acts (checkInode img sb inode i)
      ((i + 1 : ℤ) < sb.ninodes ∧ img.BlocksInside inode sb.nblocks) ()
      (fun s ↦ (s.useInode (i + 1)).useBlocks (img.blocks inode)) .fault := by
  have htype : ¬(inode.type ≠ 1 ∧ inode.type ≠ 2 ∧ inode.type ≠ 3) := by
    have h := hvalid.type
    omega
  have hsize := hvalid.size_le
  have hle := hvalid.le_size
  refine Acts.congr ((setInodeUse_acts sb (i + 1)).bind fun _ ↦ (printErrIf_acts htype _).bind
    fun _ ↦ (calNumBlock_acts img sb inode).andThen (printErrIf_acts (by omega) _)) ?_ fun s ↦ rfl
  have hi : (0 : ℤ) ≤ i + 1 := by omega
  simp only [hi, true_and]

theorem individualCheck_acts (p i : ℕ)
    (hvalid : (img.dinodeAt p).type ≠ 0 → img.Valid (img.dinodeAt p)) :
    Acts (individualCheck img sb p i)
      (p + sizeofDinode ≤ img.length ∧ ((img.dinodeAt p).type ≠ 0 →
        (i + 1 : ℤ) < sb.ninodes ∧ img.BlocksInside (img.dinodeAt p) sb.nblocks)) ()
      (·.useDinode img (img.dinodeAt p) i) .fault := by
  unfold individualCheck
  exact .look (read_acts img p sizeofDinode (img.dinodeAt p)) fun _ ↦
    .when fun htype ↦ checkInode_acts img sb _ i (hvalid htype)

theorem individualChecks_acts (p : ℕ)
    (hvalid : ∀ i < (sb.ninodes - 1).toNat, (img.dinodeAt (p + sizeofDinode * i)).type ≠ 0 →
      img.Valid (img.dinodeAt (p + sizeofDinode * i))) :
    Acts (individualChecks img sb p)
      (∀ i < (sb.ninodes - 1).toNat, p + sizeofDinode * i + sizeofDinode ≤ img.length ∧
        ((img.dinodeAt (p + sizeofDinode * i)).type ≠ 0 →
          img.BlocksInside (img.dinodeAt (p + sizeofDinode * i)) sb.nblocks)) ()
      (fun s ↦ (List.range (sb.ninodes - 1).toNat).foldl
        (fun s i ↦ s.useDinode img (img.dinodeAt (p + sizeofDinode * i)) i) s) .fault := by
  refine Acts.congr (.forM fun i hi ↦ individualCheck_acts img sb _ i
    (hvalid i (List.mem_range.mp hi))) ?_ fun s ↦ rfl
  refine forall_congr' fun i ↦ ?_
  rw [List.mem_range]
  refine imp_congr_right fun hi ↦ and_congr_right' (imp_congr_right fun _ ↦ ?_)
  exact (and_iff_right (by omega)).symm

end Inodes

end CS537.FsCheck
