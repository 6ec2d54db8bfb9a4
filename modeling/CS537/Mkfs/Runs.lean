import CS537.Mkfs.Volume

/-!
# Runs of the formatter

After each host file the image holds the root directory with its entries and the files so far.  A
run completes if and only if no name has a slash and there is room for the files, as long as there
are inodes for them.
-/

namespace CS537.Mkfs

open Foundation
open FsCheck (BSIZE NDIRECT NINDIRECT IPB sizeofDinode sizeofDirent sizeofInt ROOTINO)

variable {s s' : State} {c : ℕ → List UInt8} {kind : ℕ → ℕ} {i : ℕ} {files : List HostFile}
  {file : HostFile}

theorem length_dirent (inum : ℕ) (name : List UInt8) : (dirent inum name).length = 16 := by
  rw [dirent, List.length_map, List.length_range, sizeofDirent]

/-! ## The data of a file -/

theorem flatten_reads (content : List UInt8) : (reads content).flatten = content := by
  fun_induction reads content with
  | case1 => rfl
  | case2 byte rest ih => rw [List.flatten_cons, ih, List.take_append_drop]

theorem Holds.write_completes (h : Holds s kind c) (hi : i < slots) (hnone : c i = [])
    (hle : s.freeblock ≤ FSSIZE) (content : List UInt8) :
    Completes ((reads content).forM fun buf ↦ iappend i buf) s
      (content.length ≤ MAXFILE * BSIZE ∧ s.freeblock + blocksOf content.length ≤ FSSIZE)
      fun _ s' ↦ Holds s' kind (Function.update c i content) ∧ s'.freeinode = s.freeinode ∧
        s'.freeblock = s.freeblock + blocksOf content.length := by
  -- what has been asked for and what holds once some of the reads have been appended
  have hcontent := flatten_reads content
  generalize reads content = l at hcontent ⊢
  subst hcontent
  refine Completes.forM (fun done : List (List UInt8) ↦
      done.flatten.length ≤ MAXFILE * BSIZE ∧ s.freeblock + blocksOf done.flatten.length ≤ FSSIZE)
    (fun done t ↦ Holds t kind (Function.update c i done.flatten) ∧
      t.freeinode = s.freeinode ∧ t.freeblock = s.freeblock + blocksOf done.flatten.length)
    (fun done rest hcond ↦ ?_)
    (fun done buf rest _ hcond t ⟨hholds, hinode, hblock⟩ ↦ ?_)
    ⟨Nat.zero_le _, hle⟩ ⟨?_, rfl, rfl⟩
  · rw [List.flatten_append, List.length_append] at hcond
    have hmono := blocksOf_mono (Nat.le_add_right done.flatten.length rest.flatten.length)
    exact ⟨by omega, by omega⟩
  · have hcall := hholds.iappend_completes hi (by omega) buf
    rw [Function.update_self, Function.update_idem] at hcall
    have hflatten : (done ++ [buf]).flatten = done.flatten ++ buf := by
      rw [List.flatten_append, List.flatten_singleton]
    rw [hflatten, List.length_append]
    refine Completes.congr (hcall.weaken fun _ _ u ⟨hu, hinode', hblock'⟩ ↦
      ⟨hu, hinode'.trans hinode, by omega⟩) ?_
    constructor
    · rintro ⟨hlength, hblocks⟩
      refine ⟨fun _ ↦ ?_, ?_⟩
      · rwa [Function.update_self]
      · rw [Function.update_self]
        omega
    · rintro ⟨hlength, hblocks⟩
      rw [Function.update_self] at hlength hblocks
      refine ⟨?_, by omega⟩
      by_cases hbuf : buf = []
      · rw [hbuf]
        exact hcond.1
      · exact hlength hbuf
  · have hsame : Function.update c i [] = c := by rw [← hnone, Function.update_eq_self]
    rwa [List.flatten_nil, hsame]

/-! ## The image of some files -/

section Files

variable (files : List HostFile)

/-- The inode numbers and the names in the root directory. -/
def rootEntries : List (ℕ × List UInt8) :=
  (ROOTINO, [dot]) :: (ROOTINO, [dot, dot]) ::
    (files.zipIdx 2).map fun f ↦ (f.2, skipUnderscore f.1.name)

def rootData : List UInt8 := (rootEntries files).flatMap fun entry ↦ dirent entry.1 entry.2

/-- The types of the inodes. -/
def kinds (j : ℕ) : ℕ :=
  if j = ROOTINO then T_DIR else if 2 ≤ j ∧ j < files.length + 2 then T_FILE else 0

/-- The data of the inodes. -/
def datas (j : ℕ) : List UInt8 :=
  if j = ROOTINO then rootData files
  else if 2 ≤ j then (files.map HostFile.content).getD (j - 2) []
  else []

/-- The number of blocks that the root directory and the files take up. -/
def blocksUsed : ℕ :=
  blocksOf (sizeofDirent * (files.length + 2)) +
    (files.map fun file ↦ blocksOf file.content.length).sum

/-- No name has a slash, and there is room for the files. -/
structure Fitting : Prop where
  names : ∀ file ∈ files, slash ∉ file.name
  sizes : ∀ file ∈ files, file.content.length ≤ MAXFILE * BSIZE
  blocks : nmeta + blocksUsed files ≤ FSSIZE

/-- The image holds the root directory and the files. -/
structure Built (s : State) : Prop where
  holds : Holds s (kinds files) (datas files)
  freeinode : s.freeinode = files.length + 2
  freeblock : s.freeblock = nmeta + blocksUsed files

end Files

theorem rootData_append (files : List HostFile) (file : HostFile) : rootData (files ++ [file]) =
    rootData files ++ dirent (files.length + 2) (skipUnderscore file.name) := by
  have hlast : [file].zipIdx (2 + files.length) = [(file, files.length + 2)] := by
    rw [Nat.add_comm 2]
    rfl
  have hentries : rootEntries (files ++ [file]) =
      rootEntries files ++ [(files.length + 2, skipUnderscore file.name)] := by
    rw [rootEntries, List.zipIdx_append, List.map_append, hlast]
    rfl
  rw [rootData, hentries, List.flatMap_append, List.flatMap_singleton, ← rootData]

theorem length_rootEntries (files : List HostFile) :
    (rootEntries files).length = files.length + 2 := by
  rw [rootEntries, List.length_cons, List.length_cons, List.length_map, List.length_zipIdx]

theorem length_rootData (files : List HostFile) :
    (rootData files).length = sizeofDirent * (files.length + 2) := by
  simp only [rootData, List.length_flatMap, length_dirent, List.map_const', List.sum_replicate_nat,
    length_rootEntries, sizeofDirent, Nat.mul_comm]

theorem kinds_append (files : List HostFile) (file : HostFile) :
    kinds (files ++ [file]) = Function.update (kinds files) (files.length + 2) T_FILE := by
  funext j
  rw [kinds, Function.update_apply, kinds, List.length_append, List.length_singleton, ROOTINO]
  split_ifs <;> first | rfl | omega

theorem datas_append (files : List HostFile) (file : HostFile) : datas (files ++ [file]) =
    Function.update (Function.update (datas files) ROOTINO (rootData (files ++ [file])))
      (files.length + 2) file.content := by
  funext j
  rw [Function.update_apply, Function.update_apply, datas, datas]
  by_cases hroot : j = ROOTINO
  · have hne : j ≠ files.length + 2 := by
      rw [hroot, ROOTINO]
      omega
    rw [if_pos hroot, if_neg hne, if_pos hroot]
  · rw [if_neg hroot, if_neg hroot, if_neg hroot, List.map_append]
    have hlength : (files.map HostFile.content).length = files.length := List.length_map _
    by_cases hlast : j = files.length + 2
    · rw [if_pos hlast, if_pos (by omega), List.getD_append_right _ _ _ _ (by omega), hlast, hlength,
        Nat.add_sub_cancel, Nat.sub_self]
      rfl
    · rw [if_neg hlast]
      by_cases hlow : 2 ≤ j
      · rw [if_pos hlow, if_pos hlow]
        by_cases hlt : j - 2 < files.length
        · rw [List.getD_append _ _ _ _ (by omega)]
        · have hbehind : (files ++ [file]).length ≤ j - 2 := by
            rw [List.length_append, List.length_singleton]
            omega
          rw [← List.map_append, List.getD_eq_default _ _ (by rwa [List.length_map]),
            List.getD_eq_default _ _ (by omega)]
      · rw [if_neg hlow, if_neg hlow]

theorem blocksUsed_append (files : List HostFile) (file : HostFile) :
    blocksUsed (files ++ [file]) + blocksOf (sizeofDirent * (files.length + 2)) =
      blocksUsed files + blocksOf (sizeofDirent * (files.length + 2) + 16) +
        blocksOf file.content.length := by
  have hsum : ((files ++ [file]).map fun file ↦ blocksOf file.content.length).sum =
      (files.map fun file ↦ blocksOf file.content.length).sum + blocksOf file.content.length := by
    rw [List.map_append, List.sum_append, List.map_singleton, List.sum_singleton]
  have hroot : sizeofDirent * ((files ++ [file]).length + 2) =
      sizeofDirent * (files.length + 2) + 16 := by
    rw [List.length_append, List.length_singleton, sizeofDirent]
    omega
  rw [blocksUsed, blocksUsed, hsum, hroot]
  omega

/-! ## One more file -/

theorem assert_bind {α : Type} {q c : Prop} [Decidable q] {f : Unit → Formatter α}
    {R : α → State → Prop} (hf : Completes (f ()) s c R) :
    Completes (assert q >>= f) s (q ∧ c) R := by
  have hassert : Completes (assert q) s q fun _ s' ↦ s' = s :=
    ⟨fun hq ↦ ⟨(), s, assert_true hq s, rfl⟩, fun hq ↦ ⟨.assertion, assert_false hq s⟩⟩
  refine hassert.bind fun _ _ s' hs' ↦ ?_
  rwa [hs']

theorem Fitting.of_append {rest : List HostFile} (h : Fitting (files ++ rest)) : Fitting files := by
  refine ⟨fun file hfile ↦ h.names file (List.mem_append_left _ hfile),
    fun file hfile ↦ h.sizes file (List.mem_append_left _ hfile), ?_⟩
  have hroot : blocksOf (sizeofDirent * (files.length + 2)) ≤
      blocksOf (sizeofDirent * ((files ++ rest).length + 2)) := by
    refine blocksOf_mono (Nat.mul_le_mul_left _ ?_)
    rw [List.length_append]
    omega
  have hblocks := h.blocks
  rw [blocksUsed, List.map_append, List.sum_append] at hblocks
  rw [blocksUsed]
  omega

theorem fitting_append_iff (hfit : Fitting files) (file : HostFile) :
    Fitting (files ++ [file]) ↔ slash ∉ file.name ∧ file.content.length ≤ MAXFILE * BSIZE ∧
      nmeta + blocksUsed (files ++ [file]) ≤ FSSIZE := by
  constructor
  · exact fun h ↦ ⟨h.names file (by simp), h.sizes file (by simp), h.blocks⟩
  · rintro ⟨hname, hsize, hblocks⟩
    refine ⟨?_, ?_, hblocks⟩
    · rw [List.forall_mem_append, List.forall_mem_singleton]
      exact ⟨hfit.names, hname⟩
    · rw [List.forall_mem_append, List.forall_mem_singleton]
      exact ⟨hfit.sizes, hsize⟩

theorem datas_root (files : List HostFile) : datas files ROOTINO = rootData files := if_pos rfl

theorem datas_next (files : List HostFile) : datas files (files.length + 2) = [] := by
  rw [datas, ROOTINO, if_neg (by omega), if_pos (by omega), Nat.add_sub_cancel]
  exact List.getD_eq_default _ _ (by rw [List.length_map])

theorem room_dirent_iff (hinodes : files.length + 2 < slots) (s : State) (inum : ℕ)
    (name : List UInt8) : Room s (datas files) ROOTINO (dirent inum name) ↔
      s.freeblock + blocksOf (sizeofDirent * (files.length + 2) + 16) ≤
        FSSIZE + blocksOf (sizeofDirent * (files.length + 2)) := by
  have hlength := length_rootData files
  rw [slots_eq] at hinodes
  constructor
  · intro hroom
    have hblocks := hroom.blocks
    rwa [datas_root, hlength, length_dirent] at hblocks
  · intro hblocks
    refine ⟨fun _ ↦ ?_, by rwa [datas_root, hlength, length_dirent]⟩
    rw [datas_root, hlength, length_dirent, MAXFILE_eq, sizeofDirent, FsCheck.BSIZE]
    omega

theorem addFile_eq (rootino : ℕ) (file : HostFile) : addFile rootino file = (do
    assert (slash ∉ file.name)
    let inum ← ialloc T_FILE
    iappend rootino (dirent inum (skipUnderscore file.name))
    (reads file.content).forM fun buf ↦ iappend inum buf) :=
  rfl

/-- The data of a file are written once its entry is in the root directory. -/
theorem Holds.data_completes (hinodes : files.length + 2 < slots)
    (h : Holds s (Function.update (kinds files) (files.length + 2) T_FILE)
      (Function.update (datas files) ROOTINO (rootData (files ++ [file]))))
    (hinode : s.freeinode = files.length + 3) (hle : s.freeblock ≤ FSSIZE)
    (hblock : s.freeblock + blocksOf file.content.length =
      nmeta + blocksUsed (files ++ [file])) :
    Completes ((reads file.content).forM fun buf ↦ iappend (files.length + 2) buf) s
      (file.content.length ≤ MAXFILE * BSIZE ∧ nmeta + blocksUsed (files ++ [file]) ≤ FSSIZE)
      fun _ ↦ Built (files ++ [file]) := by
  have hnext : files.length + 2 ≠ ROOTINO := by
    rw [ROOTINO]
    omega
  have hnone : Function.update (datas files) ROOTINO (rootData (files ++ [file]))
      (files.length + 2) = [] := by
    rw [Function.update_of_ne hnext]
    exact datas_next files
  rw [← hblock]
  refine (h.write_completes hinodes hnone hle file.content).weaken
    fun _ _ t ⟨hholds, hinode', hblock'⟩ ↦ ⟨?_, ?_, ?_⟩
  · rwa [kinds_append, datas_append]
  · rw [List.length_append, List.length_singleton, hinode', hinode]
  · rw [hblock', hblock]

/-- A file is added if and only if its name has no slash and there is room for it. -/
theorem Built.addFile_completes (h : Built files s) (hinodes : files.length + 2 < slots)
    (hfit : Fitting files) (file : HostFile) :
    Completes (addFile ROOTINO file) s (Fitting (files ++ [file]))
      fun _ ↦ Built (files ++ [file]) := by
  have hfree := h.freeblock
  have hle := hfit.blocks
  have hused := blocksUsed_append files file
  have hinum := h.freeinode
  obtain ⟨s₁, hrun, hholds, hinode, hblock⟩ := h.holds.ialloc_run (by omega)
    (by rw [hinum, datas_next]) (show T_FILE < 2 ^ 16 by decide)
  have hentry := hholds.iappend_completes (i := ROOTINO) (by decide) (by omega)
    (dirent s.freeinode (skipUnderscore file.name))
  rw [datas_root, length_rootData, length_dirent, room_dirent_iff hinodes, hblock, hinum,
    ← rootData_append] at hentry
  have hrest := hentry.bind fun hroom _ s₂ ⟨hholds₂, hinode₂, hblock₂⟩ ↦
    hholds₂.data_completes hinodes (by omega) (by omega) (by omega)
  rw [hinum] at hrun
  rw [addFile_eq]
  refine Completes.congr (assert_bind (.after hrun hrest)) ?_
  rw [fitting_append_iff hfit]
  refine and_congr_right fun _ ↦ ⟨fun ⟨hsize, hblocks⟩ ↦ ⟨by omega, hsize, hblocks⟩, fun h ↦ h.2⟩

/-! ## The beginning -/

/-- The first sectors have been written. -/
def State.zeroed (n : ℕ) : State := { State.start with length := n * BSIZE }

theorem zeroes_run (i n : ℕ) : (List.range' i n).forM (fun i ↦ wsect i zeroes) (.zeroed i) =
    .ok ((), .zeroed (i + n)) := by
  induction n generalizing i with
  | zero => rfl
  | succ n ih =>
    have hlength : max (i * BSIZE) (i * BSIZE + BSIZE) = (i + 1) * BSIZE := by
      rw [FsCheck.BSIZE]
      omega
    have hbytes : (fun p ↦ if i * BSIZE ≤ p ∧ p < i * BSIZE + BSIZE then zeroes (p - i * BSIZE)
        else (State.zeroed i).bytes p) = State.start.bytes :=
      funext fun p ↦ ite_self _
    have hfirst : wsect i zeroes (.zeroed i) = .ok ((), { State.zeroed i with
        bytes := fun p ↦ if i * BSIZE ≤ p ∧ p < i * BSIZE + BSIZE then zeroes (p - i * BSIZE)
          else (State.zeroed i).bytes p
        length := max (i * BSIZE) (i * BSIZE + BSIZE) }) := rfl
    rw [hbytes, hlength] at hfirst
    have hrest := ih (i + 1)
    rw [Nat.add_assoc, Nat.add_comm 1 n] at hrest
    exact (bind_of_ok hfirst).trans hrest

/-- The state before the first inode. -/
def State.empty : State := (State.zeroed FSSIZE).setSector 1 sbSector

theorem empty_bytes {p : ℕ} (hp : inodestart * BSIZE ≤ p) : State.empty.bytes p = 0 := by
  have hle : 1 * BSIZE + BSIZE ≤ inodestart * BSIZE := by decide
  exact State.setSector_outside sbSector (.inr (Nat.le_trans hle hp))

namespace Dinode

theorem zero_fits : zero.Fits :=
  ⟨by decide, by decide, by decide, by decide, by decide, fun _ ↦ Nat.two_pow_pos 32, fun _ _ ↦ rfl⟩

theorem zero_byte (k : ℕ) : zero.byte k = 0 := by
  have hzero (j : ℕ) : byteOf 0 j = 0 := by
    rw [byteOf, Nat.zero_div]
    rfl
  simp only [byte, zero, hzero, ite_self]

end Dinode

theorem address_zero (s : State) (k : ℕ) : s.address .zero k = 0 := by
  simp only [State.address, Dinode.zero, if_true, ite_self]

theorem empty_table : State.empty.table = fun _ ↦ Dinode.zero := by
  funext i
  by_cases hi : i < slots
  · rw [State.table_of_lt hi]
    refine Dinode.ofBytes_of_bytes Dinode.zero_fits fun k _ ↦ ?_
    rw [Dinode.zero_byte, empty_bytes]
    rw [inodeOffset]
    omega
  · exact if_neg hi

theorem empty_holds : Holds .empty (fun _ ↦ 0) fun _ ↦ [] where
  contents := by
    rw [empty_table]
    refine ⟨⟨rfl, ?_, fun p hp ↦ ?_⟩, fun j m _ ↦ ?_, fun j ↦ ?_, fun j p _ ↦ ?_⟩
    · have haddress : (fun t : ℕ × ℕ ↦ State.empty.address .zero t.2) = fun _ ↦ 0 :=
        funext fun t ↦ address_zero _ _
      rw [haddress]
      exact .empty (by decide)
    · have hle : inodestart * BSIZE ≤ nmeta * BSIZE := by decide
      exact empty_bytes (Nat.le_trans hle hp)
    · exact iff_of_false (fun hne ↦ hne (address_zero _ _)) (Nat.not_lt_zero _)
    · exact iff_of_false (fun hne ↦ hne (address_zero _ _)) (Nat.not_lt_zero _)
    · rw [State.byteAt, if_pos (address_zero _ _)]
      rfl
  type j hj := by
    rw [← State.table_of_lt hj, empty_table]
    rfl
  size j hj := by
    rw [← State.table_of_lt hj, empty_table]
    rfl
  superblock r hr := State.setSector_inside sbSector hr

/-- The root directory is created. -/
theorem root_run : ∃ s₁ s₂ s₃, ialloc T_DIR .empty = .ok (ROOTINO, s₁) ∧
    iappend ROOTINO (dirent ROOTINO [dot]) s₁ = .ok ((), s₂) ∧
    iappend ROOTINO (dirent ROOTINO [dot, dot]) s₂ = .ok ((), s₃) ∧ Built [] s₃ := by
  obtain ⟨s₁, hrun₁, hholds₁, hinode₁, hblock₁⟩ :=
    empty_holds.ialloc_run (by decide) rfl (show T_DIR < 2 ^ 16 by decide)
  have hblock : s₁.freeblock = nmeta := hblock₁
  have hdot := hholds₁.iappend_completes (i := ROOTINO) (by decide) (by rw [hblock]; decide)
    (dirent ROOTINO [dot])
  obtain ⟨⟨⟩, s₂, hrun₂, hholds₂, hinode₂, hblock₂⟩ :=
    hdot.returns ⟨fun _ ↦ by decide, by rw [hblock]; decide⟩
  rw [List.nil_append] at hholds₂
  have hblock' : s₂.freeblock = nmeta + 1 := by
    rw [hblock] at hblock₂
    exact hblock₂
  have hdotdot := hholds₂.iappend_completes (i := ROOTINO) (by decide) (by rw [hblock']; decide)
    (dirent ROOTINO [dot, dot])
  obtain ⟨⟨⟩, s₃, hrun₃, hholds₃, hinode₃, hblock₃⟩ :=
    hdotdot.returns ⟨fun _ ↦ by decide, by rw [hblock']; decide⟩
  rw [Function.update_self, Function.update_idem] at hholds₃
  have hkinds : Function.update (fun _ ↦ 0) State.empty.freeinode T_DIR = kinds [] := by
    have hroot : State.empty.freeinode = ROOTINO := rfl
    funext j
    rw [hroot, Function.update_apply, kinds, List.length_nil]
    exact if_congr Iff.rfl rfl (if_neg fun hj ↦ by omega).symm
  have hdatas : Function.update (fun _ ↦ []) ROOTINO
      (dirent ROOTINO [dot] ++ dirent ROOTINO [dot, dot]) = datas [] := by
    funext j
    rw [Function.update_apply, datas, List.map_nil, List.getD_nil, ite_self]
    rfl
  rw [hkinds, hdatas] at hholds₃
  refine ⟨s₁, s₂, s₃, hrun₁, hrun₂, hrun₃, hholds₃, ?_, ?_⟩
  · rw [hinode₃, hinode₂, hinode₁]
    rfl
  · have hone : blocksOf 16 = 1 ∧ blocksOf (16 + 16) = 1 ∧ blocksUsed [] = 1 := by decide
    rw [hblock', Function.update_self, length_dirent, length_dirent, hone.1, hone.2.1] at hblock₃
    rw [hone.2.2]
    omega

/-! ## The end -/

/-- The size of the root directory is rounded up to the next block. -/
structure Resized (files : List HostFile) (s : State) : Prop where
  contents : Contents s s.table (datas files)
  type : ∀ j < slots, (s.inode j).type = kinds files j
  size : ∀ j < slots, (s.inode j).size =
    if j = ROOTINO then ((rootData files).length / BSIZE + 1) * BSIZE else (datas files j).length
  superblock : ∀ r < BSIZE, s.bytes (1 * BSIZE + r) = sbSector r
  freeblock : s.freeblock = nmeta + blocksUsed files

/-- The bitmap is written as well. -/
structure Finished (files : List HostFile) (s : State) : Prop extends Resized files s where
  bitmap : ∀ r < BSIZE, s.bytes (bmapstart * BSIZE + r) = bitmap s.freeblock r

/-- The end of `main`. -/
def finish (rootino : ℕ) : Formatter Unit := do
  let din ← rinode rootino
  winode rootino (din.setSize ((din.size / BSIZE + 1) * BSIZE))
  balloc (← get).freeblock

theorem Built.resized {d : Dinode} (h : Built files s) (hfits : d.Fits)
    (hd : d = (s.inode ROOTINO).setSize (((rootData files).length / BSIZE + 1) * BSIZE)) :
    Resized files (s.setInode ROOTINO d) := by
  have hroot : ROOTINO < slots := by decide
  have hcontents := h.holds.contents
  refine ⟨Contents.setInode (d := s.table ROOTINO) ?_ hroot hfits ?_, fun j hj ↦ ?_, fun j hj ↦ ?_,
    fun r hr ↦ ?_, h.freeblock⟩
  · rwa [Function.update_eq_self]
  · rw [State.table_of_lt hroot, hd]
    rfl
  · by_cases hjr : j = ROOTINO
    · rw [hjr, State.inode_setInode_self hfits, hd]
      exact h.holds.type ROOTINO hroot
    · rw [State.inode_setInode_of_ne hjr, h.holds.type j hj]
  · by_cases hjr : j = ROOTINO
    · rw [hjr, State.inode_setInode_self hfits, hd, if_pos rfl]
      rfl
    · rw [State.inode_setInode_of_ne hjr, h.holds.size j hj, if_neg hjr]
  · have hbefore : 1 * BSIZE + r < inodeOffset ROOTINO := by
      rw [FsCheck.BSIZE] at hr ⊢
      rw [inodeOffset, inodestart_eq, FsCheck.BSIZE]
      omega
    rw [State.setInode_outside (.inl hbefore), h.holds.superblock r hr]

/-- The sector of the bitmap lies between the inodes and the data. -/
theorem Resized.finished (h : Resized files s) :
    Finished files (s.setSector bmapstart (bitmap s.freeblock)) := by
  have hinode {j : ℕ} (hj : j < slots) :
      (s.setSector bmapstart (bitmap s.freeblock)).inode j = s.inode j :=
    State.inode_setSector _ hj le_rfl
  refine ⟨⟨Contents.congr (s := s) rfl rfl (fun p hp ↦ ?_) (fun j ↦ ?_) h.contents, fun j hj ↦ ?_,
    fun j hj ↦ ?_, fun r hr ↦ ?_, h.freeblock⟩, fun r hr ↦ State.setSector_inside _ hr⟩
  · have hend : bmapstart * BSIZE + BSIZE = nmeta * BSIZE := by decide
    exact State.setSector_outside _ (.inr (by omega))
  · by_cases hj : j < slots
    · rw [State.table_of_lt hj, State.table_of_lt hj, hinode hj]
    · rw [State.table, State.table, if_neg hj, if_neg hj]
  · rw [hinode hj, h.type j hj]
  · rw [hinode hj, h.size j hj]
  · rw [State.setSector_of_ne _ (by decide) hr, h.superblock r hr]

theorem balloc_run (hs : s.Whole) {used : ℕ} (hle : used ≤ FSSIZE) :
    balloc used s = .ok ((), s.setSector bmapstart (bitmap used)) := by
  have hassert : used < BSIZE * 8 := Nat.lt_of_le_of_lt hle (by decide)
  rw [balloc, bind_of_ok (assert_true hassert s)]
  exact wsect_run _ hs (by decide)

theorem Built.finish_run (h : Built files s) (hinodes : files.length + 1 < NINODES)
    (hle : s.freeblock ≤ FSSIZE) :
    ∃ s', finish ROOTINO s = .ok ((), s') ∧ Finished files s' := by
  have hroot : ROOTINO < slots := by decide
  have hwhole := h.holds.contents.blocks.whole
  obtain ⟨d, hd⟩ : ∃ d, d = (s.inode ROOTINO).setSize (((rootData files).length / BSIZE + 1) * BSIZE) :=
    ⟨_, rfl⟩
  have hsize : (s.inode ROOTINO).size = (rootData files).length := by
    rw [h.holds.size ROOTINO hroot, datas_root]
  have hfits : d.Fits := by
    have hf := Dinode.fits_ofBytes s.bytes (inodeOffset ROOTINO)
    have hbound : ((rootData files).length / BSIZE + 1) * BSIZE < 2 ^ 32 := by
      rw [length_rootData, sizeofDirent, FsCheck.BSIZE]
      rw [NINODES] at hinodes
      omega
    rw [hd]
    exact ⟨hf.type, hf.major, hf.minor, hf.nlink, hbound, hf.addrs, hf.tail⟩
  have hresized := h.resized hfits hd
  have hget : (do balloc (← get).freeblock : Formatter Unit) (s.setInode ROOTINO d) =
      balloc s.freeblock (s.setInode ROOTINO d) := rfl
  refine ⟨_, ?_, hresized.finished⟩
  rw [finish, bind_of_ok (rinode_run hwhole hroot), hsize, ← hd, bind_of_ok (winode_run hwhole hroot d),
    hget]
  exact balloc_run hresized.contents.blocks.whole hle

theorem main_eq (files : List HostFile) : main files = (do
    (List.range FSSIZE).forM fun i ↦ wsect i zeroes
    wsect 1 sbSector
    let rootino ← ialloc T_DIR
    assert (rootino = ROOTINO)
    iappend rootino (dirent rootino [dot])
    iappend rootino (dirent rootino [dot, dot])
    files.forM fun file ↦ addFile rootino file
    finish rootino) :=
  rfl

/-- As long as there are inodes for the files, a run completes if and only if there is room for them
and no name has a slash. -/
theorem main_completes (hinodes : files.length + 1 < NINODES) :
    Completes (main files) .start (Fitting files) fun _ ↦ Finished files := by
  have hzeroes := zeroes_run 0 FSSIZE
  rw [← List.range_eq_range', Nat.zero_add] at hzeroes
  have hstart : State.zeroed 0 = .start := rfl
  rw [hstart] at hzeroes
  have hsb : wsect 1 sbSector (.zeroed FSSIZE) = .ok ((), .empty) := wsect_run _ rfl (by decide)
  obtain ⟨s₁, s₂, s₃, hroot, hdot, hdotdot, hbuilt⟩ := root_run
  have hnone : Fitting [] := ⟨fun _ h ↦ absurd h List.not_mem_nil,
    fun _ h ↦ absurd h List.not_mem_nil, by decide⟩
  have hfiles : Completes (files.forM fun file ↦ addFile ROOTINO file) s₃ (Fitting files)
      fun _ ↦ Built files := by
    refine .forM Fitting Built (fun _ _ h ↦ h.of_append) (fun done file rest hsplit hfit s hs ↦ ?_)
      hnone hbuilt
    refine hs.addFile_completes ?_ hfit file
    rw [hsplit, List.length_append, List.length_cons, NINODES] at hinodes
    rw [slots_eq]
    omega
  have hrest : Completes ((files.forM fun file ↦ addFile ROOTINO file) >>= fun _ ↦ finish ROOTINO) s₃
      (Fitting files) fun _ ↦ Finished files := by
    refine hfiles.andThen fun hfit _ s hs ↦ ?_
    obtain ⟨s', hrun, hfinished⟩ := hs.finish_run hinodes (hs.freeblock ▸ hfit.blocks)
    exact ⟨(), s', hrun, hfinished⟩
  rw [main_eq]
  exact .after hzeroes (.after hsb (.after hroot
    (.after (assert_true rfl s₁) (.after hdot (.after hdotdot hrest)))))

end CS537.Mkfs
