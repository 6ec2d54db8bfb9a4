import CS537.FileSystem.Calls
import CS537.FileSystem.Iterations

/-!
# Opening directories

Opening a link to a directory is to be refused.  `open` asks for the global flag `is_sym` after
`namei` has returned, and this flag is set when any component of the path was a link.
-/

namespace CS537.FileSystem

open Foundation

variable {fs : QuietState} {held : Multiset Inum} {d : Inum} {fuel : ℕ} {path : CString}

/-- Where a call that is given no root starts to walk a path. -/
abbrev QuietState.start (fs : QuietState) (path : CString) : Inum := FsState.origin fs.cwd path

/-! ## `namei` -/

theorem namexStart_clears {root : Option Inum} {bytes : List UInt8} {s u : FsState} {i : Inum}
    (hrun : namexStart root bytes s = .ok (i, u)) : u.isSym = false := by
  obtain ⟨⟨⟩, v, hset, hrest⟩ := exists_of_bind_ok hrun
  obtain ⟨-, rfl⟩ := Prod.mk.inj (Except.ok.inj hset)
  split at hrest
  · exact iget_keeps ROOTINO _ _ _ hrest
  · cases root with
    | some ip =>
      obtain ⟨-, rfl⟩ := Prod.mk.inj (Except.ok.inj hrest)
      rfl
    | none =>
      obtain ⟨-, rfl⟩ := Prod.mk.inj (Except.ok.inj hrest)
      rfl

theorem start_live (fs : QuietState) (path : CString) :
    (fs.inode (fs.start path)).type ≠ .free :=
  origin_live (by simp [fs.cwd_dir]) path

/-- The loop of a call that starts between two system calls. -/
theorem exists_loop (fs : QuietState) (path : CString) :
    ∃ s, Holds fs (fs.start path ::ₘ 0) ∅ s ∧ s.isSym = false ∧ ∀ fuel nameiparent,
      namex fuel none path nameiparent fs.toFsState =
        namexLoop fuel (some (fs.start path)) path.bytes [] nameiparent s := by
  obtain ⟨s, hstart, hs⟩ := namexStart_returns none path _ fs.holds
  exact ⟨s, hs, namexStart_clears hstart, fun _ _ ↦ bind_of_ok hstart⟩

/-- When `namei` returns, the path has been resolved and the flag says whether it has a link. -/
theorem namei_arrives {r : Option Inum} {t : FsState}
    (hrun : namei fuel path fs.toFsState = .ok (r, t)) :
    Holds fs (reached 0 r) ∅ t ∧ (∀ i ∈ r, (fs.inode i).type ≠ .free) ∧
      fs.names.Resolves (fs.start path) (components path.bytes) r ∧
      (r.isSome → (t.isSym = true ↔
        ∃ l, fs.names.Follows (fs.start path) (components path.bytes) l)) := by
  obtain ⟨s, hs, hflag, hnamex⟩ := exists_loop fs path
  obtain ⟨p, u, hloop, hret⟩ := exists_of_bind_ok hrun
  obtain ⟨rfl, rfl⟩ := Prod.mk.inj (Except.ok.inj hret)
  rw [hnamex] at hloop
  have h := namexLoop_arrives (start_live fs path) hs hloop
  refine ⟨h.holds, h.live, h.resolves, fun hr ↦ ?_⟩
  rw [h.isSym hr, hflag]
  simp

/-! ## Directories behind links -/

section Directories

variable {ninodes : ℕ} {t : FsState}

/-- `open` for reading is refused because of `check_sym`. -/
def RefusedAsLink (ninodes : ℕ) (fs : QuietState) (path : CString) : Prop :=
  ∃ fuel t, sysOpen ninodes fuel path O_RDONLY true fs.toFsState = .ok (.symToDir, t)

theorem sysOpen_existing {omode : ℕ} (hmode : omode &&& O_CREATE = 0) (hasFile : Bool)
    (hnamei : namei fuel path fs.toFsState = .ok (some d, t)) :
    ∃ u, Holds fs (d ::ₘ 0) (insert d ∅) u ∧ u.isSym = t.isSym ∧
      sysOpen ninodes fuel path omode hasFile fs.toFsState =
        (if (fs.inode d).type = .dir ∧ u.isSym then do
          iunlockput d
          return .symToDir
        else if (fs.inode d).type = .dir ∧ omode ≠ O_RDONLY then do
          iunlockput d
          return .dirForWriting
        else openFile d omode hasFile : Kernel OpenEnd) u := by
  obtain ⟨ht, hlive, -, -⟩ := namei_arrives hnamei
  obtain ⟨u, hlock, hu⟩ := ilock_returns (Multiset.mem_cons_self d 0) (Finset.notMem_empty d)
    (hlive d rfl) t ht
  refine ⟨u, hu, ilock_keeps _ _ _ _ hlock, ?_⟩
  have hcreate : ¬omode &&& O_CREATE ≠ 0 := not_not.mpr hmode
  rw [sysOpen, if_neg hcreate, bind_of_ok hnamei]
  simp only [bind_of_ok hlock]
  have hfields : fields d u = .ok (fs.inode d, u) := by rw [fields, hu.inode]
  rw [bind_of_ok hfields]
  rfl

theorem eq_of_openFile {omode : ℕ} {hasFile : Bool} {u : FsState} {x : OpenEnd}
    (hrun : openFile d omode hasFile u = .ok (x, t)) : x = .noFile ∨ ∃ f, x = .opened f ∧ f.ip = d := by
  cases hasFile with
  | false =>
    obtain ⟨⟨⟩, v, -, hret⟩ := exists_of_bind_ok hrun
    exact .inl (Prod.mk.inj (Except.ok.inj hret)).1.symm
  | true =>
    obtain ⟨⟨⟩, v, -, hret⟩ := exists_of_bind_ok hrun
    exact .inr ⟨_, (Prod.mk.inj (Except.ok.inj hret)).1.symm, rfl⟩

/-- The refusal follows the flag, which any link among the components sets. -/
theorem refusedAsLink_iff (hnamei : namei fuel path fs.toFsState = .ok (some d, t))
    (hdir : (fs.inode d).type = .dir) :
    RefusedAsLink ninodes fs path ↔
      ∃ l, fs.names.Follows (fs.start path) (components path.bytes) l := by
  have hmode : O_RDONLY &&& O_CREATE = 0 := by decide
  constructor
  · rintro ⟨fuel', t', hopen⟩
    cases hrun : namei fuel' path fs.toFsState with
    | error e =>
      rw [sysOpen, if_neg (not_not.mpr hmode), bind_of_error hrun] at hopen
      exact nomatch hopen
    | ok p =>
      obtain ⟨r, v⟩ := p
      cases r with
      | none =>
        rw [sysOpen, if_neg (not_not.mpr hmode), bind_of_ok hrun] at hopen
        exact nomatch (Prod.mk.inj (Except.ok.inj hopen)).1
      | some e =>
        obtain ⟨u, -, hsym, hcall⟩ := @sysOpen_existing fs e fuel' path ninodes v _ hmode true hrun
        rw [hcall] at hopen
        split at hopen
        next hrefused => exact ((namei_arrives hrun).2.2.2 rfl).mp (hsym ▸ hrefused.2)
        next =>
          rw [if_neg (fun h ↦ h.2 rfl)] at hopen
          rcases eq_of_openFile hopen with h | ⟨f, h, -⟩
          · exact nomatch h
          · exact nomatch h
  · intro hfollows
    obtain ⟨u, hu, hsym, hcall⟩ := @sysOpen_existing fs d fuel path ninodes t _ hmode true hnamei
    have hflag : u.isSym = true := by
      rw [hsym]
      exact ((namei_arrives hnamei).2.2.2 rfl).mpr hfollows
    obtain ⟨w, hput, -⟩ := iunlockput_returns (Finset.notMem_empty d) (dir_live hdir) u hu
    refine ⟨fuel, w, ?_⟩
    rw [hcall, if_pos ⟨hdir, hflag⟩, bind_of_ok hput]
    rfl

/-- Opening a directory for reading is refused because of `check_sym` if and only if the last
component names a link, exactly for the paths whose last component does or that have no link. -/
theorem open_refused_iff (hnamei : namei fuel path fs.toFsState = .ok (some d, t))
    (hdir : (fs.inode d).type = .dir) :
    (RefusedAsLink ninodes fs path ↔
        ∃ l, fs.names.EndsInLink (fs.start path) (components path.bytes) l) ↔
      (∃ l, fs.names.EndsInLink (fs.start path) (components path.bytes) l) ∨
        ∀ l, ¬fs.names.Follows (fs.start path) (components path.bytes) l := by
  rw [refusedAsLink_iff hnamei hdir]
  have hends : (∃ l, fs.names.EndsInLink (fs.start path) (components path.bytes) l) →
      ∃ l, fs.names.Follows (fs.start path) (components path.bytes) l :=
    fun ⟨l, hl⟩ ↦ ⟨l, .of_endsInLink hl⟩
  constructor
  · intro hiff
    by_cases hfollows : ∃ l, fs.names.Follows (fs.start path) (components path.bytes) l
    · exact .inl (hiff.mp hfollows)
    · exact .inr fun l hl ↦ hfollows ⟨l, hl⟩
  · rintro (hend | hnone)
    · exact iff_of_true (hends hend) hend
    · have hno : ¬∃ l, fs.names.Follows (fs.start path) (components path.bytes) l :=
        fun ⟨l, hl⟩ ↦ hnone l hl
      exact iff_of_false hno fun hend ↦ hno (hends hend)

end Directories

/-! ## A link to the root directory -/

/-- A root directory that holds a link `l` to itself and a directory `f`. -/
def dirInode (i : Inum) : Inode :=
  if i = 3 then ⟨.dir, 1, [], Inode.nil_size_le⟩ else linkInode 47 i

def dirState : QuietState where
  inode := dirInode
  refs := {ROOTINO}
  valid _ := false
  locks := ∅
  isSym := false
  cwd := ROOTINO
  unlocked := (linkState 47).unlocked
  root_ref := Multiset.mem_singleton_self ROOTINO
  root_dir := rfl
  cwd_ref := Multiset.mem_singleton_self ROOTINO
  cwd_dir := rfl
  allocated := by simp
  inUse i hi hlink := by
    by_cases h3 : i = 3
    · simp [dirInode, h3] at hlink
    · simp only [dirInode, h3, if_false] at hi hlink
      exact (linkState 47).inUse i hi hlink

theorem dirState_resolves_l : dirState.names.Resolves 1 [nameOf [108]] (some 1) :=
  .link (l := (1, 2)) (by decide +kernel) (.nil 1) (.nil 1)

/-- `l/f` names a directory and does not end in a link, and it is refused. -/
theorem open_refused_behind_link :
    ¬∀ ninodes (fs : QuietState) path fuel d t,
      namei fuel path fs.toFsState = .ok (some d, t) → (fs.inode d).type = .dir →
      (RefusedAsLink ninodes fs path ↔
        ∃ l, fs.names.EndsInLink (fs.start path) (components path.bytes) l) := by
  intro hclaim
  have hrun : ((namei 3 (.ofBytes [108, 47, 102]) dirState.toFsState).toOption.map Prod.fst) =
      some (some 3) := by
    decide +kernel
  have hpath : components (CString.ofBytes [108, 47, 102]).bytes =
      [nameOf [108]] ++ [nameOf [102]] := by
    decide
  obtain ⟨t, ht⟩ := exists_ok_of_run hrun
  have hrefused : RefusedAsLink 10 dirState (.ofBytes [108, 47, 102]) := by
    refine (refusedAsLink_iff ht rfl).mpr ⟨(1, 2), ?_⟩
    rw [hpath]
    exact .here (by decide +kernel)
  obtain ⟨l, before, c, e, hsplit, hbefore, hentry⟩ := (hclaim 10 dirState _ 3 3 t ht rfl).mp hrefused
  rw [hpath] at hsplit
  obtain ⟨rfl, hc⟩ := List.append_inj' hsplit rfl
  obtain rfl := Option.some.inj (dirState_resolves_l.unique hbefore)
  obtain rfl := (List.cons.inj hc).1
  have hnode : dirState.names.entry 1 (nameOf [102]) = some (.inl 3) := by decide +kernel
  simp [hnode] at hentry

/-- The link `l` to the root directory is refused. -/
theorem open_refused_iff_link : RefusedAsLink 10 dirState (.ofBytes [108]) := by
  have hrun : ((namei 3 (.ofBytes [108]) dirState.toFsState).toOption.map Prod.fst) =
      some (some 1) := by
    decide +kernel
  obtain ⟨t, ht⟩ := exists_ok_of_run hrun
  have hend : ∃ l, dirState.names.EndsInLink (dirState.start (.ofBytes [108]))
      (components (CString.ofBytes [108]).bytes) l :=
    ⟨(1, 2), [], nameOf [108], 1, by decide, .nil 1, by decide +kernel⟩
  exact ((open_refused_iff ht rfl).mpr (.inl hend)).mpr hend

end CS537.FileSystem
