import CS537.FileSystem.Parents

/-!
# Opening files with `O_CREATE`

With `O_CREATE` a file is looked up in the directory that `nameiparent` finds, and a link at the end
of the path is not followed, as `namei` does without it.
-/

namespace CS537.FileSystem

open Foundation

variable {fs : QuietState} {fuel : ℕ} {path : CString}

section Files

variable {ninodes mode : ℕ} {e i : Inum} {elem : List UInt8} {type : InodeType} {t u : FsState}

/-- `create` for a name that the directory has, once `nameiparent` has returned. -/
theorem create_existing
    (hparent : nameiparent fuel path fs.toFsState = .ok ((some e, elem), u))
    (hu : Holds fs (e ::ₘ 0) ∅ u) (hdir : (fs.inode e).type = .dir)
    (hchild : fs.child e (nameOf elem) = some i) (hroom : fs.HasRoom (e ::ₘ 0) i)
    (hlive : (fs.inode i).type ≠ .free) (ninodes : ℕ) (type : InodeType) :
    ∃ v, Holds fs (i ::ₘ 0) (insert i ∅) v ∧ create ninodes fuel path type fs.toFsState =
      (if type = .file ∧ (fs.inode i).type = .file then return some i
      else do
        iunlockput i
        return none : Kernel (Option Inum)) v := by
  have hlookup : (fs.inode e).lookup (nameOf elem) = some i := by rwa [← child_of_dir hdir]
  obtain ⟨off, hfound⟩ := dirlookup_returns (insert e ∅) hdir hlookup hroom
  obtain ⟨u₁, hrun₁, hu₁⟩ := ilock_returns (Multiset.mem_cons_self e 0) (Finset.notMem_empty e)
    (dir_live hdir) u hu
  obtain ⟨u₂, hrun₂, hu₂⟩ := hfound u₁ hu₁
  rw [Multiset.cons_swap] at hu₂
  obtain ⟨u₃, hrun₃, hu₃⟩ :=
    iunlockput_returns (Finset.notMem_empty e) (dir_live hdir) u₂ hu₂
  obtain ⟨v, hrun₄, hv⟩ := ilock_returns (Multiset.mem_cons_self i 0) (Finset.notMem_empty i)
    hlive u₃ hu₃
  have hfields : fields i v = .ok (fs.inode i, v) := by rw [fields, hv.inode]
  refine ⟨v, hv, ?_⟩
  rw [create, bind_of_ok hparent]
  simp only [bind_of_ok hrun₁]
  rw [bind_of_ok hrun₂]
  simp only [bind_of_ok hrun₃]
  rw [bind_of_ok hrun₄, bind_of_ok hfields]

/-- `open` opens the inode and leaves all inodes as they are, the directories among them. -/
def Opens (ninodes : ℕ) (fs : QuietState) (path : CString) (omode : ℕ) (i : Inum) : Prop :=
  ∃ fuel u f, sysOpen ninodes fuel path omode true fs.toFsState = .ok (.opened f, u) ∧ f.ip = i ∧
    u.inode = fs.inode

theorem openFile_opens (hu : Holds fs (i ::ₘ 0) (insert i ∅) u) (omode : ℕ) :
    ∃ f v, openFile i omode true u = .ok (.opened f, v) ∧ f.ip = i ∧ v.inode = fs.inode := by
  obtain ⟨v, hrun, hv⟩ := iunlock_returns (Multiset.mem_cons_self i 0) (Finset.notMem_empty i) u hu
  exact ⟨_, v, bind_of_ok hrun, rfl, hv.inode⟩

theorem opens_existing (hnamei : namei fuel path fs.toFsState = .ok (some i, t))
    (hfile : (fs.inode i).type = .file) (hmode : mode &&& O_CREATE = 0) :
    Opens ninodes fs path mode i := by
  obtain ⟨u, hu, -, hcall⟩ := @sysOpen_existing fs i fuel path ninodes t mode hmode true hnamei
  obtain ⟨f, v, hopen, hf, hv⟩ := openFile_opens hu mode
  refine ⟨fuel, v, f, ?_, hf, hv⟩
  rw [hcall, if_neg (by simp [hfile]), if_neg (by simp [hfile]), hopen]

theorem or_create_ne (mode : ℕ) : (mode ||| O_CREATE) &&& O_CREATE ≠ 0 := by
  have hbit : ((mode ||| O_CREATE) &&& O_CREATE).testBit 9 = true := by
    rw [Nat.testBit_and, Nat.testBit_or, show O_CREATE.testBit 9 = true by decide, Bool.or_true,
      Bool.and_true]
  intro hzero
  rw [hzero, Nat.zero_testBit] at hbit
  exact absurd hbit Bool.false_ne_true

/-- What `open` with `O_CREATE` does once `create` has returned. -/
theorem sysOpen_create (mode : ℕ) (s : FsState) :
    sysOpen ninodes fuel path (mode ||| O_CREATE) true s =
      (create ninodes fuel path .file >>= fun
        | none => return .notFound
        | some ip => openFile ip (mode ||| O_CREATE) true) s := by
  exact congrFun (if_pos (or_create_ne mode)) s

theorem components_ne_nil (hresolves : fs.names.Resolves (fs.start path) (components path.bytes)
    (some i)) (hfile : (fs.inode i).type = .file) : components path.bytes ≠ [] := by
  intro hnil
  rw [hnil] at hresolves
  cases hresolves
  have hdir : (fs.inode (fs.start path)).type = .dir := by
    simp only [QuietState.start, FsState.origin]
    split
    · exact fs.root_dir
    · exact fs.cwd_dir
  simp [hdir] at hfile

/-- A file that the last component names itself is opened with `O_CREATE`, too. -/
theorem opens_created (hnamei : namei fuel path fs.toFsState = .ok (some i, t))
    (hfile : (fs.inode i).type = .file)
    (hend : ¬∃ l, fs.names.EndsInLink (fs.start path) (components path.bytes) l) :
    Opens ninodes fs path (mode ||| O_CREATE) i := by
  obtain ⟨-, -, hresolves, -⟩ := namei_arrives hnamei
  obtain ⟨s, hs, -, hnamex⟩ := exists_loop fs path
  obtain ⟨p, v, hloop, hret⟩ := exists_of_bind_ok hnamei
  obtain ⟨hp, rfl⟩ := Prod.mk.inj (Except.ok.inj hret)
  obtain ⟨r, name⟩ := p
  obtain rfl : r = some i := hp
  rw [hnamex] at hloop
  obtain ⟨e, elem, u, hrun, hread, hentry⟩ := exists_parent_run (start_live fs path) hs
    (components_ne_nil hresolves hfile) hloop
  obtain ⟨hu, before, hparent⟩ := namexLoop_parent (start_live fs path) hs hrun
  have hnode : fs.names.entry e (nameOf elem) = some (.inl i) := by
    rcases hentry with hentry | ⟨k, hentry⟩
    · exact hentry
    · exact absurd ⟨_, before, _, e, hparent.path_eq, hparent.resolves, hentry⟩ hend
  obtain ⟨hchild, -⟩ := node_of_entry hnode
  obtain ⟨w, hw, hcreate⟩ := create_existing ((hnamex fuel true).trans hrun) hu hparent.dir hchild
    (hread.room i hchild) (hread.live i hchild) ninodes .file
  rw [if_pos ⟨rfl, hfile⟩] at hcreate
  obtain ⟨f, x, hopen, hf, hx⟩ := openFile_opens hw (mode ||| O_CREATE)
  refine ⟨fuel, x, f, ?_, hf, hx⟩
  rw [sysOpen_create, bind_of_ok hcreate]
  exact hopen

/-- A link at the end of the path is not followed by `create`. -/
theorem create_link (hend : ∃ l, fs.names.EndsInLink (fs.start path) (components path.bytes) l)
    {r : Option Inum} (hrun : create ninodes fuel path .file fs.toFsState = .ok (r, t)) :
    r = none := by
  obtain ⟨s, hs, -, hnamex⟩ := exists_loop fs path
  obtain ⟨⟨r', elem⟩, u, hparent, hrest⟩ := exists_of_bind_ok hrun
  cases r' with
  | none => exact (Prod.mk.inj (Except.ok.inj hrest)).1.symm
  | some e =>
    have hloop := (hnamex fuel true).symm.trans hparent
    obtain ⟨hu, before, hpar⟩ := namexLoop_parent (start_live fs path) hs hloop
    obtain ⟨l, before', c, e', hsplit, hbefore, hentry⟩ := hend
    rw [hpar.path_eq] at hsplit
    obtain ⟨rfl, hc⟩ := List.append_inj' hsplit rfl
    obtain rfl := Option.some.inj (hpar.resolves.unique hbefore)
    obtain rfl := (List.cons.inj hc).1
    obtain ⟨-, hchild, hsym, -⟩ := link_of_entry hentry
    by_cases hroom : fs.HasRoom (e ::ₘ 0) l.2
    · obtain ⟨v, hv, hcreate⟩ := create_existing hparent hu hpar.dir hchild hroom
        (by simp [hsym]) ninodes .file
      rw [if_neg (by simp [hsym])] at hcreate
      obtain ⟨w, hput, -⟩ :=
        iunlockput_returns (Finset.notMem_empty l.2) (by simp [hsym]) v hv
      rw [hcreate, bind_of_ok hput] at hrun
      exact (Prod.mk.inj (Except.ok.inj hrun)).1.symm
    · have hlookup : (fs.inode e).lookup (nameOf elem) = some l.2 := by
        rwa [← child_of_dir hpar.dir]
      obtain ⟨u₁, hlock, hu₁⟩ := ilock_returns (Multiset.mem_cons_self e 0)
        (Finset.notMem_empty e) (dir_live hpar.dir) u hu
      obtain ⟨e', hfails, -⟩ := dirlookup_fails hpar.dir hlookup hroom u₁ hu₁
      simp only [bind_of_ok hlock, bind_of_error hfails] at hrest
      exact nomatch hrest

theorem not_opens_created
    (hend : ∃ l, fs.names.EndsInLink (fs.start path) (components path.bytes) l) :
    ¬Opens ninodes fs path (mode ||| O_CREATE) i := by
  rintro ⟨fuel', u, f, hopen, -⟩
  rw [sysOpen_create] at hopen
  obtain ⟨r, v, hcreate, hrest⟩ := exists_of_bind_ok hopen
  obtain rfl := create_link hend hcreate
  exact nomatch (Prod.mk.inj (Except.ok.inj hrest)).1

/-- `open` reaches the same file with and without `O_CREATE`, and creates nothing, if and only if
the path does not end in a link. -/
theorem open_create_same_iff (hnamei : namei fuel path fs.toFsState = .ok (some i, t))
    (hfile : (fs.inode i).type = .file) (hmode : mode &&& O_CREATE = 0) :
    (Opens ninodes fs path mode i ∧ Opens ninodes fs path (mode ||| O_CREATE) i) ↔
      ¬∃ l, fs.names.EndsInLink (fs.start path) (components path.bytes) l := by
  constructor
  · exact fun hopens hend ↦ not_opens_created hend hopens.2
  · intro hend
    exact ⟨opens_existing hnamei hfile hmode, opens_created hnamei hfile hend⟩

end Files

/-- The link `l` to the file `f` is opened, but not with `O_CREATE`. -/
theorem open_create_misses_link :
    ¬∀ ninodes (fs : QuietState) path mode fuel i t,
      namei fuel path fs.toFsState = .ok (some i, t) → (fs.inode i).type = .file →
      mode &&& O_CREATE = 0 →
      Opens ninodes fs path mode i ∧ Opens ninodes fs path (mode ||| O_CREATE) i := by
  intro hclaim
  have hrun : ((namei 3 (.ofBytes [108]) (linkState 102).toFsState).toOption.map Prod.fst) =
      some (some 3) := by
    decide +kernel
  obtain ⟨t, ht⟩ := exists_ok_of_run hrun
  refine not_opens_created ?_ (hclaim 10 (linkState 102) _ O_RDONLY 3 3 t ht rfl (by decide)).2
  exact ⟨(1, 2), [], nameOf [108], 1, by decide, .nil 1, by decide +kernel⟩

/-- The file `f` itself is opened both ways. -/
theorem open_create_same_iff_file :
    Opens 10 (linkState 102) (.ofBytes [102]) O_RDWR 3 ∧
      Opens 10 (linkState 102) (.ofBytes [102]) (O_RDWR ||| O_CREATE) 3 := by
  have hrun : ((namei 3 (.ofBytes [102]) (linkState 102).toFsState).toOption.map Prod.fst) =
      some (some 3) := by
    decide +kernel
  obtain ⟨t, ht⟩ := exists_ok_of_run hrun
  refine (open_create_same_iff ht rfl (by decide)).mpr ?_
  rintro ⟨l, before, c, e, hsplit, hbefore, hentry⟩
  have hpath : components (CString.ofBytes [102]).bytes = [] ++ [nameOf [102]] := by decide
  rw [hpath] at hsplit
  obtain ⟨rfl, hc⟩ := List.append_inj' hsplit rfl
  obtain rfl := Option.some.inj (hbefore.unique (.nil 1))
  obtain rfl := (List.cons.inj hc).1
  have hnode : (linkState 102).names.entry 1 (nameOf [102]) = some (.inl 3) := by decide +kernel
  simp [hnode] at hentry

end CS537.FileSystem
