import CS537.FileSystem.Creation
import CS537.FileSystem.Parents
import CS537.FileSystem.Returns

/-!
# Creating symbolic links

`symlink` accepts targets that do not fit into the buffer of `namex` together with a terminator.
A shorter target is what every later resolution of the link goes on with, from the directory that
holds the link.
-/

namespace CS537.FileSystem

open Foundation

variable {fs ts : QuietState} {dp i : Inum} {name : List UInt8} {new : Inode}

/-! ## Names after an inode has been created -/

namespace Created

theorem ne (h : Created fs dp name i new ts) : dp ≠ i := by
  rintro rfl
  simpa [h.free] using h.dir_before

/-- No inode in use but the directory has changed. -/
theorem others_live (h : Created fs dp name i new ts) {j : Inum} (hlive : (fs.inode j).type ≠ .free)
    (hj : j ≠ dp) : ts.inode j = fs.inode j := by
  refine h.others j ?_ hj
  rintro rfl
  exact hlive h.free

theorem type_eq (h : Created fs dp name i new ts) {j : Inum}
    (hlive : (fs.inode j).type ≠ .free) : (ts.inode j).type = (fs.inode j).type := by
  by_cases hj : j = dp
  · rw [hj, h.dir, h.dir_before]
  · rw [h.others_live hlive hj]

theorem child_self (h : Created fs dp name i new ts) : ts.child dp (nameOf name) = some i := by
  rw [child_of_dir h.dir, h.lookup_self]

theorem child_eq (h : Created fs dp name i new ts) {d j : Inum} {c : CString}
    (hj : fs.child d c = some j) : ts.child d c = some j := by
  have hdir := dir_of_child hj
  rw [child_of_dir hdir] at hj
  rw [child_of_dir (by rw [h.type_eq (dir_live hdir), hdir])]
  by_cases hd : d = dp
  · rw [hd] at hj ⊢
    rw [h.lookup_of_ne c, hj]
    rintro rfl
    simp [h.lookup_none] at hj
  · rw [h.others_live (dir_live hdir) hd, hj]

/-- What a name in use leads to it leads to afterwards. -/
theorem inode_of_sym (h : Created fs dp name i new ts) {j : Inum} (hsym : (fs.inode j).type = .sym) :
    ts.inode j = fs.inode j := by
  refine h.others_live (by simp [hsym]) ?_
  rintro rfl
  simp [h.dir_before] at hsym

theorem node_eq (h : Created fs dp name i new ts) {d j : Inum} {c : CString}
    (hentry : fs.names.entry d c = some (.inl j)) (hlive : (fs.inode j).type ≠ .free) :
    ts.names.entry d c = some (.inl j) := by
  obtain ⟨hchild, hsym⟩ := node_of_entry hentry
  simp [FsState.names, h.child_eq hchild, h.type_eq hlive, hsym]

theorem link_eq (h : Created fs dp name i new ts) {d : Inum} {c : CString} {l : Inum × Inum}
    (hentry : fs.names.entry d c = some (.inr l)) :
    ts.names.entry d c = some (.inr l) ∧ ts.names.target l = fs.names.target l := by
  obtain ⟨rfl, hchild, hsym, hsize⟩ := link_of_entry hentry
  have hsame := h.inode_of_sym hsym
  constructor
  · simp [FsState.names, h.child_eq hchild, hsame, hsym, hsize]
  · simp only [FsState.names, FsState.targetOf, hsame]

/-- A name that could be read can be read afterwards. -/
theorem safe (h : Created fs dp name i new ts) {held : List Inum} {d j : Inum} {c : CString}
    {rest : List CString} (hchild : fs.child d c = some j) (hsafe : Safe fs ⟨held, d, c, rest⟩)
    (hlink : ∀ l, ts.names.entry d c = some (.inr l) →
      ¬ts.names.Resolves (ts.names.target l).1 (ts.names.target l).2 none) :
    Safe ts ⟨held, d, c, rest⟩ := by
  have hroom := hsafe.room j hchild
  have hlive := hsafe.live j hchild
  refine safe_here (h.child_eq hchild) ?_ ?_ fun l hl hnone ↦ absurd hnone (hlink l hl)
  · simpa only [QuietState.HasRoom, h.refs] using hroom
  · rwa [h.type_eq hlive]

/-- A walk that came to an inode comes to it afterwards. -/
theorem walk_eq (h : Created fs dp name i new ts) {held : List Inum} {d e : Inum}
    {path : List CString} (hr : fs.names.Resolves d path (some e))
    (hsafe : AllSafe fs held d path) :
    ts.names.Resolves d path (some e) ∧ AllSafe ts held d path := by
  generalize hend : some e = r at hr
  induction hr generalizing held e with
  | nil d =>
    obtain rfl := Option.some.inj hend
    exact ⟨.nil e, fun v hv ↦ absurd hv NameSpace.not_visits_nil⟩
  | missing => simp at hend
  | node hentry _ ih =>
    have hhere := hsafe _ .here
    obtain ⟨hchild, -⟩ := node_of_entry hentry
    have hentry' := h.node_eq hentry (hhere.live _ hchild)
    obtain ⟨hrest, hrestSafe⟩ := ih (fun v hv ↦ hsafe v (.node hentry hv)) hend
    refine ⟨.node hentry' hrest, ?_⟩
    rw [AllSafe, NameSpace.forall_visits_node hentry']
    exact ⟨h.safe hchild hhere (by simp [hentry']), hrestSafe⟩
  | link hentry htarget _ ihtarget ih =>
    have hhere := hsafe _ .here
    obtain ⟨-, hchild, -, -⟩ := link_of_entry hentry
    obtain ⟨hentry', hsame⟩ := h.link_eq hentry
    obtain ⟨htarget', htargetSafe⟩ := ihtarget (fun v hv ↦ hsafe v (.inside hentry hv)) rfl
    obtain ⟨hrest, hrestSafe⟩ := ih (fun v hv ↦ hsafe v (.after hentry htarget hv)) hend
    rw [← hsame] at htarget' htargetSafe
    refine ⟨.link hentry' htarget' hrest, (allSafe_link_iff hentry' htarget').mpr
      ⟨h.safe hchild hhere fun l hl hnone ↦ ?_, htargetSafe, hrestSafe⟩⟩
    obtain rfl := Sum.inr.inj (Option.some.inj (hentry'.symm.trans hl))
    exact absurd (htarget'.unique hnone) (Option.some_ne_none _)
  | dangling => simp at hend

end Created

/-! ## What `symlink` has done -/

section Symlink

variable {ninodes fuel : ℕ} {target linkName : CString} {s t : FsState} {type : InodeType}

theorem Created.writeInode (h : Created fs dp name i new ts) {off : ℕ} {src : List UInt8} {hoff}
    {hmax} {hlive} :
    Created fs dp name i ((ts.inode i).write off src hoff hmax)
      (ts.writeInode i off src hoff hmax hlive) where
  free := h.free
  room := h.room
  refs := h.refs
  cwd := h.cwd
  new := QuietState.writeInode_self
  dir := by rw [QuietState.writeInode_of_ne h.ne, h.dir]
  dir_before := h.dir_before
  lookup_self := by rw [QuietState.writeInode_of_ne h.ne, h.lookup_self]
  lookup_none := h.lookup_none
  lookup_of_ne c hc := by rw [QuietState.writeInode_of_ne h.ne, h.lookup_of_ne c hc]
  others j hji hjdp := by rw [QuietState.writeInode_of_ne hji, h.others j hji hjdp]

/-- The locks and the references of the calls are given back. -/
theorem Created.quiet (h : Created fs dp name i new ts) (ht : Holds ts 0 ∅ t) :
    Created fs dp name i new ht.quiet where
  free := h.free
  room := h.room
  refs := by rw [← h.refs, ← Multiset.zero_add ts.refs, ← ht.refs]; rfl
  cwd := by rw [← h.cwd, ← ht.cwd]; rfl
  new := by rw [← h.new, ← ht.inode]; rfl
  dir := by rw [← h.dir, ← ht.inode]; rfl
  dir_before := h.dir_before
  lookup_self := by rw [← h.lookup_self, ← ht.inode]; rfl
  lookup_none := h.lookup_none
  lookup_of_ne c hc := by rw [← h.lookup_of_ne c hc, ← ht.inode]; rfl
  others j hji hjdp := by rw [← h.others j hji hjdp, ← ht.inode]; rfl

/-- When `create` returns a new inode, `nameiparent` has found the directory that holds it. -/
theorem create_link_holds (hninodes : ninodes ≤ 65536)
    (hrun : create ninodes fuel linkName .sym fs.toFsState = .ok (some i, t)) :
    ∃ dp name u ts, nameiparent fuel linkName fs.toFsState = .ok ((some dp, name), u) ∧
      Created fs dp name i ((newInode .sym).setNlink 1) ts ∧ Holds ts (i ::ₘ 0) (insert i ∅) t := by
  obtain ⟨⟨r, name⟩, u, hparent, hrest⟩ := exists_of_bind_ok hrun
  cases r with
  | none => exact nomatch hrest
  | some dp =>
    obtain ⟨s, hs, -, hnamex⟩ := exists_loop fs linkName
    have hloop := (hnamex fuel true).symm.trans hparent
    obtain ⟨hu, before, hpar⟩ := namexLoop_parent (start_live fs linkName) hs hloop
    obtain ⟨u₁, hlock, hu₁⟩ := ilock_returns (Multiset.mem_cons_self dp 0)
      (Finset.notMem_empty dp) (dir_live hpar.dir) u hu
    simp only [bind_of_ok hlock] at hrest
    obtain ⟨found, u₂, hlookup, hfound⟩ := exists_of_bind_ok hrest
    cases found with
    | some next =>
      obtain ⟨⟨⟩, u₃, -, hrest⟩ := exists_of_bind_ok hfound
      obtain ⟨ip, u₄, -, hrest⟩ := exists_of_bind_ok hrest
      obtain ⟨inode, u₅, -, hrest⟩ := exists_of_bind_ok hrest
      rw [if_neg (by simp)] at hrest
      obtain ⟨⟨⟩, u₆, -, hret⟩ := exists_of_bind_ok hrest
      exact nomatch (Prod.mk.inj (Except.ok.inj hret)).1
    | none =>
      have hdir : (u₁.inode dp).type = .dir := by rw [hu₁.inode, hpar.dir]
      obtain ⟨hnone, hwhole, rfl⟩ := dirlookup_of_ok_none hdir hlookup
      rw [hu₁.inode] at hnone hwhole
      obtain ⟨ip, u₃, hnew, hret⟩ := exists_of_bind_ok hfound
      obtain ⟨hip, rfl⟩ := Prod.mk.inj (Except.ok.inj hret)
      obtain rfl := Option.some.inj hip
      obtain ⟨ts, hcreated, hts⟩ :=
        createNew_holds hninodes (by simp) (by simp) hu₁ hpar.dir hnone hwhole hnew
      exact ⟨dp, name, u, ts, hparent, hcreated, hts⟩

/-- The inode of a link that has just been created. -/
def linkTo (target : CString) (hlen : target.bytes.length ≤ MAXFILE * BSIZE) : Inode :=
  ⟨.sym, 1, target.bytes, hlen⟩

/-- The writing starts at the beginning of the new inode, which is empty. -/
theorem writei_new {src : List UInt8} {n : Option ℕ} (hlen : src.length ≤ MAXFILE * BSIZE)
    (hrun : writei i src 0 s = .ok (n, t)) : n = some src.length := by
  rw [writei, dif_neg (by omega), dif_neg (by omega)] at hrun
  exact (Prod.mk.inj (Except.ok.inj hrun)).1.symm

theorem sysSymlink_holds (hninodes : ninodes ≤ 65536) (hlen : target.bytes.length ≤ MAXFILE * BSIZE)
    (hrun : sysSymlink ninodes fuel target linkName fs.toFsState = .ok (true, t)) :
    ∃ dp name i u ts, nameiparent fuel linkName fs.toFsState = .ok ((some dp, name), u) ∧
      Created fs dp name i (linkTo target hlen) ts ∧ ts.toFsState = t := by
  obtain ⟨r, s₁, hcreate, hrest⟩ := exists_of_bind_ok hrun
  cases r with
  | none => exact nomatch (Prod.mk.inj (Except.ok.inj hrest)).1
  | some i =>
    obtain ⟨dp, name, u, ts, hparent, hcreated, hts⟩ := create_link_holds hninodes hcreate
    obtain ⟨n, s₂, hwrite, hrest⟩ := exists_of_bind_ok hrest
    obtain ⟨⟨⟩, s₃, hput, hret⟩ := exists_of_bind_ok hrest
    obtain ⟨-, rfl⟩ := Prod.mk.inj (Except.ok.inj hret)
    obtain rfl := writei_new hlen hwrite
    have hlive : (ts.inode i).type ≠ .free := by
      rw [hcreated.new]
      exact nofun
    obtain ⟨-, hoff, hmax, hs₂⟩ := writei_holds hts hlive hwrite
    have hwritten : (ts.inode i).write 0 target.bytes hoff hmax = linkTo target hlen := by
      simp only [hcreated.new]
      simp [Inode.write, linkTo, newInode, Inode.setNlink]
    have hlinked := @Created.writeInode fs ts dp i name _ hcreated 0 target.bytes hoff hmax hlive
    rw [hwritten] at hlinked
    obtain ⟨u₃, hput', hu₃⟩ := iunlockput_returns (Finset.notMem_empty i)
      (by rw [QuietState.writeInode_self]; exact hlive) s₂ hs₂
    obtain rfl := (Prod.mk.inj (Except.ok.inj (hput.symm.trans hput'))).2
    exact ⟨dp, name, i, u, hu₃.quiet, hparent, hlinked.quiet hu₃, rfl⟩

/-! ## The link that has been created -/

/-- `symlink` has stored the target: a walk of the link goes on with it, and `namei` of the link
returns what walking the target from the directory that holds the link does. -/
def LinkFollowed (fuel : ℕ) (s t : FsState) (target linkName : CString) : Prop :=
  ∃ dp name i u, nameiparent fuel linkName s = .ok ((some dp, name), u) ∧
    t.child dp (nameOf name) = some i ∧ (t.inode i).type = .sym ∧
    linkTarget (t.inode i) = some target ∧
    ∀ r, NameiReturns t linkName r ↔
      ∃ fuel v, walk fuel (some dp) target { t with refs := dp ::ₘ t.refs } = .ok (r, v)

theorem ofBytes_bytes (target : CString) : CString.ofBytes target.bytes = target := by
  simpa using ofBytes_append_zeros target 0

theorem targetOf_created {hlen : target.bytes.length ≤ MAXFILE * BSIZE}
    (h : Created fs dp name i (linkTo target hlen) ts) : ts.targetOf i = target := by
  rw [FsState.targetOf, h.new]
  exact ofBytes_bytes target

theorem linkTarget_created {hlen : target.bytes.length ≤ MAXFILE * BSIZE}
    (h : Created fs dp name i (linkTo target hlen) ts) :
    linkTarget (ts.inode i) = if target.bytes.length < sizeofBuf then some target else none := by
  rw [linkTarget_eq, targetOf_created h, h.new]
  rfl

theorem entry_created {hlen : target.bytes.length ≤ MAXFILE * BSIZE}
    (h : Created fs dp name i (linkTo target hlen) ts) (hshort : target.bytes.length < sizeofBuf) :
    ts.names.entry dp (nameOf name) = some (.inr (dp, i)) := by
  have hsize : (linkTo target hlen).size < sizeofBuf := hshort
  simp only [FsState.names, h.child_self, Option.bind_some, h.new, hsize, if_true]
  rfl

/-- At a link that is the last name of a path the walk is safe if that of the target is. -/
theorem allSafe_created {hlen : target.bytes.length ≤ MAXFILE * BSIZE}
    (h : Created fs dp name i (linkTo target hlen) ts) (hshort : target.bytes.length < sizeofBuf) :
    AllSafe ts [] dp [nameOf name] ↔
      AllSafe ts [dp] (FsState.origin dp target) (components target.bytes) := by
  have hentry := entry_created h hshort
  have hroom : ts.HasRoom (dp ::ₘ (([] : List Inum) : Multiset Inum)) i := by
    have hroom := h.room
    simpa only [QuietState.HasRoom, h.refs, Multiset.coe_nil] using hroom
  have hhere : Safe ts ⟨[], dp, nameOf name, []⟩ :=
    safe_here h.child_self hroom (by rw [h.new]; simp [linkTo]) fun _ _ _ ↦ rfl
  have htarget : ts.names.target (dp, i) =
      (FsState.origin dp target, components target.bytes) := by
    simp only [FsState.names, targetOf_created h]
  rw [AllSafe, NameSpace.forall_visits_link hentry, and_iff_right hhere, htarget]
  exact and_iff_left fun j _ v hv ↦ absurd hv NameSpace.not_visits_nil

/-- The walk of the target begins in the directory that holds the link. -/
theorem namei_link_iff {hlen : target.bytes.length ≤ MAXFILE * BSIZE} {u : FsState}
    (hparent : nameiparent fuel linkName fs.toFsState = .ok ((some dp, name), u))
    (h : Created fs dp name i (linkTo target hlen) ts)
    (hshort : target.bytes.length < sizeofBuf) (r : Option Inum) :
    NameiReturns ts.toFsState linkName r ↔ ∃ fuel v,
      walk fuel (some dp) target { ts.toFsState with refs := dp ::ₘ ts.refs } = .ok (r, v) := by
  obtain ⟨s, hs, -, hnamex⟩ := exists_loop fs linkName
  have hloop := (hnamex fuel true).symm.trans hparent
  obtain ⟨hu, before, hpar⟩ := namexLoop_parent (start_live fs linkName) hs hloop
  have hsafe := @allSafe_of_run fs [] _ true _ _ _ _ _ _ _ (start_live fs linkName) hs hloop
  have hbefore : lookedUp true (components linkName.bytes) = before := by
    simp [lookedUp, hpar.path_eq]
  rw [hbefore] at hsafe
  obtain ⟨hresolves, hallSafe⟩ := h.walk_eq hpar.resolves hsafe
  have hstart : FsState.origin ts.cwd linkName = fs.start linkName := by
    rw [h.cwd]
  have htarget : ts.names.target (dp, i) =
      (FsState.origin dp target, components target.bytes) := by
    simp only [FsState.names, targetOf_created h]
  have hdir : (ts.inode dp).type ≠ .free := dir_live h.dir
  rw [nameiReturns_iff, ResolvesTo, NameiSafe, hstart, hpar.path_eq, hresolves.append_iff,
    allSafe_append_iff hresolves, and_iff_right hallSafe, allSafe_created h hshort,
    NameSpace.resolves_link_last_iff (entry_created h hshort), htarget]
  exact (@walk_returns_iff ts [] dp _ r target hdir (ts.holds.cons dp)).symm

theorem length_lt_of_linkFollowed (hninodes : ninodes ≤ 65536)
    (hlen : target.bytes.length ≤ MAXFILE * BSIZE)
    (hrun : sysSymlink ninodes fuel target linkName fs.toFsState = .ok (true, t))
    (h : LinkFollowed fuel fs.toFsState t target linkName) : target.bytes.length < sizeofBuf := by
  obtain ⟨dp, name, i, u, ts, hparent, hcreated, rfl⟩ := sysSymlink_holds hninodes hlen hrun
  obtain ⟨dp', name', i', u', hparent', hchild, -, htarget, -⟩ := h
  obtain ⟨hfound, -⟩ := Prod.mk.inj (Except.ok.inj (hparent.symm.trans hparent'))
  obtain ⟨hdp, rfl⟩ := Prod.mk.inj hfound
  obtain rfl := Option.some.inj hdp
  obtain rfl := Option.some.inj (hcreated.child_self.symm.trans hchild)
  by_contra hlong
  rw [linkTarget_created hcreated, if_neg hlong] at htarget
  exact nomatch htarget

theorem linkFollowed_of_lt (hninodes : ninodes ≤ 65536) (hshort : target.bytes.length < sizeofBuf)
    (hrun : sysSymlink ninodes fuel target linkName fs.toFsState = .ok (true, t)) :
    LinkFollowed fuel fs.toFsState t target linkName := by
  have hlen : target.bytes.length ≤ MAXFILE * BSIZE := hshort.le.trans (by decide)
  obtain ⟨dp, name, i, u, ts, hparent, hcreated, rfl⟩ := sysSymlink_holds hninodes hlen hrun
  refine ⟨dp, name, i, u, hparent, hcreated.child_self, by rw [hcreated.new]; rfl, ?_,
    namei_link_iff hparent hcreated hshort⟩
  rw [linkTarget_created hcreated, if_pos hshort]

/-- Among the targets of at most 512 bytes, those that leave room for a terminator in the buffer
of `namex` are followed. -/
theorem symlink_followed_iff (hninodes : ninodes ≤ 65536) (hlen : target.bytes.length ≤ 512)
    (hrun : sysSymlink ninodes fuel target linkName fs.toFsState = .ok (true, t)) :
    LinkFollowed fuel fs.toFsState t target linkName ↔ target.bytes.length < 512 := by
  have hmax : target.bytes.length ≤ MAXFILE * BSIZE := hlen.trans (by decide)
  exact ⟨length_lt_of_linkFollowed hninodes hmax hrun,
    fun hshort ↦ linkFollowed_of_lt hninodes hshort hrun⟩

end Symlink

/-- The target of the link `a` to the file `f` is followed. -/
theorem symlink_followed_iff_file :
    ∃ t, LinkFollowed 3 (linkState 102).toFsState t (.ofBytes [102]) (.ofBytes [97]) := by
  have hrun : (sysSymlink 10 3 (.ofBytes [102]) (.ofBytes [97])
      (linkState 102).toFsState).toOption.map Prod.fst = some true := by
    decide +kernel
  obtain ⟨t, ht⟩ := exists_ok_of_run hrun
  exact ⟨t, (symlink_followed_iff (by decide) (by decide) ht).mpr (by decide)⟩

/-- A target of 512 bytes. -/
def longTarget : CString := .ofBytes (List.replicate 512 97)

/-- The link to it is created, but it is not followed. -/
theorem symlink_loses_longest_target :
    ¬∀ ninodes fuel (target linkName : CString) (fs : QuietState) t, ninodes ≤ 65536 →
      1 ≤ target.bytes.length → target.bytes.length ≤ 512 →
      sysSymlink ninodes fuel target linkName fs.toFsState = .ok (true, t) →
      LinkFollowed fuel fs.toFsState t target linkName := by
  intro hclaim
  have hrun : (sysSymlink 10 3 longTarget (.ofBytes [97])
      (linkState 102).toFsState).toOption.map Prod.fst = some true := by
    decide +kernel
  have hlength : longTarget.bytes.length = 512 := by decide +kernel
  obtain ⟨t, ht⟩ := exists_ok_of_run hrun
  have hfollowed := hclaim 10 3 longTarget (.ofBytes [97]) (linkState 102) t (by decide) (by omega)
    hlength.le ht
  have hmax : longTarget.bytes.length ≤ MAXFILE * BSIZE := hlength.le.trans (by decide)
  have hlt := length_lt_of_linkFollowed (by decide) hmax ht hfollowed
  rw [hlength] at hlt
  exact absurd hlt (by decide)

/-! ## A link to itself -/

section Loop

variable {ts : QuietState} {i : Inum} {c : CString}

/-- A link in the root directory, which is also the current directory, to itself. -/
theorem not_resolves_self (hentry : ts.names.entry ROOTINO c = some (.inr (ROOTINO, i)))
    (htarget : ts.names.target (ROOTINO, i) = (ROOTINO, [c])) :
    ¬∃ r, ts.names.Resolves ROOTINO [c] r := by
  rw [NameSpace.exists_resolves_iff]
  intro h
  have hfollows : ts.names.Follows ROOTINO [c] (ROOTINO, i) := .here hentry
  have hneeds : ts.names.Needs (ROOTINO, i) (ROOTINO, i) := by
    rw [NameSpace.Needs, htarget]
    exact hfollows
  exact h (ROOTINO, i) ⟨_, hfollows, .refl⟩ (.single hneeds)

theorem visits_self (hentry : ts.names.entry ROOTINO c = some (.inr (ROOTINO, i)))
    (htarget : ts.names.target (ROOTINO, i) = (ROOTINO, [c])) {held : List Inum} {d : Inum}
    {path : List CString} {v : NameSpace.Visit Inum CString}
    (hv : ts.names.Visits held d path v) (hheld : ∀ j ∈ held, j = ROOTINO) (hd : d = ROOTINO)
    (hpath : path = [c]) :
    (∀ j ∈ v.held, j = ROOTINO) ∧ v.dir = ROOTINO ∧ v.name = c ∧ v.rest = [] := by
  induction hv with
  | here =>
    obtain ⟨rfl, rfl⟩ := List.cons.inj hpath
    exact ⟨hheld, hd, rfl, rfl⟩
  | node hnode =>
    obtain ⟨rfl, rfl⟩ := List.cons.inj hpath
    simp [hd, hentry] at hnode
  | inside hlink _ ih =>
    obtain ⟨rfl, rfl⟩ := List.cons.inj hpath
    rw [hd] at hlink
    obtain rfl := Sum.inr.inj (Option.some.inj (hentry.symm.trans hlink))
    rw [htarget] at ih
    exact ih (by simpa [hd] using hheld) rfl rfl
  | after _ _ hrest =>
    obtain ⟨rfl, rfl⟩ := List.cons.inj hpath
    exact absurd hrest NameSpace.not_visits_nil

/-- Each nested call finds the inodes that it needs in the cache. -/
theorem allSafe_self (hentry : ts.names.entry ROOTINO c = some (.inr (ROOTINO, i)))
    (htarget : ts.names.target (ROOTINO, i) = (ROOTINO, [c])) (hrefs : ts.refs = {ROOTINO}) :
    AllSafe ts [] ROOTINO [c] := by
  obtain ⟨-, hchild, hsym, -⟩ := link_of_entry hentry
  intro v hv
  obtain ⟨hheld, hdir, rfl, hrest⟩ := visits_self hentry htarget hv (by simp) rfl rfl
  obtain ⟨held, d, c, rest⟩ := v
  simp only at hheld hdir hrest
  subst hdir hrest
  refine safe_here hchild (.inr ?_) (by simp [hsym]) fun _ _ _ ↦ rfl
  have hsub : ((ROOTINO ::ₘ (held : Multiset Inum)) + ts.refs).toFinset ⊆ {ROOTINO} := by
    intro j hj
    rw [hrefs, Multiset.mem_toFinset, Multiset.mem_add, Multiset.mem_cons, Multiset.mem_coe,
      Multiset.mem_singleton] at hj
    rw [Finset.mem_singleton]
    rcases hj with (rfl | hj) | rfl
    · rfl
    · exact hheld j hj
    · rfl
  calc ((ROOTINO ::ₘ (held : Multiset Inum)) + ts.refs).toFinset.card
      ≤ ({ROOTINO} : Finset Inum).card := Finset.card_le_card hsub
    _ = 1 := Finset.card_singleton _
    _ < NINODE := by decide

end Loop

/-- After `symlink("a", "a")` no bound on the recursion is enough for the path `a`. -/
theorem namex_endless_after_symlink :
    ¬∀ ninodes fuel target linkName (fs : QuietState) t, ninodes ≤ 65536 →
      sysSymlink ninodes fuel target linkName fs.toFsState = .ok (true, t) →
      ∀ path nameiparent, ∃ fuel, namex fuel none path nameiparent t ≠ .error .outOfFuel := by
  intro hclaim
  have hrun : (sysSymlink 10 3 (.ofBytes [97]) (.ofBytes [97])
      (linkState 102).toFsState).toOption.map Prod.fst = some true := by
    decide +kernel
  obtain ⟨t, ht⟩ := exists_ok_of_run hrun
  obtain ⟨fuel, hfuel⟩ := hclaim 10 3 (.ofBytes [97]) (.ofBytes [97]) (linkState 102) t (by decide)
    ht (.ofBytes [97]) false
  obtain ⟨dp, name, i, u, ts, hparent, hcreated, rfl⟩ :=
    sysSymlink_holds (by decide) (by decide) ht
  obtain ⟨s, hs, -, hnamex⟩ := exists_loop (linkState 102) (.ofBytes [97])
  obtain ⟨-, before, hpar⟩ := namexLoop_parent (start_live _ _) hs
    ((hnamex 3 true).symm.trans hparent)
  have hpath : components (CString.ofBytes [97]).bytes = [] ++ [nameOf [97]] := by decide
  obtain ⟨hbefore, hname⟩ := List.append_inj' (hpath.symm.trans hpar.path_eq) rfl
  obtain rfl : dp = ROOTINO := by
    have hresolves := hpar.resolves
    rw [← hbefore] at hresolves
    exact Option.some.inj (hresolves.unique (.nil ROOTINO))
  have hentry := entry_created hcreated (by decide)
  rw [← (List.cons.inj hname).1] at hentry
  have htarget : ts.names.target (ROOTINO, i) = (ROOTINO, [nameOf [97]]) := by
    simp only [FsState.names, targetOf_created hcreated]
    decide
  obtain ⟨s', hs', -, hloop⟩ := exists_loop ts (.ofBytes [97])
  have hstart : ts.start (.ofBytes [97]) = ROOTINO := by
    simp only [QuietState.start, hcreated.cwd]
    decide
  rw [hloop, hstart] at hfuel
  rw [hstart] at hs'
  refine hfuel (@namexLoop_outOfFuel ts ROOTINO [nameOf [97]] _ [] fuel s' [] false (by decide)
    (not_resolves_self hentry htarget) (allSafe_self hentry htarget hcreated.refs) ?_ hs')
  rw [ts.root_dir]
  simp

end CS537.FileSystem
