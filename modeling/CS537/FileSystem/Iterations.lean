import CS537.FileSystem.Resolve
import Mathlib.Data.List.DropRight

/-!
# Iterations of `namex`

From a state between two system calls each iteration of the loop of `namex` goes one of four ways:
the name leads nowhere, it leads to an inode, it leads to a link, which is resolved first, or the
kernel panics.  A call that returns has therefore come to what the path resolves to, and the global
flag `is_sym` says whether a component of the path itself was a link.
-/

namespace CS537.FileSystem

open Foundation

variable {fs : QuietState} {held : Multiset Inum} {d i : Inum} {c : CString}
  {walk : Option Inum → CString → Kernel (Option Inum)}

/-! ## The flag -/

theorem iget_keeps (i : Inum) : Keeps FsState.isSym (iget i) := by
  intro s a t hrun
  unfold iget at hrun
  split at hrun
  · obtain ⟨rfl, rfl⟩ := Prod.mk.inj (Except.ok.inj hrun)
    rfl
  · split at hrun
    · obtain ⟨rfl, rfl⟩ := Prod.mk.inj (Except.ok.inj hrun)
      rfl
    · simp at hrun

theorem ilock_keeps (ip : Option Inum) : Keeps FsState.isSym (ilock ip) := by
  intro s a t hrun
  cases ip with
  | none => exact nomatch hrun
  | some i =>
    simp only [ilock] at hrun
    split at hrun
    · simp at hrun
    · split at hrun
      · simp at hrun
      · split at hrun
        · simp at hrun
        · obtain ⟨rfl, rfl⟩ := Prod.mk.inj (Except.ok.inj hrun)
          rfl

theorem iunlock_keeps (i : Inum) : Keeps FsState.isSym (iunlock i) := by
  intro s a t hrun
  unfold iunlock at hrun
  split at hrun
  · simp at hrun
  · obtain ⟨rfl, rfl⟩ := Prod.mk.inj (Except.ok.inj hrun)
    rfl

theorem iput_keeps (i : Inum) : Keeps FsState.isSym (iput i) := by
  intro s a t hrun
  unfold iput at hrun
  split at hrun
  · simp at hrun
  · split at hrun
    · obtain ⟨rfl, rfl⟩ := Prod.mk.inj (Except.ok.inj hrun)
      rfl
    · obtain ⟨rfl, rfl⟩ := Prod.mk.inj (Except.ok.inj hrun)
      rfl

theorem fields_keeps (i : Inum) : Keeps FsState.isSym (fields i) := by
  intro s a t hrun
  obtain ⟨rfl, rfl⟩ := Prod.mk.inj (Except.ok.inj hrun)
  rfl

theorem dirlookup_keeps (dp : Inum) (name : List UInt8) :
    Keeps FsState.isSym (dirlookup dp name) := by
  intro s found t hrun
  rcases dirlookup_cases hrun with ⟨-, rfl⟩ | ⟨inum, i, off, -, hget⟩
  · rfl
  · exact iget_keeps inum s i t hget

/-! ## One iteration -/

/-- The name can be looked up in the directory, and what is found can be locked. -/
structure Readable (fs : QuietState) (held : Multiset Inum) (d : Inum) (c : CString) : Prop where
  whole : (fs.inode d).type = .dir → fs.child d c = none → (fs.inode d).Whole
  room : ∀ i, fs.child d c = some i → fs.HasRoom (d ::ₘ held) i
  live : ∀ i, fs.child d c = some i → (fs.inode i).type ≠ .free

/-- What `namex` does when the call for the target of a link has returned. -/
def afterLink (d : Inum) (r : Option Inum) : Kernel Iteration := do
  setIsSym true
  iput d
  return .next r

/-- The ways an iteration can go that looks for `c` in `d`. -/
inductive IterationRuns (fs : QuietState) (held : Multiset Inum)
    (walk : Option Inum → CString → Kernel (Option Inum)) (d : Inum) (c : CString) (s : FsState) :
    Except Fault (Iteration × FsState) → Prop
  | nowhere {t : FsState} :
    fs.names.entry d c = none → Readable fs held d c → Holds fs held ∅ t →
    IterationRuns fs held walk d c s (.ok (.exit none, t))
  | node {i : Inum} {t : FsState} :
    fs.names.entry d c = some (.inl i) → Readable fs held d c → (fs.inode i).type ≠ .free →
    Holds fs (i ::ₘ held) ∅ t → t.isSym = s.isSym →
    IterationRuns fs held walk d c s (.ok (.next (some i), t))
  | link {i : Inum} {u : FsState} :
    fs.names.entry d c = some (.inr (d, i)) → Readable fs held d c →
    Holds fs (d ::ₘ held) ∅ u →
    IterationRuns fs held walk d c s ((walk (some d) (fs.targetOf i) >>= afterLink d) u)
  | panics {e : Fault} :
    ¬Readable fs held d c → e ≠ .outOfFuel → IterationRuns fs held walk d c s (.error e)

section Body

variable {name : List UInt8} {s : FsState}

theorem Readable.of_child (hchild : fs.child d c = some i) (hroom : fs.HasRoom (d ::ₘ held) i)
    (hlive : (fs.inode i).type ≠ .free) : Readable fs held d c where
  whole := by simp [hchild]
  room j hj := by
    rw [hchild] at hj
    rwa [← Option.some.inj hj]
  live j hj := by
    rw [hchild] at hj
    rwa [← Option.some.inj hj]

/-- A name that leads to an inode leaves the flag alone. -/
theorem namexBody_node (hdir : (fs.inode d).type = .dir)
    (hi : (fs.inode d).lookup (nameOf name) = some i) (hroom : fs.HasRoom (d ::ₘ held) i)
    (hlive : (fs.inode i).type ≠ .free) (hsym : (fs.inode i).type ≠ .sym) (b : Bool) :
    Returns (fun s ↦ Holds fs (d ::ₘ held) ∅ s ∧ s.isSym = b) (namexBody walk (some d) name false)
      (.next (some i)) (fun s ↦ Holds fs (i ::ₘ held) ∅ s ∧ s.isSym = b) := by
  obtain ⟨off, hlookup⟩ := dirlookup_returns (insert d ∅) hdir hi hroom
  have hlock : Returns (Holds fs (d ::ₘ held) ∅) (ilock (some d)) d
      (Holds fs (d ::ₘ held) (insert d ∅)) :=
    ilock_returns (Multiset.mem_cons_self d held) (Finset.notMem_empty d) (dir_live hdir)
  refine (hlock.keep (ilock_keeps _) b).bind
    (((fields_returns d).keep (fields_keeps d) b).bind ?_)
  simp only [hdir, ne_eq, not_true_eq_false, if_false]
  refine (hlookup.keep (dirlookup_keeps d name) b).bind ?_
  refine (iunlock_dir.keep (iunlock_keeps d) b).bind (((ilock_found hlive).keep
    (ilock_keeps _) b).bind (((fields_returns i).keep (fields_keeps i) b).bind ?_))
  simp only [if_neg hsym]
  have hunlock : Returns (Holds fs (i ::ₘ d ::ₘ held) (insert i ∅)) (iunlock i) ()
      (Holds fs (i ::ₘ d ::ₘ held) ∅) :=
    iunlock_returns (Multiset.mem_cons_self i _) (Finset.notMem_empty i)
  refine (hunlock.keep (iunlock_keeps i) b).bind ?_
  rw [Multiset.cons_swap]
  exact ((iput_returns (Finset.notMem_empty d) (dir_live hdir)).keep (iput_keeps d) b).bind
    (.pure _)

/-- The part of the body before the nested call. -/
theorem namexBody_link (hdir : (fs.inode d).type = .dir)
    (hi : (fs.inode d).lookup (nameOf name) = some i) (hroom : fs.HasRoom (d ::ₘ held) i)
    (hsym : (fs.inode i).type = .sym) (hshort : (fs.inode i).size < sizeofBuf)
    (hs : Holds fs (d ::ₘ held) ∅ s) :
    ∃ u, Holds fs (d ::ₘ held) ∅ u ∧ namexBody walk (some d) name false s =
      (walk (some d) (fs.targetOf i) >>= afterLink d) u := by
  have hlive : (fs.inode i).type ≠ .free := by simp [hsym]
  obtain ⟨off, hlookup⟩ := dirlookup_returns (insert d ∅) hdir hi hroom
  obtain ⟨s₁, hrun₁, hs₁⟩ := ilock_returns (Multiset.mem_cons_self d held)
    (Finset.notMem_empty d) (dir_live hdir) s hs
  obtain ⟨s₂, hrun₂, hs₂⟩ := fields_returns d s₁ hs₁
  obtain ⟨s₃, hrun₃, hs₃⟩ := hlookup s₂ hs₂
  obtain ⟨s₄, hrun₄, hs₄⟩ := iunlock_dir s₃ hs₃
  obtain ⟨s₅, hrun₅, hs₅⟩ := ilock_found hlive s₄ hs₄
  obtain ⟨s₆, hrun₆, hs₆⟩ := fields_returns i s₅ hs₅
  obtain ⟨u, hrun₇, hu⟩ := iunlockput_returns (Finset.notMem_empty i) hlive s₆ hs₆
  refine ⟨u, hu, ?_⟩
  rw [namexBody, bind_of_ok hrun₁, bind_of_ok hrun₂]
  simp only [hdir, ne_eq, not_true_eq_false, Bool.false_eq_true, if_false]
  rw [bind_of_ok hrun₃]
  change namexFound walk d i s₃ = _
  rw [namexFound, bind_of_ok hrun₄, bind_of_ok hrun₅, bind_of_ok hrun₆]
  simp only [if_pos hsym, linkTarget_eq, if_pos hshort]
  rw [bind_of_ok hrun₇]
  rfl

theorem IterationRuns.of_exit (hentry : fs.names.entry d c = none) (hread : Readable fs held d c)
    (hs : Holds fs (d ::ₘ held) ∅ s)
    (hbody : Returns (Holds fs (d ::ₘ held) ∅) (namexBody walk (some d) name false) (.exit none)
      (Holds fs held ∅)) :
    IterationRuns fs held walk d c s (namexBody walk (some d) name false s) := by
  obtain ⟨t, hrun, ht⟩ := hbody s hs
  rw [hrun]
  exact .nowhere hentry hread ht

theorem IterationRuns.of_fails (hread : ¬Readable fs held d c) (hs : Holds fs (d ::ₘ held) ∅ s)
    (hbody : Fails (Holds fs (d ::ₘ held) ∅) (namexBody walk (some d) name false)
      (· ≠ .outOfFuel)) :
    IterationRuns fs held walk d c s (namexBody walk (some d) name false s) := by
  obtain ⟨e, hrun, he⟩ := hbody s hs
  rw [hrun]
  exact .panics hread he

/-- A name that the directory does not have. -/
theorem namexBody_runs_missing (hlive : (fs.inode d).type ≠ .free) (hname : nameOf name = c)
    (hchild : fs.child d c = none) (hs : Holds fs (d ::ₘ held) ∅ s) :
    IterationRuns fs held walk d c s (namexBody walk (some d) name false s) := by
  have hentry : fs.names.entry d c = none := by simp [FsState.names, hchild]
  have hread (hwhole : (fs.inode d).type = .dir → (fs.inode d).Whole) : Readable fs held d c :=
    ⟨fun hdir _ ↦ hwhole hdir, by simp [hchild], by simp [hchild]⟩
  by_cases hdir : (fs.inode d).type = .dir
  · have hnone : (fs.inode d).lookup (nameOf name) = none := by rwa [hname, ← child_of_dir hdir]
    by_cases hwhole : (fs.inode d).Whole
    · exact .of_exit hentry (hread fun _ ↦ hwhole) hs (namexBody_missing hdir hnone hwhole)
    · exact .of_fails (fun h ↦ hwhole (h.whole hdir hchild)) hs
        (namexBody_dirlookup_fails hdir (dirlookup_short_fails hdir hnone hwhole))
  · exact .of_exit hentry (hread fun h ↦ absurd h hdir) hs (namexBody_notDir hlive hdir)

/-- A name that the directory has. -/
theorem namexBody_runs_found (hname : nameOf name = c) (hchild : fs.child d c = some i)
    (hs : Holds fs (d ::ₘ held) ∅ s) :
    IterationRuns fs held walk d c s (namexBody walk (some d) name false s) := by
  have hdir := dir_of_child hchild
  have hlookup : (fs.inode d).lookup (nameOf name) = some i := by rwa [hname, ← child_of_dir hdir]
  by_cases hroom : fs.HasRoom (d ::ₘ held) i
  · by_cases hfree : (fs.inode i).type = .free
    · exact .of_fails (fun h ↦ h.live i hchild hfree) hs
        (namexBody_found_fails hdir hlookup hroom (namexFound_free hfree))
    · have hread := Readable.of_child hchild hroom hfree
      by_cases hsym : (fs.inode i).type = .sym
      · by_cases hshort : (fs.inode i).size < sizeofBuf
        · have hentry : fs.names.entry d c = some (.inr (d, i)) := by
            simp [FsState.names, hchild, hsym, hshort]
          obtain ⟨u, hu, hrun⟩ := @namexBody_link fs held d i walk name s hdir hlookup hroom hsym
            hshort hs
          rw [hrun]
          exact .link hentry hread hu
        · have hentry : fs.names.entry d c = none := by
            simp [FsState.names, hchild, hsym, hshort]
          exact .of_exit hentry hread hs
            (namexBody_found hdir hlookup hroom (namexFound_tooLong hdir hsym hshort))
      · have hentry : fs.names.entry d c = some (.inl i) := by
          simp [FsState.names, hchild, hsym]
        obtain ⟨t, hrun, ht, hflag⟩ := @namexBody_node fs held d i walk name hdir hlookup hroom
          hfree hsym s.isSym s ⟨hs, rfl⟩
        rw [hrun]
        exact .node hentry hread hfree ht hflag
  · exact .of_fails (fun h ↦ hroom (h.room i hchild)) hs
      (namexBody_dirlookup_fails hdir (dirlookup_fails hdir hlookup hroom))

/-- Each iteration goes one of the four ways. -/
theorem namexBody_runs (walk : Option Inum → CString → Kernel (Option Inum))
    (hlive : (fs.inode d).type ≠ .free) (hname : nameOf name = c)
    (hs : Holds fs (d ::ₘ held) ∅ s) :
    IterationRuns fs held walk d c s (namexBody walk (some d) name false s) := by
  cases hchild : fs.child d c with
  | none => exact namexBody_runs_missing hlive hname hchild hs
  | some i => exact namexBody_runs_found hname hchild hs

end Body

/-! ## The components looked up -/

/-- The components of a path that `namex` looks up: the last one is left to the caller of
`nameiparent`. -/
def lookedUp (nameiparent : Bool) (path : List CString) : List CString :=
  if nameiparent then path.dropLast else path

section Elements

variable {nameiparent : Bool} {bytes elem tail : List UInt8} {rest : List CString}

/-- Behind an element there is another element or nothing. -/
theorem eq_nil_of_skipelem (hskip : skipelem bytes = some (elem, tail))
    (htail : components tail = []) : tail = [] := by
  have hnone := skipelem_of_nil htail
  have hdrop : tail.dropWhile isSlash = tail := by
    unfold skipelem at hskip
    split at hskip
    · simp at hskip
    · obtain ⟨-, rfl⟩ := Prod.mk.inj (Option.some.inj hskip)
      exact List.dropWhile_idempotent _ _
  unfold skipelem at hnone
  rw [hdrop] at hnone
  cases tail with
  | nil => rfl
  | cons b bs => simp at hnone

theorem exists_element (h : lookedUp nameiparent (components bytes) = c :: rest) :
    ∃ elem tail, skipelem bytes = some (elem, tail) ∧ nameOf elem = c ∧
      lookedUp nameiparent (components tail) = rest ∧ (nameiparent && tail.isEmpty) = false ∧
      components bytes = c :: components tail := by
  cases hpath : components bytes with
  | nil => cases nameiparent <;> simp [hpath, lookedUp] at h
  | cons c' cs =>
    obtain ⟨elem, tail, hskip, helem, rfl⟩ := exists_skipelem hpath
    rw [hpath] at h
    cases nameiparent with
    | false =>
      obtain ⟨rfl, rfl⟩ := List.cons.inj h
      exact ⟨elem, tail, hskip, helem, rfl, rfl, rfl⟩
    | true =>
      have hne : components tail ≠ [] := by
        intro hnil
        simp [lookedUp, hnil] at h
      rw [lookedUp, if_pos rfl, List.dropLast_cons_of_ne_nil hne] at h
      obtain ⟨rfl, rfl⟩ := List.cons.inj h
      have htail : tail.isEmpty = false := by
        rw [List.isEmpty_eq_false_iff]
        rintro rfl
        exact hne rfl
      exact ⟨elem, tail, hskip, helem, rfl, by simp [htail], rfl⟩

theorem lookedUp_eq_nil (h : lookedUp nameiparent (components bytes) = []) :
    components bytes = [] ∨ nameiparent = true ∧
      ∃ elem, skipelem bytes = some (elem, []) ∧ components bytes = [nameOf elem] := by
  cases hpath : components bytes with
  | nil => exact .inl rfl
  | cons c cs =>
    obtain ⟨elem, tail, hskip, helem, rfl⟩ := exists_skipelem hpath
    rw [hpath] at h
    cases nameiparent with
    | false => simp [lookedUp] at h
    | true =>
      have hnil : components tail = [] := by
        by_contra hne
        rw [lookedUp, if_pos rfl, List.dropLast_cons_of_ne_nil hne] at h
        simp at h
      obtain rfl := eq_nil_of_skipelem hskip hnil
      exact .inr ⟨rfl, elem, hskip, by rw [helem, hnil]⟩

end Elements

/-! ## Calls that return -/

/-- A walk of `path` from `d` that began in `s` and has come to `r` in `t`. -/
structure Arrives (fs : QuietState) (held : Multiset Inum) (d : Inum) (path : List CString)
    (s : FsState) (r : Option Inum) (t : FsState) : Prop where
  holds : Holds fs (reached held r) ∅ t
  resolves : fs.names.Resolves d path r
  live : ∀ i ∈ r, (fs.inode i).type ≠ .free
  isSym : r.isSome → (t.isSym = true ↔ s.isSym = true ∨ ∃ l, fs.names.Follows d path l)

namespace Arrives

variable {path rest : List CString} {s u t : FsState} {r : Option Inum}

theorem nil (hlive : (fs.inode d).type ≠ .free) (hs : Holds fs (d ::ₘ held) ∅ s) :
    Arrives fs held d [] s (some d) s where
  holds := hs
  resolves := .nil d
  live := by
    rintro i ⟨⟩
    exact hlive
  isSym _ := by
    have hnone : ¬∃ l, fs.names.Follows d [] l := fun ⟨_, hl⟩ ↦ nomatch hl
    exact (or_iff_left hnone).symm

theorem nowhere (hentry : fs.names.entry d c = none) (ht : Holds fs held ∅ t) :
    Arrives fs held d (c :: rest) s none t where
  holds := ht
  resolves := .missing hentry
  live := nofun
  isSym := nofun

theorem node (hentry : fs.names.entry d c = some (.inl i)) (hflag : u.isSym = s.isSym)
    (h : Arrives fs held i rest u r t) : Arrives fs held d (c :: rest) s r t where
  holds := h.holds
  resolves := .node hentry h.resolves
  live := h.live
  isSym hr := by
    rw [h.isSym hr, hflag]
    refine or_congr_right ⟨fun ⟨l, hl⟩ ↦ ⟨l, .node hentry hl⟩, fun ⟨l, hl⟩ ↦ ⟨l, ?_⟩⟩
    cases hl with
    | here hlink => simp [hentry] at hlink
    | node hnode hrest =>
      obtain rfl : _ = _ := Sum.inl.inj (Option.some.inj (hentry.symm.trans hnode))
      exact hrest
    | link hlink => simp [hentry] at hlink

theorem link {j : Inum} {l : Inum × Inum} (hentry : fs.names.entry d c = some (.inr l))
    (htarget : fs.names.Resolves (fs.names.target l).1 (fs.names.target l).2 (some j))
    (hflag : u.isSym = true) (h : Arrives fs held j rest u r t) :
    Arrives fs held d (c :: rest) s r t where
  holds := h.holds
  resolves := .link hentry htarget h.resolves
  live := h.live
  isSym hr := by
    rw [h.isSym hr, hflag]
    exact iff_of_true (.inl rfl) (.inr ⟨l, .here hentry⟩)

end Arrives

/-- The call for a link leaves the directory and sets the flag. -/
theorem afterLink_returns (hdir : (fs.inode d).type = .dir) (r : Option Inum) :
    Returns (Holds fs (reached (d ::ₘ held) r) ∅) (afterLink d r) (.next r)
      (fun s ↦ Holds fs (reached held r) ∅ s ∧ s.isSym = true) := by
  have hset : Returns (Holds fs (reached (d ::ₘ held) r) ∅) (setIsSym true) ()
      (fun s ↦ Holds fs (reached (d ::ₘ held) r) ∅ s ∧ s.isSym = true) :=
    fun _ hs ↦ ⟨_, rfl, { hs with }, rfl⟩
  refine hset.bind ?_
  rw [reached_cons]
  exact ((iput_returns (Finset.notMem_empty d) (dir_live hdir)).keep (iput_keeps d) true).bind
    (.pure _)

theorem dir_of_entry {e : Inum ⊕ Inum × Inum} (h : fs.names.entry d c = some e) :
    (fs.inode d).type = .dir := by
  obtain ⟨i, hchild, -⟩ := Option.bind_eq_some_iff.mp h
  exact dir_of_child hchild

/-- A name leads to a link only if it is one that fits into the buffer of `namex`. -/
theorem link_of_entry {l : Inum × Inum} (h : fs.names.entry d c = some (.inr l)) :
    l.1 = d ∧ fs.child d c = some l.2 ∧ (fs.inode l.2).type = .sym ∧
      (fs.inode l.2).size < sizeofBuf := by
  obtain ⟨i, hchild, hi⟩ := Option.bind_eq_some_iff.mp h
  split at hi
  · next hsym =>
    split at hi
    · next hsize =>
      obtain rfl := Sum.inr.inj (Option.some.inj hi)
      exact ⟨rfl, hchild, hsym, hsize⟩
    · exact nomatch hi
  · exact nomatch Option.some.inj hi

/-- A name leads to an inode only if it is no link. -/
theorem node_of_entry (h : fs.names.entry d c = some (.inl i)) :
    fs.child d c = some i ∧ (fs.inode i).type ≠ .sym := by
  obtain ⟨j, hchild, hj⟩ := Option.bind_eq_some_iff.mp h
  split at hj
  · split at hj
    · exact nomatch Option.some.inj hj
    · exact nomatch hj
  · next hsym =>
    obtain rfl := Sum.inl.inj (Option.some.inj hj)
    exact ⟨hchild, hsym⟩

theorem origin_live (hlive : (fs.inode d).type ≠ .free) (path : CString) :
    (fs.inode (FsState.origin d path)).type ≠ .free := by
  unfold FsState.origin
  split
  · simp [fs.root_dir]
  · exact hlive

section Loop

variable {fuel : ℕ} {bytes elem tail name name' : List UInt8} {rest : List CString}
  {s t : FsState} {r : Option Inum}

/-- A nested call that returns has resolved the target of the link. -/
theorem walk_arrives
    (ih : ∀ {d held bytes name s r name' t}, (fs.inode d).type ≠ .free →
      Holds fs (d ::ₘ held) ∅ s → namexLoop fuel (some d) bytes name false s = .ok ((r, name'), t) →
      Arrives fs held d (components bytes) s r t)
    (hlive : (fs.inode d).type ≠ .free) {target : CString} (hs : Holds fs (d ::ₘ held) ∅ s)
    (hrun : FileSystem.walk fuel (some d) target s = .ok (r, t)) :
    Holds fs (reached (d ::ₘ held) r) ∅ t ∧ (∀ i ∈ r, (fs.inode i).type ≠ .free) ∧
      fs.names.Resolves (FsState.origin d target) (components target.bytes) r := by
  obtain ⟨u, hstart, hu⟩ := namexStart_returns (some d) target s hs
  rw [FileSystem.walk, bind_of_ok hstart] at hrun
  obtain ⟨r', v, hloop, hret⟩ := exists_of_bind_ok hrun
  obtain ⟨rfl, rfl⟩ := Prod.mk.inj (Except.ok.inj hret)
  have h := ih (origin_live hlive target) hu hloop
  exact ⟨h.holds, h.live, h.resolves⟩

/-- A call that returns has come to what the path resolves to. -/
theorem namexLoop_arrives (hlive : (fs.inode d).type ≠ .free) (hs : Holds fs (d ::ₘ held) ∅ s)
    (hrun : namexLoop fuel (some d) bytes name false s = .ok ((r, name'), t)) :
    Arrives fs held d (components bytes) s r t := by
  induction fuel generalizing d held bytes name s r name' t with
  | zero => exact nomatch hrun
  | succ fuel ih =>
    cases hpath : components bytes with
    | nil =>
      rw [namexLoop_end (skipelem_of_nil hpath)] at hrun
      obtain ⟨hr, rfl⟩ := Prod.mk.inj (Except.ok.inj hrun)
      obtain ⟨rfl, -⟩ := Prod.mk.inj hr
      exact .nil hlive hs
    | cons c rest =>
      obtain ⟨elem, tail, hskip, helem, rfl⟩ := exists_skipelem hpath
      rw [namexLoop_element hskip] at hrun
      obtain ⟨step, v, hbody, hrest⟩ := exists_of_bind_ok hrun
      have hruns := namexBody_runs (FileSystem.walk fuel) hlive helem hs
      rw [Bool.false_and] at hbody
      rw [hbody] at hruns
      generalize hx : Except.ok (step, v) = x at hruns
      cases hruns with
      | nowhere hentry _ ht =>
        obtain ⟨rfl, rfl⟩ := Prod.mk.inj (Except.ok.inj hx)
        obtain ⟨hr, rfl⟩ := Prod.mk.inj (Except.ok.inj hrest)
        obtain ⟨rfl, -⟩ := Prod.mk.inj hr
        exact .nowhere hentry ht
      | node hentry _ hnode ht hflag =>
        obtain ⟨rfl, rfl⟩ := Prod.mk.inj (Except.ok.inj hx)
        exact .node hentry hflag (ih hnode ht hrest)
      | link hentry _ hu =>
        obtain ⟨r', w, hwalk, hafter⟩ := exists_of_bind_ok hx.symm
        obtain ⟨hw, hlive', htarget⟩ := walk_arrives ih hlive hu hwalk
        obtain ⟨v', hrun', hv, hflag⟩ := afterLink_returns (dir_of_entry hentry) r' w hw
        obtain ⟨rfl, rfl⟩ := Prod.mk.inj (Except.ok.inj (hafter.symm.trans hrun'))
        cases r' with
        | some j => exact .link hentry htarget hflag (ih (hlive' j rfl) hv hrest)
        | none =>
          -- the null pointer is not locked again only at the end of the path
          cases hskip' : skipelem tail with
          | none =>
            cases fuel with
            | zero => exact nomatch hrest
            | succ fuel =>
              change namexLoop (fuel + 1) none tail elem false v = _ at hrest
              rw [namexLoop_end hskip'] at hrest
              obtain ⟨hr, rfl⟩ := Prod.mk.inj (Except.ok.inj hrest)
              obtain ⟨rfl, -⟩ := Prod.mk.inj hr
              exact ⟨hv, .dangling hentry htarget, nofun, nofun⟩
          | some next =>
            cases fuel with
            | zero => exact nomatch hrest
            | succ fuel =>
              have hnull : Fails (Holds fs held ∅) (namexLoop (fuel + 1) none tail elem false)
                  (· ≠ .outOfFuel) := namexLoop_null_fails hskip'
              exact absurd hrest (hnull.ne_ok hv)
      | panics => exact nomatch hx

/-- The rule for a call that looks up one more component: what is to be shown of its outcome is
shown for each way that the iteration can go. -/
theorem namexLoop_cases {nameiparent : Bool}
    {P : Except Fault ((Option Inum × List UInt8) × FsState) → Prop}
    (hskip : skipelem bytes = some (elem, tail)) (helem : nameOf elem = c)
    (hlast : (nameiparent && tail.isEmpty) = false) (hlive : (fs.inode d).type ≠ .free)
    (hs : Holds fs (d ::ₘ held) ∅ s)
    (hnowhere : ∀ t, fs.names.entry d c = none → Readable fs held d c → Holds fs held ∅ t →
      P (.ok ((none, elem), t)))
    (hnode : ∀ i t, fs.names.entry d c = some (.inl i) → Readable fs held d c →
      (fs.inode i).type ≠ .free → Holds fs (i ::ₘ held) ∅ t →
      P (namexLoop fuel (some i) tail elem nameiparent t))
    (hfails : ∀ i u e, fs.names.entry d c = some (.inr (d, i)) → Readable fs held d c →
      Holds fs (d ::ₘ held) ∅ u → FileSystem.walk fuel (some d) (fs.targetOf i) u = .error e →
      P (.error e))
    (hlink : ∀ i u r w v, fs.names.entry d c = some (.inr (d, i)) → Readable fs held d c →
      Holds fs (d ::ₘ held) ∅ u → FileSystem.walk fuel (some d) (fs.targetOf i) u = .ok (r, w) →
      fs.names.Resolves (fs.names.target (d, i)).1 (fs.names.target (d, i)).2 r →
      (∀ j ∈ r, (fs.inode j).type ≠ .free) → Holds fs (reached held r) ∅ v →
      P (namexLoop fuel r tail elem nameiparent v))
    (hpanics : ∀ e, ¬Readable fs held d c → e ≠ .outOfFuel → P (.error e)) :
    P (namexLoop (fuel + 1) (some d) bytes name nameiparent s) := by
  have hruns := namexBody_runs (FileSystem.walk fuel) hlive helem hs
  rw [namexLoop_element hskip, hlast]
  generalize hx : namexBody (FileSystem.walk fuel) (some d) elem false s = x at hruns
  cases hruns with
  | nowhere hentry hread ht =>
    rw [bind_of_ok hx]
    exact hnowhere _ hentry hread ht
  | node hentry hread hnodelive ht _ =>
    rw [bind_of_ok hx]
    exact hnode _ _ hentry hread hnodelive ht
  | @link i u hentry hread hu =>
    cases hwalk : FileSystem.walk fuel (some d) (fs.targetOf i) u with
    | error e =>
      rw [bind_of_error hwalk] at hx
      rw [bind_of_error hx]
      exact hfails i u e hentry hread hu hwalk
    | ok w =>
      obtain ⟨hw, hlive', htarget⟩ := walk_arrives namexLoop_arrives hlive hu hwalk
      obtain ⟨v, hafter, hv, -⟩ := afterLink_returns (dir_of_entry hentry) w.1 w.2 hw
      rw [bind_of_ok hwalk, hafter] at hx
      rw [bind_of_ok hx]
      exact hlink i u w.1 w.2 v hentry hread hu hwalk htarget hlive' hv
  | panics hread he =>
    rw [bind_of_error hx]
    exact hpanics _ hread he

/-- `nameiparent` on the last component. -/
theorem namexBody_last (walk : Option Inum → CString → Kernel (Option Inum))
    (hlive : (fs.inode d).type ≠ .free) (hs : Holds fs (d ::ₘ held) ∅ s) (name : List UInt8) :
    ∃ r t, namexBody walk (some d) name true s = .ok (.exit r, t) ∧ Holds fs (reached held r) ∅ t ∧
      r = if (fs.inode d).type = .dir then some d else none := by
  obtain ⟨s₁, hrun₁, hs₁⟩ := ilock_returns (Multiset.mem_cons_self d held)
    (Finset.notMem_empty d) hlive s hs
  obtain ⟨s₂, hrun₂, hs₂⟩ := fields_returns d s₁ hs₁
  rw [namexBody, bind_of_ok hrun₁, bind_of_ok hrun₂]
  by_cases hdir : (fs.inode d).type = .dir
  · obtain ⟨t, hrun, ht⟩ := iunlock_returns (Multiset.mem_cons_self d held)
      (Finset.notMem_empty d) s₂ hs₂
    simp only [hdir, ne_eq, not_true_eq_false, if_false, if_true]
    rw [bind_of_ok hrun]
    exact ⟨some d, t, rfl, ht, rfl⟩
  · obtain ⟨t, hrun, ht⟩ := iunlockput_returns (Finset.notMem_empty d) hlive s₂ hs₂
    simp only [ne_eq, hdir, not_false_eq_true, if_true, if_false]
    rw [bind_of_ok hrun]
    exact ⟨none, t, rfl, ht, rfl⟩

end Loop

end CS537.FileSystem
