import CS537.FileSystem.Walk
import Mathlib.Data.Finite.Prod

/-!
# Path resolution

`namei` returns what walking the path component by component comes to, links replaced by what
their targets resolve to, exactly when the walk meets none of the states in which the kernel
panics.  The one that a well-formed file system can have is a link in the middle of the path whose
target does not resolve: `namex` goes on with the null pointer, and `ilock` panics.
-/

namespace CS537.FileSystem

open Foundation

variable {fs : QuietState} {held : Multiset Inum} {d i : Inum} {name : List UInt8}
  {walk : Option Inum → CString → Kernel (Option Inum)}

/-! ## One component -/

/-- The references held when a walk that held `held` has come to `r`. -/
def reached (held : Multiset Inum) (r : Option Inum) : Multiset Inum := r.elim held (· ::ₘ held)

theorem reached_cons (held : Multiset Inum) (d : Inum) (r : Option Inum) :
    reached (d ::ₘ held) r = d ::ₘ reached held r := by
  cases r with
  | none => rfl
  | some i => exact Multiset.cons_swap i d held

theorem namexBody_notDir (hlive : (fs.inode d).type ≠ .free) (hdir : (fs.inode d).type ≠ .dir) :
    Returns (Holds fs (d ::ₘ held) ∅) (namexBody walk (some d) name false) (.exit none)
      (Holds fs held ∅) := by
  refine (ilock_returns (Multiset.mem_cons_self d held) (Finset.notMem_empty d) hlive).bind
    ((fields_returns d).bind ?_)
  simp only [if_pos hdir]
  exact (iunlockput_returns (Finset.notMem_empty d) hlive).bind (.pure _)

theorem dir_live (hdir : (fs.inode d).type = .dir) : (fs.inode d).type ≠ .free := by
  simp [hdir]

theorem namexBody_missing (hdir : (fs.inode d).type = .dir)
    (hnone : (fs.inode d).lookup (nameOf name) = none) (hwhole : (fs.inode d).Whole) :
    Returns (Holds fs (d ::ₘ held) ∅) (namexBody walk (some d) name false) (.exit none)
      (Holds fs held ∅) := by
  refine (ilock_returns (Multiset.mem_cons_self d held) (Finset.notMem_empty d)
    (dir_live hdir)).bind ((fields_returns d).bind ?_)
  simp only [hdir, ne_eq, not_true_eq_false, if_false]
  refine (dirlookup_returns_none hdir hnone hwhole).bind ?_
  exact (iunlockput_returns (Finset.notMem_empty d) (dir_live hdir)).bind (.pure _)

/-- What happens to an element that is looked up in a directory. -/
theorem namexBody_dirlookup_fails (hdir : (fs.inode d).type = .dir)
    (h : Fails (Holds fs (d ::ₘ held) (insert d ∅)) (dirlookup d name) (· ≠ .outOfFuel)) :
    Fails (Holds fs (d ::ₘ held) ∅) (namexBody walk (some d) name false) (· ≠ .outOfFuel) := by
  refine (ilock_returns (Multiset.mem_cons_self d held) (Finset.notMem_empty d)
    (dir_live hdir)).bind_fails ((fields_returns d).bind_fails ?_)
  simp only [hdir, ne_eq, not_true_eq_false, if_false]
  exact h.bind

theorem namexBody_found {step : Iteration} {Q : FsState → Prop} (hdir : (fs.inode d).type = .dir)
    (hi : (fs.inode d).lookup (nameOf name) = some i) (hroom : fs.HasRoom (d ::ₘ held) i)
    (hnext : Returns (Holds fs (i ::ₘ d ::ₘ held) (insert d ∅)) (namexFound walk d i) step Q) :
    Returns (Holds fs (d ::ₘ held) ∅) (namexBody walk (some d) name false) step Q := by
  obtain ⟨off, hlookup⟩ := dirlookup_returns (insert d ∅) hdir hi hroom
  refine (ilock_returns (Multiset.mem_cons_self d held) (Finset.notMem_empty d)
    (dir_live hdir)).bind ((fields_returns d).bind ?_)
  simp only [hdir, ne_eq, not_true_eq_false, if_false]
  exact hlookup.bind hnext

theorem namexBody_found_fails (hdir : (fs.inode d).type = .dir)
    (hi : (fs.inode d).lookup (nameOf name) = some i) (hroom : fs.HasRoom (d ::ₘ held) i)
    (hnext : Fails (Holds fs (i ::ₘ d ::ₘ held) (insert d ∅)) (namexFound walk d i)
      (· ≠ .outOfFuel)) :
    Fails (Holds fs (d ::ₘ held) ∅) (namexBody walk (some d) name false) (· ≠ .outOfFuel) := by
  obtain ⟨off, hlookup⟩ := dirlookup_returns (insert d ∅) hdir hi hroom
  refine (ilock_returns (Multiset.mem_cons_self d held) (Finset.notMem_empty d)
    (dir_live hdir)).bind_fails ((fields_returns d).bind_fails ?_)
  simp only [hdir, ne_eq, not_true_eq_false, if_false]
  exact hlookup.bind_fails hnext

section Found

variable {walk : Option Inum → CString → Kernel (Option Inum)}

theorem iunlock_dir :
    Returns (Holds fs (i ::ₘ d ::ₘ held) (insert d ∅)) (iunlock d) ()
      (Holds fs (i ::ₘ d ::ₘ held) ∅) :=
  iunlock_returns (Multiset.mem_cons_of_mem (Multiset.mem_cons_self d held))
    (Finset.notMem_empty d)

theorem ilock_found (hlive : (fs.inode i).type ≠ .free) :
    Returns (Holds fs (i ::ₘ d ::ₘ held) ∅) (ilock (some i)) i
      (Holds fs (i ::ₘ d ::ₘ held) (insert i ∅)) :=
  ilock_returns (Multiset.mem_cons_self i _) (Finset.notMem_empty i) hlive

theorem namexFound_free (hfree : (fs.inode i).type = .free) :
    Fails (Holds fs (i ::ₘ d ::ₘ held) (insert d ∅)) (namexFound walk d i) (· ≠ .outOfFuel) :=
  iunlock_dir.bind_fails
    (ilock_fails (Multiset.mem_cons_self i _) (Finset.notMem_empty i) hfree).bind

theorem namexFound_node (hdir : (fs.inode d).type = .dir) (hlive : (fs.inode i).type ≠ .free)
    (hsym : (fs.inode i).type ≠ .sym) :
    Returns (Holds fs (i ::ₘ d ::ₘ held) (insert d ∅)) (namexFound walk d i) (.next (some i))
      (Holds fs (i ::ₘ held) ∅) := by
  refine iunlock_dir.bind ((ilock_found hlive).bind ((fields_returns i).bind ?_))
  simp only [if_neg hsym]
  refine (iunlock_returns (Multiset.mem_cons_self i _) (Finset.notMem_empty i)).bind ?_
  rw [Multiset.cons_swap]
  exact (iput_returns (Finset.notMem_empty d) (dir_live hdir)).bind (.pure _)

theorem namexFound_tooLong (hdir : (fs.inode d).type = .dir) (hsym : (fs.inode i).type = .sym)
    (hlong : ¬(fs.inode i).size < sizeofBuf) :
    Returns (Holds fs (i ::ₘ d ::ₘ held) (insert d ∅)) (namexFound walk d i) (.exit none)
      (Holds fs held ∅) := by
  have hlive : (fs.inode i).type ≠ .free := by simp [hsym]
  refine iunlock_dir.bind ((ilock_found hlive).bind ((fields_returns i).bind ?_))
  simp only [if_pos hsym, linkTarget_eq, if_neg hlong]
  exact (iunlockput_returns (Finset.notMem_empty i) hlive).bind
    ((iput_returns (Finset.notMem_empty d) (dir_live hdir)).bind (.pure _))

theorem namexFound_link {r : Option Inum} (hdir : (fs.inode d).type = .dir)
    (hsym : (fs.inode i).type = .sym) (hshort : (fs.inode i).size < sizeofBuf)
    (hwalk : Returns (Holds fs (d ::ₘ held) ∅) (walk (some d) (fs.targetOf i)) r
      (Holds fs (reached (d ::ₘ held) r) ∅)) :
    Returns (Holds fs (i ::ₘ d ::ₘ held) (insert d ∅)) (namexFound walk d i) (.next r)
      (Holds fs (reached held r) ∅) := by
  have hlive : (fs.inode i).type ≠ .free := by simp [hsym]
  refine iunlock_dir.bind ((ilock_found hlive).bind ((fields_returns i).bind ?_))
  simp only [if_pos hsym, linkTarget_eq, if_pos hshort]
  rw [reached_cons] at hwalk
  exact (iunlockput_returns (Finset.notMem_empty i) hlive).bind
    (hwalk.bind ((setIsSym_returns true).bind
      ((iput_returns (Finset.notMem_empty d) (dir_live hdir)).bind (.pure _))))

theorem namexFound_link_fails (hsym : (fs.inode i).type = .sym)
    (hshort : (fs.inode i).size < sizeofBuf)
    (hwalk : Fails (Holds fs (d ::ₘ held) ∅) (walk (some d) (fs.targetOf i)) (· ≠ .outOfFuel)) :
    Fails (Holds fs (i ::ₘ d ::ₘ held) (insert d ∅)) (namexFound walk d i) (· ≠ .outOfFuel) := by
  have hlive : (fs.inode i).type ≠ .free := by simp [hsym]
  refine iunlock_dir.bind_fails ((ilock_found hlive).bind_fails
    ((fields_returns i).bind_fails ?_))
  simp only [if_pos hsym, linkTarget_eq, if_pos hshort]
  exact (iunlockput_returns (Finset.notMem_empty i) hlive).bind_fails hwalk.bind

end Found

/-! ## The loop -/

section Loop

variable {bytes elem tail : List UInt8} {fuel : ℕ} {ip r : Option Inum} {name' : List UInt8}
  {P Q R : FsState → Prop}

theorem namexLoop_exit (hskip : skipelem bytes = some (elem, tail))
    (hbody : Returns P (namexBody (FileSystem.walk fuel) (some d) elem false) (.exit r) Q) :
    Returns P (namexLoop (fuel + 1) (some d) bytes name false) (r, elem) Q := by
  rw [namexLoop_element hskip]
  exact hbody.bind (.pure _)

theorem namexLoop_next (hskip : skipelem bytes = some (elem, tail))
    (hbody : Returns P (namexBody (FileSystem.walk fuel) (some d) elem false) (.next ip) Q)
    (hloop : Returns Q (namexLoop fuel ip tail elem false) (r, name') R) :
    Returns P (namexLoop (fuel + 1) (some d) bytes name false) (r, name') R := by
  rw [namexLoop_element hskip]
  exact hbody.bind hloop

theorem namexLoop_next_fails (hskip : skipelem bytes = some (elem, tail))
    (hbody : Returns P (namexBody (FileSystem.walk fuel) (some d) elem false) (.next ip) Q)
    (hloop : Fails Q (namexLoop fuel ip tail elem false) (· ≠ .outOfFuel)) :
    Fails P (namexLoop (fuel + 1) (some d) bytes name false) (· ≠ .outOfFuel) := by
  rw [namexLoop_element hskip]
  exact hbody.bind_fails hloop

theorem namexLoop_fails (hskip : skipelem bytes = some (elem, tail))
    (hbody : Fails P (namexBody (FileSystem.walk fuel) (some d) elem false) (· ≠ .outOfFuel)) :
    Fails P (namexLoop (fuel + 1) (some d) bytes name false) (· ≠ .outOfFuel) := by
  rw [namexLoop_element hskip]
  exact hbody.bind

/-- The null pointer that a call for a dangling link returns is locked next. -/
theorem namexLoop_null_fails {nameiparent : Bool} (hskip : skipelem bytes = some (elem, tail)) :
    Fails (Holds fs held ∅) (namexLoop (fuel + 1) none bytes name nameiparent)
      (· ≠ .outOfFuel) := by
  rw [namexLoop_element hskip]
  exact ilock_null_fails.bind.bind

end Loop

/-! ## Whole walks -/

/-- A visit at which the walk does not panic: the directory can be read as far as needed, the inode
found gets an entry in the inode cache and is in use, and the path ends here if the element is a
link whose target does not resolve. -/
structure Safe (fs : QuietState) (v : NameSpace.Visit Inum CString) : Prop where
  whole : (fs.inode v.dir).type = .dir → fs.child v.dir v.name = none → (fs.inode v.dir).Whole
  room : ∀ i, fs.child v.dir v.name = some i → fs.HasRoom (v.dir ::ₘ (v.held : Multiset Inum)) i
  live : ∀ i, fs.child v.dir v.name = some i → (fs.inode i).type ≠ .free
  resolves : ∀ l, fs.names.entry v.dir v.name = some (.inr l) →
    fs.names.Resolves (fs.names.target l).1 (fs.names.target l).2 none → v.rest = []

/-- The walk of `path` from `d` while the directories `held` are held. -/
def AllSafe (fs : QuietState) (held : List Inum) (d : Inum) (path : List CString) : Prop :=
  ∀ v, fs.names.Visits held d path v → Safe fs v

/-- From `P` the program returns what `d` and `path` resolve to, holding a reference to it. -/
def Finds (fs : QuietState) (held : List Inum) (d : Inum) (path : List CString)
    (loop : ℕ → Kernel (Option Inum × List UInt8)) : Prop :=
  ∃ r, fs.names.Resolves d path r ∧ (∀ i ∈ r, (fs.inode i).type ≠ .free) ∧
    ∃ fuel name, Returns (Holds fs (d ::ₘ (held : Multiset Inum)) ∅) (loop fuel) (r, name)
      (Holds fs (reached held r) ∅)

/-- The walk ends in a panic. -/
def Panics (fs : QuietState) (held : List Inum) (d : Inum)
    (loop : ℕ → Kernel (Option Inum × List UInt8)) : Prop :=
  ∃ fuel, Fails (Holds fs (d ::ₘ (held : Multiset Inum)) ∅) (loop fuel) (· ≠ .outOfFuel)

/-- `namexLoop` resolves a path from a directory if all visits are safe, and panics otherwise. -/
def WalkSettled (fs : QuietState) (d : Inum) (path : List CString) : Prop :=
  ∀ (held : List Inum) (bytes name : List UInt8), components bytes = path →
    (fs.inode d).type ≠ .free →
    AllSafe fs held d path ∧
        Finds fs held d path (fun fuel ↦ namexLoop fuel (some d) bytes name false) ∨
      ¬AllSafe fs held d path ∧
        Panics fs held d (fun fuel ↦ namexLoop fuel (some d) bytes name false)

theorem walkSettled_nil (d : Inum) : WalkSettled fs d [] := by
  intro held bytes name hbytes hlive
  refine .inl ⟨fun v hv ↦ absurd hv NameSpace.not_visits_nil, some d, .nil d, ?_, 1, name, ?_⟩
  · rintro i ⟨⟩
    exact hlive
  · simp only [namexLoop_end (skipelem_of_nil hbytes)]
    exact .pure _

section Cons

variable {c : CString} {rest : List CString} {bytes elem tail name : List UInt8} {held : List Inum}

theorem child_of_notDir (hdir : (fs.inode d).type ≠ .dir) : fs.child d c = none := if_neg hdir

theorem child_of_dir (hdir : (fs.inode d).type = .dir) :
    fs.child d c = (fs.inode d).lookup c := if_pos hdir

theorem dir_of_child (hi : fs.child d c = some i) : (fs.inode d).type = .dir := by
  by_contra hdir
  simp [child_of_notDir hdir] at hi

theorem settled_missing (hskip : skipelem bytes = some (elem, tail)) (helem : nameOf elem = c)
    (hlive : (fs.inode d).type ≠ .free) (hchild : fs.child d c = none) :
    AllSafe fs held d (c :: rest) ∧
        Finds fs held d (c :: rest) (fun fuel ↦ namexLoop fuel (some d) bytes name false) ∨
      ¬AllSafe fs held d (c :: rest) ∧
        Panics fs held d (fun fuel ↦ namexLoop fuel (some d) bytes name false) := by
  have hentry : fs.names.entry d c = none := by simp [FsState.names, hchild]
  have hsafe : AllSafe fs held d (c :: rest) ↔
      ((fs.inode d).type = .dir → (fs.inode d).Whole) := by
    rw [AllSafe, NameSpace.forall_visits_missing hentry]
    constructor
    · exact fun h hdir ↦ h.whole hdir hchild
    · intro h
      exact ⟨fun hdir _ ↦ h hdir, by simp [hchild], by simp [hchild], by simp [hentry]⟩
  have hfinds : Returns (Holds fs (d ::ₘ (held : Multiset Inum)) ∅)
      (namexBody (FileSystem.walk 0) (some d) elem false) (.exit none) (Holds fs held ∅) →
      Finds fs held d (c :: rest) (fun fuel ↦ namexLoop fuel (some d) bytes name false) :=
    fun hbody ↦ ⟨none, .missing hentry, nofun, 1, elem, namexLoop_exit hskip hbody⟩
  by_cases hdir : (fs.inode d).type = .dir
  · rw [child_of_dir hdir, ← helem] at hchild
    by_cases hwhole : (fs.inode d).Whole
    · exact .inl ⟨hsafe.mpr fun _ ↦ hwhole, hfinds (namexBody_missing hdir hchild hwhole)⟩
    · refine .inr ⟨fun h ↦ hwhole (hsafe.mp h hdir), 1, namexLoop_fails hskip ?_⟩
      exact namexBody_dirlookup_fails hdir (dirlookup_short_fails hdir hchild hwhole)
  · exact .inl ⟨hsafe.mpr fun h ↦ absurd h hdir, hfinds (namexBody_notDir hlive hdir)⟩

/-- The element leads to an inode that cannot be locked. -/
theorem settled_panics (hskip : skipelem bytes = some (elem, tail)) (helem : nameOf elem = c)
    (hchild : fs.child d c = some i)
    (hbad : ¬fs.HasRoom (d ::ₘ (held : Multiset Inum)) i ∨ (fs.inode i).type = .free) :
    ¬AllSafe fs held d (c :: rest) ∧
      Panics fs held d (fun fuel ↦ namexLoop fuel (some d) bytes name false) := by
  have hdir := dir_of_child hchild
  have hlookup : (fs.inode d).lookup (nameOf elem) = some i := by
    rwa [helem, ← child_of_dir hdir]
  constructor
  · intro h
    have hhere := h _ .here
    exact hbad.elim (fun hroom ↦ hroom (hhere.room i hchild)) (hhere.live i hchild)
  · refine ⟨1, namexLoop_fails hskip ?_⟩
    by_cases hroom : fs.HasRoom (d ::ₘ (held : Multiset Inum)) i
    · exact namexBody_found_fails hdir hlookup hroom
        (namexFound_free (hbad.resolve_left (not_not.mpr hroom)))
    · exact namexBody_dirlookup_fails hdir (dirlookup_fails hdir hlookup hroom)

theorem safe_here (hchild : fs.child d c = some i)
    (hroom : fs.HasRoom (d ::ₘ (held : Multiset Inum)) i) (hlive : (fs.inode i).type ≠ .free)
    (hresolves : ∀ l, fs.names.entry d c = some (.inr l) →
      fs.names.Resolves (fs.names.target l).1 (fs.names.target l).2 none → rest = []) :
    Safe fs ⟨held, d, c, rest⟩ where
  whole := by simp [hchild]
  room j hj := by
    rw [hchild] at hj
    rwa [← Option.some.inj hj]
  live j hj := by
    rw [hchild] at hj
    rwa [← Option.some.inj hj]
  resolves := hresolves

theorem settled_tooLong (hskip : skipelem bytes = some (elem, tail)) (helem : nameOf elem = c)
    (hchild : fs.child d c = some i) (hroom : fs.HasRoom (d ::ₘ (held : Multiset Inum)) i)
    (hsym : (fs.inode i).type = .sym) (hlong : ¬(fs.inode i).size < sizeofBuf) :
    AllSafe fs held d (c :: rest) ∧
      Finds fs held d (c :: rest) (fun fuel ↦ namexLoop fuel (some d) bytes name false) := by
  have hdir := dir_of_child hchild
  have hlookup : (fs.inode d).lookup (nameOf elem) = some i := by
    rwa [helem, ← child_of_dir hdir]
  have hentry : fs.names.entry d c = none := by simp [FsState.names, hchild, hsym, hlong]
  constructor
  · rw [AllSafe, NameSpace.forall_visits_missing hentry]
    exact safe_here hchild hroom (by simp [hsym]) (by simp [hentry])
  · refine ⟨none, .missing hentry, nofun, 1, elem, namexLoop_exit hskip ?_⟩
    exact namexBody_found hdir hlookup hroom (namexFound_tooLong hdir hsym hlong)

theorem settled_node (hskip : skipelem bytes = some (elem, tail)) (helem : nameOf elem = c)
    (htail : components tail = rest) (hchild : fs.child d c = some i)
    (hroom : fs.HasRoom (d ::ₘ (held : Multiset Inum)) i) (hlive : (fs.inode i).type ≠ .free)
    (hsym : (fs.inode i).type ≠ .sym) (hrest : WalkSettled fs i rest) :
    AllSafe fs held d (c :: rest) ∧
        Finds fs held d (c :: rest) (fun fuel ↦ namexLoop fuel (some d) bytes name false) ∨
      ¬AllSafe fs held d (c :: rest) ∧
        Panics fs held d (fun fuel ↦ namexLoop fuel (some d) bytes name false) := by
  have hdir := dir_of_child hchild
  have hlookup : (fs.inode d).lookup (nameOf elem) = some i := by
    rwa [helem, ← child_of_dir hdir]
  have hentry : fs.names.entry d c = some (.inl i) := by simp [FsState.names, hchild, hsym]
  have hsafe : AllSafe fs held d (c :: rest) ↔ AllSafe fs held i rest := by
    rw [AllSafe, NameSpace.forall_visits_node hentry]
    exact and_iff_right (safe_here hchild hroom hlive (by simp [hentry]))
  have hbody : ∀ fuel, Returns (Holds fs (d ::ₘ (held : Multiset Inum)) ∅)
      (namexBody (FileSystem.walk fuel) (some d) elem false) (.next (some i))
      (Holds fs (i ::ₘ (held : Multiset Inum)) ∅) :=
    fun _ ↦ namexBody_found hdir hlookup hroom (namexFound_node hdir hlive hsym)
  rw [hsafe]
  rcases hrest held tail elem htail hlive with ⟨hall, r, hr, hrlive, fuel, name', hloop⟩ |
    ⟨hall, fuel, hloop⟩
  · exact .inl ⟨hall, r, .node hentry hr, hrlive, fuel + 1, name',
      namexLoop_next hskip (hbody fuel) hloop⟩
  · exact .inr ⟨hall, fuel + 1, namexLoop_next_fails hskip (hbody fuel) hloop⟩

theorem walk_returns {target : CString} {fuel : ℕ} {r : Option Inum} {name : List UInt8}
    {Q : FsState → Prop}
    (h : Returns (Holds fs (FsState.origin d target ::ₘ (↑(d :: held) : Multiset Inum)) ∅)
      (namexLoop fuel (some (FsState.origin d target)) target.bytes [] false) (r, name) Q) :
    Returns (Holds fs (d ::ₘ (held : Multiset Inum)) ∅) (FileSystem.walk fuel (some d) target) r
      Q :=
  (namexStart_returns (some d) target).bind (h.bind (.pure _))

theorem walk_fails {target : CString} {fuel : ℕ}
    (h : Fails (Holds fs (FsState.origin d target ::ₘ (↑(d :: held) : Multiset Inum)) ∅)
      (namexLoop fuel (some (FsState.origin d target)) target.bytes [] false) (· ≠ .outOfFuel)) :
    Fails (Holds fs (d ::ₘ (held : Multiset Inum)) ∅) (FileSystem.walk fuel (some d) target)
      (· ≠ .outOfFuel) :=
  (namexStart_returns (some d) target).bind_fails h.bind

theorem settled_link (hskip : skipelem bytes = some (elem, tail)) (helem : nameOf elem = c)
    (htail : components tail = rest) (hlive : (fs.inode d).type ≠ .free)
    (hchild : fs.child d c = some i)
    (hroom : fs.HasRoom (d ::ₘ (held : Multiset Inum)) i)
    (hsym : (fs.inode i).type = .sym) (hshort : (fs.inode i).size < sizeofBuf)
    (htarget : WalkSettled fs (FsState.origin d (fs.targetOf i))
      (components (fs.targetOf i).bytes))
    (hrest : ∀ j, fs.names.Resolves (FsState.origin d (fs.targetOf i))
      (components (fs.targetOf i).bytes) (some j) → WalkSettled fs j rest) :
    AllSafe fs held d (c :: rest) ∧
        Finds fs held d (c :: rest) (fun fuel ↦ namexLoop fuel (some d) bytes name false) ∨
      ¬AllSafe fs held d (c :: rest) ∧
        Panics fs held d (fun fuel ↦ namexLoop fuel (some d) bytes name false) := by
  have hdir := dir_of_child hchild
  have hlookup : (fs.inode d).lookup (nameOf elem) = some i := by
    rwa [helem, ← child_of_dir hdir]
  have hilive : (fs.inode i).type ≠ .free := by simp [hsym]
  have hentry : fs.names.entry d c = some (.inr (d, i)) := by
    simp [FsState.names, hchild, hsym, hshort]
  have horigin : (fs.inode (FsState.origin d (fs.targetOf i))).type ≠ .free := by
    by_cases habs : (fs.targetOf i).bytes.head? = some slash
    · simp [FsState.origin, habs, fs.root_dir]
    · simpa [FsState.origin, habs] using hlive
  have hbody : ∀ {fuel r}, Returns (Holds fs (d ::ₘ (held : Multiset Inum)) ∅)
      (FileSystem.walk fuel (some d) (fs.targetOf i)) r
      (Holds fs (reached (d ::ₘ (held : Multiset Inum)) r) ∅) →
      Returns (Holds fs (d ::ₘ (held : Multiset Inum)) ∅)
        (namexBody (FileSystem.walk fuel) (some d) elem false) (.next r)
        (Holds fs (reached held r) ∅) :=
    fun hwalk ↦ namexBody_found hdir hlookup hroom (namexFound_link hdir hsym hshort hwalk)
  rw [AllSafe, NameSpace.forall_visits_link hentry]
  rcases htarget (d :: held) _ [] rfl horigin with ⟨hall, r, hr, hrlive, fuel, name', hloop⟩ |
    ⟨hall, fuel, hloop⟩
  · cases r with
    | none =>
      have hafter : ∀ j, ¬fs.names.Resolves (fs.names.target (d, i)).1 (fs.names.target (d, i)).2
          (some j) := fun j hj ↦ by simpa using hr.unique hj
      have hnull : Returns (Holds fs (d ::ₘ (held : Multiset Inum)) ∅)
          (namexBody (FileSystem.walk (fuel + 1)) (some d) elem false) (.next none)
          (Holds fs held ∅) :=
        hbody ((walk_returns hloop).below (walk_le (Nat.le_succ fuel) _ _))
      cases hend : rest with
      | nil =>
        refine .inl ⟨⟨safe_here hchild hroom hilive fun _ _ _ ↦ rfl, hall,
          fun j hj ↦ absurd hj (hafter j)⟩, none, .dangling hentry hr, by simp, fuel + 2, elem, ?_⟩
        refine namexLoop_next hskip hnull ?_
        rw [namexLoop_end (skipelem_of_nil (htail.trans hend))]
        exact .pure _
      | cons c' cs =>
        obtain ⟨elem', tail', hskip', -⟩ := exists_skipelem (htail.trans hend)
        refine .inr ⟨fun h ↦ ?_, fuel + 2, namexLoop_next_fails hskip hnull
          (namexLoop_null_fails hskip')⟩
        exact absurd (h.1.resolves (d, i) hentry hr) (by simp)
    | some j =>
      have hhere : Safe fs ⟨held, d, c, rest⟩ := by
        refine safe_here hchild hroom hilive fun l hl hnone ↦ ?_
        obtain rfl : (d, i) = l := Sum.inr.inj (Option.some.inj (hentry.symm.trans hl))
        simpa using hr.unique hnone
      have hrestIff : (∀ k, fs.names.Resolves (fs.names.target (d, i)).1
          (fs.names.target (d, i)).2 (some k) → ∀ v, fs.names.Visits held k rest v → Safe fs v) ↔
          AllSafe fs held j rest := by
        constructor
        · exact fun h ↦ h j hr
        · intro h k hk
          obtain rfl : j = k := Option.some.inj (hr.unique hk)
          exact h
      have hnext : ∀ fuel', fuel ≤ fuel' → Returns (Holds fs (d ::ₘ (held : Multiset Inum)) ∅)
          (namexBody (FileSystem.walk fuel') (some d) elem false) (.next (some j))
          (Holds fs (j ::ₘ (held : Multiset Inum)) ∅) :=
        fun fuel' h ↦ hbody ((walk_returns hloop).below (walk_le h _ _))
      rw [hrestIff]
      rcases hrest j hr held tail elem htail (hrlive j rfl) with
        ⟨hafter, r, hr', hrlive', fuel', name'', hloop'⟩ | ⟨hafter, fuel', hloop'⟩
      · refine .inl ⟨⟨hhere, hall, hafter⟩, r, .link hentry hr hr', hrlive', max fuel fuel' + 1,
          name'', ?_⟩
        exact namexLoop_next hskip (hnext _ (le_max_left _ _))
          (hloop'.below (namexLoop_le (le_max_right _ _) _ _ _ _))
      · refine .inr ⟨fun h ↦ hafter h.2.2, max fuel fuel' + 1, ?_⟩
        exact namexLoop_next_fails hskip (hnext _ (le_max_left _ _))
          (hloop'.below (namexLoop_le (le_max_right _ _) _ _ _ _))
  · refine .inr ⟨fun h ↦ hall h.2.1, fuel + 1, namexLoop_fails hskip ?_⟩
    exact namexBody_found_fails hdir hlookup hroom
      (namexFound_link_fails hsym hshort (walk_fails hloop))

end Cons

theorem walkSettled_extends (fs : QuietState) : fs.names.Extends (WalkSettled fs) := by
  intro d c rest hnode hlink held bytes name hbytes hlive
  obtain ⟨elem, tail, hskip, helem, htail⟩ := exists_skipelem hbytes
  cases hchild : fs.child d c with
  | none => exact settled_missing hskip helem hlive hchild
  | some i =>
    by_cases hbad : ¬fs.HasRoom (d ::ₘ (held : Multiset Inum)) i ∨ (fs.inode i).type = .free
    · exact .inr (settled_panics hskip helem hchild hbad)
    · rw [not_or, not_not] at hbad
      obtain ⟨hroom, hilive⟩ := hbad
      by_cases hsym : (fs.inode i).type = .sym
      · by_cases hshort : (fs.inode i).size < sizeofBuf
        · have hentry : fs.names.entry d c = some (.inr (d, i)) := by
            simp [FsState.names, hchild, hsym, hshort]
          have hwalks := hlink (d, i) hentry
          exact settled_link hskip helem htail hlive hchild hroom hsym hshort hwalks.1 hwalks.2
        · exact .inl (settled_tooLong hskip helem hchild hroom hsym hshort)
      · have hentry : fs.names.entry d c = some (.inl i) := by
          simp [FsState.names, hchild, hsym]
        exact settled_node hskip helem htail hchild hroom hilive hsym (hnode i hentry)

/-! ## `namei` -/

/-- What a path comes to from the current directory, by the reference resolution. -/
def ResolvesTo (fs : QuietState) (path : CString) (r : Option Inum) : Prop :=
  fs.names.Resolves (FsState.origin fs.cwd path) (components path.bytes) r

/-- `namei(path)` returns, with the inode `r`. -/
def NameiReturns (s : FsState) (path : CString) (r : Option Inum) : Prop :=
  ∃ fuel t, namei fuel path s = .ok (r, t)

/-- No visit of the walk of the path meets a state in which the kernel panics. -/
def NameiSafe (fs : QuietState) (path : CString) : Prop :=
  AllSafe fs [] (FsState.origin fs.cwd path) (components path.bytes)

theorem namei_returns {path : CString} {fuel : ℕ} {r : Option Inum} {name : List UInt8}
    {Q : FsState → Prop}
    (h : Returns (Holds fs (FsState.origin fs.cwd path ::ₘ (↑([] : List Inum) : Multiset Inum)) ∅)
      (namexLoop fuel (some (FsState.origin fs.cwd path)) path.bytes [] false) (r, name) Q) :
    Returns (Holds fs 0 ∅) (namei fuel path) r Q :=
  ((namexStart_returns none path).bind h).bind (.pure r)

theorem namei_fails {path : CString} {fuel : ℕ}
    (h : Fails (Holds fs (FsState.origin fs.cwd path ::ₘ (↑([] : List Inum) : Multiset Inum)) ∅)
      (namexLoop fuel (some (FsState.origin fs.cwd path)) path.bytes [] false) (· ≠ .outOfFuel)) :
    Fails (Holds fs 0 ∅) (namei fuel path) (· ≠ .outOfFuel) :=
  ((namexStart_returns none path).bind_fails h).bind

theorem namei_le {fuel fuel' : ℕ} (h : fuel ≤ fuel') (path : CString) :
    Below .outOfFuel (namei fuel path) (namei fuel' path) :=
  .bind (.bind (.refl _ _) fun _ ↦ namexLoop_le h _ _ _ _) fun _ ↦ .refl _ _

/-- A call that panics returns with no fuel. -/
theorem not_nameiReturns {s : FsState} {path : CString} {fuel : ℕ} {e : Fault}
    (h : namei fuel path s = .error e) (he : e ≠ .outOfFuel) (r : Option Inum) :
    ¬NameiReturns s path r := by
  rintro ⟨fuel', t, hreturns⟩
  have hpanics : namei (max fuel fuel') path s = .error e := by
    rw [← h]
    exact namei_le (le_max_left _ _) path s (by simp [h, he])
  have hreturns' : namei (max fuel fuel') path s = .ok (r, t) := by
    rw [← hreturns]
    exact namei_le (le_max_right _ _) path s (by simp [hreturns])
  simp [hpanics] at hreturns'

theorem namei_resolves_iff (fs : QuietState) (hacyclic : fs.names.Acyclic) (path : CString) :
    (∃ r, ResolvesTo fs path r ∧ NameiReturns fs.toFsState path r) ↔ NameiSafe fs path := by
  have horigin : (fs.inode (FsState.origin fs.cwd path)).type ≠ .free := by
    by_cases habs : path.bytes.head? = some slash
    · simp [FsState.origin, habs, fs.root_dir]
    · simp [FsState.origin, habs, fs.cwd_dir]
  have hwalk := hacyclic.induction walkSettled_nil (walkSettled_extends fs)
    (FsState.origin fs.cwd path) (components path.bytes)
  rcases hwalk [] path.bytes [] rfl horigin with ⟨hsafe, r, hr, -, fuel, name, hloop⟩ |
    ⟨hpanics, fuel, hloop⟩
  · refine iff_of_true ⟨r, hr, fuel, ?_⟩ hsafe
    obtain ⟨t, hrun, -⟩ := namei_returns hloop _ fs.holds
    exact ⟨t, hrun⟩
  · refine iff_of_false ?_ hpanics
    rintro ⟨r, -, hreturns⟩
    obtain ⟨e, hrun, he⟩ := namei_fails hloop _ fs.holds
    exact not_nameiReturns hrun he r hreturns

/-! ## A directory with one link -/

/-- A directory entry for a name of one letter. -/
def entryBytes (inum letter : UInt8) : List UInt8 := [inum, 0, letter] ++ List.replicate 13 0

/-- A root directory that holds a link `l` and a file `f`. -/
def linkRoot : Inode := ⟨.dir, 1, entryBytes 2 108 ++ entryBytes 3 102, by decide⟩

/-- The inodes of this directory; the target of the link has one letter. -/
def linkInode (target : UInt8) (i : Inum) : Inode :=
  if i = 1 then linkRoot
  else if i = 2 then ⟨.sym, 1, [target], by simp [MAXFILE, NDIRECT, NINDIRECT, BSIZE]⟩
  else if i = 3 then ⟨.file, 1, [], Inode.nil_size_le⟩
  else ⟨.free, 0, [], Inode.nil_size_le⟩

def linkState (target : UInt8) : QuietState where
  inode := linkInode target
  refs := {ROOTINO}
  valid _ := false
  locks := ∅
  isSym := false
  cwd := ROOTINO
  unlocked := rfl
  root_ref := Multiset.mem_singleton_self ROOTINO
  root_dir := rfl
  cwd_ref := Multiset.mem_singleton_self ROOTINO
  cwd_dir := rfl
  allocated := by simp
  inUse i hi hlink := by
    by_cases h1 : i = 1
    · simp [h1, linkInode, linkRoot] at hlink
    · by_cases h2 : i = 2
      · simp [h2, linkInode] at hlink
      · by_cases h3 : i = 3
        · simp [h3, linkInode] at hlink
        · simp [linkInode, h1, h2, h3] at hi

section LinkState

variable {target : UInt8} {d : Inum} {c : CString} {l : Inum × Inum}

theorem linkRoot_dirents :
    linkRoot.dirents =
      [(0, ⟨2, 108 :: List.replicate 13 0⟩), (16, ⟨3, 102 :: List.replicate 13 0⟩)] := by
  decide +kernel

theorem linkState_entry (h : (linkState target).names.entry d c = some (.inr l)) :
    c = nameOf [108] := by
  obtain ⟨i, hchild, hi⟩ := Option.bind_eq_some_iff.mp h
  have hsym : (linkInode target i).type = .sym := by
    by_contra hsym
    simp [linkState, hsym] at hi
  have hdir := dir_of_child hchild
  have hd : d = 1 := by
    by_contra hd
    by_cases h2 : d = 2
    · simp [linkState, linkInode, h2] at hdir
    · by_cases h3 : d = 3
      · simp [linkState, linkInode, h3] at hdir
      · simp [linkState, linkInode, hd, h2, h3] at hdir
  subst hd
  rw [child_of_dir hdir] at hchild
  obtain ⟨e, he, rfl, rfl⟩ := Inode.exists_of_lookup hchild
  have hmem : e ∈ linkRoot.dirents := he
  rw [linkRoot_dirents, List.mem_pair] at hmem
  rcases hmem with rfl | rfl
  · decide
  · simp [linkInode] at hsym

/-- The target of any link has at most one component. -/
theorem linkState_target (hnul : target ≠ 0) (hslash : isSlash target = false) (i : Inum) :
    components ((linkState target).targetOf i).bytes = [] ∨
      components ((linkState target).targetOf i).bytes = [nameOf [2]] ∨
      components ((linkState target).targetOf i).bytes = [nameOf [target]] := by
  by_cases h1 : i = 1
  · subst h1
    have hbytes : ((linkState target).targetOf 1).bytes = [2] := by
      change (CString.ofBytes linkRoot.content).bytes = [2]
      decide
    rw [hbytes]
    exact .inr (.inl (by decide))
  · by_cases h2 : i = 2
    · subst h2
      have hbytes : ((linkState target).targetOf 2).bytes = [target] := by
        change (CString.ofBytes [target]).bytes = [target]
        simp [CString.ofBytes, hnul]
      rw [hbytes, components, tokens_singleton hslash]
      exact .inr (.inr rfl)
    · have hcontent : (linkInode target i).content = [] := by
        by_cases h3 : i = 3 <;> simp [linkInode, h1, h2, h3]
      have hbytes : ((linkState target).targetOf i).bytes = [] := by
        change (CString.ofBytes (linkInode target i).content).bytes = []
        rw [hcontent]
        rfl
      rw [hbytes]
      exact .inl rfl

theorem linkState_acyclic (hnul : target ≠ 0) (hslash : isSlash target = false)
    (hname : nameOf [target] ≠ nameOf [108]) : (linkState target).names.Acyclic := by
  have hfollows : ∀ d c, c ≠ nameOf [108] → ∀ m, ¬(linkState target).names.Follows d [c] m := by
    intro d c hc m hm
    cases hm with
    | here hentry => exact hc (linkState_entry hentry)
    | node _ hrest => nomatch hrest
    | link hentry => exact hc (linkState_entry hentry)
  have hneeds : ∀ l m, ¬(linkState target).names.Needs l m := by
    intro l m hneed
    change NameSpace.Follows _ _ (components ((linkState target).targetOf l.2).bytes) m at hneed
    rcases linkState_target hnul hslash l.2 with h | h | h
    · rw [h] at hneed
      nomatch hneed
    · rw [h] at hneed
      exact hfollows _ _ (by decide) m hneed
    · rw [h] at hneed
      exact hfollows _ _ hname m hneed
  intro l hl
  obtain ⟨m, -, hm⟩ := Relation.TransGen.tail'_iff.mp hl
  exact hneeds m l hm

end LinkState

/-- The error of a call that does not return. -/
def faultOf {α : Type} : Except Fault α → Option Fault
  | .error e => some e
  | .ok _ => none

theorem eq_error_of_faultOf {α : Type} {x : Except Fault α} {e : Fault} (h : faultOf x = some e) :
    x = .error e := by
  cases x with
  | error e' => exact congrArg Except.error (Option.some.inj h)
  | ok a => simp [faultOf] at h

/-- The link `l` leads nowhere; resolving `l/y` panics. -/
theorem dangling_link_panics :
    ¬∀ fs : QuietState, fs.names.Acyclic →
      (∀ i, (fs.inode i).type = .sym → (fs.targetOf i).bytes ≠ []) →
      ∀ path, ∃ r, ResolvesTo fs path r ∧ NameiReturns fs.toFsState path r := by
  intro hclaim
  have htargets : ∀ i, ((linkState 120).inode i).type = .sym →
      ((linkState 120).targetOf i).bytes ≠ [] := by
    intro i hi
    have h2 : i = 2 := by
      by_contra h2
      by_cases h1 : i = 1
      · simp [linkState, linkInode, h1, linkRoot] at hi
      · by_cases h3 : i = 3 <;> simp [linkState, linkInode, h1, h2, h3] at hi
    subst h2
    decide
  obtain ⟨r, -, hreturns⟩ := hclaim (linkState 120)
    (linkState_acyclic (by decide) (by decide) (by decide)) htargets (.ofBytes [108, 47, 121])
  have hpanics : faultOf (namei 3 (.ofBytes [108, 47, 121]) (linkState 120).toFsState) =
      some (.panic "ilock") := by
    decide +kernel
  exact not_nameiReturns (eq_error_of_faultOf hpanics) nofun r hreturns

theorem exists_ok_of_run {α : Type} {x : Except Fault (α × FsState)} {a : α}
    (h : x.toOption.map Prod.fst = some a) : ∃ t, x = .ok (a, t) := by
  cases x with
  | error e => simp [Except.toOption] at h
  | ok r =>
    obtain rfl := Option.some.inj h
    exact ⟨r.2, rfl⟩

theorem nameiReturns_of_run {s : FsState} {path : CString} {r : Option Inum} (fuel : ℕ)
    (h : (namei fuel path s).toOption.map Prod.fst = some r) : NameiReturns s path r :=
  ⟨fuel, exists_ok_of_run h⟩

/-- The link `l` leads to the file `f`. -/
theorem namei_resolves_iff_link :
    (∃ r, ResolvesTo (linkState 102) (.ofBytes [108]) r ∧
      NameiReturns (linkState 102).toFsState (.ofBytes [108]) r) ∧
      NameiSafe (linkState 102) (.ofBytes [108]) := by
  have hacyclic : (linkState 102).names.Acyclic :=
    linkState_acyclic (by decide) (by decide) (by decide)
  have hfile : (linkState 102).names.Resolves 1 [nameOf [102]] (some 3) :=
    .node (by decide +kernel) (.nil 3)
  have hlink : (linkState 102).names.Resolves 1 [nameOf [108]] (some 3) :=
    .link (l := (1, 2)) (by decide +kernel) hfile (.nil 3)
  have hreturns : NameiReturns (linkState 102).toFsState (.ofBytes [108]) (some 3) :=
    nameiReturns_of_run 3 (by decide +kernel)
  have hfound : ∃ r, ResolvesTo (linkState 102) (.ofBytes [108]) r ∧
      NameiReturns (linkState 102).toFsState (.ofBytes [108]) r := ⟨some 3, hlink, hreturns⟩
  exact ⟨hfound, (namei_resolves_iff (linkState 102) hacyclic (.ofBytes [108])).mp hfound⟩

end CS537.FileSystem
