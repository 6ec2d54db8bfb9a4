import CS537.FileSystem.Resolve

/-!
# References and locks of a path lookup

Whatever the state of the file system, a call of `namex` that returns has taken one reference to
the inode that it returns, has dropped all others that it took, and holds the locks that it found.
-/

namespace CS537.FileSystem

open Foundation

/-- The references and the locks of a state. -/
structure At (refs : Multiset Inum) (locks : Finset Inum) (s : FsState) : Prop where
  refs : s.refs = refs
  locks : s.locks = locks

variable {refs : Multiset Inum} {locks : Finset Inum} {d i : Inum}
  {walk : Option Inum → CString → Kernel (Option Inum)}

/-! ## The functions on inodes -/

theorem iget_ensures (i : Inum) :
    Ensures (At refs locks) (iget i) fun a s ↦ a = i ∧ At (i ::ₘ refs) locks s := by
  intro s a t hs hrun
  unfold iget at hrun
  split at hrun
  · obtain ⟨rfl, rfl⟩ := Prod.mk.inj (Except.ok.inj hrun)
    exact ⟨rfl, by rw [hs.refs], hs.locks⟩
  · split at hrun
    · obtain ⟨rfl, rfl⟩ := Prod.mk.inj (Except.ok.inj hrun)
      exact ⟨rfl, by rw [hs.refs], hs.locks⟩
    · simp at hrun

theorem idup_ensures (i : Inum) :
    Ensures (At refs locks) (idup i) fun a s ↦ a = i ∧ At (i ::ₘ refs) locks s := by
  intro s a t hs hrun
  obtain ⟨rfl, rfl⟩ := Prod.mk.inj (Except.ok.inj hrun)
  exact ⟨rfl, by rw [hs.refs], hs.locks⟩

/-- Only a free lock is taken. -/
theorem ilock_ensures (ip : Option Inum) :
    Ensures (At refs locks) (ilock ip) fun a s ↦
      (ip = some a ∧ a ∉ locks) ∧ At refs (insert a locks) s := by
  cases ip with
  | none => exact fun _ _ _ _ hrun ↦ nomatch hrun
  | some i =>
    intro s a t hs hrun
    simp only [ilock] at hrun
    split at hrun
    · simp at hrun
    · split at hrun
      · simp at hrun
      next hlock =>
        split at hrun
        · simp at hrun
        · obtain ⟨rfl, rfl⟩ := Prod.mk.inj (Except.ok.inj hrun)
          rw [hs.locks] at hlock
          exact ⟨⟨rfl, hlock⟩, hs.refs, by rw [hs.locks]⟩

theorem iunlock_ensures (hlock : i ∉ locks) :
    Ensures (At refs (insert i locks)) (iunlock i) fun _ s ↦ At refs locks s := by
  intro s a t hs hrun
  unfold iunlock at hrun
  split at hrun
  · simp at hrun
  · obtain ⟨rfl, rfl⟩ := Prod.mk.inj (Except.ok.inj hrun)
    exact ⟨hs.refs, by rw [hs.locks, Finset.erase_insert hlock]⟩

/-- One reference is dropped, whether the inode is freed or not. -/
theorem iput_ensures (i : Inum) :
    Ensures (At (i ::ₘ refs) locks) (iput i) fun _ s ↦ At refs locks s := by
  intro s a t hs hrun
  have hrefs : s.refs.erase i = refs := by rw [hs.refs, Multiset.erase_cons_head]
  unfold iput at hrun
  split at hrun
  · simp at hrun
  · split at hrun
    · obtain ⟨rfl, rfl⟩ := Prod.mk.inj (Except.ok.inj hrun)
      exact ⟨hrefs, hs.locks⟩
    · obtain ⟨rfl, rfl⟩ := Prod.mk.inj (Except.ok.inj hrun)
      exact ⟨hrefs, hs.locks⟩

theorem iunlockput_ensures (hlock : i ∉ locks) :
    Ensures (At (i ::ₘ refs) (insert i locks)) (iunlockput i) fun _ s ↦ At refs locks s :=
  (iunlock_ensures hlock).bind fun _ ↦ iput_ensures i

theorem fields_ensures (i : Inum) :
    Ensures (At refs locks) (fields i) fun _ s ↦ At refs locks s := by
  intro s a t hs hrun
  obtain ⟨rfl, rfl⟩ := Prod.mk.inj (Except.ok.inj hrun)
  exact hs

theorem setIsSym_ensures (b : Bool) :
    Ensures (At refs locks) (setIsSym b) fun _ s ↦ At refs locks s := by
  intro s a t hs hrun
  obtain ⟨rfl, rfl⟩ := Prod.mk.inj (Except.ok.inj hrun)
  exact ⟨hs.refs, hs.locks⟩

theorem dirlookup_ensures (dp : Inum) (name : List UInt8) :
    Ensures (At refs locks) (dirlookup dp name) fun found s ↦
      At (reached refs (found.map Prod.fst)) locks s := by
  intro s found t hs hrun
  rcases dirlookup_cases hrun with ⟨rfl, rfl⟩ | ⟨inum, i, off, rfl, hget⟩
  · exact hs
  · obtain ⟨rfl, ht⟩ := iget_ensures inum s i t hs hget
    exact ht

/-! ## The loop -/

/-- What holds when an iteration ends that began with a reference to the directory. -/
def IterationEnds (refs : Multiset Inum) (locks : Finset Inum) : Iteration → FsState → Prop
  | .exit r, s => At (reached refs r) locks s
  | .next r, s => At (reached refs r) locks s

/-- Calls that return with the references and locks they found, and one for their result. -/
def Balanced (walk : Option Inum → CString → Kernel (Option Inum)) : Prop :=
  ∀ root buf refs locks, Ensures (At refs locks) (walk root buf) fun r s ↦ At (reached refs r) locks s

theorem namexFound_ensures (hwalk : Balanced walk) (hlock : d ∉ locks) (i : Inum) :
    Ensures (At (i ::ₘ d ::ₘ refs) (insert d locks)) (namexFound walk d i)
      (IterationEnds refs locks) := by
  refine (iunlock_ensures hlock).bind fun _ ↦ (ilock_ensures (some i)).bind fun next ↦ ?_
  apply Ensures.of_fact
  rintro ⟨hnext, hfree⟩
  obtain rfl := Option.some.inj hnext
  refine (fields_ensures i).bind fun inode ↦ ?_
  by_cases hsym : inode.type = .sym
  · simp only [if_pos hsym]
    cases linkTarget inode with
    | none =>
      refine (iunlockput_ensures hfree).bind fun _ ↦ (iput_ensures d).bind fun _ ↦ ?_
      exact .pure fun s hs ↦ hs
    | some buf =>
      refine (iunlockput_ensures hfree).bind fun _ ↦ (hwalk _ _ _ _).bind fun r ↦ ?_
      refine (setIsSym_ensures true).bind fun _ ↦ ?_
      rw [reached_cons]
      exact (iput_ensures d).bind fun _ ↦ .pure fun s hs ↦ hs
  · simp only [if_neg hsym]
    refine (iunlock_ensures hfree).bind fun _ ↦ ?_
    rw [Multiset.cons_swap]
    exact (iput_ensures d).bind fun _ ↦ .pure fun s hs ↦ hs

theorem namexBody_ensures (hwalk : Balanced walk) (ip : Option Inum) (name : List UInt8)
    (last : Bool) :
    Ensures (At (reached refs ip) locks) (namexBody walk ip name last)
      (IterationEnds refs locks) := by
  refine (ilock_ensures ip).bind fun d ↦ ?_
  apply Ensures.of_fact
  rintro ⟨rfl, hfree⟩
  refine (fields_ensures d).bind fun dp ↦ ?_
  by_cases hdir : dp.type ≠ .dir
  · simp only [if_pos hdir]
    exact (iunlockput_ensures hfree).bind fun _ ↦ .pure fun s hs ↦ hs
  · simp only [if_neg hdir]
    cases last with
    | true =>
      simp only [if_true]
      exact (iunlock_ensures hfree).bind fun _ ↦ .pure fun s hs ↦ hs
    | false =>
      refine (dirlookup_ensures d name).bind fun found ↦ ?_
      cases found with
      | none => exact (iunlockput_ensures hfree).bind fun _ ↦ .pure fun s hs ↦ hs
      | some next => exact namexFound_ensures hwalk hfree next.1

theorem namexStart_ensures (root : Option Inum) (path : List UInt8) :
    Ensures (At refs locks) (namexStart root path) fun ip s ↦ At (ip ::ₘ refs) locks s := by
  refine (setIsSym_ensures false).bind fun _ ↦ ?_
  by_cases habs : path.head? = some slash
  · simp only [if_pos habs]
    exact (iget_ensures ROOTINO).weaken fun a s h ↦ h.1 ▸ h.2
  · simp only [if_neg habs]
    cases root with
    | some ip => exact (idup_ensures ip).weaken fun a s h ↦ h.1 ▸ h.2
    | none =>
      intro s a t hs hrun
      obtain ⟨rfl, ht⟩ := idup_ensures s.cwd s a t hs hrun
      exact ht

/-- The loop drops the reference that it begins with and takes one for its result. -/
theorem namexLoop_ensures (fuel : ℕ) (ip : Option Inum) (path name : List UInt8)
    (nameiparent : Bool) :
    Ensures (At (reached refs ip) locks) (namexLoop fuel ip path name nameiparent)
      fun r s ↦ At (reached refs r.1) locks s := by
  induction fuel generalizing ip path name nameiparent refs locks with
  | zero => exact .throw _
  | succ fuel ih =>
    cases hskip : skipelem path with
    | none =>
      rw [namexLoop.eq_def]
      simp only [hskip]
      cases nameiparent with
      | false => exact .pure fun s hs ↦ hs
      | true =>
        cases ip with
        | none => exact .throw _
        | some d => exact (iput_ensures d).bind fun _ ↦ .pure fun s hs ↦ hs
    | some r =>
      have hwalk : Balanced (FileSystem.walk fuel) := by
        intro root buf refs locks
        exact (namexStart_ensures root buf.bytes).bind fun start ↦
          (ih (some start) buf.bytes [] false).bind fun _ ↦ .pure fun s hs ↦ hs
      rw [namexLoop_element hskip]
      refine (namexBody_ensures hwalk ip r.1 _).bind fun step ↦ ?_
      cases step with
      | exit ip => exact .pure fun s hs ↦ hs
      | next ip => exact ih ip _ _ _

/-- `namex` balances references and locks: when it returns, the inode returned has one more
reference, the other inodes have as many as before, and the same locks are held. -/
theorem namex_balanced {fuel : ℕ} {root : Option Inum} {path : CString} {nameiparent : Bool}
    {s t : FsState} {r : Option Inum} {name : List UInt8}
    (h : namex fuel root path nameiparent s = .ok ((r, name), t)) :
    (∀ i, t.ref i = s.ref i + if r = some i then 1 else 0) ∧ t.locks = s.locks := by
  have hnamex : Ensures (At s.refs s.locks) (namex fuel root path nameiparent)
      fun r t ↦ At (reached s.refs r.1) s.locks t :=
    (namexStart_ensures root path.bytes).bind fun start ↦ namexLoop_ensures fuel (some start) _ _ _
  obtain ⟨hrefs, hlocks⟩ := hnamex s (r, name) t ⟨rfl, rfl⟩ h
  refine ⟨fun i ↦ ?_, hlocks⟩
  rw [FsState.ref, hrefs]
  cases r with
  | none => simp [reached, FsState.ref]
  | some j =>
    simp only [reached, Option.elim_some, Multiset.count_cons, Option.some.injEq, FsState.ref,
      eq_comm]

/-- The link `l` leads to the file `f`, to which one reference is taken. -/
theorem namex_balanced_link :
    ∃ t, namex 3 none (.ofBytes [108]) false (linkState 102).toFsState =
        .ok ((some 3, [108]), t) ∧ t.ref 3 = 1 ∧ t.ref 2 = 0 ∧ t.locks = ∅ := by
  have hrun : ((namex 3 none (.ofBytes [108]) false (linkState 102).toFsState).toOption.map
      Prod.fst) = some (some 3, [108]) := by
    decide +kernel
  obtain ⟨t, ht⟩ := exists_ok_of_run hrun
  obtain ⟨hrefs, hlocks⟩ := namex_balanced ht
  have hzero : ∀ i : Inum, i ≠ ROOTINO → (linkState 102).toFsState.ref i = 0 := fun i hi ↦
    Multiset.count_eq_zero.mpr fun h ↦ hi (Multiset.mem_singleton.mp h)
  refine ⟨t, ht, ?_, ?_, hlocks⟩
  · rw [hrefs, hzero 3 (by decide), if_pos rfl]
  · rw [hrefs, hzero 2 (by decide), if_neg (by decide)]

end CS537.FileSystem
