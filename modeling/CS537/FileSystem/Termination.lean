import CS537.FileSystem.Iterations

/-!
# Termination of path resolution

Each link on a path starts a nested call of `namex`.  The calls come to an end exactly when no link
that the walk comes upon leads back to itself, unless the kernel panics before; otherwise every
bound on the recursion is too small.
-/

namespace CS537.FileSystem

open Foundation

variable {fs : QuietState} {d : Inum} {path : List CString}

/-- The walks of `path` from `d` that `namex` begins need only so much fuel. -/
def Halts (fs : QuietState) (d : Inum) (path : List CString) : Prop :=
  ∀ (held : Multiset Inum) (nameiparent : Bool) (bytes name : List UInt8),
    lookedUp nameiparent (components bytes) = path → (fs.inode d).type ≠ .free →
    ∃ fuel, ∀ s, Holds fs (d ::ₘ held) ∅ s →
      namexLoop fuel (some d) bytes name nameiparent s ≠ .error .outOfFuel

section Loop

variable {held : Multiset Inum} {nameiparent : Bool} {bytes elem tail name : List UInt8}
  {s t : FsState} {fuel fuel' : ℕ} {ip r : Option Inum} {c : CString} {e : Fault}

theorem namexLoop_ne_of_le (h : namexLoop fuel ip bytes name nameiparent s ≠ .error .outOfFuel)
    (hle : fuel ≤ fuel') :
    namexLoop fuel' ip bytes name nameiparent s ≠ .error .outOfFuel := by
  rw [namexLoop_le hle _ _ _ _ s h]
  exact h

/-- Where no component is left to be looked up, the call needs one unit of fuel. -/
theorem namexLoop_end_ne (hlive : (fs.inode d).type ≠ .free)
    (hpath : lookedUp nameiparent (components bytes) = []) (hs : Holds fs (d ::ₘ held) ∅ s) :
    namexLoop (fuel + 1) (some d) bytes name nameiparent s ≠ .error .outOfFuel := by
  rcases lookedUp_eq_nil hpath with hnil | ⟨rfl, elem, hskip, -⟩
  · have hskip := skipelem_of_nil hnil
    cases nameiparent with
    | false =>
      rw [namexLoop_end hskip]
      exact pure_ne_error
    | true =>
      obtain ⟨t, hrun, -⟩ := iput_returns (Finset.notMem_empty d) hlive s hs
      rw [namexLoop.eq_def]
      simp only [hskip, if_true]
      rw [bind_of_ok hrun]
      exact pure_ne_error
  · obtain ⟨r, t, hrun, -⟩ := namexBody_last (walk fuel) hlive hs elem
    rw [namexLoop_element hskip, List.isEmpty_nil, Bool.and_self, bind_of_ok hrun]
    exact pure_ne_error

/-- A nested call fails as its loop does, and begins it with a reference to its start. -/
theorem exists_start (held : Multiset Inum) (d : Inum) (target : CString)
    (hs : Holds fs (d ::ₘ held) ∅ s) :
    ∃ u, Holds fs (FsState.origin d target ::ₘ d ::ₘ held) ∅ u ∧ ∀ fuel e,
      walk fuel (some d) target s = .error e ↔
        namexLoop fuel (some (FsState.origin d target)) target.bytes [] false u = .error e := by
  obtain ⟨u, hstart, hu⟩ := namexStart_returns (some d) target s hs
  refine ⟨u, hu, fun fuel e ↦ ?_⟩
  rw [walk, bind_of_ok hstart]
  cases hloop : namexLoop fuel (some (FsState.origin d target)) target.bytes [] false u with
  | error e' =>
    rw [Option.getD_some] at *
    rw [bind_of_error hloop]
    simp
  | ok r =>
    rw [Option.getD_some] at *
    rw [bind_of_ok hloop]
    exact iff_of_false pure_ne_error (by simp)

/-- Behind a link that leads nowhere the walk does not go on. -/
theorem namexLoop_null_ne (hs : Holds fs held ∅ s) :
    namexLoop (fuel + 1) none bytes name nameiparent s ≠ .error .outOfFuel := by
  cases hskip : skipelem bytes with
  | none =>
    rw [namexLoop.eq_def]
    simp only [hskip]
    cases nameiparent with
    | false => exact pure_ne_error
    | true =>
      intro h
      cases h
  | some next =>
    have hnull : Fails (Holds fs held ∅) (namexLoop (fuel + 1) none bytes name nameiparent)
        (· ≠ .outOfFuel) := namexLoop_null_fails hskip
    obtain ⟨e, hrun, he⟩ := hnull s hs
    rw [hrun]
    exact fun h ↦ he (Except.error.inj h)

/-- One more component needs no fuel of its own but one unit. -/
theorem namexLoop_ne (hskip : skipelem bytes = some (elem, tail)) (helem : nameOf elem = c)
    (hlast : (nameiparent && tail.isEmpty) = false) (hlive : (fs.inode d).type ≠ .free)
    (hs : Holds fs (d ::ₘ held) ∅ s)
    (hnode : ∀ i t, fs.names.entry d c = some (.inl i) → (fs.inode i).type ≠ .free →
      Holds fs (i ::ₘ held) ∅ t →
      namexLoop fuel (some i) tail elem nameiparent t ≠ .error .outOfFuel)
    (hwalk : ∀ i u, fs.names.entry d c = some (.inr (d, i)) → Holds fs (d ::ₘ held) ∅ u →
      walk fuel (some d) (fs.targetOf i) u ≠ .error .outOfFuel)
    (hlink : ∀ i r v, fs.names.entry d c = some (.inr (d, i)) →
      fs.names.Resolves (fs.names.target (d, i)).1 (fs.names.target (d, i)).2 r →
      (∀ j ∈ r, (fs.inode j).type ≠ .free) → Holds fs (reached held r) ∅ v →
      namexLoop fuel r tail elem nameiparent v ≠ .error .outOfFuel) :
    namexLoop (fuel + 1) (some d) bytes name nameiparent s ≠ .error .outOfFuel := by
  refine namexLoop_cases (P := fun x ↦ x ≠ .error .outOfFuel) hskip helem hlast hlive hs
    (fun t _ _ _ ↦ nofun) (fun i t hentry _ ↦ hnode i t hentry) (fun i u e hentry _ hu hrun ↦ ?_)
    (fun i _ r _ v hentry _ _ _ ↦ hlink i r v hentry) (fun e _ he h ↦ he (Except.error.inj h))
  exact fun h ↦ hwalk i u hentry hu (hrun.trans (congrArg Except.error (Except.error.inj h)))

end Loop

/-! ## Walks that come to an end -/

theorem fst_of_entry {c : CString} {l : Inum × Inum} (h : fs.names.entry d c = some (.inr l)) :
    l.1 = d := (link_of_entry h).1

theorem Halts.walk {l : Inum × Inum}
    (h : Halts fs (fs.names.target l).1 (fs.names.target l).2)
    (hlive : (fs.inode l.1).type ≠ .free) (held : Multiset Inum) :
    ∃ fuel, ∀ s, Holds fs (l.1 ::ₘ held) ∅ s →
      FileSystem.walk fuel (some l.1) (fs.targetOf l.2) s ≠ .error .outOfFuel := by
  obtain ⟨fuel, hfuel⟩ := h (l.1 ::ₘ held) false (fs.targetOf l.2).bytes [] rfl
    (origin_live hlive _)
  refine ⟨fuel, fun s hs hrun ↦ ?_⟩
  obtain ⟨u, hu, hiff⟩ := exists_start held l.1 (fs.targetOf l.2) hs
  exact hfuel u hu ((hiff fuel _).mp hrun)

theorem halts_extends (fs : QuietState) : fs.names.Extends (Halts fs) := by
  intro d c rest hnode hlink held nameiparent bytes name hpath hlive
  obtain ⟨elem, tail, hskip, helem, htail, hlast, -⟩ := exists_element hpath
  -- the fuel for the rest of the path behind an inode
  have hbehind : ∀ i, Halts fs i rest → ∃ fuel, (fs.inode i).type ≠ .free →
      ∀ s, Holds fs (i ::ₘ held) ∅ s →
        namexLoop fuel (some i) tail elem nameiparent s ≠ .error .outOfFuel := by
    intro i hi
    by_cases hilive : (fs.inode i).type ≠ .free
    · obtain ⟨fuel, hfuel⟩ := hi held nameiparent tail elem htail hilive
      exact ⟨fuel, fun _ ↦ hfuel⟩
    · exact ⟨0, fun h ↦ absurd h hilive⟩
  cases hentry : fs.names.entry d c with
  | none =>
    refine ⟨1, fun s hs ↦ namexLoop_ne hskip helem hlast hlive hs ?_ ?_ ?_⟩
    · exact fun i t h ↦ by simp [hentry] at h
    · exact fun i u h ↦ by simp [hentry] at h
    · exact fun i r v h ↦ by simp [hentry] at h
  | some entry =>
    cases entry with
    | inl i =>
      obtain ⟨fuel, hfuel⟩ := hbehind i (hnode i hentry)
      refine ⟨fuel + 1, fun s hs ↦ namexLoop_ne hskip helem hlast hlive hs ?_ ?_ ?_⟩
      · intro j t h hjlive ht
        obtain rfl : i = j := Sum.inl.inj (Option.some.inj (hentry.symm.trans h))
        exact hfuel hjlive t ht
      · exact fun i u h ↦ by simp [hentry] at h
      · exact fun i r v h ↦ by simp [hentry] at h
    | inr l =>
      obtain ⟨e, k⟩ := l
      obtain rfl : e = d := fst_of_entry hentry
      obtain ⟨htarget, hrest⟩ := hlink (e, k) hentry
      have hlinkIff : ∀ {i}, fs.names.entry e c = some (.inr (e, i)) → k = i := fun h ↦
        (Prod.mk.inj (Sum.inr.inj (Option.some.inj (hentry.symm.trans h)))).2
      obtain ⟨fuel₁, hfuel₁⟩ := htarget.walk hlive held
      obtain ⟨fuel₂, hfuel₂⟩ : ∃ fuel, ∀ j,
          fs.names.Resolves (fs.names.target (e, k)).1 (fs.names.target (e, k)).2 (some j) →
          (fs.inode j).type ≠ .free → ∀ s, Holds fs (j ::ₘ held) ∅ s →
            namexLoop fuel (some j) tail elem nameiparent s ≠ .error .outOfFuel := by
        by_cases hfound : ∃ j,
            fs.names.Resolves (fs.names.target (e, k)).1 (fs.names.target (e, k)).2 (some j)
        · obtain ⟨j, hj⟩ := hfound
          obtain ⟨fuel, hfuel⟩ := hbehind j (hrest j hj)
          refine ⟨fuel, fun k hk ↦ ?_⟩
          obtain rfl : j = k := Option.some.inj (hj.unique hk)
          exact hfuel
        · exact ⟨0, fun j hj ↦ absurd ⟨j, hj⟩ hfound⟩
      have hle₁ : fuel₁ ≤ max fuel₁ fuel₂ + 1 := by omega
      have hle₂ : fuel₂ ≤ max fuel₁ fuel₂ + 1 := by omega
      refine ⟨max fuel₁ fuel₂ + 1 + 1, fun s hs ↦ namexLoop_ne hskip helem hlast hlive hs ?_ ?_ ?_⟩
      · exact fun i t h ↦ by simp [hentry] at h
      · intro i u h hu
        obtain rfl := hlinkIff h
        rw [walk_le hle₁ _ _ u (hfuel₁ u hu)]
        exact hfuel₁ u hu
      · intro i r v h hr hrlive hv
        obtain rfl := hlinkIff h
        cases r with
        | none => exact namexLoop_null_ne hv
        | some j => exact namexLoop_ne_of_le (hfuel₂ j hr (hrlive j rfl) v hv) hle₂

theorem halts_of_resolves {r : Option Inum} (h : fs.names.Resolves d path r) : Halts fs d path :=
  h.induction (fun _ _ _ _ _ hpath hlive ↦ ⟨1, fun _ hs ↦ namexLoop_end_ne hlive hpath hs⟩)
    (halts_extends fs)

/-! ## Walks that end in a panic -/

/-- The run ends in an error that more fuel does not mend. -/
def Stops {α : Type} (x : Except Fault α) : Prop := ∃ e, x = .error e ∧ e ≠ .outOfFuel

theorem Stops.ne {α : Type} {x : Except Fault α} (h : Stops x) : x ≠ .error .outOfFuel := by
  obtain ⟨e, rfl, he⟩ := h
  exact fun heq ↦ he (Except.error.inj heq)

section Stops

variable {held : Multiset Inum} {nameiparent : Bool} {bytes elem tail name : List UInt8}
  {s : FsState} {fuel : ℕ} {c : CString}

theorem namexLoop_stops_node {i : Inum} (hskip : skipelem bytes = some (elem, tail))
    (helem : nameOf elem = c) (hlast : (nameiparent && tail.isEmpty) = false)
    (hlive : (fs.inode d).type ≠ .free) (hs : Holds fs (d ::ₘ held) ∅ s)
    (hentry : fs.names.entry d c = some (.inl i))
    (hrest : (fs.inode i).type ≠ .free → ∀ t, Holds fs (i ::ₘ held) ∅ t →
      Stops (namexLoop fuel (some i) tail elem nameiparent t)) :
    Stops (namexLoop (fuel + 1) (some d) bytes name nameiparent s) := by
  refine namexLoop_cases (P := Stops) hskip helem hlast hlive hs (fun t h ↦ ?_)
    (fun j t h _ hjlive ht ↦ ?_) (fun j u e h ↦ ?_) (fun j u r w v h ↦ ?_)
    (fun e _ he ↦ ⟨e, rfl, he⟩)
  · simp [hentry] at h
  · obtain rfl : i = j := Sum.inl.inj (Option.some.inj (hentry.symm.trans h))
    exact hrest hjlive t ht
  · simp [hentry] at h
  · simp [hentry] at h

theorem namexLoop_stops_link {k : Inum} (hskip : skipelem bytes = some (elem, tail))
    (helem : nameOf elem = c) (hlast : (nameiparent && tail.isEmpty) = false)
    (hlive : (fs.inode d).type ≠ .free) (hs : Holds fs (d ::ₘ held) ∅ s)
    (hentry : fs.names.entry d c = some (.inr (d, k)))
    (hwalk : ∀ u, Holds fs (d ::ₘ held) ∅ u →
      walk fuel (some d) (fs.targetOf k) u ≠ .error .outOfFuel)
    (hrest : ∀ u r w v, Holds fs (d ::ₘ held) ∅ u →
      walk fuel (some d) (fs.targetOf k) u = .ok (r, w) →
      fs.names.Resolves (fs.names.target (d, k)).1 (fs.names.target (d, k)).2 r →
      (∀ j ∈ r, (fs.inode j).type ≠ .free) → Holds fs (reached held r) ∅ v →
      Stops (namexLoop fuel r tail elem nameiparent v)) :
    Stops (namexLoop (fuel + 1) (some d) bytes name nameiparent s) := by
  have hsame : ∀ {i}, fs.names.entry d c = some (.inr (d, i)) → k = i := fun h ↦
    (Prod.mk.inj (Sum.inr.inj (Option.some.inj (hentry.symm.trans h)))).2
  refine namexLoop_cases (P := Stops) hskip helem hlast hlive hs (fun t h ↦ ?_) (fun j t h ↦ ?_)
    (fun i u e h _ hu hrun ↦ ⟨e, rfl, ?_⟩) (fun i u r w v h _ hu hrun ↦ ?_)
    (fun e _ he ↦ ⟨e, rfl, he⟩)
  · simp [hentry] at h
  · simp [hentry] at h
  · obtain rfl := hsame h
    rintro rfl
    exact hwalk u hu hrun
  · obtain rfl := hsame h
    exact hrest u r w v hu hrun

end Stops

/-- The name cannot be read, or it is a link that leads nowhere with more to come. -/
theorem exists_dangling {held : List Inum} {c : CString} {rest : List CString}
    (hread : Readable fs held d c) (hbad : ¬Safe fs ⟨held, d, c, rest⟩) :
    ∃ k, fs.names.entry d c = some (.inr (d, k)) ∧
      fs.names.Resolves (fs.names.target (d, k)).1 (fs.names.target (d, k)).2 none ∧
      rest ≠ [] := by
  by_contra hno
  push Not at hno
  refine hbad ⟨hread.whole, hread.room, hread.live, fun l hl hr ↦ ?_⟩
  obtain ⟨e, k⟩ := l
  obtain rfl : e = d := fst_of_entry hl
  exact hno k hl hr

/-- A call that meets a state in which the kernel panics does not return. -/
theorem stops_of_not_safe {held : List Inum} {v : NameSpace.Visit Inum CString}
    (hvisit : fs.names.Visits held d path v) (hbad : ¬Safe fs v) (nameiparent : Bool)
    (bytes name : List UInt8) (hpath : lookedUp nameiparent (components bytes) = path)
    (hlive : (fs.inode d).type ≠ .free) :
    ∃ fuel, ∀ s, Holds fs (d ::ₘ (held : Multiset Inum)) ∅ s →
      Stops (namexLoop fuel (some d) bytes name nameiparent s) := by
  induction hvisit generalizing nameiparent bytes name with
  | @here held d c rest =>
    obtain ⟨elem, tail, hskip, helem, htail, hlast, -⟩ := exists_element hpath
    by_cases hread : Readable fs held d c
    · obtain ⟨k, hentry, htarget, hrest⟩ := exists_dangling hread hbad
      obtain ⟨fuel, hfuel⟩ := (halts_of_resolves htarget).walk hlive (held : Multiset Inum)
      refine ⟨fuel + 1 + 1, fun s hs ↦
        namexLoop_stops_link hskip helem hlast hlive hs hentry ?_ ?_⟩
      · intro u hu
        rw [walk_le (Nat.le_succ fuel) _ _ u (hfuel u hu)]
        exact hfuel u hu
      · intro u r w v _ _ hr _ hv
        obtain rfl := htarget.unique hr
        cases htail' : components tail with
        | nil =>
          rw [htail'] at htail
          exact absurd htail.symm (by cases nameiparent <;> simpa [lookedUp] using hrest)
        | cons c' cs =>
          obtain ⟨elem', tail', hskip', -⟩ := exists_skipelem htail'
          exact namexLoop_null_fails hskip' v hv
    · exact ⟨1, fun s hs ↦ namexLoop_cases (P := Stops)
        hskip helem hlast hlive hs (fun _ _ h ↦ absurd h hread) (fun _ _ _ h ↦ absurd h hread)
        (fun _ _ _ _ h ↦ absurd h hread) (fun _ _ _ _ _ _ h ↦ absurd h hread)
        (fun e _ he ↦ ⟨e, rfl, he⟩)⟩
  | @node held d i c rest v hentry _ ih =>
    obtain ⟨elem, tail, hskip, helem, htail, hlast, -⟩ := exists_element hpath
    by_cases hilive : (fs.inode i).type ≠ .free
    · obtain ⟨fuel, hfuel⟩ := ih hbad nameiparent tail elem htail hilive
      exact ⟨fuel + 1, fun s hs ↦
        namexLoop_stops_node hskip helem hlast hlive hs hentry fun _ ↦ hfuel⟩
    · exact ⟨1, fun s hs ↦
        namexLoop_stops_node hskip helem hlast hlive hs hentry fun h ↦ absurd h hilive⟩
  | @inside held d c rest l v hentry _ ih =>
    obtain ⟨elem, tail, hskip, helem, htail, hlast, -⟩ := exists_element hpath
    obtain ⟨e, k⟩ := l
    obtain rfl : e = d := fst_of_entry hentry
    obtain ⟨fuel, hfuel⟩ := ih hbad false (fs.targetOf k).bytes [] rfl (origin_live hlive _)
    have hwalk : ∀ u, Holds fs (e ::ₘ (held : Multiset Inum)) ∅ u →
        Stops (walk fuel (some e) (fs.targetOf k) u) := by
      intro u hu
      obtain ⟨w, hw, hiff⟩ := exists_start (held : Multiset Inum) e (fs.targetOf k) hu
      obtain ⟨e', hrun, he⟩ := hfuel w hw
      exact ⟨e', (hiff fuel e').mpr hrun, he⟩
    refine ⟨fuel + 1, fun s hs ↦ namexLoop_stops_link hskip helem hlast hlive hs hentry
      (fun u hu ↦ (hwalk u hu).ne) fun u r w v hu hrun ↦ ?_⟩
    obtain ⟨e', hrun', -⟩ := hwalk u hu
    cases hrun.symm.trans hrun'
  | @after held d i c rest l v hentry htarget _ ih =>
    obtain ⟨elem, tail, hskip, helem, htail, hlast, -⟩ := exists_element hpath
    obtain ⟨e, k⟩ := l
    obtain rfl : e = d := fst_of_entry hentry
    obtain ⟨fuel₁, hfuel₁⟩ := (halts_of_resolves htarget).walk hlive (held : Multiset Inum)
    obtain ⟨fuel₂, hfuel₂⟩ : ∃ fuel, (fs.inode i).type ≠ .free →
        ∀ s, Holds fs (i ::ₘ (held : Multiset Inum)) ∅ s →
          Stops (namexLoop fuel (some i) tail elem nameiparent s) := by
      by_cases hilive : (fs.inode i).type ≠ .free
      · obtain ⟨fuel, hfuel⟩ := ih hbad nameiparent tail elem htail hilive
        exact ⟨fuel, fun _ ↦ hfuel⟩
      · exact ⟨0, fun h ↦ absurd h hilive⟩
    refine ⟨max fuel₁ fuel₂ + 1, fun s hs ↦
      namexLoop_stops_link hskip helem hlast hlive hs hentry ?_ ?_⟩
    · intro u hu
      rw [walk_le (le_max_left _ _) _ _ u (hfuel₁ u hu)]
      exact hfuel₁ u hu
    · intro u r w v _ _ hr hrlive hv
      obtain rfl := htarget.unique hr
      have hstops := hfuel₂ (hrlive i rfl) v hv
      rw [namexLoop_le (le_max_right _ _) _ _ _ _ v hstops.ne]
      exact hstops

/-! ## Walks without end -/

section Endless

variable {bytes name : List UInt8} {fuel : ℕ} {s : FsState} {e : Fault}

theorem allSafe_here {held : List Inum} {c : CString} {rest : List CString}
    (h : AllSafe fs held d (c :: rest)) : Readable fs held d c :=
  have hhere := h _ .here
  ⟨hhere.whole, hhere.room, hhere.live⟩

/-- Where no visit is the cause of a panic, a call fails for want of fuel only. -/
theorem eq_outOfFuel_of_allSafe {held : List Inum} (hsafe : AllSafe fs held d (components bytes))
    (hlive : (fs.inode d).type ≠ .free) (hs : Holds fs (d ::ₘ (held : Multiset Inum)) ∅ s)
    (hrun : namexLoop fuel (some d) bytes name false s = .error e) : e = .outOfFuel := by
  induction fuel generalizing d held bytes name s e with
  | zero => exact (Except.error.inj hrun).symm
  | succ fuel ih =>
    cases hpath : components bytes with
    | nil =>
      rw [namexLoop_end (skipelem_of_nil hpath)] at hrun
      exact nomatch hrun
    | cons c rest =>
      obtain ⟨elem, tail, hskip, helem, rfl⟩ := exists_skipelem hpath
      rw [hpath] at hsafe
      have hhere := hsafe _ .here
      refine namexLoop_cases (P := fun x ↦ x = .error e → e = .outOfFuel) hskip helem rfl hlive hs
        (fun t _ _ _ ↦ nofun) (fun i t hentry _ hilive ht ↦ ?_)
        (fun i u e' hentry _ hu hwalk heq ↦ ?_) (fun i u r w v hentry _ _ _ hr hrlive hv ↦ ?_)
        (fun e' hread ↦ absurd (allSafe_here hsafe) hread) hrun
      · exact ih (fun v hv ↦ hsafe v (.node hentry hv)) hilive ht
      · obtain rfl := Except.error.inj heq
        obtain ⟨w, hw, hiff⟩ := exists_start (held : Multiset Inum) d (fs.targetOf i) hu
        exact @ih (FsState.origin d (fs.targetOf i)) _ _ w e' (d :: held)
          (fun v hv ↦ hsafe v (.inside hentry hv)) (origin_live hlive _) hw
          ((hiff fuel e').mp hwalk)
      · cases r with
        | some j => exact ih (fun v hv ↦ hsafe v (.after hentry hr hv)) (hrlive j rfl) hv
        | none =>
          have hend : components tail = [] := hhere.resolves _ hentry hr
          cases fuel with
          | zero => exact fun h ↦ (Except.error.inj h).symm
          | succ fuel =>
            rw [namexLoop_end (skipelem_of_nil hend)]
            exact nofun

/-- A walk that does not come to an end and meets no state in which the kernel panics uses up any
amount of fuel. -/
theorem namexLoop_outOfFuel {held : List Inum} {nameiparent : Bool}
    (hpath : lookedUp nameiparent (components bytes) = path)
    (hendless : ¬∃ r, fs.names.Resolves d path r) (hsafe : AllSafe fs held d path)
    (hlive : (fs.inode d).type ≠ .free) (hs : Holds fs (d ::ₘ (held : Multiset Inum)) ∅ s) :
    namexLoop fuel (some d) bytes name nameiparent s = .error .outOfFuel := by
  induction fuel generalizing d path bytes name s with
  | zero => rfl
  | succ fuel ih =>
    cases path with
    | nil => exact absurd ⟨some d, .nil d⟩ hendless
    | cons c rest =>
      obtain ⟨elem, tail, hskip, helem, htail, hlast, -⟩ := exists_element hpath
      refine namexLoop_cases (P := fun x ↦ x = .error .outOfFuel) hskip helem hlast hlive hs
        (fun t hentry ↦ absurd ⟨none, .missing hentry⟩ hendless)
        (fun i t hentry _ hilive ht ↦ ?_) (fun i u e hentry _ hu hwalk ↦ ?_)
        (fun i u r w v hentry _ _ _ hr hrlive hv ↦ ?_)
        (fun e hread ↦ absurd (allSafe_here hsafe) hread)
      · refine ih htail (fun ⟨r, hr⟩ ↦ hendless ⟨r, .node hentry hr⟩) ?_ hilive ht
        exact fun v hv ↦ hsafe v (.node hentry hv)
      · obtain ⟨w, hw, hiff⟩ := exists_start (held : Multiset Inum) d (fs.targetOf i) hu
        exact congrArg Except.error (@eq_outOfFuel_of_allSafe fs _ _ _ fuel w e (d :: held)
          (fun v hv ↦ hsafe v (.inside hentry hv)) (origin_live hlive _) hw
          ((hiff fuel e).mp hwalk))
      · cases r with
        | none => exact absurd ⟨none, .dangling hentry hr⟩ hendless
        | some j =>
          refine ih htail (fun ⟨r, hr'⟩ ↦ hendless ⟨r, .link hentry hr hr'⟩) ?_ (hrlive j rfl) hv
          exact fun v hv ↦ hsafe v (.after hentry hr hv)

end Endless

/-- Path resolution terminates: some number of iterations and nested calls is enough exactly when
no link that the walk comes upon leads back to itself, or the kernel panics on the way. -/
theorem namex_terminates_iff (fs : QuietState) (path : CString) (nameiparent : Bool) :
    (∃ fuel, namex fuel none path nameiparent fs.toFsState ≠ .error .outOfFuel) ↔
      (∀ l, fs.names.Meets (FsState.origin fs.cwd path)
          (lookedUp nameiparent (components path.bytes)) l →
        ¬Relation.TransGen fs.names.Needs l l) ∨
      ¬AllSafe fs [] (FsState.origin fs.cwd path)
        (lookedUp nameiparent (components path.bytes)) := by
  have hcwd : (fs.inode fs.cwd).type ≠ .free := by simp [fs.cwd_dir]
  have hlive := origin_live hcwd path
  obtain ⟨s, hstart, hs⟩ := namexStart_returns none path _ fs.holds
  have hnamex (fuel : ℕ) : namex fuel none path nameiparent fs.toFsState =
      namexLoop fuel (some (FsState.origin fs.cwd path)) path.bytes [] nameiparent s :=
    bind_of_ok hstart
  simp only [hnamex, ← NameSpace.exists_resolves_iff]
  constructor
  · rintro ⟨fuel, hfuel⟩
    by_contra hno
    obtain ⟨hendless, hsafe⟩ := not_or.mp hno
    exact hfuel (namexLoop_outOfFuel rfl hendless (not_not.mp hsafe) hlive hs)
  · rintro (⟨r, hr⟩ | hpanics)
    · obtain ⟨fuel, hfuel⟩ := halts_of_resolves hr 0 nameiparent path.bytes [] rfl hlive
      exact ⟨fuel, hfuel s hs⟩
    · obtain ⟨v, hvisit, hbad⟩ : ∃ v, fs.names.Visits [] (FsState.origin fs.cwd path)
          (lookedUp nameiparent (components path.bytes)) v ∧ ¬Safe fs v := by
        by_contra hno
        push Not at hno
        exact hpanics hno
      obtain ⟨fuel, hfuel⟩ := stops_of_not_safe hvisit hbad nameiparent path.bytes [] rfl hlive
      exact ⟨fuel, (hfuel s hs).ne⟩

end CS537.FileSystem
