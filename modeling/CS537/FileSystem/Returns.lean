import CS537.FileSystem.Open
import CS537.FileSystem.Termination

/-!
# Walks that return

A call of `namex` returns exactly what the path resolves to, and it returns if and only if the
path resolves and no visit of the walk is one at which the kernel panics.
-/

namespace CS537.FileSystem

open Foundation

variable {fs : QuietState} {held : List Inum} {d e : Inum} {path rest : List CString}

section Loop

variable {nameiparent : Bool} {bytes name name' : List UInt8} {fuel : ℕ} {s t : FsState}
  {r : Option Inum}

/-- A call that returns has met no state in which the kernel panics. -/
theorem allSafe_of_run (hlive : (fs.inode d).type ≠ .free)
    (hs : Holds fs (d ::ₘ (held : Multiset Inum)) ∅ s)
    (hrun : namexLoop fuel (some d) bytes name nameiparent s = .ok ((r, name'), t)) :
    AllSafe fs held d (lookedUp nameiparent (components bytes)) := by
  intro v hv
  by_contra hbad
  obtain ⟨fuel', hstops⟩ := stops_of_not_safe hv hbad nameiparent bytes name rfl hlive
  have hstops := hstops s hs
  have hok := namexLoop_le (le_max_left fuel fuel') (some d) bytes name nameiparent s
    (by simp [hrun])
  rw [namexLoop_le (le_max_right fuel fuel') _ _ _ _ s hstops.ne, hrun] at hok
  obtain ⟨e, hfail, -⟩ := hstops
  exact nomatch hfail.symm.trans hok

theorem namexLoop_returns_iff (hlive : (fs.inode d).type ≠ .free)
    (hs : Holds fs (d ::ₘ (held : Multiset Inum)) ∅ s) :
    (∃ fuel name' t, namexLoop fuel (some d) bytes name false s = .ok ((r, name'), t)) ↔
      fs.names.Resolves d (components bytes) r ∧ AllSafe fs held d (components bytes) := by
  constructor
  · rintro ⟨fuel, name', t, hrun⟩
    exact ⟨(namexLoop_arrives hlive hs hrun).resolves, allSafe_of_run hlive hs hrun⟩
  · rintro ⟨hr, hsafe⟩
    obtain ⟨fuel, hfuel⟩ := halts_of_resolves hr held false bytes name rfl hlive
    cases hrun : namexLoop fuel (some d) bytes name false s with
    | error e =>
      obtain rfl := eq_outOfFuel_of_allSafe hsafe hlive hs hrun
      exact absurd hrun (hfuel s hs)
    | ok x =>
      obtain ⟨⟨r', name'⟩, t⟩ := x
      obtain rfl := hr.unique (namexLoop_arrives hlive hs hrun).resolves
      exact ⟨fuel, name', t, hrun⟩

/-- A nested call from a directory. -/
theorem walk_returns_iff {target : CString} (hlive : (fs.inode d).type ≠ .free)
    (hs : Holds fs (d ::ₘ (held : Multiset Inum)) ∅ s) :
    (∃ fuel t, walk fuel (some d) target s = .ok (r, t)) ↔
      fs.names.Resolves (FsState.origin d target) (components target.bytes) r ∧
        AllSafe fs (d :: held) (FsState.origin d target) (components target.bytes) := by
  obtain ⟨u, hstart, hu⟩ := namexStart_returns (some d) target s hs
  rw [← @namexLoop_returns_iff fs (d :: held) (FsState.origin d target) target.bytes [] u r
    (origin_live hlive target) hu]
  constructor
  · rintro ⟨fuel, t, hrun⟩
    rw [walk, bind_of_ok hstart] at hrun
    obtain ⟨⟨r', name'⟩, v, hloop, hret⟩ := exists_of_bind_ok hrun
    obtain ⟨rfl, rfl⟩ := Prod.mk.inj (Except.ok.inj hret)
    exact ⟨fuel, name', v, hloop⟩
  · rintro ⟨fuel, name', t, hloop⟩
    refine ⟨fuel, t, ?_⟩
    rw [walk, bind_of_ok hstart]
    exact bind_of_ok hloop

end Loop

/-- `namei` returns what the path resolves to, if the kernel does not panic on the way. -/
theorem nameiReturns_iff (fs : QuietState) (path : CString) (r : Option Inum) :
    NameiReturns fs.toFsState path r ↔ ResolvesTo fs path r ∧ NameiSafe fs path := by
  obtain ⟨s, hs, -, hnamex⟩ := exists_loop fs path
  rw [ResolvesTo, NameiSafe, ← @namexLoop_returns_iff fs [] _ path.bytes [] s r
    (start_live fs path) hs]
  constructor
  · rintro ⟨fuel, t, hrun⟩
    obtain ⟨⟨r', name'⟩, v, hloop, hret⟩ := exists_of_bind_ok hrun
    obtain ⟨rfl, rfl⟩ := Prod.mk.inj (Except.ok.inj hret)
    exact ⟨fuel, name', v, (hnamex fuel false).symm.trans hloop⟩
  · rintro ⟨fuel, name', t, hloop⟩
    exact ⟨fuel, t, bind_of_ok ((hnamex fuel false).trans hloop)⟩

/-! ## Parts of a path -/

/-- What comes after a name matters only behind links that lead nowhere. -/
theorem safe_rest_iff {c : CString} {rest' : List CString}
    (h : ∀ l, fs.names.entry d c = some (.inr l) →
      ¬fs.names.Resolves (fs.names.target l).1 (fs.names.target l).2 none) :
    Safe fs ⟨held, d, c, rest⟩ ↔ Safe fs ⟨held, d, c, rest'⟩ := by
  have himp : ∀ {r r' : List CString}, Safe fs ⟨held, d, c, r⟩ → Safe fs ⟨held, d, c, r'⟩ :=
    fun hs ↦ ⟨hs.whole, hs.room, hs.live, fun l hl hnone ↦ absurd hnone (h l hl)⟩
  exact ⟨himp, himp⟩

/-- Behind a link whose target resolves the walk goes on from one inode. -/
theorem allSafe_link_iff {c : CString} {i : Inum} {l : Inum × Inum}
    (hentry : fs.names.entry d c = some (.inr l))
    (htarget : fs.names.Resolves (fs.names.target l).1 (fs.names.target l).2 (some i)) :
    AllSafe fs held d (c :: rest) ↔ Safe fs ⟨held, d, c, rest⟩ ∧
      AllSafe fs (d :: held) (fs.names.target l).1 (fs.names.target l).2 ∧
      AllSafe fs held i rest := by
  rw [AllSafe, NameSpace.forall_visits_link hentry]
  refine and_congr_right' (and_congr_right' ⟨fun h ↦ h i htarget, fun h j hj ↦ ?_⟩)
  obtain rfl := Option.some.inj (htarget.unique hj)
  exact h

theorem allSafe_append_iff (h : fs.names.Resolves d path (some e)) :
    AllSafe fs held d (path ++ rest) ↔ AllSafe fs held d path ∧ AllSafe fs held e rest := by
  generalize hr : some e = r at h
  induction h with
  | nil d =>
    obtain rfl := Option.some.inj hr
    exact (and_iff_right fun v hv ↦ absurd hv NameSpace.not_visits_nil).symm
  | missing => simp at hr
  | @node d i c path r hentry _ ih =>
    have hsafe : Safe fs ⟨held, d, c, path ++ rest⟩ ↔ Safe fs ⟨held, d, c, path⟩ :=
      safe_rest_iff fun l hl ↦ by simp [hentry] at hl
    rw [List.cons_append, AllSafe, NameSpace.forall_visits_node hentry, AllSafe,
      NameSpace.forall_visits_node hentry, and_assoc]
    exact and_congr hsafe (ih hr)
  | @link d i c path l r hentry htarget _ _ ih =>
    have hsafe : Safe fs ⟨held, d, c, path ++ rest⟩ ↔ Safe fs ⟨held, d, c, path⟩ := by
      refine safe_rest_iff fun m hm hnone ↦ ?_
      obtain rfl := Sum.inr.inj (Option.some.inj (hentry.symm.trans hm))
      exact absurd (htarget.unique hnone) (Option.some_ne_none _)
    rw [List.cons_append, allSafe_link_iff hentry htarget, allSafe_link_iff hentry htarget,
      and_assoc, and_assoc]
    exact and_congr hsafe (and_congr_right' (ih hr))
  | dangling => simp at hr

end CS537.FileSystem
