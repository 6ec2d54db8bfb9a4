import CS537.FileSystem.Open

/-!
# Parent directories

`nameiparent` stops before the last component of a path and returns the directory that is to hold
it.  Where `namei` finds an inode, `nameiparent` finds the directory of its last component.
-/

namespace CS537.FileSystem

open Foundation

variable {fs : QuietState} {held : Multiset Inum} {d : Inum} {fuel : ℕ}

/-- A path whose last component `nameiparent` leaves in `name`, having come to the directory `e`
from `d`. -/
structure ParentOf (fs : QuietState) (d : Inum) (path : List CString) (e : Inum)
    (name : List UInt8) (before : List CString) : Prop where
  path_eq : path = before ++ [nameOf name]
  resolves : fs.names.Resolves d before (some e)
  dir : (fs.inode e).type = .dir

section Parents

variable {bytes elem tail name name' : List UInt8} {before : List CString} {e i j : Inum}
  {c : CString} {s t : FsState} {r : Option Inum}

theorem ParentOf.cons (h : ParentOf fs i (components tail) e name before)
    (hpath : components bytes = c :: components tail)
    (hstep : ∀ {r}, fs.names.Resolves i before r → fs.names.Resolves d (c :: before) r) :
    ParentOf fs d (components bytes) e name (c :: before) where
  path_eq := by rw [hpath, h.path_eq, List.cons_append]
  resolves := hstep h.resolves
  dir := h.dir

/-- When `nameiparent` returns an inode, it is the directory of the last component. -/
theorem namexLoop_parent (hlive : (fs.inode d).type ≠ .free) (hs : Holds fs (d ::ₘ held) ∅ s)
    (hrun : namexLoop fuel (some d) bytes name true s = .ok ((some e, name'), t)) :
    Holds fs (e ::ₘ held) ∅ t ∧ ∃ before, ParentOf fs d (components bytes) e name' before := by
  induction fuel generalizing d bytes name s with
  | zero => cases hrun
  | succ fuel ih =>
    cases hup : lookedUp true (components bytes) with
    | nil =>
      rcases lookedUp_eq_nil hup with hnil | ⟨-, elem, hskip, hpath⟩
      · obtain ⟨u, hput, -⟩ := iput_returns (Finset.notMem_empty d) hlive s hs
        rw [namexLoop.eq_def] at hrun
        simp only [skipelem_of_nil hnil, if_true] at hrun
        rw [bind_of_ok hput] at hrun
        cases (Prod.mk.inj (Prod.mk.inj (Except.ok.inj hrun)).1).1
      · obtain ⟨r, u, hbody, hu, hr⟩ := namexBody_last (walk fuel) hlive hs elem
        rw [namexLoop_element hskip, List.isEmpty_nil, Bool.and_self, bind_of_ok hbody] at hrun
        obtain ⟨hret, rfl⟩ := Prod.mk.inj (Except.ok.inj hrun)
        obtain ⟨rfl, rfl⟩ := Prod.mk.inj hret
        split at hr
        next hdir =>
          obtain rfl := Option.some.inj hr
          exact ⟨hu, [], hpath, .nil e, hdir⟩
        next => cases hr
    | cons c rest =>
      obtain ⟨elem, tail, hskip, helem, htail, hlast, hpath⟩ := exists_element hup
      refine namexLoop_cases (P := fun x ↦ x = .ok ((some e, name'), t) → _) hskip helem hlast
        hlive hs (fun u _ _ _ h ↦ ?_) (fun i u hentry _ hilive hu h ↦ ?_) (fun i u e' _ _ _ _ h ↦ ?_)
        (fun i u r w v hentry _ _ _ hr hrlive hv h ↦ ?_) (fun e' _ _ h ↦ ?_) hrun
      · cases (Prod.mk.inj (Prod.mk.inj (Except.ok.inj h)).1).1
      · obtain ⟨ht, before, hparent⟩ := ih hilive hu h
        exact ⟨ht, c :: before, hparent.cons hpath (.node hentry)⟩
      · cases h
      · cases r with
        | some j =>
          obtain ⟨ht, before, hparent⟩ := ih (hrlive j rfl) hv h
          exact ⟨ht, c :: before, hparent.cons hpath (.link hentry hr)⟩
        | none =>
          cases fuel with
          | zero => cases h
          | succ fuel =>
            cases hskip' : skipelem tail with
            | none =>
              rw [namexLoop.eq_def] at h
              simp only [hskip'] at h
              cases h
            | some next =>
              have hnull : Fails (Holds fs held ∅) (namexLoop (fuel + 1) none tail elem true)
                  (· ≠ .outOfFuel) := namexLoop_null_fails hskip'
              exact absurd h (hnull.ne_ok hv)
      · cases h

/-- A path of one component that has been resolved: its directory has the name. -/
theorem namexLoop_single (hlive : (fs.inode d).type ≠ .free) (hs : Holds fs (d ::ₘ held) ∅ s)
    (hskip : skipelem bytes = some (elem, []))
    (hrun : namexLoop fuel (some d) bytes name false s = .ok ((some j, name'), t)) :
    Readable fs held d (nameOf elem) ∧ (fs.names.entry d (nameOf elem) = some (.inl j) ∨
      ∃ k, fs.names.entry d (nameOf elem) = some (.inr (d, k))) := by
  cases fuel with
  | zero => exact nomatch hrun
  | succ fuel =>
    refine namexLoop_cases (P := fun x ↦ x = .ok ((some j, name'), t) → _) hskip rfl rfl hlive hs
      (fun u _ _ _ h ↦ ?_) (fun i u hentry hread _ _ h ↦ ?_) (fun _ _ _ hentry hread _ _ _ ↦ ?_)
      (fun i u r w v hentry hread _ _ _ _ _ _ ↦ ?_) (fun e' _ _ h ↦ ?_) hrun
    · exact nomatch (Prod.mk.inj (Prod.mk.inj (Except.ok.inj h)).1).1
    · cases fuel with
      | zero => exact nomatch h
      | succ fuel =>
        rw [namexLoop_end rfl] at h
        obtain rfl := Option.some.inj (Prod.mk.inj (Prod.mk.inj (Except.ok.inj h)).1).1
        exact ⟨hread, .inl hentry⟩
    · exact ⟨hread, .inr ⟨_, hentry⟩⟩
    · exact ⟨hread, .inr ⟨_, hentry⟩⟩
    · exact nomatch h

/-- Where `namei` finds an inode, `nameiparent` returns the directory that holds the last
component. -/
theorem exists_parent_run (hlive : (fs.inode d).type ≠ .free) (hs : Holds fs (d ::ₘ held) ∅ s)
    (hne : components bytes ≠ [])
    (hrun : namexLoop fuel (some d) bytes name false s = .ok ((some j, name'), t)) :
    ∃ e elem u, namexLoop fuel (some d) bytes name true s = .ok ((some e, elem), u) ∧
      Readable fs held e (nameOf elem) ∧ (fs.names.entry e (nameOf elem) = some (.inl j) ∨
        ∃ k, fs.names.entry e (nameOf elem) = some (.inr (e, k))) := by
  induction fuel generalizing d bytes name s with
  | zero => cases hrun
  | succ fuel ih =>
    cases hup : lookedUp true (components bytes) with
    | nil =>
      rcases lookedUp_eq_nil hup with hnil | ⟨-, elem, hskip, hpath⟩
      · exact absurd hnil hne
      · obtain ⟨hread, hentry⟩ := namexLoop_single hlive hs hskip hrun
        have hdir : (fs.inode d).type = .dir := by
          rcases hentry with hentry | ⟨k, hentry⟩
          · exact dir_of_entry hentry
          · exact dir_of_entry hentry
        obtain ⟨r, u, hbody, -, hr⟩ := namexBody_last (walk fuel) hlive hs elem
        rw [if_pos hdir] at hr
        refine ⟨d, elem, u, ?_, hread, hentry⟩
        rw [namexLoop_element hskip, List.isEmpty_nil, Bool.and_self, bind_of_ok hbody, hr]
        rfl
    | cons c rest =>
      obtain ⟨elem, tail, hskip, helem, htail, hlast, hpath⟩ := exists_element hup
      have hne' : components tail ≠ [] := by
        intro hnil
        rw [hpath, hnil] at hup
        simp [lookedUp] at hup
      have hruns := namexBody_runs (walk fuel) hlive helem hs
      rw [namexLoop_element hskip, Bool.false_and] at hrun
      simp only [namexLoop_element hskip, hlast]
      generalize hx : namexBody (walk fuel) (some d) elem false s = x at hruns
      cases hruns with
      | nowhere =>
        rw [bind_of_ok hx] at hrun
        cases (Prod.mk.inj (Prod.mk.inj (Except.ok.inj hrun)).1).1
      | node hentry hread hnode ht _ =>
        rw [bind_of_ok hx] at hrun ⊢
        exact ih hnode ht hne' hrun
      | @link i u hentry hread hu =>
        cases hwalk : walk fuel (some d) (fs.targetOf i) u with
        | error e =>
          rw [bind_of_error hwalk] at hx
          rw [bind_of_error hx] at hrun
          cases hrun
        | ok w =>
          obtain ⟨hw, hlive', -⟩ := walk_arrives namexLoop_arrives hlive hu hwalk
          obtain ⟨v, hafter, hv, -⟩ := afterLink_returns (dir_of_entry hentry) w.1 w.2 hw
          rw [bind_of_ok hwalk, hafter] at hx
          rw [bind_of_ok hx] at hrun ⊢
          cases hr : w.1 with
          | some k =>
            rw [hr] at hv hrun
            exact ih (hlive' k hr) hv hne' hrun
          | none =>
            rw [hr] at hv hrun
            cases fuel with
            | zero => cases hrun
            | succ fuel =>
              obtain ⟨elem', tail', hskip', -⟩ := exists_skipelem (List.cons_head_tail hne').symm
              have hnull : Fails (Holds fs held ∅) (namexLoop (fuel + 1) none tail elem false)
                  (· ≠ .outOfFuel) := namexLoop_null_fails hskip'
              exact absurd hrun (hnull.ne_ok hv)
      | panics =>
        rw [bind_of_error hx] at hrun
        cases hrun

end Parents

end CS537.FileSystem
