import Mathlib.Logic.Function.Basic
import Mathlib.Order.Basic
import Mathlib.Data.List.Basic

/-!
# Machines with computed steps

A machine has a set of initial states and a partial step function indexed by a label: the thread,
the operation or the event that moves.  `step s l = none` says that `l` is not enabled in `s`.
The module supplies finite runs, reachability under a restriction on the steps taken, the
invariant rule, and the bound that a decreasing measure puts on the length of runs.
-/

namespace CS537.Foundation

/-- A labelled transition system whose steps are computed. -/
structure Machine (σ ι : Type*) where
  init : σ → Prop
  step : σ → ι → Option σ

namespace Machine

variable {σ ι : Type*} (M : Machine σ ι)

/-- Execute a schedule; `none` when some label of it is not enabled. -/
def run : σ → List ι → Option σ
  | s, [] => some s
  | s, l :: ls => (M.step s l).bind (run · ls)

@[simp]
theorem run_nil (s : σ) : M.run s [] = some s := rfl

@[simp]
theorem run_cons (s : σ) (l : ι) (ls : List ι) :
    M.run s (l :: ls) = (M.step s l).bind (M.run · ls) := rfl

theorem run_cons_of_step {s t : σ} {l : ι} (h : M.step s l = some t) (ls : List ι) :
    M.run s (l :: ls) = M.run t ls := by
  rw [run_cons, h, Option.bind_some]

theorem run_append (s : σ) (ls ms : List ι) :
    M.run s (ls ++ ms) = (M.run s ls).bind (M.run · ms) := by
  induction ls generalizing s with
  | nil => rfl
  | cons l ls ih =>
    cases h : M.step s l with
    | none => simp [h]
    | some t => simpa [h] using ih t

/-- What each step keeps is kept by a run. -/
theorem run_invariant {M : Machine σ ι} (Inv : σ → Prop)
    (hstep : ∀ s l t, Inv s → M.step s l = some t → Inv t) {s t : σ} {ls : List ι} (hs : Inv s)
    (h : M.run s ls = some t) : Inv t := by
  induction ls generalizing s with
  | nil =>
    obtain rfl := Option.some.inj h
    exact hs
  | cons l ls ih =>
    obtain ⟨u, hu, h⟩ := Option.bind_eq_some_iff.mp h
    exact ih (hstep s l u hs hu) h

/-- What the steps of some labels keep is kept by a run of these labels. -/
theorem run_invariant_on {M : Machine σ ι} (Inv : σ → Prop) {P : ι → Prop}
    (hstep : ∀ s l t, P l → Inv s → M.step s l = some t → Inv t) {s t : σ} {ls : List ι}
    (hls : ∀ l ∈ ls, P l) (hs : Inv s) (h : M.run s ls = some t) : Inv t := by
  induction ls generalizing s with
  | nil =>
    obtain rfl := Option.some.inj h
    exact hs
  | cons l ls ih =>
    obtain ⟨u, hu, h⟩ := Option.bind_eq_some_iff.mp h
    have hl : P l := hls l List.mem_cons_self
    exact ih (fun l' hl' ↦ hls l' (List.mem_cons_of_mem l hl')) (hstep s l u hl hs hu) h

/-- A run of a machine is matched by the run of another one with the same labels when each step
is. -/
theorem run_simulation {τ : Type*} {M : Machine σ ι} {N : Machine τ ι} {R : σ → τ → Prop}
    (hstep : ∀ s t l s', R s t → M.step s l = some s' → ∃ t', N.step t l = some t' ∧ R s' t')
    {s s' : σ} {t : τ} {ls : List ι} (hR : R s t) (h : M.run s ls = some s') :
    ∃ t', N.run t ls = some t' ∧ R s' t' := by
  induction ls generalizing s t with
  | nil =>
    obtain rfl := Option.some.inj h
    exact ⟨t, rfl, hR⟩
  | cons l ls ih =>
    obtain ⟨u, hu, h⟩ := Option.bind_eq_some_iff.mp h
    obtain ⟨v, hv, hR'⟩ := hstep s t l u hR hu
    rw [N.run_cons_of_step hv]
    exact ih hR' h

/-- What the steps of a schedule put out, one after the other. -/
def outputs {κ : Type*} (M : Machine σ ι) (out : σ → ι → List κ) : σ → List ι → List κ
  | _, [] => []
  | s, l :: ls => out s l ++ (M.step s l).elim [] (M.outputs out · ls)

theorem outputs_cons_of_step {κ : Type*} {out : σ → ι → List κ} {s t : σ} {l : ι} (h : M.step s l = some t)
    (ls : List ι) : M.outputs out s (l :: ls) = out s l ++ M.outputs out t ls := by
  rw [outputs, h, Option.elim_some]

theorem outputs_append {κ : Type*} {out : σ → ι → List κ} {s t : σ} {ls : List ι}
    (h : M.run s ls = some t) (ms : List ι) :
    M.outputs out s (ls ++ ms) = M.outputs out s ls ++ M.outputs out t ms := by
  induction ls generalizing s with
  | nil =>
    obtain rfl := Option.some.inj h
    rfl
  | cons l ls ih =>
    obtain ⟨u, hu, h⟩ := Option.bind_eq_some_iff.mp h
    rw [List.cons_append, M.outputs_cons_of_step hu, M.outputs_cons_of_step hu, ih h, List.append_assoc]

/-- A run is matched by the run of another machine with what it puts out when each step is. -/
theorem run_outputs {τ κ : Type*} {M : Machine σ ι} {N : Machine τ κ} {R : σ → τ → Prop}
    {out : σ → ι → List κ}
    (hstep : ∀ s t l s', R s t → M.step s l = some s' → ∃ t', N.run t (out s l) = some t' ∧ R s' t')
    {s s' : σ} {t : τ} {ls : List ι} (hR : R s t) (h : M.run s ls = some s') :
    ∃ t', N.run t (M.outputs out s ls) = some t' ∧ R s' t' := by
  induction ls generalizing s t with
  | nil =>
    obtain rfl := Option.some.inj h
    exact ⟨t, rfl, hR⟩
  | cons l ls ih =>
    obtain ⟨u, hu, h⟩ := Option.bind_eq_some_iff.mp h
    obtain ⟨v, hv, hR'⟩ := hstep s t l u hR hu
    obtain ⟨w, hw, hR''⟩ := ih hR' h
    refine ⟨w, ?_, hR''⟩
    rw [M.outputs_cons_of_step hu, run_append, hv, Option.bind_some, hw]

/-- Every step of a schedule is permitted. -/
def Permits (M : Machine σ ι) (ok : σ → ι → Prop) : σ → List ι → Prop
  | _, [] => True
  | s, l :: ls => ok s l ∧ ∀ t, M.step s l = some t → M.Permits ok t ls

/-- A schedule of labels that are permitted everywhere. -/
theorem Permits.of_forall {M : Machine σ ι} {ok : σ → ι → Prop} {ls : List ι}
    (h : ∀ l ∈ ls, ∀ s, ok s l) (s : σ) : M.Permits ok s ls := by
  induction ls generalizing s with
  | nil => trivial
  | cons l ls ih =>
    exact ⟨h l List.mem_cons_self s, fun t _ ↦ ih (fun l' hl' ↦ h l' (List.mem_cons_of_mem l hl')) t⟩

theorem Permits.append {M : Machine σ ι} {ok : σ → ι → Prop} {s t : σ} {ls ms : List ι}
    (h : M.Permits ok s ls) (hrun : M.run s ls = some t) (h' : M.Permits ok t ms) :
    M.Permits ok s (ls ++ ms) := by
  induction ls generalizing s with
  | nil =>
    obtain rfl := Option.some.inj hrun
    exact h'
  | cons l ls ih =>
    refine ⟨h.1, fun u hu ↦ ?_⟩
    rw [M.run_cons_of_step hu] at hrun
    exact ih (h.2 u hu) hrun

/-- A run of permitted steps of a machine is matched by a run of another one, with steps of its own on
either side, when the observable part of each step is. -/
theorem run_matched {τ κ γ : Type*} {M : Machine σ ι} {N : Machine τ κ} {R : σ → τ → Prop}
    {ok : σ → ι → Prop} {f : ι → Option γ} {g : κ → Option γ}
    (hstep : ∀ s t l s', R s t → ok s l → M.step s l = some s' → ∃ ms t', N.run t ms = some t' ∧
      ms.filterMap g = [l].filterMap f ∧ R s' t')
    {s s' : σ} {t : τ} {ls : List ι} (hR : R s t) (hok : M.Permits ok s ls)
    (h : M.run s ls = some s') :
    ∃ ms t', N.run t ms = some t' ∧ ms.filterMap g = ls.filterMap f ∧ R s' t' := by
  induction ls generalizing s t with
  | nil =>
    obtain rfl := Option.some.inj h
    exact ⟨[], t, rfl, rfl, hR⟩
  | cons l ls ih =>
    obtain ⟨u, hu, h⟩ := Option.bind_eq_some_iff.mp h
    obtain ⟨ms, v, hv, hfirst, hR'⟩ := hstep s t l u hR hok.1 hu
    obtain ⟨ns, w, hw, hrest, hR''⟩ := ih hR' (hok.2 u hu) h
    refine ⟨ms ++ ns, w, ?_, ?_, hR''⟩
    · rw [run_append, hv, Option.bind_some, hw]
    · rw [List.filterMap_append, hfirst, hrest, ← List.filterMap_append, List.singleton_append]

/-- States reached from an initial one by steps that all satisfy `ok`. -/
inductive ReachableVia (ok : σ → ι → Prop) : σ → Prop
  | init {s : σ} : M.init s → ReachableVia ok s
  | step {s t : σ} {l : ι} : ReachableVia ok s → ok s l → M.step s l = some t → ReachableVia ok t

/-- States reached from an initial one by any steps. -/
abbrev Reachable : σ → Prop := M.ReachableVia fun _ _ ↦ True

variable {M}

theorem ReachableVia.mono {ok ok' : σ → ι → Prop} (h : ∀ s l, ok s l → ok' s l) {s : σ}
    (hs : M.ReachableVia ok s) : M.ReachableVia ok' s := by
  induction hs with
  | init hi => exact .init hi
  | step _ hl ht ih => exact .step ih (h _ _ hl) ht

theorem ReachableVia.reachable {ok : σ → ι → Prop} {s : σ} (hs : M.ReachableVia ok s) :
    M.Reachable s :=
  hs.mono fun _ _ _ ↦ trivial

/-- The invariant rule: what holds initially and is kept by each permitted step from a reachable
state holds in every state reached. -/
theorem ReachableVia.invariant {ok : σ → ι → Prop} {Inv : σ → Prop}
    (hinit : ∀ s, M.init s → Inv s)
    (hstep : ∀ s l t, M.ReachableVia ok s → Inv s → ok s l → M.step s l = some t → Inv t)
    {s : σ} (hs : M.ReachableVia ok s) : Inv s := by
  induction hs with
  | init hi => exact hinit _ hi
  | step hr hl ht ih => exact hstep _ _ _ hr ih hl ht

theorem Reachable.next {s t : σ} {l : ι} (hs : M.Reachable s) (ht : M.step s l = some t) :
    M.Reachable t :=
  .step hs trivial ht

/-- A schedule whose labels are permitted in every state leads to states reached by permitted
steps. -/
theorem ReachableVia.run {ok : σ → ι → Prop} {s t : σ} {ls : List ι} (hs : M.ReachableVia ok s)
    (hok : ∀ l ∈ ls, ∀ u, ok u l) (ht : M.run s ls = some t) : M.ReachableVia ok t := by
  induction ls generalizing s with
  | nil =>
    obtain rfl := Option.some.inj ht
    exact hs
  | cons l ls ih =>
    obtain ⟨u, hu, ht⟩ := Option.bind_eq_some_iff.mp ht
    have hnext : M.ReachableVia ok u := .step hs (hok l List.mem_cons_self s) hu
    exact ih hnext (fun l' hl' ↦ hok l' (List.mem_cons_of_mem l hl')) ht

theorem Reachable.run {s t : σ} {ls : List ι} (hs : M.Reachable s) (ht : M.run s ls = some t) :
    M.Reachable t :=
  ReachableVia.run hs (fun _ _ _ ↦ trivial) ht

/-! ## Observers -/

/-- The machine with an observer, which notes something of each step and does not restrict it. -/
def observed {γ : Type*} (M : Machine σ ι) (observe : σ → γ → ι → γ) : Machine (σ × γ) ι where
  init s := M.init s.1
  step s l := (M.step s.1 l).map fun t ↦ (t, observe s.1 s.2 l)

theorem Reachable.of_observed {γ : Type*} {observe : σ → γ → ι → γ} {s : σ × γ}
    (hs : (M.observed observe).Reachable s) : M.Reachable s.1 := by
  induction hs with
  | init hi => exact .init hi
  | step _ _ ht ih =>
    obtain ⟨t, hstep, rfl⟩ := Option.map_eq_some_iff.mp ht
    exact ih.next hstep

/-- Every state reached is reached under observation. -/
theorem Reachable.exists_observed {γ : Type*} [Nonempty γ] (observe : σ → γ → ι → γ) {s : σ}
    (hs : M.Reachable s) : ∃ g, (M.observed observe).Reachable (s, g) := by
  induction hs with
  | init hi => exact ⟨Classical.arbitrary γ, .init hi⟩
  | @step s t l _ _ ht ih =>
    obtain ⟨g, hg⟩ := ih
    exact ⟨observe s g l, hg.next (l := l) (by simp only [observed, ht, Option.map_some])⟩

/-- No step is enabled in `s`. -/
def Halted (M : Machine σ ι) (s : σ) : Prop := ∀ l, M.step s l = none

/-- No run from `s` takes more than `k` steps. -/
def HaltsWithin (M : Machine σ ι) (s : σ) (k : ℕ) : Prop :=
  ∀ ls t, M.run s ls = some t → ls.length ≤ k

theorem HaltsWithin.mono {s : σ} {k k' : ℕ} (h : M.HaltsWithin s k) (hk : k ≤ k') :
    M.HaltsWithin s k' := fun ls t ht ↦ Nat.le_trans (h ls t ht) hk

theorem HaltsWithin.of_step {s : σ} {k : ℕ}
    (h : ∀ l t, M.step s l = some t → M.HaltsWithin t k) : M.HaltsWithin s (k + 1) := by
  intro ls t ht
  cases ls with
  | nil => exact Nat.zero_le _
  | cons l ls =>
    obtain ⟨u, hu, ht⟩ := Option.bind_eq_some_iff.mp ht
    exact Nat.succ_le_succ (h l u hu ls t ht)

/-- A measure that every step decreases while an invariant holds bounds the length of every
run. -/
theorem haltsWithin_measure {Inv : σ → Prop} {μ : σ → ℕ}
    (hstep : ∀ s l t, Inv s → M.step s l = some t → Inv t ∧ μ t < μ s) {s : σ} (hs : Inv s) :
    M.HaltsWithin s (μ s) := by
  intro ls
  induction ls generalizing s with
  | nil => exact fun _ _ ↦ Nat.zero_le _
  | cons l ls ih =>
    intro t ht
    obtain ⟨u, hu, ht⟩ := Option.bind_eq_some_iff.mp ht
    obtain ⟨hinv, hlt⟩ := hstep s l u hs hu
    exact Nat.le_trans (Nat.succ_le_succ (ih hinv t ht)) hlt

/-- Where runs are bounded, some run comes to a state without steps. -/
theorem HaltsWithin.exists_halted {s : σ} {k : ℕ} (h : M.HaltsWithin s k) :
    ∃ ls t, M.run s ls = some t ∧ M.Halted t := by
  induction k generalizing s with
  | zero =>
    refine ⟨[], s, rfl, fun l ↦ ?_⟩
    by_contra hl
    obtain ⟨t, ht⟩ := Option.ne_none_iff_exists'.mp hl
    exact absurd (h [l] t (by simp [ht])) (Nat.not_succ_le_zero 0)
  | succ k ih =>
    by_cases hhalted : M.Halted s
    · exact ⟨[], s, rfl, hhalted⟩
    · obtain ⟨l, hl⟩ := not_forall.mp hhalted
      obtain ⟨t, ht⟩ := Option.ne_none_iff_exists'.mp hl
      have hrest : M.HaltsWithin t k := fun ls u hu ↦
        Nat.le_of_succ_le_succ (h (l :: ls) u (by simp [ht, hu]))
      obtain ⟨ls, u, hu, hend⟩ := ih hrest
      exact ⟨l :: ls, u, by simp [ht, hu], hend⟩

end Machine

end CS537.Foundation
