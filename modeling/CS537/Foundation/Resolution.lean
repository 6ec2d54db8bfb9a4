import Mathlib.Data.Fintype.Card
import Mathlib.Logic.Relation

/-!
# Resolution of paths with links

A name space has nodes, names and links.  A name in a node leads to a node or to a link, and the
target of a link is a path to be walked from some node.  `Resolves d path r` says what walking
`path` from `d` comes to, component by component, each link replaced by what its target resolves
to; `none` means that some component leads nowhere.  If the links form no cycle, every path
resolves, and what is to be shown of all walks may be shown for one component at a time.  In
general a path resolves exactly when no link that its walk comes upon leads back to itself.
-/

namespace CS537.Foundation

/-- Nodes `ν` with named entries, each leading to a node or to a link of `ℓ`. -/
structure NameSpace (ν κ ℓ : Type*) where
  entry : ν → κ → Option (ν ⊕ ℓ)
  target : ℓ → ν × List κ

namespace NameSpace

variable {ν κ ℓ : Type*} (N : NameSpace ν κ ℓ)

/-- Walking a path from a node comes to a node or leads nowhere. -/
inductive Resolves : ν → List κ → Option ν → Prop
  | nil (d : ν) : Resolves d [] (some d)
  | missing {d : ν} {c : κ} {rest : List κ} :
    N.entry d c = none → Resolves d (c :: rest) none
  | node {d i : ν} {c : κ} {rest : List κ} {r : Option ν} :
    N.entry d c = some (.inl i) → Resolves i rest r → Resolves d (c :: rest) r
  | link {d i : ν} {c : κ} {rest : List κ} {l : ℓ} {r : Option ν} :
    N.entry d c = some (.inr l) → Resolves (N.target l).1 (N.target l).2 (some i) →
    Resolves i rest r → Resolves d (c :: rest) r
  | dangling {d : ν} {c : κ} {rest : List κ} {l : ℓ} :
    N.entry d c = some (.inr l) → Resolves (N.target l).1 (N.target l).2 none →
    Resolves d (c :: rest) none

/-- The links that a walk comes upon, those inside of link targets left out. -/
inductive Follows : ν → List κ → ℓ → Prop
  | here {d : ν} {c : κ} {rest : List κ} {l : ℓ} :
    N.entry d c = some (.inr l) → Follows d (c :: rest) l
  | node {d i : ν} {c : κ} {rest : List κ} {l : ℓ} :
    N.entry d c = some (.inl i) → Follows i rest l → Follows d (c :: rest) l
  | link {d i : ν} {c : κ} {rest : List κ} {l m : ℓ} :
    N.entry d c = some (.inr m) → N.Resolves (N.target m).1 (N.target m).2 (some i) →
    Follows i rest l → Follows d (c :: rest) l

/-- The walk of the target of `l` comes upon `m`. -/
def Needs (l m : ℓ) : Prop := N.Follows (N.target l).1 (N.target l).2 m

/-- No link needs itself, directly or through others. -/
def Acyclic : Prop := ∀ l, ¬Relation.TransGen N.Needs l l

/-- A name met on a walk, with what comes after it in the path being walked.  `held` are the nodes
in which the enclosing walks have stopped to resolve a link. -/
structure Visit (ν κ : Type*) where
  held : List ν
  dir : ν
  name : κ
  rest : List κ

/-- The names met on a walk, inside of link targets as well. -/
inductive Visits : List ν → ν → List κ → Visit ν κ → Prop
  | here {held : List ν} {d : ν} {c : κ} {rest : List κ} :
    Visits held d (c :: rest) ⟨held, d, c, rest⟩
  | node {held : List ν} {d i : ν} {c : κ} {rest : List κ} {v : Visit ν κ} :
    N.entry d c = some (.inl i) → Visits held i rest v → Visits held d (c :: rest) v
  | inside {held : List ν} {d : ν} {c : κ} {rest : List κ} {l : ℓ} {v : Visit ν κ} :
    N.entry d c = some (.inr l) → Visits (d :: held) (N.target l).1 (N.target l).2 v →
    Visits held d (c :: rest) v
  | after {held : List ν} {d i : ν} {c : κ} {rest : List κ} {l : ℓ} {v : Visit ν κ} :
    N.entry d c = some (.inr l) → N.Resolves (N.target l).1 (N.target l).2 (some i) →
    Visits held i rest v → Visits held d (c :: rest) v

variable {N} {d i : ν} {c : κ} {path rest : List κ} {held : List ν} {l : ℓ} {r r' : Option ν}
  {P : Visit ν κ → Prop}

/-- A path resolves in one way. -/
theorem Resolves.unique (h : N.Resolves d path r) (h' : N.Resolves d path r') : r = r' := by
  induction h generalizing r' with
  | nil d =>
    cases h'
    rfl
  | missing hentry =>
    cases h' with
    | missing => rfl
    | node hentry' => simp [hentry] at hentry'
    | link hentry' => simp [hentry] at hentry'
    | dangling => rfl
  | node hentry _ ih =>
    cases h' with
    | missing hentry' => simp [hentry] at hentry'
    | node hentry' hrest =>
      obtain rfl : _ = _ := Sum.inl.inj (Option.some.inj (hentry.symm.trans hentry'))
      exact ih hrest
    | link hentry' => simp [hentry] at hentry'
    | dangling hentry' => simp [hentry] at hentry'
  | link hentry _ _ ihtarget ih =>
    cases h' with
    | missing hentry' => simp [hentry] at hentry'
    | node hentry' => simp [hentry] at hentry'
    | link hentry' htarget hrest =>
      obtain rfl : _ = _ := Sum.inr.inj (Option.some.inj (hentry.symm.trans hentry'))
      obtain rfl : _ = _ := Option.some.inj (ihtarget htarget)
      exact ih hrest
    | dangling hentry' htarget =>
      obtain rfl : _ = _ := Sum.inr.inj (Option.some.inj (hentry.symm.trans hentry'))
      exact absurd (ihtarget htarget) (by simp)
  | dangling hentry _ ihtarget =>
    cases h' with
    | missing => rfl
    | node hentry' => simp [hentry] at hentry'
    | link hentry' htarget =>
      obtain rfl : _ = _ := Sum.inr.inj (Option.some.inj (hentry.symm.trans hentry'))
      exact absurd (ihtarget htarget) (by simp)
    | dangling => rfl

/-! ## Parts of a path -/

theorem resolves_node_iff (h : N.entry d c = some (.inl i)) :
    N.Resolves d (c :: rest) r ↔ N.Resolves i rest r := by
  constructor
  · intro hr
    cases hr with
    | missing hentry => simp [h] at hentry
    | node hentry hrest =>
      obtain rfl : _ = _ := Sum.inl.inj (Option.some.inj (h.symm.trans hentry))
      exact hrest
    | link hentry => simp [h] at hentry
    | dangling hentry => simp [h] at hentry
  · exact .node h

/-- Behind a link the path goes on where the target leads to. -/
theorem resolves_link_iff (h : N.entry d c = some (.inr l))
    (htarget : N.Resolves (N.target l).1 (N.target l).2 (some i)) :
    N.Resolves d (c :: rest) r ↔ N.Resolves i rest r := by
  constructor
  · intro hr
    cases hr with
    | missing hentry => simp [h] at hentry
    | node hentry => simp [h] at hentry
    | link hentry htarget' hrest =>
      obtain rfl : _ = _ := Sum.inr.inj (Option.some.inj (h.symm.trans hentry))
      obtain rfl : _ = _ := Option.some.inj (htarget.unique htarget')
      exact hrest
    | dangling hentry htarget' =>
      obtain rfl : _ = _ := Sum.inr.inj (Option.some.inj (h.symm.trans hentry))
      exact absurd (htarget.unique htarget') (by simp)
  · exact .link h htarget

/-- A path that ends in a link resolves as the target does. -/
theorem resolves_link_last_iff (h : N.entry d c = some (.inr l)) :
    N.Resolves d [c] r ↔ N.Resolves (N.target l).1 (N.target l).2 r := by
  constructor
  · intro hr
    cases hr with
    | missing hentry => simp [h] at hentry
    | node hentry => simp [h] at hentry
    | link hentry htarget hrest =>
      obtain rfl : _ = _ := Sum.inr.inj (Option.some.inj (h.symm.trans hentry))
      cases hrest
      exact htarget
    | dangling hentry htarget =>
      obtain rfl : _ = _ := Sum.inr.inj (Option.some.inj (h.symm.trans hentry))
      exact htarget
  · intro hr
    cases r with
    | none => exact .dangling h hr
    | some i => exact .link h hr (.nil i)

theorem Resolves.append_iff {e : ν} (h : N.Resolves d path (some e)) :
    N.Resolves d (path ++ rest) r ↔ N.Resolves e rest r := by
  generalize he : some e = e' at h
  induction h with
  | nil d =>
    obtain rfl := Option.some.inj he
    rfl
  | missing => simp at he
  | node hentry _ ih =>
    rw [List.cons_append, resolves_node_iff hentry]
    exact ih he
  | link hentry htarget _ _ ih =>
    rw [List.cons_append, resolves_link_iff hentry htarget]
    exact ih he
  | dangling => simp at he

/-! ## What is met on a walk -/

theorem not_visits_nil {v : Visit ν κ} : ¬N.Visits held d [] v := nofun

theorem forall_visits_missing (h : N.entry d c = none) :
    (∀ v, N.Visits held d (c :: rest) v → P v) ↔ P ⟨held, d, c, rest⟩ := by
  constructor
  · exact fun hall ↦ hall _ .here
  · intro hhere v hv
    cases hv with
    | here => exact hhere
    | node hentry => simp [h] at hentry
    | inside hentry => simp [h] at hentry
    | after hentry => simp [h] at hentry

theorem forall_visits_node (h : N.entry d c = some (.inl i)) :
    (∀ v, N.Visits held d (c :: rest) v → P v) ↔
      P ⟨held, d, c, rest⟩ ∧ ∀ v, N.Visits held i rest v → P v := by
  constructor
  · exact fun hall ↦ ⟨hall _ .here, fun v hv ↦ hall v (.node h hv)⟩
  · intro hall v hv
    cases hv with
    | here => exact hall.1
    | node hentry hv =>
      obtain rfl : _ = _ := Sum.inl.inj (Option.some.inj (h.symm.trans hentry))
      exact hall.2 v hv
    | inside hentry => simp [h] at hentry
    | after hentry => simp [h] at hentry

theorem forall_visits_link (h : N.entry d c = some (.inr l)) :
    (∀ v, N.Visits held d (c :: rest) v → P v) ↔
      P ⟨held, d, c, rest⟩ ∧
        (∀ v, N.Visits (d :: held) (N.target l).1 (N.target l).2 v → P v) ∧
        ∀ i, N.Resolves (N.target l).1 (N.target l).2 (some i) →
          ∀ v, N.Visits held i rest v → P v := by
  constructor
  · intro hall
    exact ⟨hall _ .here, fun v hv ↦ hall v (.inside h hv),
      fun i hi v hv ↦ hall v (.after h hi hv)⟩
  · intro hall v hv
    cases hv with
    | here => exact hall.1
    | node hentry => simp [h] at hentry
    | inside hentry hv =>
      obtain rfl : _ = _ := Sum.inr.inj (Option.some.inj (h.symm.trans hentry))
      exact hall.2.1 v hv
    | after hentry htarget hv =>
      obtain rfl : _ = _ := Sum.inr.inj (Option.some.inj (h.symm.trans hentry))
      exact hall.2.2 _ htarget v hv

/-! ## Induction -/

theorem Acyclic.wellFounded [Finite ℓ] (h : N.Acyclic) :
    WellFounded fun m l ↦ N.Needs l m := by
  have hirrefl : Std.Irrefl (Relation.TransGen fun m l ↦ N.Needs l m) :=
    ⟨fun l hl ↦ h l (Relation.transGen_swap.mp hl)⟩
  have hwf : WellFounded (Relation.TransGen fun m l ↦ N.Needs l m) :=
    Finite.wellFounded_of_trans_of_irrefl _
  exact Subrelation.wf (fun hneeds ↦ .single hneeds) hwf

/-- What is to be shown of the walk of `c :: rest` from `d` when it is known of the walks that it
is made of. -/
def Extends (N : NameSpace ν κ ℓ) (Q : ν → List κ → Prop) : Prop :=
  ∀ d c rest, (∀ i, N.entry d c = some (.inl i) → Q i rest) →
    (∀ l, N.entry d c = some (.inr l) → Q (N.target l).1 (N.target l).2 ∧
      ∀ i, N.Resolves (N.target l).1 (N.target l).2 (some i) → Q i rest) → Q d (c :: rest)

variable {Q : ν → List κ → Prop}

theorem walk_of_follows (hnil : ∀ d, Q d []) (hcons : N.Extends Q) (path : List κ) :
    ∀ d, (∀ l, N.Follows d path l → Q (N.target l).1 (N.target l).2) → Q d path := by
  induction path with
  | nil => exact fun d _ ↦ hnil d
  | cons c rest ih =>
    intro d hlinks
    apply hcons
    · intro i hentry
      exact ih i fun l hl ↦ hlinks l (.node hentry hl)
    · intro l hentry
      refine ⟨hlinks l (.here hentry), fun i htarget ↦ ?_⟩
      exact ih i fun m hm ↦ hlinks m (.link hentry htarget hm)

/-- The induction rule for walks: over the links that a link needs, and over the path. -/
theorem Acyclic.induction [Finite ℓ] (h : N.Acyclic) (hnil : ∀ d, Q d []) (hcons : N.Extends Q)
    (d : ν) (path : List κ) : Q d path := by
  have hlink : ∀ l, Q (N.target l).1 (N.target l).2 := by
    intro l
    induction l using h.wellFounded.induction with
    | _ l ih => exact walk_of_follows hnil hcons _ _ ih
  exact walk_of_follows hnil hcons path d fun l _ ↦ hlink l

/-- The induction rule for the walks that come to an end. -/
theorem Resolves.induction (h : N.Resolves d path r) (hnil : ∀ d, Q d []) (hcons : N.Extends Q) :
    Q d path := by
  induction h with
  | nil d => exact hnil d
  | missing hentry => exact hcons _ _ _ (by simp [hentry]) (by simp [hentry])
  | node hentry _ ih =>
    apply hcons
    · intro i hi
      obtain rfl : _ = _ := Sum.inl.inj (Option.some.inj (hentry.symm.trans hi))
      exact ih
    · simp [hentry]
  | link hentry htarget _ ihtarget ih =>
    apply hcons
    · simp [hentry]
    · intro l hl
      obtain rfl : _ = _ := Sum.inr.inj (Option.some.inj (hentry.symm.trans hl))
      refine ⟨ihtarget, fun i hi ↦ ?_⟩
      obtain rfl : _ = _ := Option.some.inj (htarget.unique hi)
      exact ih
  | dangling hentry htarget ih =>
    apply hcons
    · simp [hentry]
    · intro l hl
      obtain rfl : _ = _ := Sum.inr.inj (Option.some.inj (hentry.symm.trans hl))
      exact ⟨ih, fun i hi ↦ absurd (htarget.unique hi) (by simp)⟩

/-- A walk comes to an end if those that it is made of do. -/
theorem extends_exists_resolves (N : NameSpace ν κ ℓ) :
    N.Extends fun d path ↦ ∃ r, N.Resolves d path r := by
  intro d c rest hnode hlink
  cases hentry : N.entry d c with
  | none => exact ⟨none, .missing hentry⟩
  | some e =>
    cases e with
    | inl i =>
      obtain ⟨r, hr⟩ := hnode i hentry
      exact ⟨r, .node hentry hr⟩
    | inr l =>
      obtain ⟨⟨r, htarget⟩, hrest⟩ := hlink l hentry
      cases r with
      | none => exact ⟨none, .dangling hentry htarget⟩
      | some i =>
        obtain ⟨r, hr⟩ := hrest i htarget
        exact ⟨r, .link hentry htarget hr⟩

/-! ## Cycles -/

/-- The last name of the path leads to a link. -/
def EndsInLink (N : NameSpace ν κ ℓ) (d : ν) (path : List κ) (l : ℓ) : Prop :=
  ∃ before c e, path = before ++ [c] ∧ N.Resolves d before (some e) ∧ N.entry e c = some (.inr l)

theorem Follows.of_endsInLink (h : N.EndsInLink d path l) : N.Follows d path l := by
  obtain ⟨before, c, e, rfl, hbefore, hentry⟩ := h
  generalize hr : some e = r at hbefore
  induction hbefore with
  | nil d =>
    obtain rfl := Option.some.inj hr
    exact .here hentry
  | missing => simp at hr
  | node hnode _ ih => exact .node hnode (ih hr)
  | link hlink htarget _ _ ih => exact .link hlink htarget (ih hr)
  | dangling => simp at hr

/-- The links that a walk comes upon, those inside of link targets as well. -/
def Meets (N : NameSpace ν κ ℓ) (d : ν) (path : List κ) (l : ℓ) : Prop :=
  ∃ m, N.Follows d path m ∧ Relation.ReflTransGen N.Needs m l

/-- From the links of a walk that comes to an end no chain of links goes on for ever. -/
theorem Resolves.acc_follows (h : N.Resolves d path r) (hl : N.Follows d path l) :
    Acc (fun m l ↦ N.Needs l m) l := by
  refine h.induction (Q := fun d path ↦ ∀ l, N.Follows d path l → Acc (fun m l ↦ N.Needs l m) l)
    (fun d l hl ↦ nomatch hl) (fun d c rest hnode hlink l hl ↦ ?_) l hl
  cases hl with
  | here hentry => exact ⟨_, fun m hm ↦ (hlink l hentry).1 m hm⟩
  | node hentry hrest => exact hnode _ hentry l hrest
  | link hentry htarget hrest => exact (hlink _ hentry).2 _ htarget l hrest

theorem not_transGen_of_acc (h : Acc (fun m l ↦ N.Needs l m) l) :
    ¬Relation.TransGen N.Needs l l := by
  intro hcycle
  have hacc : Acc (Relation.TransGen fun m l ↦ N.Needs l m) l := acc_transGen_iff.mpr h
  induction hacc with
  | intro l _ ih => exact ih l (Relation.transGen_swap.mpr hcycle) h hcycle

/-- A walk comes to an end exactly when no link that it comes upon leads back to itself. -/
theorem exists_resolves_iff [Finite ℓ] :
    (∃ r, N.Resolves d path r) ↔ ∀ l, N.Meets d path l → ¬Relation.TransGen N.Needs l l := by
  constructor
  · rintro ⟨r, h⟩ l ⟨m, hm, hl⟩
    have hacc : Acc (fun m l ↦ N.Needs l m) l := by
      induction hl with
      | refl => exact h.acc_follows hm
      | tail _ hneeds ih => exact ih.inv hneeds
    exact not_transGen_of_acc hacc
  · intro h
    -- the relation on the links that are met has no cycle
    let R (m l : ℓ) : Prop := N.Needs l m ∧ N.Meets d path l
    have hsub : ∀ {m l}, Relation.TransGen R m l →
        Relation.TransGen N.Needs l m ∧ N.Meets d path l := by
      intro m l hml
      induction hml with
      | single hr => exact ⟨.single hr.1, hr.2⟩
      | tail _ hr ih => exact ⟨.head hr.1 ih.1, hr.2⟩
    have hirrefl : Std.Irrefl (Relation.TransGen R) := ⟨fun l hl ↦ h l (hsub hl).2 (hsub hl).1⟩
    have hwf : WellFounded (Relation.TransGen R) := Finite.wellFounded_of_trans_of_irrefl _
    have hlink : ∀ l, N.Meets d path l → ∃ r, N.Resolves (N.target l).1 (N.target l).2 r := by
      intro l
      induction l using hwf.induction with
      | _ l ih =>
        rintro ⟨k, hk, hkl⟩
        have hmeets : N.Meets d path l := ⟨k, hk, hkl⟩
        exact walk_of_follows (fun d ↦ ⟨some d, .nil d⟩) (extends_exists_resolves N) _ _
          fun m hm ↦ ih m (.single ⟨hm, hmeets⟩) ⟨k, hk, hkl.tail hm⟩
    exact walk_of_follows (fun d ↦ ⟨some d, .nil d⟩) (extends_exists_resolves N) path d
      fun l hl ↦ hlink l ⟨l, hl, .refl⟩

end NameSpace

end CS537.Foundation
