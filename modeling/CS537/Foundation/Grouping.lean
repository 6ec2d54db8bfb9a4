import Mathlib.Data.List.Basic
import Mathlib.Data.List.Nodup
import Mathlib.Data.List.Pairwise

/-!
# Grouping a list by a key

A grouping of a list cuts it into consecutive non-empty blocks, each with one key, no key being
that of two blocks.  A list whose keys are sorted by an antisymmetric relation has one, the list
of its maximal runs.
-/

namespace CS537.Foundation

variable {α κ : Type*}

/-- `gs` cuts `l` into blocks of one key each, with different keys. -/
structure IsGrouping (key : α → κ) (l : List α) (gs : List (κ × List α)) : Prop where
  flatten : gs.flatMap Prod.snd = l
  ne_nil : ∀ g ∈ gs, g.2 ≠ []
  key_eq : ∀ g ∈ gs, ∀ a ∈ g.2, key a = g.1
  nodup : (gs.map Prod.fst).Nodup

namespace IsGrouping

variable {key : α → κ} {l : List α} {gs : List (κ × List α)}

theorem mem_keys_iff (h : IsGrouping key l gs) (k : κ) :
    k ∈ gs.map Prod.fst ↔ k ∈ l.map key := by
  rw [← h.flatten]
  simp only [List.mem_map, List.mem_flatMap]
  constructor
  · rintro ⟨g, hg, rfl⟩
    obtain ⟨a, ha⟩ := List.exists_mem_of_ne_nil _ (h.ne_nil g hg)
    exact ⟨a, ⟨g, hg, ha⟩, h.key_eq g hg a ha⟩
  · rintro ⟨a, ⟨g, hg, ha⟩, rfl⟩
    exact ⟨g, hg, (h.key_eq g hg a ha).symm⟩

theorem tail {g : κ × List α} (h : IsGrouping key l (g :: gs)) :
    IsGrouping key (gs.flatMap Prod.snd) gs where
  flatten := rfl
  ne_nil g' hg' := h.ne_nil g' (List.mem_cons_of_mem _ hg')
  key_eq g' hg' := h.key_eq g' (List.mem_cons_of_mem _ hg')
  nodup := (List.nodup_cons.mp h.nodup).2

/-- The block of a key holds every element with that key. -/
theorem filter_key [DecidableEq κ] (h : IsGrouping key l gs) {g : κ × List α} (hg : g ∈ gs) :
    l.filter (fun a ↦ key a = g.1) = g.2 := by
  induction gs generalizing l with
  | nil => simp at hg
  | cons g₀ gs ih =>
    have hl : g₀.2 ++ gs.flatMap Prod.snd = l := by simpa using h.flatten
    have hnot : g₀.1 ∉ gs.map Prod.fst := (List.nodup_cons.mp h.nodup).1
    rw [← hl, List.filter_append]
    rcases List.mem_cons.mp hg with rfl | hg
    · have hall : g.2.filter (fun a ↦ key a = g.1) = g.2 :=
        List.filter_eq_self.mpr fun a ha ↦ by
          simpa using h.key_eq g List.mem_cons_self a ha
      have hnone : (gs.flatMap Prod.snd).filter (fun a ↦ key a = g.1) = [] := by
        refine List.filter_eq_nil_iff.mpr fun a ha hkey ↦ hnot ?_
        rw [h.tail.mem_keys_iff]
        exact List.mem_map.mpr ⟨a, ha, by simpa using hkey⟩
      rw [hall, hnone, List.append_nil]
    · have hne : g₀.1 ≠ g.1 := fun heq ↦ hnot (heq ▸ List.mem_map_of_mem hg)
      have hnone : g₀.2.filter (fun a ↦ key a = g.1) = [] := by
        refine List.filter_eq_nil_iff.mpr fun a ha hkey ↦ hne ?_
        rw [← h.key_eq g₀ List.mem_cons_self a ha]
        simpa using hkey
      rw [hnone, List.nil_append]
      exact ih h.tail hg

end IsGrouping

/-- The maximal runs of elements with equal keys. -/
def groupRuns [DecidableEq κ] (key : α → κ) : List α → List (κ × List α)
  | [] => []
  | a :: l =>
    match groupRuns key l with
    | [] => [(key a, [a])]
    | g :: gs => if key a = g.1 then (g.1, a :: g.2) :: gs else (key a, [a]) :: g :: gs

section Runs

variable [DecidableEq κ] {key : α → κ}

theorem groupRuns_flatten (l : List α) : (groupRuns key l).flatMap Prod.snd = l := by
  induction l with
  | nil => rfl
  | cons a l ih =>
    simp only [groupRuns]
    split
    next h => simpa [h] using ih
    next g gs h =>
      rw [h] at ih
      split <;> simpa using ih

theorem groupRuns_ne_nil (l : List α) : ∀ g ∈ groupRuns key l, g.2 ≠ [] := by
  induction l with
  | nil => simp [groupRuns]
  | cons a l ih =>
    simp only [groupRuns]
    split
    next => simp
    next g gs h =>
      simp only [h, List.mem_cons, forall_eq_or_imp] at ih
      split
      · simpa using ih.2
      · simpa using ih

theorem groupRuns_key_eq (l : List α) : ∀ g ∈ groupRuns key l, ∀ a ∈ g.2, key a = g.1 := by
  induction l with
  | nil => simp [groupRuns]
  | cons a l ih =>
    simp only [groupRuns]
    split
    next => simp
    next g gs h =>
      simp only [h, List.mem_cons, forall_eq_or_imp] at ih
      split
      next hkey => simpa [hkey] using ih
      next => simpa using ih

/-- In a sorted list the keys of the runs are sorted and pairwise different. -/
theorem groupRuns_nodup {r : κ → κ → Prop} (hanti : ∀ a b, r a b → r b a → a = b) {l : List α}
    (hl : l.Pairwise fun a b ↦ r (key a) (key b)) :
    ((groupRuns key l).map Prod.fst).Pairwise fun a b ↦ r a b ∧ a ≠ b := by
  induction l with
  | nil => exact List.Pairwise.nil
  | cons a l ih =>
    obtain ⟨ha, hl⟩ := List.pairwise_cons.mp hl
    have hkeys : ∀ k ∈ (groupRuns key l).map Prod.fst, r (key a) k := by
      intro k hk
      obtain ⟨g, hg, rfl⟩ := List.mem_map.mp hk
      obtain ⟨b, hb⟩ := List.exists_mem_of_ne_nil _ (groupRuns_ne_nil l g hg)
      rw [← groupRuns_key_eq l g hg b hb]
      have hflat : (groupRuns key l).flatMap Prod.snd = l := groupRuns_flatten l
      have hmem : b ∈ (groupRuns key l).flatMap Prod.snd := List.mem_flatMap.mpr ⟨g, hg, hb⟩
      apply ha b
      rwa [hflat] at hmem
    specialize ih hl
    simp only [groupRuns]
    split
    next => simp
    next g gs h =>
      rw [h] at ih hkeys
      simp only [List.map_cons, List.pairwise_cons, List.mem_cons, forall_eq_or_imp] at ih hkeys
      obtain ⟨hg, hgs⟩ := ih
      split
      next => exact List.pairwise_cons.mpr ⟨hg, hgs⟩
      next hne =>
        refine List.pairwise_cons.mpr ⟨?_, List.pairwise_cons.mpr ⟨hg, hgs⟩⟩
        intro k hk
        rcases List.mem_cons.mp hk with rfl | hk
        · exact ⟨hkeys.1, hne⟩
        · refine ⟨hkeys.2 k hk, ?_⟩
          rintro rfl
          exact hne (hanti _ _ hkeys.1 (hg _ hk).1)

theorem isGrouping_groupRuns {r : κ → κ → Prop} (hanti : ∀ a b, r a b → r b a → a = b)
    {l : List α} (hl : l.Pairwise fun a b ↦ r (key a) (key b)) : IsGrouping key l (groupRuns key l) where
  flatten := groupRuns_flatten l
  ne_nil := groupRuns_ne_nil l
  key_eq := groupRuns_key_eq l
  nodup := (groupRuns_nodup hanti hl).imp fun h ↦ h.2

end Runs

end CS537.Foundation
