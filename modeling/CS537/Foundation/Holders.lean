import Mathlib.Data.Finset.Card
import Mathlib.Logic.Function.Basic

/-!
# Counting references

Each holder may have a reference to one object.  The rules say how the number of references to an object
changes when a holder takes a reference, drops it, or exchanges it for another one.
-/

namespace CS537.Foundation

variable {ι α : Type*}

/-- There are `n` references to `a`. -/
def HeldBy (f : ι → Option α) (a : α) (n : ℕ) : Prop :=
  ∃ holders : Finset ι, (∀ o, o ∈ holders ↔ f o = some a) ∧ holders.card = n

namespace HeldBy

variable {f g : ι → Option α} {a : α} {n : ℕ} {o : ι} {q : Option α}

theorem zero (h : ∀ o, f o ≠ some a) : HeldBy f a 0 :=
  ⟨∅, fun o ↦ iff_of_false (Finset.notMem_empty o) (h o), Finset.card_empty⟩

theorem congr (h : HeldBy f a n) (hfg : ∀ o, g o = some a ↔ f o = some a) : HeldBy g a n := by
  obtain ⟨holders, hmem, hcard⟩ := h
  exact ⟨holders, fun o ↦ (hmem o).trans (hfg o).symm, hcard⟩

/-- There is a reference. -/
theorem pos (h : HeldBy f a n) (ho : f o = some a) : 0 < n := by
  obtain ⟨holders, hmem, rfl⟩ := h
  exact Finset.card_pos.mpr ⟨o, (hmem o).mpr ho⟩

theorem eq_zero_iff (h : HeldBy f a n) : n = 0 ↔ ∀ o, f o ≠ some a := by
  obtain ⟨holders, hmem, rfl⟩ := h
  rw [Finset.card_eq_zero, Finset.eq_empty_iff_forall_notMem]
  exact forall_congr' fun o ↦ not_congr (hmem o)

variable [DecidableEq ι]

/-- A reference to something else is exchanged for another one. -/
theorem other (h : HeldBy f a n) (ho : f o ≠ some a) (hq : q ≠ some a) :
    HeldBy (Function.update f o q) a n := by
  refine h.congr fun p ↦ ?_
  by_cases hp : p = o
  · rw [hp, Function.update_self]
    exact iff_of_false hq ho
  · rw [Function.update_of_ne hp]

theorem take (h : HeldBy f a n) (ho : f o ≠ some a) : HeldBy (Function.update f o (some a)) a (n + 1) := by
  obtain ⟨holders, hmem, rfl⟩ := h
  have hnew : o ∉ holders := mt (hmem o).mp ho
  refine ⟨insert o holders, fun p ↦ ?_, Finset.card_insert_of_notMem hnew⟩
  by_cases hp : p = o
  · rw [hp, Function.update_self]
    exact iff_of_true (Finset.mem_insert_self o holders) rfl
  · rw [Function.update_of_ne hp, Finset.mem_insert, or_iff_right hp, hmem]

theorem drop (h : HeldBy f a n) (ho : f o = some a) (hq : q ≠ some a) :
    HeldBy (Function.update f o q) a (n - 1) := by
  obtain ⟨holders, hmem, rfl⟩ := h
  refine ⟨holders.erase o, fun p ↦ ?_, Finset.card_erase_of_mem ((hmem o).mpr ho)⟩
  by_cases hp : p = o
  · rw [hp, Function.update_self]
    exact iff_of_false (Finset.notMem_erase o holders) hq
  · rw [Function.update_of_ne hp, Finset.mem_erase, and_iff_right hp, hmem]

end HeldBy

end CS537.Foundation
