import Mathlib.Algebra.BigOperators.Group.Finset.Basic
import Mathlib.Data.Fintype.BigOperators
import Mathlib.Algebra.Order.BigOperators.Group.Finset
import Mathlib.Tactic.Abel

/-!
# Totals over a table of threads

A step of one thread changes one entry of a table.  The lemmas say what that does to a total
taken over all entries.
-/

open scoped BigOperators

namespace CS537.Foundation

variable {ι α M : Type*} [DecidableEq ι]

/-- What holds of every entry and of the new one holds of every entry after the update. -/
theorem forall_update {P : α → Prop} {f : ι → α} {i : ι} {a : α} (ha : P a) (h : ∀ j, P (f j)) :
    ∀ j, P (Function.update f i a j) := by
  intro j
  by_cases hj : j = i
  · subst hj
    simpa using ha
  · simpa [Function.update_of_ne hj] using h j

variable [Fintype ι]

/-- Replacing one entry exchanges its share of the total for the share of the new entry. -/
theorem sum_update_add [AddCommMonoid M] (g : α → M) (f : ι → α) (i : ι) (a : α) :
    ∑ j, g (Function.update f i a j) + g (f i) = ∑ j, g (f j) + g a := by
  have hrest : ∑ j ∈ Finset.univ.erase i, g (Function.update f i a j) =
      ∑ j ∈ Finset.univ.erase i, g (f j) := by
    refine Finset.sum_congr rfl fun j hj ↦ ?_
    rw [Function.update_of_ne (Finset.ne_of_mem_erase hj)]
  rw [← Finset.add_sum_erase _ _ (Finset.mem_univ i),
    ← Finset.add_sum_erase _ (fun j ↦ g (f j)) (Finset.mem_univ i), hrest,
    Function.update_self]
  abel

/-- A smaller entry makes a smaller total. -/
theorem sum_update_lt (g : α → ℕ) (f : ι → α) {i : ι} {a : α} (h : g a < g (f i)) :
    ∑ j, g (Function.update f i a j) < ∑ j, g (f j) := by
  have hsum := sum_update_add g f i a
  omega

end CS537.Foundation
