import Mathlib.Logic.Function.Basic
import Mathlib.Data.Nat.Notation

/-!
# Numbers given out in order

Slots are given the numbers from a first one on, each number to one slot.  A slot without a number
has the number zero.
-/

namespace CS537.Foundation

variable {ι : Type*} {number : ι → ℕ} {first next : ℕ} {s t : ι}

/-- The numbers from `first` to `next` have been given out. -/
structure Assigned (number : ι → ℕ) (first next : ℕ) : Prop where
  pos : 0 < first
  le : first ≤ next
  range : ∀ s, number s ≠ 0 → first ≤ number s ∧ number s < next
  injective : ∀ s t, number s ≠ 0 → number s = number t → s = t
  surjective : ∀ b, first ≤ b → b < next → ∃ s, number s = b

namespace Assigned

theorem empty (hpos : 0 < first) : Assigned (fun _ : ι ↦ 0) first first where
  pos := hpos
  le := Nat.le_refl first
  range _ h := absurd rfl h
  injective _ _ h := absurd rfl h
  surjective _ hb hb' := absurd hb (Nat.not_le.mpr hb')

/-- A slot without a number is given the next one. -/
theorem assign [DecidableEq ι] (h : Assigned number first next) (hs : number s = 0) :
    Assigned (Function.update number s next) first (next + 1) where
  pos := h.pos
  le := Nat.le_succ_of_le h.le
  range t ht := by
    by_cases hts : t = s
    · rw [hts, Function.update_self]
      exact ⟨h.le, Nat.lt_succ_self next⟩
    · rw [Function.update_of_ne hts] at ht ⊢
      exact ⟨(h.range t ht).1, Nat.lt_succ_of_lt (h.range t ht).2⟩
  injective t u ht htu := by
    by_cases hts : t = s
    · by_cases hus : u = s
      · rw [hts, hus]
      · rw [hts, Function.update_self, Function.update_of_ne hus] at htu
        rw [hts, Function.update_self, htu] at ht
        exact absurd (h.range u ht).2 (by omega)
    · rw [Function.update_of_ne hts] at ht htu
      by_cases hus : u = s
      · rw [hus, Function.update_self] at htu
        exact absurd (h.range t ht).2 (by omega)
      · rw [Function.update_of_ne hus] at htu
        exact h.injective t u ht htu
  surjective b hb hb' := by
    by_cases hnext : b = next
    · exact ⟨s, by rw [Function.update_self, hnext]⟩
    · obtain ⟨t, ht⟩ := h.surjective b hb (by omega)
      have hts : t ≠ s := by
        rintro rfl
        have hpos := h.pos
        omega
      exact ⟨t, by rw [Function.update_of_ne hts, ht]⟩

end Assigned

end CS537.Foundation
