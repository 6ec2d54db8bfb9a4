import Mathlib.Logic.Function.Basic
import Mathlib.Data.Nat.Notation

/-!
# Marked numbers and their owners

Slots own numbers below a bound, each number at most one slot, and a mark says of each number whether
it is taken.  The numbers below a first one are taken without a slot.  A slot without a number has the
number zero.
-/

namespace CS537.Foundation

variable {ι : Type*} {number : ι → ℕ} {marked marked' : ℕ → Prop} {first last b : ℕ} {s t : ι}

/-- The marks and the slots agree. -/
structure Owned (number : ι → ℕ) (marked : ℕ → Prop) (first last : ℕ) : Prop where
  pos : 0 < first
  range : ∀ s, number s ≠ 0 → first ≤ number s ∧ number s < last
  injective : ∀ s t, number s ≠ 0 → number s = number t → s = t
  marked_iff : ∀ b, b < last → (marked b ↔ b < first ∨ ∃ s, number s = b)

namespace Owned

variable (h : Owned number marked first last)
include h

theorem marked_number (hs : number s ≠ 0) : marked (number s) :=
  (h.marked_iff _ (h.range s hs).2).mpr (.inr ⟨s, rfl⟩)

theorem first_le (hb : ¬marked b) (hlast : b < last) : first ≤ b :=
  Nat.le_of_not_lt fun hlt ↦ hb ((h.marked_iff b hlast).mpr (.inl hlt))

theorem number_ne (hb : ¬marked b) (hlast : b < last) (s : ι) : number s ≠ b :=
  fun hs ↦ hb ((h.marked_iff b hlast).mpr (.inr ⟨s, hs⟩))

/-- The slots may be renamed as long as their numbers stay. -/
theorem congr {number' : ι → ℕ} (hnumber : ∀ s, number' s = number s)
    (hmarked : ∀ b, b < last → (marked' b ↔ marked b)) : Owned number' marked' first last := by
  obtain rfl : number' = number := funext hnumber
  exact ⟨h.pos, h.range, h.injective, fun b hb ↦ (hmarked b hb).trans (h.marked_iff b hb)⟩

/-- A slot without a number is given a number that is not marked. -/
theorem assign [DecidableEq ι] (hs : number s = 0) (hb : ¬marked b) (hlast : b < last)
    (hmarked : ∀ c, c < last → (marked' c ↔ marked c ∨ c = b)) :
    Owned (Function.update number s b) marked' first last where
  pos := h.pos
  range t ht := by
    by_cases hts : t = s
    · rw [hts, Function.update_self]
      exact ⟨h.first_le hb hlast, hlast⟩
    · rw [Function.update_of_ne hts] at ht ⊢
      exact h.range t ht
  injective t u ht htu := by
    by_cases hts : t = s
    · by_cases hus : u = s
      · rw [hts, hus]
      · rw [hts, Function.update_self, Function.update_of_ne hus] at htu
        exact absurd htu.symm (h.number_ne hb hlast u)
    · rw [Function.update_of_ne hts] at ht htu
      by_cases hus : u = s
      · rw [hus, Function.update_self] at htu
        exact absurd htu (h.number_ne hb hlast t)
      · rw [Function.update_of_ne hus] at htu
        exact h.injective t u ht htu
  marked_iff c hc := by
    rw [hmarked c hc, h.marked_iff c hc]
    constructor
    · rintro ((hlt | ⟨t, ht⟩) | rfl)
      · exact .inl hlt
      · by_cases hzero : c < first
        · exact .inl hzero
        · have hpos := h.pos
          have hts : t ≠ s := by
            rintro rfl
            omega
          exact .inr ⟨t, by rw [Function.update_of_ne hts, ht]⟩
      · exact .inr ⟨s, Function.update_self s c number⟩
    · rintro (hlt | ⟨t, ht⟩)
      · exact .inl (.inl hlt)
      · by_cases hts : t = s
        · rw [hts, Function.update_self] at ht
          exact .inr ht.symm
        · rw [Function.update_of_ne hts] at ht
          exact .inl (.inr ⟨t, ht⟩)

/-- A slot gives its number back. -/
theorem release [DecidableEq ι] (hs : number s ≠ 0)
    (hmarked : ∀ c, c < last → (marked' c ↔ marked c ∧ c ≠ number s)) :
    Owned (Function.update number s 0) marked' first last where
  pos := h.pos
  range t ht := by
    by_cases hts : t = s
    · rw [hts, Function.update_self] at ht
      exact absurd rfl ht
    · rw [Function.update_of_ne hts] at ht ⊢
      exact h.range t ht
  injective t u ht htu := by
    by_cases hts : t = s
    · rw [hts, Function.update_self] at ht
      exact absurd rfl ht
    · rw [Function.update_of_ne hts] at ht htu
      by_cases hus : u = s
      · rw [hus, Function.update_self] at htu
        exact absurd htu ht
      · rw [Function.update_of_ne hus] at htu
        exact h.injective t u ht htu
  marked_iff c hc := by
    have hfirst := (h.range s hs).1
    rw [hmarked c hc, h.marked_iff c hc]
    constructor
    · rintro ⟨hlt | ⟨t, ht⟩, hne⟩
      · exact .inl hlt
      · have hts : t ≠ s := fun hts ↦ hne (by rw [← ht, hts])
        exact .inr ⟨t, by rw [Function.update_of_ne hts, ht]⟩
    · rintro (hlt | ⟨t, ht⟩)
      · exact ⟨.inl hlt, by omega⟩
      · by_cases hts : t = s
        · rw [hts, Function.update_self] at ht
          have hpos := h.pos
          exact ⟨.inl (by omega), by omega⟩
        · rw [Function.update_of_ne hts] at ht
          refine ⟨.inr ⟨t, ht⟩, fun hc' ↦ hts (h.injective t s ?_ (ht.trans hc'))⟩
          rw [ht, hc']
          exact hs

end Owned

end CS537.Foundation
