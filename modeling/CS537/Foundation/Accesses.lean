import Mathlib.Data.List.Basic
import Mathlib.Data.Int.Order.Basic

/-!
# Accesses to an array

A program's accesses to a local array, in their order.  The elements have no values at first.
-/

namespace CS537.Foundation

inductive Access where
  | load (i : ℤ)
  | store (i : ℤ)
  deriving DecidableEq

/-- The indices lie in an array of `n` elements, and what is loaded has been stored before; the
elements in `stored` have values at the beginning. -/
def Orderly (n : ℕ) : List ℤ → List Access → Prop
  | _, [] => True
  | stored, .load i :: as => (0 ≤ i ∧ i < n) ∧ i ∈ stored ∧ Orderly n stored as
  | stored, .store i :: as => (0 ≤ i ∧ i < n) ∧ Orderly n (i :: stored) as

/-- The elements that have values at the end. -/
def storedBy (stored : List ℤ) : List Access → List ℤ
  | [] => stored
  | .load _ :: as => storedBy stored as
  | .store i :: as => storedBy (i :: stored) as

variable {n : ℕ} {i : ℤ} {stored : List ℤ} {as bs : List Access}

theorem orderly_append :
    Orderly n stored (as ++ bs) ↔ Orderly n stored as ∧ Orderly n (storedBy stored as) bs := by
  induction as generalizing stored with
  | nil => exact (and_iff_right trivial).symm
  | cons a as ih =>
    cases a with
    | load i => simp only [List.cons_append, Orderly, storedBy, ih, and_assoc]
    | store i => simp only [List.cons_append, Orderly, storedBy, ih, and_assoc]

theorem storedBy_append : storedBy stored (as ++ bs) = storedBy (storedBy stored as) bs := by
  induction as generalizing stored with
  | nil => rfl
  | cons a as ih =>
    cases a with
    | load i => exact ih
    | store i => exact ih

theorem mem_storedBy (h : i ∈ stored) : i ∈ storedBy stored as := by
  induction as generalizing stored with
  | nil => exact h
  | cons a as ih =>
    cases a with
    | load j => exact ih h
    | store j => exact ih (List.mem_cons_of_mem j h)

/-- The first `m` elements have values. -/
def Filled (stored : List ℤ) (m : ℕ) : Prop := ∀ i : ℤ, 0 ≤ i → i < m → i ∈ stored

theorem Filled.storedBy {m : ℕ} (h : Filled stored m) : Filled (storedBy stored as) m :=
  fun i hi hlt ↦ mem_storedBy (h i hi hlt)

theorem Filled.mono {k m : ℕ} (h : Filled stored m) (hk : k ≤ m) : Filled stored k :=
  fun i hi hlt ↦ h i hi (by omega)

theorem Filled.store {m : ℕ} (h : Filled stored m) : Filled ((m : ℤ) :: stored) (m + 1) := by
  intro i hi hlt
  by_cases heq : i = m
  · rw [heq]
    exact List.mem_cons_self
  · exact List.mem_cons_of_mem _ (h i hi (by omega))

/-- Elements that have values are loaded. -/
theorem orderly_loads {m : ℕ} (h : Filled stored m) (hm : m ≤ n) {is : List ℤ}
    (his : ∀ i ∈ is, 0 ≤ i ∧ i < m) : Orderly n stored (is.map .load) := by
  induction is with
  | nil => trivial
  | cons i is ih =>
    obtain ⟨hi, his⟩ := List.forall_mem_cons.mp his
    exact ⟨⟨hi.1, Int.lt_of_lt_of_le hi.2 (Int.ofNat_le.mpr hm)⟩, h i hi.1 hi.2, ih his⟩

end CS537.Foundation
