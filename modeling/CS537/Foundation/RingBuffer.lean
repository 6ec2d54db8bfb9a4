import Mathlib.Data.Nat.ModEq
import Mathlib.Data.List.Basic
import Mathlib.Logic.Function.Basic

/-!
# Ring buffers with counters that wrap

A ring buffer of `c` cells has a counter of the elements that have been taken out and one of those
that have been put in.  Both are kept modulo `m`, a multiple of `c` that is larger than `c`, and an
element lies in the cell of its number modulo `c`.
-/

namespace CS537.Foundation

/-- The cells and the two counters. -/
structure RingBuffer (α : Type*) where
  data : ℕ → α
  first : ℕ
  last : ℕ

/-- The modulus of the counters and the number of cells. -/
structure RingSize (m c : ℕ) : Prop where
  dvd : c ∣ m
  lt : c < m

namespace RingBuffer

variable {α : Type*} {m c : ℕ} {ring : RingBuffer α} {xs : List α} {a x : α}

/-- Puts an element into the next cell. -/
def push (m c : ℕ) (ring : RingBuffer α) (a : α) : RingBuffer α where
  data := Function.update ring.data (ring.last % c) a
  first := ring.first
  last := (ring.last + 1) % m

/-- The oldest element. -/
def front (c : ℕ) (ring : RingBuffer α) : α := ring.data (ring.first % c)

/-- Takes the oldest element out. -/
def pop (m : ℕ) (ring : RingBuffer α) : RingBuffer α := { ring with first := (ring.first + 1) % m }

/-- Puts the element that was taken out last back. -/
def unpop (m : ℕ) (ring : RingBuffer α) : RingBuffer α := { ring with first := (ring.first + (m - 1)) % m }

/-- The newest element. -/
def back (m c : ℕ) (ring : RingBuffer α) : α := ring.data ((ring.last + (m - 1)) % m % c)

/-- Takes the newest element back. -/
def unpush (m : ℕ) (ring : RingBuffer α) : RingBuffer α := { ring with last := (ring.last + (m - 1)) % m }

@[simp]
theorem push_first (a : α) : (ring.push m c a).first = ring.first := rfl

@[simp]
theorem pop_first : (ring.pop m).first = (ring.first + 1) % m := rfl

@[simp]
theorem unpush_first : (ring.unpush m).first = ring.first := rfl

theorem unpop_pop (h : ring.first < m) : (ring.pop m).unpop m = ring := by
  have hsum : ring.first + 1 + (m - 1) = ring.first + m := by omega
  rw [unpop, pop, Nat.mod_add_mod, hsum, Nat.add_mod_right, Nat.mod_eq_of_lt h]

/-- The ring holds the elements of the list, the oldest one first. -/
structure Holds (m c : ℕ) (ring : RingBuffer α) (xs : List α) : Prop where
  length_le : xs.length ≤ c
  first_lt : ring.first < m
  last_eq : ring.last = (ring.first + xs.length) % m
  data_eq : ∀ i a, xs[i]? = some a → ring.data ((ring.first + i) % c) = a

namespace Holds

variable (hsize : RingSize m c)

include hsize

theorem last_mod (h : Holds m c ring xs) : ring.last % c = (ring.first + xs.length) % c := by
  rw [h.last_eq, Nat.mod_mod_of_dvd _ hsize.dvd]

/-- The unsigned difference of the counters. -/
theorem difference (h : Holds m c ring xs) : (ring.last + (m - ring.first)) % m = xs.length := by
  have hlength : xs.length < m := h.length_le.trans_lt hsize.lt
  have hfirst := h.first_lt
  rw [h.last_eq, Nat.mod_add_mod]
  have hsum : ring.first + xs.length + (m - ring.first) = m + xs.length := by omega
  rw [hsum, Nat.add_mod_left, Nat.mod_eq_of_lt hlength]

theorem first_eq_last_iff (h : Holds m c ring xs) : ring.first = ring.last ↔ xs = [] := by
  have hdiff := h.difference hsize
  have hfirst := h.first_lt
  constructor
  · intro heq
    have hm : ring.last + (m - ring.first) = m := by omega
    rw [hm, Nat.mod_self] at hdiff
    exact List.length_eq_zero_iff.mp hdiff.symm
  · rintro rfl
    rw [h.last_eq, List.length_nil, Nat.add_zero, Nat.mod_eq_of_lt hfirst]

theorem last_eq_full_iff (h : Holds m c ring xs) :
    ring.last = (ring.first + c) % m ↔ xs.length = c := by
  constructor
  · intro heq
    have hmod : ring.first + xs.length ≡ ring.first + c [MOD m] := h.last_eq.symm.trans heq
    exact (Nat.ModEq.add_left_cancel' _ hmod).eq_of_lt_of_lt (h.length_le.trans_lt hsize.lt) hsize.lt
  · intro hlength
    rw [h.last_eq, hlength]

theorem push (h : Holds m c ring xs) (hroom : xs.length < c) (a : α) :
    Holds m c (ring.push m c a) (xs ++ [a]) where
  length_le := by
    rw [List.length_append, List.length_singleton]
    exact hroom
  first_lt := h.first_lt
  last_eq := by
    rw [RingBuffer.push, h.last_eq, Nat.mod_add_mod, List.length_append, List.length_singleton,
      Nat.add_assoc]
  data_eq i b hb := by
    simp only [RingBuffer.push, h.last_mod hsize]
    rcases Nat.lt_or_ge i xs.length with hi | hi
    · rw [List.getElem?_append_left hi] at hb
      have hne : (ring.first + i) % c ≠ (ring.first + xs.length) % c := by
        intro heq
        have hmod : i ≡ xs.length [MOD c] := Nat.ModEq.add_left_cancel' _ heq
        exact hi.ne (hmod.eq_of_lt_of_lt (hi.trans hroom) hroom)
      rw [Function.update_of_ne hne]
      exact h.data_eq i b hb
    · obtain ⟨rfl, rfl⟩ : i = xs.length ∧ a = b := by
        rw [List.getElem?_append_right hi, List.getElem?_singleton] at hb
        split at hb
        next hzero => exact ⟨by omega, Option.some.inj hb⟩
        next => cases hb
      rw [Function.update_self]

theorem pop (h : Holds m c ring (x :: xs)) :
    ring.front c = x ∧ Holds m c (ring.pop m) xs := by
  refine ⟨h.data_eq 0 x rfl, ?_⟩
  have hlength := h.length_le
  rw [List.length_cons] at hlength
  refine ⟨Nat.le_of_succ_le hlength, Nat.mod_lt _ (Nat.zero_lt_of_lt h.first_lt), ?_, fun i a ha ↦ ?_⟩
  · rw [RingBuffer.pop, h.last_eq, List.length_cons, Nat.mod_add_mod]
    congr 1
    omega
  · have hcell : ((ring.first + 1) % m + i) % c = (ring.first + (i + 1)) % c := by
      rw [Nat.add_mod, Nat.mod_mod_of_dvd _ hsize.dvd, ← Nat.add_mod]
      congr 1
      omega
    rw [RingBuffer.pop, hcell]
    exact h.data_eq (i + 1) a ha

theorem unpush (h : Holds m c ring (xs ++ [a])) :
    ring.back m c = a ∧ Holds m c (ring.unpush m) xs := by
  have hlength := h.length_le
  rw [List.length_append, List.length_singleton] at hlength
  have hpos : 0 < m := Nat.zero_lt_of_lt h.first_lt
  have hlast : (ring.last + (m - 1)) % m = (ring.first + xs.length) % m := by
    rw [h.last_eq, List.length_append, List.length_singleton, Nat.mod_add_mod]
    have hsum : ring.first + (xs.length + 1) + (m - 1) = ring.first + xs.length + m := by omega
    rw [hsum, Nat.add_mod_right]
  refine ⟨?_, Nat.le_of_succ_le hlength, h.first_lt, hlast, fun i b hb ↦ ?_⟩
  · rw [back, hlast, Nat.mod_mod_of_dvd _ hsize.dvd]
    exact h.data_eq xs.length a (by simp)
  · have hi : i < xs.length := (List.getElem?_eq_some_iff.mp hb).1
    exact h.data_eq i b (by rwa [List.getElem?_append_left hi])

/-- The elements after the first ones are held from a later counter on. -/
theorem drop_front {ys : List α} (h : Holds m c ring (xs ++ ys)) :
    Holds m c ⟨ring.data, (ring.first + xs.length) % m, ring.last⟩ ys where
  length_le := by
    have hlength := h.length_le
    rw [List.length_append] at hlength
    omega
  first_lt := Nat.mod_lt _ (Nat.zero_lt_of_lt h.first_lt)
  last_eq := by rw [h.last_eq, List.length_append, Nat.mod_add_mod, Nat.add_assoc]
  data_eq i a ha := by
    have hcell : ((ring.first + xs.length) % m + i) % c = (ring.first + (xs.length + i)) % c := by
      rw [Nat.add_mod, Nat.mod_mod_of_dvd _ hsize.dvd, ← Nat.add_mod, Nat.add_assoc]
    rw [hcell]
    refine h.data_eq (xs.length + i) a ?_
    rw [List.getElem?_append_right (Nat.le_add_right _ _), Nat.add_sub_cancel_left]
    exact ha

omit hsize in
/-- The first elements are held up to an earlier counter. -/
theorem take_front {ys : List α} (h : Holds m c ring (xs ++ ys)) :
    Holds m c ⟨ring.data, ring.first, (ring.first + xs.length) % m⟩ xs where
  length_le := by
    have hlength := h.length_le
    rw [List.length_append] at hlength
    omega
  first_lt := h.first_lt
  last_eq := rfl
  data_eq i a ha := by
    have hi : i < xs.length := (List.getElem?_eq_some_iff.mp ha).1
    exact h.data_eq i a (by rwa [List.getElem?_append_left hi])

omit hsize in
theorem empty (hpos : 0 < m) (data : ℕ → α) : Holds m c ⟨data, 0, 0⟩ [] where
  length_le := Nat.zero_le c
  first_lt := hpos
  last_eq := (Nat.zero_mod m).symm
  data_eq _ _ h := by simp at h

end Holds

end RingBuffer

end CS537.Foundation
