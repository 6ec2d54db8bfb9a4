import Mathlib.Algebra.Order.Floor.Div
import Mathlib.Tactic.Linarith

/-!
# Splitting a range into equal parts

The numbers below `w` are split into `m` parts by `k * m / w`.  The parts are intervals that follow
each other, and their sizes differ by at most one.
-/

namespace CS537.Foundation

variable {w m : ℕ}

/-- The part that a number belongs to. -/
def part (w m k : ℕ) : ℕ := k * m / w

theorem part_lt {k : ℕ} (hm : 0 < m) (hk : k < w) : part w m k < m := by
  rw [part, Nat.div_lt_iff_lt_mul (Nat.zero_lt_of_lt hk), Nat.mul_comm m w]
  exact Nat.mul_lt_mul_of_pos_right hk hm

theorem part_mono {k l : ℕ} (h : k ≤ l) : part w m k ≤ part w m l :=
  Nat.div_le_div_right (Nat.mul_le_mul_right m h)

/-- Where part `j` begins. -/
def partStart (w m j : ℕ) : ℕ := (j * w) ⌈/⌉ m

theorem partStart_le_iff (hw : 0 < w) (hm : 0 < m) (j k : ℕ) :
    partStart w m j ≤ k ↔ j ≤ part w m k := by
  rw [partStart, part, ceilDiv_le_iff_le_mul hm, Nat.le_div_iff_mul_le hw, Nat.mul_comm m k]

theorem partStart_mono (hm : 0 < m) {i j : ℕ} (h : i ≤ j) : partStart w m i ≤ partStart w m j := by
  rw [partStart, ceilDiv_le_iff_le_mul hm]
  exact (Nat.mul_le_mul_right w h).trans (le_smul_ceilDiv hm)

theorem partStart_all (hm : 0 < m) : partStart w m m = w := by
  rw [partStart, ← smul_eq_mul, smul_ceilDiv hm]

/-- A part is an interval. -/
theorem part_eq_iff (hw : 0 < w) (hm : 0 < m) (j k : ℕ) :
    part w m k = j ↔ partStart w m j ≤ k ∧ k < partStart w m (j + 1) := by
  rw [partStart_le_iff hw hm, ← Nat.not_le, partStart_le_iff hw hm]
  omega

/-- A part has `w / m` elements, rounded down or up. -/
theorem length_part (hm : 0 < m) (j : ℕ) :
    partStart w m (j + 1) - partStart w m j = w / m ∨
      partStart w m (j + 1) - partStart w m j = w ⌈/⌉ m := by
  have hdown : m * (w / m) ≤ w := Nat.mul_div_le w m
  have hup : w ≤ m * (w ⌈/⌉ m) := le_smul_ceilDiv hm
  have hnear : w ⌈/⌉ m ≤ w / m + 1 :=
    (ceilDiv_le_iff_le_mul hm).mpr (Nat.le_of_lt (Nat.lt_mul_div_succ w hm))
  have hfirst : j * w ≤ m * partStart w m j := le_smul_ceilDiv hm
  have hnext : (j + 1) * w ≤ m * partStart w m (j + 1) := le_smul_ceilDiv hm
  have hatMost : partStart w m (j + 1) ≤ partStart w m j + w ⌈/⌉ m := by
    refine (ceilDiv_le_iff_le_mul hm).mpr ?_
    calc
      (j + 1) * w = j * w + w := Nat.succ_mul j w
      _ ≤ m * partStart w m j + m * (w ⌈/⌉ m) := Nat.add_le_add hfirst hup
      _ = m * (partStart w m j + w ⌈/⌉ m) := (Nat.mul_add _ _ _).symm
  have hatLeast : partStart w m j ≤ partStart w m (j + 1) - w / m := by
    refine (ceilDiv_le_iff_le_mul hm).mpr ?_
    rw [Nat.mul_sub]
    rw [Nat.succ_mul] at hnext
    omega
  have hsize : w / m ≤ partStart w m (j + 1) := by
    refine Nat.le_of_mul_le_mul_left ?_ hm
    calc
      m * (w / m) ≤ w := hdown
      _ ≤ (j + 1) * w := Nat.le_mul_of_pos_left w (Nat.succ_pos j)
      _ ≤ m * partStart w m (j + 1) := hnext
  omega

end CS537.Foundation
