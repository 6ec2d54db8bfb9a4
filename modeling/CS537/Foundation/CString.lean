import Mathlib.Data.List.TakeWhile
import Mathlib.Data.UInt
import Mathlib.Tactic.Linarith

/-!
# C strings and their order

A C string is the list of the bytes before its terminator.  `strcmp` compares two of them as
unsigned bytes and returns the difference at the first place where they differ.  The module
proves that it is zero on equal strings only, changes sign with its arguments and is transitive,
so that it is a total order.
-/

namespace CS537.Foundation

/-- The bytes of a NUL-terminated string, without the terminator. -/
structure CString where
  bytes : List UInt8
  noNul : 0 ∉ bytes
  deriving DecidableEq

namespace CString

@[ext]
theorem ext {s t : CString} (h : s.bytes = t.bytes) : s = t := by
  cases s
  cases t
  simpa using h

/-- The string whose bytes are those of `bytes` before the first NUL. -/
def ofBytes (bytes : List UInt8) : CString where
  bytes := bytes.takeWhile (· ≠ 0)
  noNul h := by simpa using List.mem_takeWhile_imp h

end CString

/-- `strcmp` on the bytes: past its end a string reads as NUL. -/
def strcmpBytes : List UInt8 → List UInt8 → ℤ
  | [], [] => 0
  | [], b :: _ => -(b.toNat : ℤ)
  | a :: _, [] => a.toNat
  | a :: s, b :: t => if a = b then strcmpBytes s t else (a.toNat : ℤ) - b.toNat

/-- The C library's `strcmp`. -/
def strcmp (s t : CString) : ℤ := strcmpBytes s.bytes t.bytes

theorem toNat_pos_of_ne_zero {b : UInt8} (h : b ≠ 0) : 0 < b.toNat := by
  rcases Nat.eq_zero_or_pos b.toNat with hb | hb
  · exact absurd (UInt8.toNat_inj.mp hb) h
  · exact hb

theorem strcmpBytes_self (s : List UInt8) : strcmpBytes s s = 0 := by
  induction s with
  | nil => rfl
  | cons a s ih => simpa [strcmpBytes] using ih

theorem strcmpBytes_swap (s t : List UInt8) : strcmpBytes t s = -strcmpBytes s t := by
  induction s generalizing t with
  | nil => cases t <;> simp [strcmpBytes]
  | cons a s ih =>
    cases t with
    | nil => simp [strcmpBytes]
    | cons b t =>
      by_cases h : a = b
      · subst h
        simpa [strcmpBytes] using ih t
      · simp [strcmpBytes, h, Ne.symm h]

theorem eq_of_strcmpBytes_eq_zero {s t : List UInt8} (hs : 0 ∉ s) (ht : 0 ∉ t)
    (h : strcmpBytes s t = 0) : s = t := by
  induction s generalizing t with
  | nil =>
    cases t with
    | nil => rfl
    | cons b t =>
      have hb : 0 < b.toNat := toNat_pos_of_ne_zero (by rintro rfl; simp at ht)
      simp only [strcmpBytes] at h
      omega
  | cons a s ih =>
    cases t with
    | nil =>
      have ha : 0 < a.toNat := toNat_pos_of_ne_zero (by rintro rfl; simp at hs)
      simp only [strcmpBytes] at h
      omega
    | cons b t =>
      simp only [List.mem_cons, not_or] at hs ht
      by_cases hab : a = b
      · subst hab
        rw [ih hs.2 ht.2 (by simpa [strcmpBytes] using h)]
      · have hne : a.toNat ≠ b.toNat := fun heq ↦ hab (UInt8.toNat_inj.mp heq)
        simp only [strcmpBytes, if_neg hab] at h
        omega

theorem strcmpBytes_trans {s t u : List UInt8} (hs : 0 ∉ s) (ht : 0 ∉ t)
    (hst : strcmpBytes s t ≤ 0) (htu : strcmpBytes t u ≤ 0) : strcmpBytes s u ≤ 0 := by
  induction t generalizing s u with
  | nil =>
    cases s with
    | nil => exact htu
    | cons a s =>
      have ha : 0 < a.toNat := toNat_pos_of_ne_zero (by rintro rfl; simp at hs)
      simp only [strcmpBytes] at hst
      omega
  | cons b t ih =>
    simp only [List.mem_cons, not_or] at ht
    have hb : 0 < b.toNat := toNat_pos_of_ne_zero (Ne.symm ht.1)
    cases u with
    | nil =>
      simp only [strcmpBytes] at htu
      omega
    | cons c u =>
      cases s with
      | nil => simp [strcmpBytes]
      | cons a s =>
        simp only [List.mem_cons, not_or] at hs
        by_cases hab : a = b
        · subst hab
          by_cases hac : a = c
          · subst hac
            simp only [strcmpBytes, if_true] at hst htu ⊢
            exact ih hs.2 ht.2 hst htu
          · simpa only [strcmpBytes, if_neg hac] using htu
        · have hne : a.toNat ≠ b.toNat := fun heq ↦ hab (UInt8.toNat_inj.mp heq)
          simp only [strcmpBytes, if_neg hab] at hst
          have hbc : b.toNat ≤ c.toNat := by
            by_cases hbc : b = c
            · rw [hbc]
            · simp only [strcmpBytes, if_neg hbc] at htu
              omega
          have hac : a ≠ c := by
            rintro rfl
            omega
          simp only [strcmpBytes, if_neg hac]
          omega

@[simp]
theorem strcmp_self (s : CString) : strcmp s s = 0 := strcmpBytes_self s.bytes

theorem strcmp_eq_zero_iff {s t : CString} : strcmp s t = 0 ↔ s = t := by
  constructor
  · intro h
    exact CString.ext (eq_of_strcmpBytes_eq_zero s.noNul t.noNul h)
  · rintro rfl
    exact strcmp_self s

theorem strcmp_total (s t : CString) : strcmp s t ≤ 0 ∨ strcmp t s ≤ 0 := by
  have h : strcmp t s = -strcmp s t := strcmpBytes_swap s.bytes t.bytes
  omega

theorem strcmp_trans {s t u : CString} (hst : strcmp s t ≤ 0) (htu : strcmp t u ≤ 0) :
    strcmp s u ≤ 0 :=
  strcmpBytes_trans s.noNul t.noNul hst htu

theorem strcmp_antisymm {s t : CString} (hst : strcmp s t ≤ 0) (hts : strcmp t s ≤ 0) : s = t := by
  have h : strcmp t s = -strcmp s t := strcmpBytes_swap s.bytes t.bytes
  exact strcmp_eq_zero_iff.mp (by omega)

end CS537.Foundation
