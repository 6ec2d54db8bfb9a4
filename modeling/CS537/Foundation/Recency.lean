import Mathlib.Data.List.Basic
import Mathlib.Data.List.Nodup

/-!
# Lists in the order of the last use

A history has the last use first.  A list is in the order of the last use when the element that was used
last is the first one; an element that is used comes to the front.  The last element with a property is
then the one that has not been used for the longest time.
-/

namespace CS537.Foundation

variable {α : Type*} [DecidableEq α] {history order : List α} {x y : α}

/-- `order` is in the order of the last use. -/
def ByRecency (history order : List α) : Prop :=
  order.Pairwise fun x y ↦ history.idxOf x < history.idxOf y

theorem byRecency_self (h : order.Nodup) : ByRecency order order := by
  rw [ByRecency, List.pairwise_iff_getElem]
  intro i j hi hj hij
  rwa [h.idxOf_getElem, h.idxOf_getElem]

namespace ByRecency

/-- An element is used and comes to the front. -/
theorem moveFront (h : ByRecency history order) (hnodup : order.Nodup) (x : α) :
    ByRecency (x :: history) (x :: order.erase x) := by
  have hne : ∀ y ∈ order.erase x, (x :: history).idxOf y = history.idxOf y + 1 := by
    intro y hy
    have hxy : x ≠ y := (hnodup.mem_erase_iff.mp hy).1.symm
    exact List.idxOf_cons_ne history hxy
  rw [ByRecency, List.pairwise_cons]
  constructor
  · intro y hy
    rw [List.idxOf_cons_self, hne y hy]
    exact Nat.succ_pos _
  · refine (h.sublist List.erase_sublist).imp_of_mem fun {y z} hy hz hlt ↦ ?_
    rw [hne y hy, hne z hz]
    exact Nat.succ_lt_succ hlt

/-- What is found from the end has not been used for the longest time. -/
theorem of_find?_reverse (h : ByRecency history order) {p : α → Bool} (hx : order.reverse.find? p = some x)
    (hy : y ∈ order) (hpy : p y = true) (hne : y ≠ x) : history.idxOf y < history.idxOf x := by
  obtain ⟨-, later, earlier, hsplit, hlater⟩ := List.find?_eq_some_iff_append.mp hx
  have horder : order = earlier.reverse ++ x :: later.reverse := by
    rw [← List.reverse_reverse order, hsplit, List.reverse_append, List.reverse_cons, List.append_assoc,
      List.singleton_append]
  rw [ByRecency, horder, List.pairwise_append] at h
  rw [horder, List.mem_append, List.mem_cons, List.mem_reverse, List.mem_reverse] at hy
  have hnot : y ∉ later := by
    intro hmem
    have hfalse := hlater y hmem
    rw [hpy] at hfalse
    cases hfalse
  have hearlier : y ∈ earlier := hy.resolve_right fun hright ↦ hright.elim hne hnot
  exact h.2.2 y (List.mem_reverse.mpr hearlier) x List.mem_cons_self

end ByRecency

end CS537.Foundation
