import Mathlib.Data.List.Basic

/-!
# Histories

A history lists what has happened, the newest event first.  `EachAfter P h` says that each event
of `h` stands in the relation `P` to the history it was added to.
-/

namespace CS537.Foundation

variable {ε : Type*}

/-- Each event of the history satisfies `P` with respect to the events before it. -/
def EachAfter (P : List ε → ε → Prop) : List ε → Prop
  | [] => True
  | e :: earlier => P earlier e ∧ EachAfter P earlier

theorem EachAfter.at {P : List ε → ε → Prop} {later earlier : List ε} {e : ε}
    (h : EachAfter P (later ++ e :: earlier)) : P earlier e := by
  induction later with
  | nil => exact h.1
  | cons e' later ih => exact ih h.2

end CS537.Foundation
