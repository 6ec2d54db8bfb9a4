import Mathlib.Data.List.Nodup
import Mathlib.Logic.Function.Basic

/-!
# Linked lists in memory

A memory maps each cell to the cell its link points to; `none` is the null pointer.  A segment is
the list of the cells passed from one pointer to another, and a linked list is a segment that ends
in null.  The links determine the cells, so that a linked list never passes a cell twice.  The
rules say what the list is after a cell has been pushed, inserted or unlinked by writing links.
-/

namespace CS537.Foundation

variable {α : Type*}

/-- Following the links from `p` one passes the cells of the list and comes to `q`. -/
def Segment (next : α → Option α) : Option α → List α → Option α → Prop
  | p, [], q => p = q
  | p, a :: l, q => p = some a ∧ Segment next (next a) l q

/-- The cells passed from `p` to the end. -/
def Linked (next : α → Option α) (p : Option α) (l : List α) : Prop := Segment next p l none

variable {next next' : α → Option α} {p q : Option α} {l m : List α} {a x y : α}

@[simp]
theorem segment_nil : Segment next p [] q ↔ p = q := Iff.rfl

@[simp]
theorem segment_cons : Segment next p (a :: l) q ↔ p = some a ∧ Segment next (next a) l q := Iff.rfl

@[simp]
theorem linked_nil : Linked next p [] ↔ p = none := Iff.rfl

@[simp]
theorem linked_cons : Linked next p (a :: l) ↔ p = some a ∧ Linked next (next a) l := Iff.rfl

theorem segment_append :
    Segment next p (l ++ m) q ↔ ∃ r, Segment next p l r ∧ Segment next r m q := by
  induction l generalizing p with
  | nil => simp
  | cons a l ih => simp [ih, and_assoc]

theorem linked_append : Linked next p (l ++ m) ↔ ∃ r, Segment next p l r ∧ Linked next r m :=
  segment_append

/-! ## The cells are determined by the links -/

theorem Segment.congr (h : Segment next p l q) (hnext : ∀ a ∈ l, next' a = next a) :
    Segment next' p l q := by
  induction l generalizing p with
  | nil => exact h
  | cons a l ih =>
    have hl : ∀ b ∈ l, next' b = next b := fun b hb ↦ hnext b (List.mem_cons_of_mem a hb)
    rw [segment_cons] at h ⊢
    rw [hnext a List.mem_cons_self]
    exact ⟨h.1, ih h.2 hl⟩

theorem Linked.congr (h : Linked next p l) (hnext : ∀ a ∈ l, next' a = next a) :
    Linked next' p l :=
  Segment.congr h hnext

theorem Linked.unique (hl : Linked next p l) (hm : Linked next p m) : l = m := by
  induction l generalizing p m with
  | nil =>
    cases m with
    | nil => rfl
    | cons b m => simp_all
  | cons a l ih =>
    cases m with
    | nil => simp_all
    | cons b m =>
      rw [linked_cons] at hl hm
      have hab : a = b := Option.some.inj (hl.1.symm.trans hm.1)
      subst hab
      rw [ih hl.2 hm.2]

/-- A linked list is acyclic: the cells after a cell are determined by it, so that a second
passage would have to be followed by a list of the same length. -/
theorem Linked.nodup (h : Linked next p l) : l.Nodup := by
  induction l generalizing p with
  | nil => exact List.nodup_nil
  | cons a l ih =>
    rw [linked_cons] at h
    refine List.nodup_cons.mpr ⟨fun ha ↦ ?_, ih h.2⟩
    obtain ⟨s, t, rfl⟩ := List.append_of_mem ha
    obtain ⟨r, -, hr⟩ := linked_append.mp h.2
    rw [linked_cons] at hr
    have hlength := congrArg List.length (h.2.unique hr.2)
    simp at hlength
    omega

theorem Linked.head?_eq (h : Linked next p l) : l.head? = p := by
  cases l with
  | nil => exact h.symm
  | cons a l => exact h.1.symm

theorem Linked.next_of_append_cons (h : Linked next p (l ++ x :: m)) : Linked next (next x) m := by
  obtain ⟨r, -, hr⟩ := linked_append.mp h
  exact hr.2

/-! ## Writing links -/

variable [DecidableEq α]

/-- A write to a cell outside the list leaves the list. -/
theorem Linked.update_of_notMem (h : Linked next p l) (ha : a ∉ l) (q : Option α) :
    Linked (Function.update next a q) p l := by
  apply h.congr
  intro b hb
  exact Function.update_of_ne (ne_of_mem_of_not_mem hb ha) q next

theorem Segment.update_of_notMem {r : Option α} (h : Segment next p l r) (ha : a ∉ l)
    (q : Option α) : Segment (Function.update next a q) p l r := by
  apply h.congr
  intro b hb
  exact Function.update_of_ne (ne_of_mem_of_not_mem hb ha) q next

/-- Pushing a new cell. -/
theorem Linked.push (h : Linked next p l) (ha : a ∉ l) :
    Linked (Function.update next a p) (some a) (a :: l) := by
  rw [linked_cons, Function.update_self]
  exact ⟨rfl, h.update_of_notMem ha p⟩

/-- Redirecting the link of a cell replaces what comes after it. -/
theorem Linked.redirect {m' : List α} (h : Linked next p (l ++ x :: m)) (hx : x ∉ l)
    (hxm : x ∉ m') (hm : Linked next q m') :
    Linked (Function.update next x q) p (l ++ x :: m') := by
  obtain ⟨r, hl, hr⟩ := linked_append.mp h
  refine linked_append.mpr ⟨r, hl.update_of_notMem hx q, hr.1, ?_⟩
  rw [Function.update_self]
  exact hm.update_of_notMem hxm q

/-- Inserting a new cell after `x`. -/
theorem Linked.insertAfter (h : Linked next p (l ++ x :: m)) (ha : a ∉ l ++ x :: m) :
    Linked (Function.update (Function.update next a (next x)) x (some a)) p
      (l ++ x :: a :: m) := by
  have hnodup := h.nodup
  have hx : x ∉ l := by
    intro hx
    exact (List.disjoint_of_nodup_append hnodup) hx List.mem_cons_self
  have hxm : x ∉ m := (List.nodup_cons.mp (List.nodup_append.mp hnodup).2.1).1
  have ham : a ∉ m := fun hm ↦ ha (by simp [hm])
  have hax : x ≠ a := by
    rintro rfl
    exact ha (by simp)
  refine (h.update_of_notMem ha (next x)).redirect hx ?_ ?_
  · simp [hax, hxm]
  · rw [linked_cons, Function.update_self]
    exact ⟨rfl, h.next_of_append_cons.update_of_notMem ham _⟩

/-- Linking a new cell after the last one. -/
theorem Linked.concat (h : Linked next p (l ++ [x])) (ha : a ∉ l ++ [x]) :
    Linked (Function.update (Function.update next a none) x (some a)) p (l ++ [x, a]) := by
  have hlast : next x = none := h.next_of_append_cons
  rw [← hlast]
  exact h.insertAfter ha

/-- Unlinking the cell after `x`. -/
theorem Linked.removeAfter (h : Linked next p (l ++ x :: y :: m)) :
    Linked (Function.update next x (next y)) p (l ++ x :: m) := by
  have hnodup := h.nodup
  have hx : x ∉ l := by
    intro hx
    exact (List.disjoint_of_nodup_append hnodup) hx List.mem_cons_self
  have hxm : x ∉ y :: m := (List.nodup_cons.mp (List.nodup_append.mp hnodup).2.1).1
  refine h.redirect hx (fun hm ↦ hxm (List.mem_cons_of_mem y hm)) ?_
  exact h.next_of_append_cons.2

end CS537.Foundation
