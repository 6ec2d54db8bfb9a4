import CS537.Foundation.LinkedList

/-!
# Rings in memory

A doubly linked ring with a header: `none` is the header, and the links lead from it through the cells and
back to it, in one direction and in the other.  Seen from the header each direction is a linked list.  The
rules say what the ring is after a cell has been unlinked, or has been linked behind the header.
-/

namespace CS537.Foundation

variable {α : Type*}

/-- The links from the header and from the cells. -/
structure Links (α : Type*) where
  next : Option α → Option α
  prev : Option α → Option α

/-- From the header on one passes the cells of the list. -/
def Chain (f : Option α → Option α) (l : List α) : Prop := Linked (fun a ↦ f (some a)) (f none) l

/-- The ring through the cells of the list. -/
structure Ring (r : Links α) (l : List α) : Prop where
  forward : Chain r.next l
  backward : Chain r.prev l.reverse

/-- A loop from cell to cell, with as many rounds as there may be cells. -/
def search (f : Option α → Option α) (p : α → Bool) : ℕ → Option α → Option α
  | 0, _ => none
  | _ + 1, none => none
  | fuel + 1, some b => if p b then some b else search f p fuel (f (some b))

namespace Links

variable [DecidableEq α] (r : Links α) (b : α)

/-- `b->next->prev = b->prev; b->prev->next = b->next` -/
def unlink : Links α :=
  let r := { r with prev := Function.update r.prev (r.next (some b)) (r.prev (some b)) }
  { r with next := Function.update r.next (r.prev (some b)) (r.next (some b)) }

/-- `b->next = head.next; b->prev = &head; head.next->prev = b; head.next = b` -/
def pushFront : Links α :=
  let r := { r with next := Function.update r.next (some b) (r.next none) }
  let r := { r with prev := Function.update r.prev (some b) none }
  let r := { r with prev := Function.update r.prev (r.next none) (some b) }
  { r with next := Function.update r.next none (some b) }

end Links

variable {f : Option α → Option α} {l m : List α} {x : α}

namespace Chain

theorem nodup (h : Chain f l) : l.Nodup := Linked.nodup h

theorem first_eq (h : Chain f l) : f none = l.head? := (Linked.head?_eq h).symm

theorem apply_eq (h : Chain f (l ++ x :: m)) : f (some x) = m.head? :=
  (Linked.head?_eq (Linked.next_of_append_cons h)).symm

/-- The loop finds what is in the list. -/
theorem search_eq (h : Chain f l) (p : α → Bool) {fuel : ℕ} (hfuel : l.length < fuel) :
    search f p fuel (f none) = l.find? p := by
  have hlist : ∀ {l : List α} {q : Option α} {fuel : ℕ}, Linked (fun a ↦ f (some a)) q l →
      l.length < fuel → search f p fuel q = l.find? p := by
    intro l
    induction l with
    | nil =>
      intro q fuel h hfuel
      obtain ⟨n, rfl⟩ := Nat.exists_eq_succ_of_ne_zero (Nat.ne_of_gt hfuel)
      rw [linked_nil.mp h, search, List.find?_nil]
    | cons a l ih =>
      intro q fuel h hfuel
      obtain ⟨n, rfl⟩ := Nat.exists_eq_succ_of_ne_zero (Nat.ne_of_gt (Nat.zero_lt_of_lt hfuel))
      obtain ⟨rfl, hl⟩ := linked_cons.mp h
      rw [search, List.find?_cons, ih hl (Nat.lt_of_succ_lt_succ hfuel)]
      cases p a <;> rfl
  exact hlist h hfuel

variable [DecidableEq α]

/-- The links of the cells are written apart from that of the header. -/
theorem update_some (f : Option α → Option α) (a : α) (q : Option α) :
    (fun b ↦ Function.update f (some a) q (some b)) = Function.update (fun b ↦ f (some b)) a q := by
  funext b
  by_cases hb : b = a
  · rw [hb, Function.update_self, Function.update_self]
  · rw [Function.update_of_ne hb, Function.update_of_ne fun heq ↦ hb (Option.some.inj heq)]

theorem update_none (f : Option α → Option α) (q : Option α) :
    (fun b ↦ Function.update f none q (some b)) = fun b ↦ f (some b) :=
  funext fun b ↦ Function.update_of_ne (Option.some_ne_none b) q f

theorem update_some_none (f : Option α → Option α) (a : α) (q : Option α) :
    Function.update f (some a) q none = f none :=
  Function.update_of_ne (Option.some_ne_none a).symm q f

/-- A cell is left out. -/
theorem remove (h : Chain f (l ++ x :: m)) :
    Chain (Function.update f l.getLast? (f (some x))) (l ++ m) := by
  rcases List.eq_nil_or_concat l with rfl | ⟨l, y, rfl⟩
  · rw [Chain, List.getLast?_nil, update_none, Function.update_self]
    exact Linked.next_of_append_cons h
  · rw [List.concat_eq_append, List.append_assoc, List.singleton_append] at h ⊢
    rw [Chain, List.getLast?_concat, update_some, update_some_none]
    exact Linked.removeAfter h

/-- A cell is linked behind the last one. -/
theorem concat (h : Chain f l) (hx : x ∉ l) :
    Chain (Function.update (Function.update f (some x) none) l.getLast? (some x)) (l ++ [x]) := by
  rcases List.eq_nil_or_concat l with rfl | ⟨l, y, rfl⟩
  · rw [Chain, List.getLast?_nil, update_none, update_some, Function.update_self]
    exact linked_cons.mpr ⟨rfl, linked_nil.mpr (Function.update_self _ _ _)⟩
  · rw [List.concat_eq_append] at h hx ⊢
    rw [Chain, List.getLast?_concat, update_some, update_some, update_some_none, update_some_none,
      List.append_assoc]
    exact Linked.concat h hx

/-- A cell is linked behind the header. -/
theorem push (h : Chain f l) (hx : x ∉ l) :
    Chain (Function.update (Function.update f (some x) (f none)) none (some x)) (x :: l) := by
  rw [Chain, update_none, update_some, Function.update_self]
  exact Linked.push h hx

end Chain

namespace Ring

variable {r : Links α}

theorem nodup (h : Ring r l) : l.Nodup := h.forward.nodup

theorem next_eq (h : Ring r (l ++ x :: m)) : r.next (some x) = m.head? := h.forward.apply_eq

theorem prev_eq (h : Ring r (l ++ x :: m)) : r.prev (some x) = l.getLast? := by
  have hback := h.backward
  rw [List.reverse_append, List.reverse_cons, List.append_assoc, List.singleton_append] at hback
  rw [hback.apply_eq, List.head?_reverse]

variable [DecidableEq α]

/-- A cell leaves the ring. -/
theorem unlink (h : Ring r (l ++ x :: m)) : Ring (r.unlink x) (l ++ m) := by
  have hnext := h.next_eq
  have hprev := h.prev_eq
  have hnodup := h.nodup
  have hne : some x ≠ m.head? := by
    intro heq
    have hmem : x ∈ m := List.mem_of_mem_head? heq.symm
    exact (List.nodup_cons.mp (List.nodup_append.mp hnodup).2.1).1 hmem
  have hsame : Function.update r.prev m.head? l.getLast? (some x) = l.getLast? := by
    rw [Function.update_of_ne hne, hprev]
  constructor
  · have hremove := h.forward.remove
    rw [hnext] at hremove
    simp only [Links.unlink, hnext, hprev, hsame]
    exact hremove
  · have hback := h.backward
    rw [List.reverse_append, List.reverse_cons, List.append_assoc, List.singleton_append] at hback
    have hremove := hback.remove
    rw [hprev, List.getLast?_reverse] at hremove
    simp only [Links.unlink, hnext, hprev]
    rw [List.reverse_append]
    exact hremove

/-- A new cell is the first one in the ring. -/
theorem pushFront (h : Ring r l) (hx : x ∉ l) : Ring (r.pushFront x) (x :: l) := by
  have hfirst : Function.update r.next (some x) (r.next none) none = l.head? := by
    rw [Chain.update_some_none, h.forward.first_eq]
  constructor
  · exact h.forward.push hx
  · have hback := h.backward.concat (x := x) (by rwa [List.mem_reverse])
    rw [List.getLast?_reverse] at hback
    rw [List.reverse_cons]
    simp only [Links.pushFront, hfirst]
    exact hback

/-- A cell of the ring becomes the first one. -/
theorem moveFront (h : Ring r l) (hx : x ∈ l) : Ring ((r.unlink x).pushFront x) (x :: l.erase x) := by
  obtain ⟨s, t, hs, rfl, herase⟩ := List.exists_erase_eq hx
  rw [herase]
  refine h.unlink.pushFront fun hmem ↦ ?_
  have hnodup := h.nodup
  rw [List.nodup_middle] at hnodup
  exact (List.nodup_cons.mp hnodup).1 hmem

/-- New cells are linked behind the header, one after another. -/
theorem pushAll (h : Ring r l) (hnodup : (m.reverse ++ l).Nodup) :
    Ring (m.foldl Links.pushFront r) (m.reverse ++ l) := by
  induction m generalizing r l with
  | nil => exact h
  | cons x m ih =>
    rw [List.reverse_cons, List.append_assoc, List.singleton_append] at hnodup ⊢
    have hx : x ∉ l := (List.nodup_cons.mp (List.nodup_append.mp hnodup).2.1).1
    exact ih (h.pushFront hx) hnodup

end Ring

end CS537.Foundation
