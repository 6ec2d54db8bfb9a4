import CS537.Foundation.LinkedList
import CS537.Kalloc.Layout

/-!
# The free list

Free pages are linked through their first words, `kmem.freelist` pointing to the first of them.
`insert_freelist` keeps the list descending by address.  A loop that follows the links is given
as many rounds as there are page frames, and has no result when it would need more.
-/

namespace CS537.Kalloc

open Foundation

/-- `kmem` with the first words of all pages. -/
structure Kmem where
  freelist : Option ℕ
  next : ℕ → Option ℕ

/-- The loop of `insert_freelist`: from `prev` on, the last page above `r`. -/
def findPrev (next : ℕ → Option ℕ) (r : ℕ) : ℕ → ℕ → Option ℕ
  | 0, _ => none
  | fuel + 1, prev =>
    match next prev with
    | some n => if n > r then findPrev next r fuel n else some prev
    | none => some prev

/-- `insert_freelist`. -/
def Kmem.insertFreelist (k : Kmem) (r : ℕ) : Option Kmem :=
  match k.freelist with
  | none => some { freelist := some r, next := Function.update k.next r none }
  | some prev =>
    if prev < r then some { freelist := some r, next := Function.update k.next r (some prev) }
    else
      (findPrev k.next r (numFrames + 1) prev).map fun prev ↦
        { k with next := Function.update (Function.update k.next r (k.next prev)) prev (some r) }

/-- The pages on the free list, which are descending. -/
structure FreeList (k : Kmem) (l : List ℕ) : Prop where
  linked : Linked k.next k.freelist l
  descending : l.Pairwise (· > ·)
  frames : ∀ va ∈ l, Frame va

namespace FreeList

variable {k : Kmem} {l s t : List ℕ} {r : ℕ}

theorem length_le (h : FreeList k l) : l.length ≤ numFrames :=
  length_le_numFrames h.linked.nodup h.frames

/-- The loop stops at the last page above `r`. -/
theorem findPrev_eq {next : ℕ → Option ℕ} {p : Option ℕ} {x : ℕ} {fuel : ℕ}
    (h : Linked next p (x :: l)) (hdesc : (x :: l).Pairwise (· > ·)) (hx : x > r) (hr : r ∉ l)
    (hfuel : l.length < fuel) :
    ∃ s y t, findPrev next r fuel x = some y ∧ x :: l = s ++ y :: t ∧
      (∀ z ∈ s ++ [y], z > r) ∧ ∀ z ∈ t, r > z := by
  induction l generalizing p x fuel with
  | nil =>
    obtain ⟨fuel, rfl⟩ := Nat.exists_eq_succ_of_ne_zero (Nat.ne_zero_of_lt hfuel)
    have hnext : next x = none := h.2
    exact ⟨[], x, [], by simp [findPrev, hnext], rfl, by simpa using hx, by simp⟩
  | cons n l ih =>
    obtain ⟨fuel, rfl⟩ := Nat.exists_eq_succ_of_ne_zero (Nat.ne_zero_of_lt hfuel)
    have hlinked : Linked next (next x) (n :: l) := h.2
    have hnext : next x = some n := hlinked.1
    obtain ⟨hxl, hdesc⟩ := List.pairwise_cons.mp hdesc
    by_cases hn : n > r
    · have hrl : r ∉ l := fun hmem ↦ hr (List.mem_cons_of_mem n hmem)
      have hlen : l.length < fuel := Nat.lt_of_succ_lt_succ hfuel
      obtain ⟨s, y, t, heq, hsplit, habove, hbelow⟩ := ih hlinked hdesc hn hrl hlen
      refine ⟨x :: s, y, t, by simpa [findPrev, hnext, hn] using heq, by rw [hsplit]; rfl, ?_,
        hbelow⟩
      intro z hz
      rcases List.mem_cons.mp hz with rfl | hz
      · exact hx
      · exact habove z hz
    · refine ⟨[], x, n :: l, by simp [findPrev, hnext, hn], rfl, by simpa using hx, ?_⟩
      have hrn : r > n := by
        have hne : r ≠ n := fun heq ↦ hr (heq ▸ List.mem_cons_self)
        omega
      intro z hz
      rcases List.mem_cons.mp hz with rfl | hz
      · exact hrn
      · exact lt_trans ((List.pairwise_cons.mp hdesc).1 z hz) hrn

/-- `insert_freelist` on a page that is not free puts it at its place in the list. -/
theorem insertFreelist (h : FreeList k l) (hr : r ∉ l) (hframe : Frame r) :
    ∃ k' l', k.insertFreelist r = some k' ∧ FreeList k' l' ∧ l'.Perm (r :: l) := by
  have hframes : ∀ va ∈ r :: l, Frame va := by
    intro va hva
    rcases List.mem_cons.mp hva with rfl | hva
    · exact hframe
    · exact h.frames va hva
  cases l with
  | nil =>
    have hnone : k.freelist = none := h.linked
    refine ⟨_, [r], by rw [Kmem.insertFreelist, hnone], ⟨?_, ?_, hframes⟩, List.Perm.refl _⟩
    · simp
    · simp
  | cons x l =>
    have hsome : k.freelist = some x := h.linked.1
    by_cases hx : x < r
    · refine ⟨_, r :: x :: l, by rw [Kmem.insertFreelist, hsome]; exact if_pos hx,
        ⟨?_, ?_, hframes⟩, List.Perm.refl _⟩
      · have hlinked := h.linked
        rw [hsome] at hlinked
        exact hlinked.push hr
      · refine List.pairwise_cons.mpr ⟨?_, h.descending⟩
        intro z hz
        rcases List.mem_cons.mp hz with rfl | hz
        · exact hx
        · exact lt_trans ((List.pairwise_cons.mp h.descending).1 z hz) hx
    · have hrx : r ≠ x := fun heq ↦ hr (heq ▸ List.mem_cons_self)
      have habove : x > r := by omega
      have hrl : r ∉ l := fun hmem ↦ hr (List.mem_cons_of_mem x hmem)
      have hlength := h.length_le
      have hfuel : l.length < numFrames + 1 := by
        simp only [List.length_cons] at hlength
        omega
      obtain ⟨s, y, t, heq, hsplit, hgt, hlt⟩ :=
        findPrev_eq h.linked h.descending habove hrl hfuel
      have hperm : (s ++ y :: r :: t).Perm (r :: x :: l) := by
        rw [hsplit]
        calc
          (s ++ y :: r :: t).Perm (s ++ r :: y :: t) := (List.Perm.swap r y t).append_left s
          _ |>.Perm (r :: (s ++ y :: t)) := List.perm_middle
      have hlinked := h.linked
      have hdesc := h.descending
      rw [hsplit] at hlinked hdesc hr
      refine ⟨{ k with
          next := Function.update (Function.update k.next r (k.next y)) y (some r) },
        s ++ y :: r :: t, ?_, ⟨hlinked.insertAfter hr, ?_, ?_⟩, hperm⟩
      · rw [Kmem.insertFreelist, hsome]
        simp only [if_neg hx, heq]
        rfl
      · obtain ⟨hs, hyt, hcross⟩ := List.pairwise_append.mp hdesc
        obtain ⟨hy, ht⟩ := List.pairwise_cons.mp hyt
        refine List.pairwise_append.mpr ⟨hs, ?_, ?_⟩
        · refine List.pairwise_cons.mpr ⟨?_, List.pairwise_cons.mpr ⟨hlt, ht⟩⟩
          intro z hz
          rcases List.mem_cons.mp hz with rfl | hz
          · exact hgt y (by simp)
          · exact hy z hz
        · intro a ha z hz
          rcases List.mem_cons.mp hz with rfl | hz
          · exact hcross a ha z List.mem_cons_self
          · rcases List.mem_cons.mp hz with rfl | hz
            · exact hgt a (by simp [ha])
            · exact hcross a ha z (List.mem_cons_of_mem y hz)
      · intro va hva
        exact hframes va (hperm.subset hva)

/-! ## Taking a page out -/

end FreeList

/-- The loop of `select_page`: the first page from `r` on that is safe, with the page before it. -/
def findSafe (next : ℕ → Option ℕ) (safe : ℕ → Bool) :
    ℕ → Option ℕ → Option ℕ → Option (Option ℕ × ℕ)
  | 0, _, _ => none
  | _ + 1, _, none => none
  | fuel + 1, prev, some r =>
    if safe r then some (prev, r) else findSafe next safe fuel (some r) (next r)

/-- The end of `select_page`: page `r`, which comes after `prev` if there is one, is unlinked. -/
def Kmem.unlink (k : Kmem) : Option ℕ × ℕ → Kmem
  | (none, r) => { k with freelist := k.next r }
  | (some prev, r) => { k with next := Function.update k.next prev (k.next r) }

namespace FreeList

variable {k : Kmem} {l s t : List ℕ} {r : ℕ}

/-- The search finds the first safe page of the list. -/
theorem findSafe_eq {next : ℕ → Option ℕ} (safe : ℕ → Bool) {p : Option ℕ} (prev : Option ℕ)
    {fuel : ℕ} (h : Linked next p l) (hfuel : l.length < fuel) :
    (findSafe next safe fuel prev p = none ∧ ∀ r ∈ l, safe r = false) ∨
    ∃ s r t, findSafe next safe fuel prev p = some (s.getLast?.or prev, r) ∧ l = s ++ r :: t ∧
      safe r = true ∧ ∀ z ∈ s, safe z = false := by
  induction l generalizing p prev fuel with
  | nil =>
    obtain ⟨fuel, rfl⟩ := Nat.exists_eq_succ_of_ne_zero (Nat.ne_zero_of_lt hfuel)
    have hp : p = none := h
    exact .inl ⟨by simp [findSafe, hp], by simp⟩
  | cons a l ih =>
    obtain ⟨fuel, rfl⟩ := Nat.exists_eq_succ_of_ne_zero (Nat.ne_zero_of_lt hfuel)
    obtain ⟨rfl, hnext⟩ := h
    cases hsafe : safe a with
    | true => exact .inr ⟨[], a, l, by simp [findSafe, hsafe], rfl, hsafe, by simp⟩
    | false =>
      have hstep : findSafe next safe (fuel + 1) prev (some a) =
          findSafe next safe fuel (some a) (next a) := by simp [findSafe, hsafe]
      have htail := ih (some a) hnext (Nat.lt_of_succ_lt_succ hfuel)
      rw [hstep]
      rcases htail with ⟨hnone, hall⟩ | ⟨s, r, t, hsome, hsplit, hr, hs⟩
      · refine .inl ⟨hnone, ?_⟩
        intro z hz
        rcases List.mem_cons.mp hz with rfl | hz
        · exact hsafe
        · exact hall z hz
      · refine .inr ⟨a :: s, r, t, ?_, by rw [hsplit]; rfl, hr, ?_⟩
        · rw [hsome, List.getLast?_cons]
          cases s.getLast? <;> rfl
        · intro z hz
          rcases List.mem_cons.mp hz with rfl | hz
          · exact hsafe
          · exact hs z hz

/-- Unlinking a page leaves the others in their order. -/
theorem unlink (h : FreeList k (s ++ r :: t)) :
    FreeList (k.unlink (s.getLast?, r)) (s ++ t) := by
  have hsub : (s ++ t).Sublist (s ++ r :: t) := (List.sublist_cons_self r t).append_left s
  refine ⟨?_, h.descending.sublist hsub, fun va hva ↦ h.frames va (hsub.subset hva)⟩
  rcases List.eq_nil_or_concat s with rfl | ⟨u, x, rfl⟩
  · exact h.linked.2
  · have hlinked := h.linked
    rw [List.concat_eq_append, List.append_assoc] at hlinked
    rw [List.concat_eq_append, List.getLast?_concat, List.append_assoc]
    exact hlinked.removeAfter

end FreeList

end CS537.Kalloc
