import Mathlib.Data.List.Basic
import Mathlib.Logic.Function.Basic
import Mathlib.Data.List.Nodup

/-!
# Redo logs

A store maps addresses to contents.  A list of writes is replayed on it from the first write to the
last one.  Replaying covers what the store held at the addresses written, so a log may be replayed
again after a part of it has been.
-/

namespace CS537.Foundation

variable {β α : Type*} [DecidableEq β]

/-- The store after the writes, of which the first one comes first. -/
def replay : List (β × α) → (β → α) → β → α
  | [], d => d
  | w :: ws, d => replay ws (Function.update d w.1 w.2)

variable {ws vs : List (β × α)} {d d' : β → α} {b : β} {a : α}

@[simp]
theorem replay_nil (d : β → α) : replay [] d = d := rfl

theorem replay_append (ws vs : List (β × α)) (d : β → α) :
    replay (ws ++ vs) d = replay vs (replay ws d) := by
  induction ws generalizing d with
  | nil => rfl
  | cons w ws ih => exact ih (Function.update d w.1 w.2)

/-- A write at the end. -/
theorem replay_concat (ws : List (β × α)) (b : β) (a : α) (d : β → α) :
    replay (ws ++ [(b, a)]) d = Function.update (replay ws d) b a := by
  rw [replay_append]
  rfl

theorem replay_of_notMem (h : b ∉ ws.map Prod.fst) (d : β → α) : replay ws d b = d b := by
  induction ws generalizing d with
  | nil => rfl
  | cons w ws ih =>
    rw [List.map_cons, List.mem_cons, not_or] at h
    rw [replay, ih h.2, Function.update_of_ne h.1]

/-- What is written does not depend on what was there before. -/
theorem replay_congr (h : b ∈ ws.map Prod.fst ∨ d b = d' b) : replay ws d b = replay ws d' b := by
  induction ws generalizing d d' with
  | nil =>
    rcases h with h | h
    · simp at h
    · exact h
  | cons w ws ih =>
    refine ih ?_
    by_cases hb : b = w.1
    · subst hb
      exact Or.inr (by rw [Function.update_self, Function.update_self])
    · rw [List.map_cons, List.mem_cons, or_iff_right hb] at h
      rwa [Function.update_of_ne hb, Function.update_of_ne hb]

/-- Writes at addresses that the log covers are lost when it is replayed. -/
theorem replay_update_of_mem (hb : b ∈ ws.map Prod.fst) (a : α) (d : β → α) :
    replay ws (Function.update d b a) = replay ws d := by
  funext c
  refine replay_congr ?_
  by_cases hc : c = b
  · exact Or.inl (hc ▸ hb)
  · exact Or.inr (Function.update_of_ne hc a d)

/-- A store that holds what the log writes already. -/
theorem replay_eq_self (h : ∀ w ∈ ws, d w.1 = w.2) : replay ws d = d := by
  induction ws with
  | nil => rfl
  | cons w ws ih =>
    have hsame : Function.update d w.1 w.2 = d := by
      rw [← h w List.mem_cons_self, Function.update_eq_self]
    rw [replay, hsame]
    exact ih fun v hv ↦ h v (List.mem_cons_of_mem w hv)

/-- The content that is written to an address of a log without repetitions. -/
theorem replay_of_mem (hws : (ws.map Prod.fst).Nodup) (h : (b, a) ∈ ws) (d : β → α) :
    replay ws d b = a := by
  induction ws generalizing d with
  | nil => simp at h
  | cons w ws ih =>
    rw [List.map_cons, List.nodup_cons] at hws
    rcases List.mem_cons.mp h with rfl | h
    · rw [replay, replay_of_notMem hws.1, Function.update_self]
    · exact ih hws.2 h _

/-- Writes of one store over another. -/
theorem replay_map (l : List β) (f d : β → α) :
    replay (l.map fun b ↦ (b, f b)) d b = if b ∈ l then f b else d b := by
  induction l generalizing d with
  | nil => exact (if_neg List.not_mem_nil).symm
  | cons c l ih =>
    rw [List.map_cons, replay, ih]
    by_cases hb : b ∈ l
    · rw [if_pos hb, if_pos (List.mem_cons_of_mem c hb)]
    · rw [if_neg hb]
      by_cases hc : b = c
      · rw [hc, Function.update_self, if_pos List.mem_cons_self]
      · rw [Function.update_of_ne hc, if_neg (List.not_mem_cons_of_ne_of_not_mem hc hb)]

end CS537.Foundation
