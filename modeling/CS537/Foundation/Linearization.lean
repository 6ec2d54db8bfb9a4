import CS537.Foundation.Machine
import Mathlib.Data.List.Nodup

/-!
# Sequential orders of interleaved calls

In one machine a label stands for the next step of a call, in the other for the whole call at once.
If each step of the first either changes nothing that the second sees or is the point at which its
call takes effect there, then every run of the first amounts to a run of the second that executes
the calls in the order of these points.
-/

namespace CS537.Foundation

namespace Machine

variable {σ τ ι : Type*} {M : Machine σ ι} {N : Machine τ ι}

/-- The calls with this label have taken effect in the states related. -/
structure TakesEffect (M : Machine σ ι) (N : Machine τ ι) (Rel : σ → τ → Prop)
    (done : σ → ι → Prop) (s : σ) (q : τ) (l : ι) (s' : σ) : Prop where
  new : ¬done s l
  done_iff : ∀ i, done s' i ↔ done s i ∨ i = l
  step : ∃ q', N.step q l = some q' ∧ Rel s' q'

/-- Every state reached is related to one that the calls which have taken effect lead to, executed
one after another. -/
theorem ReachableVia.exists_order {ok : σ → ι → Prop} {Rel : σ → τ → Prop} {done : σ → ι → Prop}
    {q₀ : τ} {s : σ} (hs : M.ReachableVia ok s)
    (hstep : ∀ s q l s', Rel s q → ok s l → M.step s l = some s' →
      (Rel s' q ∧ ∀ i, done s' i ↔ done s i) ∨ TakesEffect M N Rel done s q l s')
    (hinit : ∀ s, M.init s → Rel s q₀ ∧ ∀ i, ¬done s i) :
    ∃ order q, N.run q₀ order = some q ∧ Rel s q ∧ order.Nodup ∧ ∀ i, i ∈ order ↔ done s i := by
  induction hs with
  | init hi =>
    obtain ⟨hrel, hnone⟩ := hinit _ hi
    exact ⟨[], q₀, rfl, hrel, List.nodup_nil, fun i ↦ by simp [hnone i]⟩
  | @step s s' l _ hok hs ih =>
    obtain ⟨order, q, hrun, hrel, hnodup, hmem⟩ := ih
    rcases hstep s q l s' hrel hok hs with ⟨hrel', hdone⟩ | heffect
    · exact ⟨order, q, hrun, hrel', hnodup, fun i ↦ (hmem i).trans (hdone i).symm⟩
    · obtain ⟨q', hq', hrel'⟩ := heffect.step
      have hl : l ∉ order := fun hl ↦ heffect.new ((hmem l).mp hl)
      have hrun' : N.run q₀ (order ++ [l]) = some q' := by
        rw [run_append, hrun]
        simp [hq']
      refine ⟨order ++ [l], q', hrun', hrel', ?_, fun i ↦ ?_⟩
      · exact hnodup.append (List.nodup_singleton l) (List.disjoint_singleton.mpr hl)
      · rw [List.mem_append, List.mem_singleton, hmem i, heffect.done_iff i]

end Machine

end CS537.Foundation
