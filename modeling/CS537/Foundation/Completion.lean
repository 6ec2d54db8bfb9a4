import CS537.Foundation.Triples

/-!
# Programs that complete under a condition

`Completes m s c Q` says that `m` returns from `s` if and only if `c` holds, and then with what `Q`
says.  A loop completes if and only if its condition holds of the whole list, where the condition
passes from a list to each of its prefixes.
-/

namespace CS537.Foundation

variable {σ ε α β : Type} {m : Program σ ε α} {f : α → Program σ ε β} {s t : σ} {a : α}
  {c d : Prop} {Q T : α → σ → Prop} {R : β → σ → Prop}

structure Completes (m : Program σ ε α) (s : σ) (c : Prop) (Q : α → σ → Prop) : Prop where
  returns : c → ∃ a t, m s = .ok (a, t) ∧ Q a t
  fails : ¬c → ∃ e, m s = .error e

namespace Completes

theorem of_ok (h : m s = .ok (a, t)) (hQ : Q a t) : Completes m s True Q :=
  ⟨fun _ ↦ ⟨a, t, h, hQ⟩, fun hn ↦ absurd trivial hn⟩

theorem pure (hQ : Q a s) : Completes (Pure.pure a : Program σ ε α) s True Q := of_ok rfl hQ

theorem congr (hm : Completes m s c Q) (h : d ↔ c) : Completes m s d Q := by
  rwa [h]

theorem weaken (hm : Completes m s c Q) (h : c → ∀ a t, Q a t → T a t) : Completes m s c T where
  returns hc := by
    obtain ⟨a, t, hrun, hQ⟩ := hm.returns hc
    exact ⟨a, t, hrun, h hc a t hQ⟩
  fails := hm.fails

theorem bind (hm : Completes m s c Q) (hf : c → ∀ a t, Q a t → Completes (f a) t d R) :
    Completes (m >>= f) s (c ∧ d) R where
  returns h := by
    obtain ⟨a, t, hrun, hQ⟩ := hm.returns h.1
    obtain ⟨b, u, hrun', hR⟩ := (hf h.1 a t hQ).returns h.2
    exact ⟨b, u, (bind_of_ok hrun).trans hrun', hR⟩
  fails h := by
    by_cases hc : c
    · obtain ⟨a, t, hrun, hQ⟩ := hm.returns hc
      obtain ⟨e, hrun'⟩ := (hf hc a t hQ).fails fun hd ↦ h ⟨hc, hd⟩
      exact ⟨e, (bind_of_ok hrun).trans hrun'⟩
    · obtain ⟨e, hrun⟩ := hm.fails hc
      exact ⟨e, bind_of_error hrun⟩

/-- What follows does not fail. -/
theorem andThen (hm : Completes m s c Q)
    (hf : c → ∀ a t, Q a t → ∃ b u, f a t = .ok (b, u) ∧ R b u) : Completes (m >>= f) s c R where
  returns hc := by
    obtain ⟨a, t, hrun, hQ⟩ := hm.returns hc
    obtain ⟨b, u, hrun', hR⟩ := hf hc a t hQ
    exact ⟨b, u, (bind_of_ok hrun).trans hrun', hR⟩
  fails hc := by
    obtain ⟨e, hrun⟩ := hm.fails hc
    exact ⟨e, bind_of_error hrun⟩

/-- What comes first does not fail. -/
theorem after (h : m s = .ok (a, t)) (hf : Completes (f a) t c R) : Completes (m >>= f) s c R where
  returns hc := by
    obtain ⟨b, u, hrun, hR⟩ := hf.returns hc
    exact ⟨b, u, (bind_of_ok h).trans hrun, hR⟩
  fails hc := by
    obtain ⟨e, hrun⟩ := hf.fails hc
    exact ⟨e, (bind_of_ok h).trans hrun⟩

/-- A run that returns. -/
theorem of_run (hm : Completes m s c Q) (h : m s = .ok (a, t)) : c ∧ Q a t := by
  by_cases hc : c
  · obtain ⟨b, u, hrun, hQ⟩ := hm.returns hc
    obtain ⟨rfl, rfl⟩ := Prod.mk.inj (Except.ok.inj (hrun.symm.trans h))
    exact ⟨hc, hQ⟩
  · obtain ⟨e, hrun⟩ := hm.fails hc
    exact nomatch hrun.symm.trans h

theorem completes_iff (hm : Completes m s c Q) : (∃ a t, m s = .ok (a, t)) ↔ c := by
  constructor
  · rintro ⟨a, t, hrun⟩
    exact (hm.of_run hrun).1
  · intro hc
    obtain ⟨a, t, hrun, -⟩ := hm.returns hc
    exact ⟨a, t, hrun⟩

/-- `Inv done` holds when the elements of `done` have been worked on, and `cond done` is what has
been asked for. -/
theorem forM {body : α → Program σ ε Unit} {l : List α} (cond : List α → Prop)
    (Inv : List α → σ → Prop) (hclosed : ∀ done rest, cond (done ++ rest) → cond done)
    (hbody : ∀ done a rest, l = done ++ a :: rest → cond done → ∀ s, Inv done s →
      Completes (body a) s (cond (done ++ [a])) fun _ ↦ Inv (done ++ [a]))
    (hcond : cond []) (hs : Inv [] s) :
    Completes (l.forM body) s (cond l) fun _ ↦ Inv l := by
  have hrun : ∀ rest done, l = done ++ rest → cond done → ∀ s, Inv done s →
      Completes (rest.forM body) s (cond l) fun _ ↦ Inv l := by
    intro rest
    induction rest with
    | nil =>
      intro done hl hdone s hs
      rw [List.append_nil] at hl
      subst hl
      exact Completes.congr (.of_ok (a := ()) rfl hs) (iff_true_intro hdone)
    | cons a rest ih =>
      intro done hl hdone s hs
      have hsplit : l = (done ++ [a]) ++ rest := by rw [hl, List.append_assoc, List.singleton_append]
      have hfirst := hbody done a rest hl hdone s hs
      refine Completes.congr (hfirst.bind fun hnext _ t ht ↦ ih (done ++ [a]) hsplit hnext t ht) ?_
      exact (and_iff_right_of_imp fun h ↦ hclosed _ rest (hsplit ▸ h)).symm
  exact hrun l [] rfl hcond s hs

end Completes

end CS537.Foundation
