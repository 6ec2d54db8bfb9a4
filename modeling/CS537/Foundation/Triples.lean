import Mathlib.Order.Basic
import Mathlib.Control.Basic

/-!
# Triples

A program has a state and may fail.  `Returns P m a Q` says that from every state of `P` the
program `m` returns `a` in a state of `Q`, `Fails P m E` that from every state of `P` it fails with
an error of `E`, and `Ensures P m Q` what holds whenever it returns from a state of `P`.  A program
that is run with a bound on its recursion gives up with an error of its own when the bound is too
small; `Below e m n` says that `n` does what `m` does where `m` does not give up with `e`.
-/

namespace CS537.Foundation

/-- Programs with states `σ` that may fail with errors `ε`. -/
abbrev Program (σ ε α : Type) := StateT σ (Except ε) α

variable {σ ε α β : Type} {m n : Program σ ε α} {f g : α → Program σ ε β} {P Q R : σ → Prop}
  {E E' : ε → Prop} {a : α} {b : β} {s t : σ} {e : ε}

theorem bind_of_ok (h : m s = .ok (a, t)) : (m >>= f) s = f a t := by
  change Except.bind (m s) _ = _
  rw [h]
  rfl

theorem pure_ne_error {a : α} : (pure a : Program σ ε α) s ≠ .error e := nofun

theorem bind_of_error (h : m s = .error e) : (m >>= f) s = .error e := by
  change Except.bind (m s) _ = _
  rw [h]
  rfl

/-- From `P` the program returns `a` and leaves `Q`. -/
def Returns (P : σ → Prop) (m : Program σ ε α) (a : α) (Q : σ → Prop) : Prop :=
  ∀ s, P s → ∃ t, m s = .ok (a, t) ∧ Q t

/-- From `P` the program fails with an error of `E`. -/
def Fails (P : σ → Prop) (m : Program σ ε α) (E : ε → Prop) : Prop :=
  ∀ s, P s → ∃ e, m s = .error e ∧ E e

theorem Returns.pure (a : α) : Returns P (pure a : Program σ ε α) a P :=
  fun s hs ↦ ⟨s, rfl, hs⟩

theorem Returns.bind (hm : Returns P m a Q) (hf : Returns Q (f a) b R) :
    Returns P (m >>= f) b R := by
  intro s hs
  obtain ⟨t, hrun, ht⟩ := hm s hs
  obtain ⟨u, hrun', hu⟩ := hf t ht
  exact ⟨u, (bind_of_ok hrun).trans hrun', hu⟩

theorem Returns.bind_fails (hm : Returns P m a Q) (hf : Fails Q (f a) E) :
    Fails P (m >>= f) E := by
  intro s hs
  obtain ⟨t, hrun, ht⟩ := hm s hs
  obtain ⟨e, hrun', he⟩ := hf t ht
  exact ⟨e, (bind_of_ok hrun).trans hrun', he⟩

theorem Fails.bind (hm : Fails P m E) : Fails P (m >>= f) E := by
  intro s hs
  obtain ⟨e, hrun, he⟩ := hm s hs
  exact ⟨e, bind_of_error hrun, he⟩

theorem Returns.weaken (hm : Returns P m a Q) (hQ : ∀ s, Q s → R s) : Returns P m a R := by
  intro s hs
  obtain ⟨t, hrun, ht⟩ := hm s hs
  exact ⟨t, hrun, hQ t ht⟩

theorem Returns.strengthen (hm : Returns P m a Q) (hP : ∀ s, R s → P s) : Returns R m a Q :=
  fun s hs ↦ hm s (hP s hs)

theorem Fails.strengthen (hm : Fails P m E) (hP : ∀ s, R s → P s) : Fails R m E :=
  fun s hs ↦ hm s (hP s hs)

/-- Programs are deterministic. -/
theorem Fails.ne_ok (hm : Fails P m E) (hs : P s) : m s ≠ .ok (a, t) := by
  obtain ⟨e, hrun, -⟩ := hm s hs
  simp [hrun]

/-! ## Partial correctness -/

/-- Whenever the program returns from `P`, it does so with what `Q` says. -/
def Ensures (P : σ → Prop) (m : Program σ ε α) (Q : α → σ → Prop) : Prop :=
  ∀ s a t, P s → m s = .ok (a, t) → Q a t

section Ensures

variable {S T : α → σ → Prop} {U : β → σ → Prop}

theorem Ensures.pure (h : ∀ s, P s → S a s) : Ensures P (Pure.pure a : Program σ ε α) S := by
  intro s b t hs hrun
  obtain ⟨rfl, rfl⟩ := Prod.mk.inj (Except.ok.inj hrun)
  exact h s hs

theorem Ensures.throw (e : ε) : Ensures P (throw e : Program σ ε α) S :=
  fun _ _ _ _ hrun ↦ nomatch hrun

theorem exists_of_bind_ok (h : (m >>= f) s = .ok (b, t)) :
    ∃ a u, m s = .ok (a, u) ∧ f a u = .ok (b, t) := by
  cases hrun : m s with
  | error e => simp [bind_of_error hrun] at h
  | ok r => exact ⟨r.1, r.2, rfl, (bind_of_ok hrun).symm.trans h⟩

theorem Ensures.bind (hm : Ensures P m S) (hf : ∀ a, Ensures (S a) (f a) U) :
    Ensures P (m >>= f) U := by
  intro s b t hs hrun
  obtain ⟨a, u, hfirst, hrest⟩ := exists_of_bind_ok hrun
  exact hf a u b t (hm s a u hs hfirst) hrest

theorem Ensures.weaken (hm : Ensures P m S) (hS : ∀ a s, S a s → T a s) : Ensures P m T :=
  fun s a t hs hrun ↦ hS a t (hm s a t hs hrun)

/-- A fact that the precondition carries. -/
theorem Ensures.of_fact {p : Prop} (h : p → Ensures P m S) : Ensures (fun s ↦ p ∧ P s) m S :=
  fun s a t hs hrun ↦ h hs.1 s a t hs.2 hrun

end Ensures

/-! ## What is left alone -/

/-- The program leaves `f` of the state as it is. -/
def Keeps {γ : Type} (f : σ → γ) (m : Program σ ε α) : Prop :=
  ∀ s a t, m s = .ok (a, t) → f t = f s

/-- What is left alone may be added to a triple. -/
theorem Returns.keep {γ : Type} {f : σ → γ} (hm : Returns P m a Q) (hk : Keeps f m) (x : γ) :
    Returns (fun s ↦ P s ∧ f s = x) m a fun s ↦ Q s ∧ f s = x := by
  rintro s ⟨hs, hx⟩
  obtain ⟨t, hrun, ht⟩ := hm s hs
  exact ⟨t, hrun, ht, (hk s a t hrun).trans hx⟩

/-! ## Bounds on the recursion -/

/-- Where `m` does not give up with `e`, `n` does the same. -/
def Below (e : ε) (m n : Program σ ε α) : Prop := ∀ s, m s ≠ .error e → n s = m s

theorem Below.refl (e : ε) (m : Program σ ε α) : Below e m m := fun _ _ ↦ rfl

theorem Below.trans {k : Program σ ε α} (h : Below e m n) (h' : Below e n k) : Below e m k := by
  intro s hs
  have hn : n s = m s := h s hs
  rw [← hn] at hs ⊢
  exact h' s hs

theorem Below.of_giveUp (h : ∀ s, m s = .error e) : Below e m n := fun s hs ↦ absurd (h s) hs

theorem Below.bind (hm : Below e m n) (hf : ∀ a, Below e (f a) (g a)) :
    Below e (m >>= f) (n >>= g) := by
  intro s hs
  cases hrun : m s with
  | error e' =>
    have hne : e' ≠ e := by
      rintro rfl
      exact hs (bind_of_error hrun)
    have hn : n s = .error e' := by
      rw [← hrun]
      exact hm s (by simpa [hrun] using hne)
    rw [bind_of_error hn, bind_of_error hrun]
  | ok r =>
    obtain ⟨a, t⟩ := r
    have hn : n s = .ok (a, t) := by
      rw [← hrun]
      exact hm s (by simp [hrun])
    rw [bind_of_ok hrun] at hs ⊢
    rw [bind_of_ok hn]
    exact hf a t hs

theorem Returns.below (hm : Returns P m a Q) (h : Below e m n) : Returns P n a Q := by
  intro s hs
  obtain ⟨t, hrun, ht⟩ := hm s hs
  refine ⟨t, ?_, ht⟩
  rw [← hrun]
  exact h s (by simp [hrun])

theorem Fails.below (hm : Fails P m (· ≠ e)) (h : Below e m n) : Fails P n (· ≠ e) := by
  intro s hs
  obtain ⟨e', hrun, he⟩ := hm s hs
  refine ⟨e', ?_, he⟩
  rw [← hrun]
  exact h s (by simpa [hrun] using he)

end CS537.Foundation
