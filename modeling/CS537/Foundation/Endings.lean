import CS537.Foundation.Triples
import CS537.Foundation.Machine

/-!
# Programs and how they end

`Ends m s Q E` says that `m`, run from `s`, returns with what `Q` says or fails with an error of `E`.
`Leads` says which states it leads to, and `Matches` that it does what one on another level does.  A set of programs on one state is a
machine whose labels are the calls with what they return, and the runs of such machines agree when their
programs match.
-/

namespace CS537.Foundation

variable {σ ε α β : Type} {m : Program σ ε α} {f : α → Program σ ε β} {s t : σ} {a : α} {e : ε}
  {Q T : α → σ → Prop} {R : β → σ → Prop} {E E' : ε → Prop}

/-- From `s` the program returns what `Q` says or fails with an error of `E`. -/
def Ends (m : Program σ ε α) (s : σ) (Q : α → σ → Prop) (E : ε → Prop) : Prop :=
  (∀ a t, m s = .ok (a, t) → Q a t) ∧ ∀ e, m s = .error e → E e

theorem error_of_bind_pure {g : α → β} (h : (m >>= fun a ↦ pure (g a)) s = .error e) : m s = .error e := by
  cases hrun : m s with
  | error e' =>
    rw [bind_of_error hrun] at h
    rw [Except.error.inj h]
  | ok r =>
    have hok : (m >>= fun a ↦ pure (g a)) s = .ok (g r.1, r.2) := bind_of_ok hrun
    rw [hok] at h
    cases h

namespace Ends

theorem of_ok (h : m s = .ok (a, t)) (hQ : Q a t) : Ends m s Q E := by
  constructor
  · intro b u hrun
    obtain ⟨rfl, rfl⟩ := Prod.mk.inj (Except.ok.inj (h.symm.trans hrun))
    exact hQ
  · intro e hrun
    rw [h] at hrun
    cases hrun

theorem of_error (h : m s = .error e) (hE : E e) : Ends m s Q E := by
  constructor
  · intro b u hrun
    rw [h] at hrun
    cases hrun
  · intro e' hrun
    obtain rfl := Except.error.inj (h.symm.trans hrun)
    exact hE

theorem pure (hQ : Q a s) : Ends (Pure.pure a : Program σ ε α) s Q E := of_ok rfl hQ

theorem throw (hE : E e) : Ends (MonadExcept.throw e : Program σ ε α) s Q E := of_error rfl hE

theorem weaken (h : Ends m s Q E) (hQ : ∀ a t, Q a t → T a t) (hE : ∀ e, E e → E' e) : Ends m s T E' :=
  ⟨fun a t hrun ↦ hQ a t (h.1 a t hrun), fun e hrun ↦ hE e (h.2 e hrun)⟩

theorem imp (h : Ends m s Q E) (hQ : ∀ a t, Q a t → T a t) : Ends m s T E := h.weaken hQ fun _ ↦ id

theorem bind (hm : Ends m s Q E) (hf : ∀ a t, Q a t → Ends (f a) t R E) : Ends (m >>= f) s R E := by
  cases hrun : m s with
  | error e => exact of_error (bind_of_error hrun) (hm.2 e hrun)
  | ok r =>
    have hnext := hf r.1 r.2 (hm.1 r.1 r.2 hrun)
    have hbind : (m >>= f) s = f r.1 r.2 := bind_of_ok hrun
    exact ⟨fun b u hb ↦ hnext.1 b u (hbind.symm.trans hb), fun e he ↦ hnext.2 e (hbind.symm.trans he)⟩

/-- A program that does not fail returns. -/
theorem returns (h : Ends m s Q fun _ ↦ False) : ∃ a t, m s = .ok (a, t) ∧ Q a t := by
  cases hrun : m s with
  | error e => exact (h.2 e hrun).elim
  | ok r => exact ⟨r.1, r.2, rfl, h.1 r.1 r.2 hrun⟩

/-- What comes first returns. -/
theorem after (h : m s = .ok (a, t)) (hf : Ends (f a) t R E) : Ends (m >>= f) s R E :=
  (of_ok (Q := fun b u ↦ b = a ∧ u = t) h ⟨rfl, rfl⟩).bind fun _ _ ⟨hb, hu⟩ ↦ hb ▸ hu ▸ hf

/-- A loop over a list keeps an invariant that speaks of the elements to come. -/
theorem forM {γ : Type} {g : γ → Program σ ε Unit} {I : List γ → σ → Prop}
    (hg : ∀ x xs s, I (x :: xs) s → Ends (g x) s (fun _ t ↦ I xs t) E) (xs : List γ) {s : σ}
    (hs : I xs s) : Ends (xs.forM g) s (fun _ t ↦ I [] t) E := by
  induction xs generalizing s with
  | nil => exact pure hs
  | cons x xs ih => exact (hg x xs s hs).bind fun _ t ht ↦ ih ht

end Ends

/-! ## Where a program leads -/

/-- The program returns in states to which `R` leads. -/
def Leads (R : σ → σ → Prop) (m : Program σ ε α) : Prop := ∀ s a t, m s = .ok (a, t) → R s t

namespace Leads

variable {R : σ → σ → Prop}

theorem throw (e : ε) : Leads R (MonadExcept.throw e : Program σ ε α) := by
  intro s a t hrun
  cases hrun

variable [IsPreorder σ R]

theorem pure (a : α) : Leads R (Pure.pure a : Program σ ε α) := by
  intro s b t hrun
  obtain ⟨-, rfl⟩ := Prod.mk.inj (Except.ok.inj hrun)
  exact Std.Refl.refl s

theorem bind (hm : Leads R m) (hf : ∀ a, Leads R (f a)) : Leads R (m >>= f) := by
  intro s b u hrun
  obtain ⟨a, t, hfirst, hrest⟩ := exists_of_bind_ok hrun
  exact IsTrans.trans s t u (hm s a t hfirst) (hf a t b u hrest)

theorem forM {γ : Type} {g : γ → Program σ ε Unit} (hg : ∀ x, Leads R (g x)) (xs : List γ) :
    Leads R (xs.forM g) := by
  induction xs with
  | nil => exact pure ()
  | cons x xs ih => exact (hg x).bind fun _ ↦ ih

/-- The program looks at the state. -/
theorem look (g : σ → α) : Leads R (fun s ↦ .ok (g s, s) : Program σ ε α) := by
  intro s a t hrun
  obtain ⟨-, rfl⟩ := Prod.mk.inj (Except.ok.inj hrun)
  exact Std.Refl.refl s

omit [IsPreorder σ R] in
theorem change {g : σ → σ} (h : ∀ s, R s (g s)) : Leads R (modify g : Program σ ε Unit) := by
  intro s a t hrun
  obtain ⟨-, rfl⟩ := Prod.mk.inj (Except.ok.inj hrun)
  exact h s

end Leads

/-! ## Programs on two levels -/

section Matches

variable {τ δ : Type} {m : Program σ ε α} {n : Program τ δ α} {f : α → Program σ ε β}
  {g : α → Program τ δ β} {R : σ → τ → Prop} {E : ε → Prop} {fault : ε → δ} {s : σ} {u v : τ}

/-- `m` does what `n` does, in states that are related, or it fails with an error of `E`. -/
def Matches (R : σ → τ → Prop) (E : ε → Prop) (fault : ε → δ) (m : Program σ ε α) (n : Program τ δ α)
    (s : σ) (u : τ) : Prop :=
  Ends m s (fun a t ↦ ∃ v, n u = .ok (a, v) ∧ R t v) fun e ↦ E e ∨ n u = .error (fault e)

theorem Matches.of_ok {t : σ} (hm : m s = .ok (a, t)) (hn : n u = .ok (a, v)) (hR : R t v) :
    Matches R E fault m n s u := Ends.of_ok hm ⟨v, hn, hR⟩

theorem Matches.of_error {e : ε} (hm : m s = .error e) (hn : n u = .error (fault e)) :
    Matches R E fault m n s u := Ends.of_error hm (.inr hn)

theorem Matches.pure (hR : R s u) (a : α) : Matches R E fault (Pure.pure a) (Pure.pure a) s u :=
  .of_ok rfl rfl hR

theorem Matches.mono {E' : ε → Prop} (h : Matches R E fault m n s u) (hE : ∀ e, E e → E' e) :
    Matches R E' fault m n s u := h.weaken (fun _ _ ↦ id) fun e he ↦ he.imp_left (hE e)

theorem Matches.bind (hm : Matches R E fault m n s u)
    (hf : ∀ a t v, R t v → Matches R E fault (f a) (g a) t v) :
    Matches R E fault (m >>= f) (n >>= g) s u := by
  refine Ends.bind (Q := fun a t ↦ ∃ v, n u = .ok (a, v) ∧ R t v) (hm.weaken (fun _ _ ↦ id) ?_) ?_
  · exact fun e he ↦ he.imp_right bind_of_error
  · intro a t ⟨v, hn, hR⟩
    rw [bind_of_ok hn]
    exact hf a t v hR

end Matches

/-! ## Machines of programs -/

section Calls

variable {ι τ δ : Type} [DecidableEq α]

/-- The state after a run that has returned `a`. -/
def stateAfter (a : α) : Except ε (α × σ) → Option σ
  | .ok (b, t) => if b = a then some t else none
  | .error _ => none

theorem stateAfter_eq_some {r : Except ε (α × σ)} : stateAfter a r = some t ↔ r = .ok (a, t) := by
  cases r with
  | error e => exact iff_of_false (fun h ↦ (by cases h)) fun h ↦ (by cases h)
  | ok r =>
    obtain ⟨b, u⟩ := r
    by_cases hb : b = a
    · rw [stateAfter, if_pos hb, hb, Option.some.injEq, Except.ok.injEq, Prod.mk.injEq, eq_self, true_and]
    · rw [stateAfter, if_neg hb]
      exact iff_of_false (fun h ↦ (by cases h)) fun h ↦ hb (Prod.mk.inj (Except.ok.inj h)).1

/-- The machine whose steps are calls that return. -/
def callMachine (init : σ → Prop) (allowed : σ → ι → Prop) [∀ s l, Decidable (allowed s l)]
    (call : ι → Program σ ε α) : Machine σ (ι × α) where
  init := init
  step s l := if allowed s l.1 then stateAfter l.2 (call l.1 s) else none

variable {init : σ → Prop} {allowed : σ → ι → Prop} [∀ s l, Decidable (allowed s l)]
  {call : ι → Program σ ε α} {l : ι}

theorem callMachine_step_iff : (callMachine init allowed call).step s (l, a) = some t ↔
    allowed s l ∧ call l s = .ok (a, t) := by
  change (if allowed s l then stateAfter a (call l s) else none) = some t ↔ _
  by_cases hallowed : allowed s l
  · rw [if_pos hallowed, stateAfter_eq_some, and_iff_right hallowed]
  · rw [if_neg hallowed]
    exact iff_of_false (fun h ↦ (by cases h)) fun h ↦ hallowed h.1

variable {init' : τ → Prop} {allowed' : τ → ι → Prop} [∀ s l, Decidable (allowed' s l)]
  {call' : ι → Program τ δ α}

/-- Where each call does what the call of the same label does, the runs agree. -/
theorem callMachine_simulation {R : σ → τ → Prop} {E : ι → ε → Prop} {fault : ε → δ}
    (hallowed : ∀ s u l, R s u → allowed s l → allowed' u l)
    (hcall : ∀ s u l, R s u → allowed s l → Matches R (E l) fault (call l) (call' l) s u)
    {u : τ} {ls : List (ι × α)} (hR : R s u) (hrun : (callMachine init allowed call).run s ls = some t) :
    ∃ v, (callMachine init' allowed' call').run u ls = some v ∧ R t v := by
  refine Machine.run_simulation (fun s u l t hR hstep ↦ ?_) hR hrun
  obtain ⟨hl, hok⟩ := callMachine_step_iff.mp hstep
  obtain ⟨v, hv, hR'⟩ := (hcall s u l.1 hR hl).1 l.2 t hok
  exact ⟨v, callMachine_step_iff.mpr ⟨hallowed s u l.1 hR hl, hv⟩, hR'⟩

end Calls

end CS537.Foundation
