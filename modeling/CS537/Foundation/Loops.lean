import CS537.Foundation.Triples
import Mathlib.Data.List.Basic

/-!
# Loops over lists

`Acts m good a upd e` says that `m` returns `a` and changes the state by `upd` if `good` holds, and
fails with `e` otherwise, whatever the state is.  `Verdict m pass bad e` also leaves room for other
errors, with which `m` stops if neither `pass` nor `bad` holds.  `Tests m bad E` says that `m` fails
with an error of `E` in the states of `bad` and does nothing in the others.  All of them pass from the
body of a loop to the loop.
-/

namespace CS537.Foundation

variable {σ ε α β γ : Type} {m : Program σ ε α} {f : α → Program σ ε β} {good good' : Prop} {a : α}
  {b : β} {upd upd' : σ → σ} {e : ε} {s t : σ}

/-! ## Programs whose outcome does not depend on the state -/

structure Acts (m : Program σ ε α) (good : Prop) (a : α) (upd : σ → σ) (e : ε) : Prop where
  returns : good → ∀ s, m s = .ok (a, upd s)
  fails : ¬good → ∀ s, m s = .error e

namespace Acts

theorem pure (a : α) : Acts (pure a : Program σ ε α) True a id e where
  returns _ _ := rfl
  fails h := absurd trivial h

/-- A program that only tests a condition. -/
theorem require {c : Prop} [Decidable c] :
    Acts (if c then Pure.pure a else throw e : Program σ ε α) c a id e := by
  by_cases h : c
  · rw [if_pos h]
    exact ⟨fun _ _ ↦ rfl, fun hn ↦ absurd h hn⟩
  · rw [if_neg h]
    exact ⟨fun hc ↦ absurd hc h, fun _ _ ↦ rfl⟩

theorem modify (upd : σ → σ) : Acts (modify upd : Program σ ε Unit) True () upd e where
  returns _ _ := rfl
  fails h := absurd trivial h

theorem bind (hm : Acts m good a upd e) (hf : good → Acts (f a) good' b upd' e) :
    Acts (m >>= f) (good ∧ good') b (upd' ∘ upd) e where
  returns h s := (bind_of_ok (hm.returns h.1 s)).trans ((hf h.1).returns h.2 _)
  fails h s := by
    by_cases hgood : good
    · exact (bind_of_ok (hm.returns hgood s)).trans ((hf hgood).fails (fun h' ↦ h ⟨hgood, h'⟩) _)
    · exact bind_of_error (hm.fails hgood s)

/-- A run that returns. -/
theorem of_ok (hm : Acts m good a upd e) {c : α} (h : m s = .ok (c, t)) :
    good ∧ c = a ∧ t = upd s := by
  by_cases hgood : good
  · exact ⟨hgood, Prod.mk.inj (Except.ok.inj (h.symm.trans (hm.returns hgood s)))⟩
  · exact nomatch h.symm.trans (hm.fails hgood s)

theorem congr (hm : Acts m good a upd e) (h : good' ↔ good) (hupd : ∀ s, upd' s = upd s) :
    Acts m good' a upd' e where
  returns hgood s := by rw [hm.returns (h.mp hgood), hupd]
  fails hbad := hm.fails fun hgood ↦ hbad (h.mpr hgood)

/-- The first program leaves the state as it is. -/
theorem look (hm : Acts m good a id e) (hf : good → Acts (f a) good' b upd e) :
    Acts (m >>= f) (good ∧ good') b upd e :=
  hm.bind hf

/-- What follows does not fail. -/
theorem andThen (hm : Acts m good a upd e) (hf : Acts (f a) True b upd' e) :
    Acts (m >>= f) good b (upd' ∘ upd) e :=
  (hm.bind fun _ ↦ hf).congr (by simp) fun _ ↦ rfl

/-- A program that is run only under a condition. -/
theorem when {c : Prop} [Decidable c] {m : Program σ ε Unit} (hm : c → Acts m good () upd e) :
    Acts (if c then m else Pure.pure ()) (c → good) () (fun s ↦ if c then upd s else s) e := by
  by_cases h : c
  · simpa only [if_pos h, forall_prop_of_true h] using hm h
  · simp only [if_neg h]
    exact Acts.congr (.pure ()) (iff_true_intro fun h' ↦ absurd h' h) fun _ ↦ rfl

section Loops

variable {l : List α} {body : α → Program σ ε Unit} {step : β → α → Program σ ε β}
  {ok : α → Prop} {effect : α → σ → σ} {next : β → α → β}

theorem forM (h : ∀ a ∈ l, Acts (body a) (ok a) () (effect a) e) :
    Acts (l.forM body) (∀ a ∈ l, ok a) () (fun s ↦ l.foldl (fun s a ↦ effect a s) s) e := by
  induction l with
  | nil => exact (Acts.pure ()).congr (by simp) fun _ ↦ rfl
  | cons a l ih =>
    have hrest := ih fun b hb ↦ h b (List.mem_cons_of_mem a hb)
    exact ((h a List.mem_cons_self).bind fun _ ↦ hrest).congr List.forall_mem_cons fun _ ↦ rfl

theorem foldlM (h : ∀ a ∈ l, ∀ b, Acts (step b a) (ok a) (next b a) (effect a) e) (b : β) :
    Acts (l.foldlM step b) (∀ a ∈ l, ok a) (l.foldl next b)
      (fun s ↦ l.foldl (fun s a ↦ effect a s) s) e := by
  induction l generalizing b with
  | nil => exact (Acts.pure b).congr (by simp) fun _ ↦ rfl
  | cons a l ih =>
    have hrest := ih (fun c hc ↦ h c (List.mem_cons_of_mem a hc)) (next b a)
    rw [List.foldlM_cons]
    exact ((h a List.mem_cons_self b).bind fun _ ↦ hrest).congr List.forall_mem_cons fun _ ↦ rfl

end Loops

end Acts

/-! ## Programs that may stop early -/

structure Verdict (m : Program σ ε α) (pass bad : Prop) (e : ε) : Prop where
  returns : pass → ∀ s, ∃ a t, m s = .ok (a, t)
  fails : bad → ∀ s, m s = .error e
  stops : ¬pass → ¬bad → ∀ s, ∃ e', m s = .error e' ∧ e' ≠ e

namespace Verdict

variable {pass pass' bad bad' : Prop}

theorem ok_iff (hm : Verdict m pass bad e) (s : σ) : (∃ a t, m s = .ok (a, t)) ↔ pass := by
  refine ⟨fun ⟨a, t, h⟩ ↦ ?_, fun hpass ↦ hm.returns hpass s⟩
  by_contra hpass
  by_cases hbad : bad
  · exact nomatch h.symm.trans (hm.fails hbad s)
  · obtain ⟨e', hrun, -⟩ := hm.stops hpass hbad s
    exact nomatch h.symm.trans hrun

theorem congr (hm : Verdict m pass bad e) (hpass : pass' ↔ pass) (hbad : bad' ↔ bad) :
    Verdict m pass' bad' e := by
  rwa [hpass, hbad]

/-- A program without an error other than `e`. -/
theorem of_acts (hm : Acts m good a upd e) : Verdict m good (¬good) e where
  returns h s := ⟨a, _, hm.returns h s⟩
  fails h := hm.fails h
  stops h h' := absurd h h'

/-- What comes before can only fail with `e`. -/
theorem after (hm : Acts m good a upd e) (hf : good → Verdict (f a) pass bad e) :
    Verdict (m >>= f) (good ∧ pass) (good → bad) e where
  returns h s := by
    obtain ⟨b, t, hrun⟩ := (hf h.1).returns h.2 (upd s)
    exact ⟨b, t, (bind_of_ok (hm.returns h.1 s)).trans hrun⟩
  fails h s := by
    by_cases hgood : good
    · exact (bind_of_ok (hm.returns hgood s)).trans ((hf hgood).fails (h hgood) _)
    · exact bind_of_error (hm.fails hgood s)
  stops h h' s := by
    obtain ⟨hgood, hbad⟩ := Classical.not_imp.mp h'
    obtain ⟨e', hrun, hne⟩ := (hf hgood).stops (fun hpass ↦ h ⟨hgood, hpass⟩) hbad (upd s)
    exact ⟨e', (bind_of_ok (hm.returns hgood s)).trans hrun, hne⟩

theorem bind (hm : Verdict m pass bad e) (hf : pass → ∀ a, Verdict (f a) pass' bad' e) :
    Verdict (m >>= f) (pass ∧ pass') (bad ∨ (pass ∧ bad')) e where
  returns h s := by
    obtain ⟨a, t, hrun⟩ := hm.returns h.1 s
    obtain ⟨b, u, hrun'⟩ := (hf h.1 a).returns h.2 t
    exact ⟨b, u, (bind_of_ok hrun).trans hrun'⟩
  fails h s := by
    rcases h with hbad | ⟨hpass, hbad⟩
    · exact bind_of_error (hm.fails hbad s)
    · obtain ⟨a, t, hrun⟩ := hm.returns hpass s
      exact (bind_of_ok hrun).trans ((hf hpass a).fails hbad t)
  stops h h' s := by
    obtain ⟨hbad, hbad'⟩ := not_or.mp h'
    by_cases hpass : pass
    · obtain ⟨a, t, hrun⟩ := hm.returns hpass s
      obtain ⟨e', hrun', hne⟩ := (hf hpass a).stops (fun hpass' ↦ h ⟨hpass, hpass'⟩)
        (fun hbad ↦ hbad' ⟨hpass, hbad⟩) t
      exact ⟨e', (bind_of_ok hrun).trans hrun', hne⟩
    · obtain ⟨e', hrun, hne⟩ := hm.stops hpass hbad s
      exact ⟨e', bind_of_error hrun, hne⟩

/-- A program that is run only under a condition. -/
theorem when {c : Prop} [Decidable c] {m : Program σ ε Unit} (hm : c → Verdict m pass bad e) :
    Verdict (if c then m else Pure.pure ()) (c → pass) (c ∧ bad) e := by
  by_cases h : c
  · rw [if_pos h, forall_prop_of_true h, and_iff_right h]
    exact hm h
  · simp only [h, if_false, false_and, false_implies]
    exact ⟨fun _ s ↦ ⟨(), s, rfl⟩, False.elim, fun hn ↦ absurd trivial hn⟩

/-- A loop over the numbers from `i` on fails with `e` at the first number at which its body does not
return, if it does so there. -/
theorem range' {body : ℕ → Program σ ε Unit} {pass bad : ℕ → Prop} {i n : ℕ}
    (h : ∀ k, i ≤ k → k < i + n → Verdict (body k) (pass k) (bad k) e) :
    Verdict ((List.range' i n).forM body) (∀ k, i ≤ k → k < i + n → pass k)
      (∃ k, i ≤ k ∧ k < i + n ∧ (∀ j, i ≤ j → j < k → pass j) ∧ bad k) e := by
  induction n generalizing i with
  | zero =>
    refine ⟨fun _ s ↦ ⟨(), s, rfl⟩, fun ⟨k, hk, hk', _⟩ ↦ absurd hk' (by omega), fun hn ↦ ?_⟩
    exact absurd (fun k hk hk' ↦ absurd hk' (by omega)) hn
  | succ n ih =>
    have hfirst := h i (Nat.le_refl i) (by omega)
    have hrest := ih (i := i + 1) fun k hk hk' ↦ h k (by omega) (by omega)
    refine Verdict.congr (hfirst.bind fun _ _ ↦ hrest) ?_ ?_
    · constructor
      · exact fun hall ↦ ⟨hall i (Nat.le_refl i) (by omega), fun k hk hk' ↦ hall k (by omega) (by omega)⟩
      · rintro ⟨hi, hall⟩ k hk hk'
        rcases Nat.eq_or_lt_of_le hk with rfl | hlt
        · exact hi
        · exact hall k hlt (by omega)
    · constructor
      · rintro ⟨k, hk, hk', hbefore, hbad⟩
        rcases Nat.eq_or_lt_of_le hk with rfl | hlt
        · exact .inl hbad
        · exact .inr ⟨hbefore i (Nat.le_refl i) hlt, k, hlt, by omega,
            fun j hj hjk ↦ hbefore j (by omega) hjk, hbad⟩
      · rintro (hbad | ⟨hi, k, hk, hk', hbefore, hbad⟩)
        · exact ⟨i, Nat.le_refl i, by omega, fun j hj hjk ↦ absurd hjk (by omega), hbad⟩
        · refine ⟨k, by omega, by omega, fun j hj hjk ↦ ?_, hbad⟩
          rcases Nat.eq_or_lt_of_le hj with rfl | hlt
          · exact hi
          · exact hbefore j hlt hjk

theorem range {body : ℕ → Program σ ε Unit} {pass bad : ℕ → Prop} {n : ℕ}
    (h : ∀ k < n, Verdict (body k) (pass k) (bad k) e) :
    Verdict ((List.range n).forM body) (∀ k < n, pass k)
      (∃ k < n, (∀ j < k, pass j) ∧ bad k) e := by
  have hrange := range' (i := 0) (n := n) fun k _ hk ↦ h k (by omega)
  rw [← List.range_eq_range'] at hrange
  simpa only [Nat.zero_le, forall_true_left, Nat.zero_add, true_and] using hrange

end Verdict

/-- What a loop does to a part of the state that its body adds to. -/
theorem foldl_iff {l : List α} {effect : α → σ → σ} {p : σ → Prop} {q : α → Prop}
    (h : ∀ a ∈ l, ∀ s, p (effect a s) ↔ p s ∨ q a) (s : σ) :
    p (l.foldl (fun s a ↦ effect a s) s) ↔ p s ∨ ∃ a ∈ l, q a := by
  induction l generalizing s with
  | nil => simp
  | cons a l ih =>
    rw [List.foldl_cons, ih (fun b hb ↦ h b (List.mem_cons_of_mem a hb)),
      h a List.mem_cons_self, List.exists_mem_cons_iff, or_assoc]

/-- A part of the state that the body leaves alone. -/
theorem foldl_keeps {l : List α} {effect : α → σ → σ} {g : σ → γ}
    (h : ∀ a ∈ l, ∀ s, g (effect a s) = g s) (s : σ) :
    g (l.foldl (fun s a ↦ effect a s) s) = g s := by
  induction l generalizing s with
  | nil => rfl
  | cons a l ih =>
    rw [List.foldl_cons, ih fun b hb ↦ h b (List.mem_cons_of_mem a hb), h a List.mem_cons_self]

/-- When a loop returns, its body has returned for each element. -/
theorem exists_of_forM_ok {l : List α} {body : α → Program σ ε Unit}
    (h : l.forM body s = .ok ((), t)) : ∀ a ∈ l, ∃ u v, body a u = .ok ((), v) := by
  induction l generalizing s with
  | nil => simp
  | cons a l ih =>
    obtain ⟨⟨⟩, u, hfirst, hrest⟩ := exists_of_bind_ok h
    exact List.forall_mem_cons.mpr ⟨⟨s, u, hfirst⟩, ih hrest⟩

/-! ## Programs that only look at the state -/

structure Tests (P : σ → Prop) (m : Program σ ε Unit) (bad : σ → Prop) (E : ε → Prop) : Prop where
  fails : ∀ s, P s → bad s → ∃ e, m s = .error e ∧ E e
  passes : ∀ s, P s → ¬bad s → m s = .ok ((), s)

namespace Tests

variable {P bad bad' : σ → Prop} {E E' : ε → Prop} {m n : Program σ ε Unit}

theorem weaken (hm : Tests P m bad E) (h : ∀ e, E e → E' e) : Tests P m bad E' where
  fails s hs hbad := by
    obtain ⟨e, hrun, he⟩ := hm.fails s hs hbad
    exact ⟨e, hrun, h e he⟩
  passes := hm.passes

theorem bind (hm : Tests P m bad E) (hn : Tests P n bad' E) :
    Tests P (m >>= fun _ ↦ n) (fun s ↦ bad s ∨ bad' s) E where
  fails s hs h := by
    by_cases hbad : bad s
    · obtain ⟨e, hrun, he⟩ := hm.fails s hs hbad
      exact ⟨e, bind_of_error hrun, he⟩
    · obtain ⟨e, hrun, he⟩ := hn.fails s hs (h.resolve_left hbad)
      exact ⟨e, (bind_of_ok (hm.passes s hs hbad)).trans hrun, he⟩
  passes s hs h := by
    obtain ⟨hm', hn'⟩ := not_or.mp h
    exact (bind_of_ok (hm.passes s hs hm')).trans (hn.passes s hs hn')

theorem forM {l : List α} {body : α → Program σ ε Unit} {bad : α → σ → Prop}
    (h : ∀ a ∈ l, Tests P (body a) (bad a) E) :
    Tests P (l.forM body) (fun s ↦ ∃ a ∈ l, bad a s) E := by
  induction l with
  | nil => exact ⟨fun s _ hs ↦ by simp at hs, fun s _ _ ↦ rfl⟩
  | cons a l ih =>
    have hrest := ih fun b hb ↦ h b (List.mem_cons_of_mem a hb)
    simp only [List.exists_mem_cons_iff]
    exact (h a List.mem_cons_self).bind hrest

end Tests

/-! ## Programs that do not touch the state -/

/-- The program returns one value, or fails with one error, and leaves every state as it is. -/
def Stateless (m : Program σ ε α) : Prop :=
  (∃ a, ∀ s, m s = .ok (a, s)) ∨ ∃ e, ∀ s, m s = .error e

namespace Stateless

theorem pure (a : α) : Stateless (pure a : Program σ ε α) := .inl ⟨a, fun _ ↦ rfl⟩

theorem throw (e : ε) : Stateless (throw e : Program σ ε α) := .inr ⟨e, fun _ ↦ rfl⟩

theorem bind (hm : Stateless m) (hf : ∀ a, Stateless (f a)) : Stateless (m >>= f) := by
  rcases hm with ⟨a, ha⟩ | ⟨e, he⟩
  · rcases hf a with ⟨b, hb⟩ | ⟨e, he⟩
    · exact .inl ⟨b, fun s ↦ (bind_of_ok (ha s)).trans (hb s)⟩
    · exact .inr ⟨e, fun s ↦ (bind_of_ok (ha s)).trans (he s)⟩
  · exact .inr ⟨e, fun s ↦ bind_of_error (he s)⟩

theorem ite {c : Prop} [Decidable c] {m n : Program σ ε α} (hm : Stateless m) (hn : Stateless n) :
    Stateless (if c then m else n) := by
  split
  · exact hm
  · exact hn

theorem forM {l : List α} {body : α → Program σ ε Unit} (h : ∀ a ∈ l, Stateless (body a)) :
    Stateless (l.forM body) := by
  induction l with
  | nil => exact pure ()
  | cons a l ih =>
    exact (h a List.mem_cons_self).bind fun _ ↦ ih fun b hb ↦ h b (List.mem_cons_of_mem a hb)

theorem keeps (hm : Stateless m) (h : m s = .ok (a, t)) : t = s := by
  rcases hm with ⟨b, hb⟩ | ⟨e, he⟩
  · exact (Prod.mk.inj (Except.ok.inj ((hb s).symm.trans h))).2.symm
  · exact nomatch (he s).symm.trans h

theorem returns (hm : Stateless m) (h : m s = .ok (a, t)) (u : σ) : m u = .ok (a, u) := by
  rcases hm with ⟨b, hb⟩ | ⟨e, he⟩
  · obtain ⟨rfl, -⟩ := Prod.mk.inj (Except.ok.inj ((hb s).symm.trans h))
    exact hb u
  · exact nomatch (he s).symm.trans h

end Stateless

theorem Acts.stateless (hm : Acts m good a id e) : Stateless m := by
  by_cases h : good
  · exact .inl ⟨a, hm.returns h⟩
  · exact .inr ⟨e, hm.fails h⟩

/-! ## The errors of a program -/

/-- Whenever the program fails, it does so with an error of `E`. -/
def Raises (m : Program σ ε α) (E : ε → Prop) : Prop := ∀ s e, m s = .error e → E e

namespace Raises

variable {E : ε → Prop}

theorem pure (a : α) : Raises (pure a : Program σ ε α) E := fun _ _ h ↦ nomatch h

theorem bind (hm : Raises m E) (hf : ∀ a, Raises (f a) E) : Raises (m >>= f) E := by
  intro s e h
  cases hrun : m s with
  | error e' =>
    rw [bind_of_error hrun] at h
    exact Except.error.inj h ▸ hm s e' hrun
  | ok r =>
    rw [bind_of_ok hrun] at h
    exact hf r.1 r.2 e h

theorem forM {l : List α} {body : α → Program σ ε Unit} (h : ∀ a ∈ l, Raises (body a) E) :
    Raises (l.forM body) E := by
  induction l with
  | nil => exact pure ()
  | cons a l ih =>
    exact (h a List.mem_cons_self).bind fun _ ↦ ih fun b hb ↦ h b (List.mem_cons_of_mem a hb)

theorem of_acts (hm : Acts m good a upd e) (he : E e) : Raises m E := by
  intro s e' h
  by_cases hgood : good
  · exact nomatch (hm.returns hgood s).symm.trans h
  · exact Except.error.inj ((hm.fails hgood s).symm.trans h) ▸ he

theorem of_tests {m : Program σ ε Unit} {bad : σ → Prop} (hm : Tests (fun _ ↦ True) m bad E) :
    Raises m E := by
  intro s e h
  by_cases hbad : bad s
  · obtain ⟨e', hrun, he⟩ := hm.fails s trivial hbad
    exact Except.error.inj (hrun.symm.trans h) ▸ he
  · exact nomatch (hm.passes s trivial hbad).symm.trans h

theorem weaken {E' : ε → Prop} (hm : Raises m E) (h : ∀ e, E e → E' e) : Raises m E' :=
  fun s e hrun ↦ h e (hm s e hrun)

end Raises

end CS537.Foundation
