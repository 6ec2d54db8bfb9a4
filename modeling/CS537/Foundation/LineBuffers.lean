import CS537.Foundation.Streams

/-!
# Buffers of getline

`getline` writes into a buffer of its caller, who also keeps the size of it.  A call without a buffer
allocates one, and a buffer whose size is too small for the line and the null character behind it is
reallocated.  The new size, which the implementation chooses, is stored with the caller then; otherwise
the stored size remains.  A call never looks at how large the buffer really is.
-/

namespace CS537.Foundation

variable {α : Type*} [DecidableEq α]

/-- The sizes an implementation chooses, from the stored one and from what is left of the stream. -/
structure Growth (newline : α) where
  allocated : ℕ → List α → ℕ
  reallocated : ℕ → List α → ℕ
  allocated_gt : ∀ n fp, (getline newline fp).1.length < allocated n fp
  reallocated_gt : ∀ n fp, (getline newline fp).1.length < reallocated n fp

/-- What is passed to `getline`: the buffer, of which only its size matters here, and the stored size. -/
structure Call where
  buffer : Option ℕ
  size : ℕ

/-- The stored size is not larger than the buffer. -/
def Call.TrueCapacity (call : Call) : Prop :=
  ∀ capacity, call.buffer = some capacity → call.size ≤ capacity

theorem Call.trueCapacity_none (n : ℕ) : Call.TrueCapacity ⟨none, n⟩ := fun _ h ↦ nomatch h

theorem Call.trueCapacity_some {c n : ℕ} : Call.TrueCapacity ⟨some c, n⟩ ↔ n ≤ c :=
  ⟨fun h ↦ h c rfl, fun h _ hc ↦ Option.some.inj hc ▸ h⟩

namespace Growth

variable {newline : α} (g : Growth newline) {buffer : Option ℕ} {c n : ℕ} {fp : List α}

/-- How large the buffer is behind a call, and the size that is stored then. -/
def sizes (buffer : Option ℕ) (n : ℕ) (fp : List α) : ℕ × ℕ :=
  match buffer with
  | none => (g.allocated n fp, g.allocated n fp)
  | some c =>
    if (getline newline fp).1.length < n then (c, n) else (g.reallocated n fp, g.reallocated n fp)

theorem sizes_of_lt (hline : (getline newline fp).1.length < n) : g.sizes (some c) n fp = (c, n) :=
  if_pos hline

theorem sizes_of_le (hline : n ≤ (getline newline fp).1.length) :
    g.sizes (some c) n fp = (g.reallocated n fp, g.reallocated n fp) :=
  if_neg (Nat.not_lt.mpr hline)

/-- What is stored remains unless the buffer is reallocated. -/
theorem sizes_snd_le_iff : (g.sizes (some c) n fp).2 ≤ n ↔ (getline newline fp).1.length < n := by
  rcases Nat.lt_or_ge (getline newline fp).1.length n with hline | hline
  · rw [sizes_of_lt g hline]
    exact iff_of_true (Nat.le_refl n) hline
  · rw [sizes_of_le g hline]
    exact iff_of_false (Nat.not_le.mpr (hline.trans_lt (g.reallocated_gt n fp))) (Nat.not_lt.mpr hline)

/-- A buffer with a size of its own is safe to read with again. -/
theorem sizes_le (h : Call.TrueCapacity ⟨buffer, n⟩) :
    (g.sizes buffer n fp).2 ≤ (g.sizes buffer n fp).1 := by
  cases buffer with
  | none => exact le_rfl
  | some c =>
    rcases Nat.lt_or_ge (getline newline fp).1.length n with hline | hline
    · rw [sizes_of_lt g hline]
      exact Call.trueCapacity_some.mp h
    · rw [sizes_of_le g hline]

/-- Its size remains the stored one if it was before. -/
theorem sizes_fst_eq : (g.sizes (some c) c fp).1 = (g.sizes (some c) c fp).2 := by
  rcases Nat.lt_or_ge (getline newline fp).1.length c with hline | hline
  · rw [sizes_of_lt g hline]
  · rw [sizes_of_le g hline]

end Growth

/-! ## A file that is read with a buffer of its own -/

section Lines

variable (newline : α) (fp : List α)

/-- What is left of a stream behind its first lines. -/
def restAfter : ℕ → List α
  | 0 => fp
  | k + 1 => (getline newline (restAfter k)).2

/-- What `getline` returns at its call number `k`, counted from 0. -/
def lineAt (k : ℕ) : List α := (getline newline (restAfter newline fp k)).1

variable {newline fp} {c : α} {k : ℕ}

theorem restAfter_succ (k : ℕ) :
    restAfter newline fp (k + 1) = restAfter newline (getline newline fp).2 k := by
  induction k with
  | zero => rfl
  | succ k ih => rw [restAfter, ih, restAfter]

theorem notMem_restAfter (h : c ∉ fp) (k : ℕ) : c ∉ restAfter newline fp k := by
  induction k with
  | zero => exact h
  | succ k ih => exact (notMem_getline ih).2

theorem getline_eq_nil_iff {s : List α} : (getline newline s).1 = [] ↔ s = [] :=
  ⟨fun h ↦ of_not_not fun hs ↦ getline_ne_nil hs h, fun h ↦ by rw [h, getline]⟩

/-- The lines that are returned before the end of the stream. -/
theorem lineAt_eq_nil_iff : lineAt newline fp k = [] ↔ (lines newline fp).length ≤ k := by
  rw [lineAt, getline_eq_nil_iff]
  induction k generalizing fp with
  | zero => rw [restAfter, Nat.le_zero, List.length_eq_zero_iff, lines_eq_nil_iff]
  | succ k ih =>
    rw [restAfter_succ, ih]
    by_cases hfp : fp = []
    · rw [hfp, getline, lines_nil]
      exact iff_of_true (Nat.zero_le _) (Nat.zero_le _)
    · rw [lines_of_ne_nil hfp, List.length_cons, Nat.add_le_add_iff_right]

omit [DecidableEq α] in
theorem length_le_of_append {line rest s : List α} (happend : line ++ rest = s) :
    line.length ≤ s.length ∧ rest.length ≤ s.length := by
  rw [← happend, List.length_append]
  exact ⟨Nat.le_add_right _ _, Nat.le_add_left _ _⟩

theorem length_lineAt_le (k : ℕ) : (lineAt newline fp k).length ≤ fp.length := by
  have hrest : (restAfter newline fp k).length ≤ fp.length := by
    induction k with
    | zero => exact le_rfl
    | succ k ih => exact (length_le_of_append (getline_append _)).2.trans ih
  exact (length_le_of_append (getline_append _)).1.trans hrest

theorem length_lines_le (s : List α) : (lines newline s).length ≤ s.length := by
  fun_induction lines newline s with
  | case1 => exact le_rfl
  | case2 s hs ih => exact ih.trans_lt (length_rest_lt (getline_append s) (getline_ne_nil hs))

end Lines

variable {newline : α}

/-- The size of the buffer behind each call, when `n` is stored before the first one. -/
def Growth.sizeAfter (g : Growth newline) (n : ℕ) (fp : List α) : ℕ → ℕ
  | 0 => g.allocated n fp
  | k + 1 =>
    (g.sizes (some (g.sizeAfter n fp k)) (g.sizeAfter n fp k) (restAfter newline fp (k + 1))).2

/-- Lines that fit into the first buffer leave it as it is. -/
theorem Growth.sizeAfter_of_fit {g : Growth newline} {n : ℕ} {fp : List α}
    (hfit : ∀ k, (lineAt newline fp k).length < g.allocated n fp) (k : ℕ) :
    g.sizeAfter n fp k = g.allocated n fp := by
  induction k with
  | zero => rfl
  | succ k ih => rw [sizeAfter, ih, sizes_of_lt g (hfit (k + 1))]

/-! ## Rounds of a loop -/

section Rounds

variable {P Q C E G : ℕ → Prop} {k N : ℕ}

/-- A loop that cannot go on for ever comes to its end. -/
theorem exists_last_round (hstep : ∀ k, Q k → E k ∨ (G k ∧ Q (k + 1))) (hend : ∀ k, G k → k < N)
    (h : Q 0) : ∃ k, (∀ i < k, G i) ∧ E k := by
  have hfrom : ∀ d k, N ≤ k + d → (∀ i < k, G i) → Q k → ∃ k, (∀ i < k, G i) ∧ E k := by
    intro d
    induction d with
    | zero =>
      intro k hk hG hQ
      rcases hstep k hQ with hE | ⟨hgo, -⟩
      · exact ⟨k, hG, hE⟩
      · exact absurd (hend k hgo) (Nat.not_lt.mpr hk)
    | succ d ih =>
      intro k hk hG hQ
      rcases hstep k hQ with hE | ⟨hgo, hnext⟩
      · exact ⟨k, hG, hE⟩
      · refine ih (k + 1) (by omega) (fun i hi ↦ ?_) hnext
        rcases Nat.lt_succ_iff_lt_or_eq.mp hi with hlt | rfl
        · exact hG i hlt
        · exact hgo
  exact hfrom N 0 (Nat.le_add_left N 0) (fun i hi ↦ absurd hi (Nat.not_lt_zero i)) h

theorem of_reached (hstep : ∀ k, P k ↔ C k ∧ (G k → P (k + 1))) (h : P 0) (hG : ∀ i < k, G i) : P k := by
  induction k with
  | zero => exact h
  | succ k ih =>
    have hk : P k := ih fun i hi ↦ hG i (Nat.lt_succ_of_lt hi)
    exact ((hstep k).mp hk).2 (hG k (Nat.lt_succ_self k))

/-- A loop is right if every round is that it reaches. -/
theorem iff_forall_reached (hstep : ∀ k, P k ↔ C k ∧ (G k → P (k + 1))) (hend : ∀ k, G k → k < N) :
    P 0 ↔ ∀ k, (∀ i < k, G i) → C k := by
  refine ⟨fun h k hG ↦ ((hstep k).mp (of_reached hstep h hG)).1, fun h ↦ ?_⟩
  by_contra hP
  have hwrong : ∀ k, ¬P k → ¬C k ∨ (G k ∧ ¬P (k + 1)) := by
    intro k hk
    rwa [hstep k, not_and_or, Classical.not_imp] at hk
  obtain ⟨k, hG, hC⟩ := exists_last_round hwrong hend hP
  exact hC (h k hG)

end Rounds

end CS537.Foundation
