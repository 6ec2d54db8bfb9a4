import Mathlib.Data.List.TakeWhile

/-!
# Reading lines

`fgets` and `getline` of the C library, as functions of what is left of a stream.  Both return what
they have read and what is left then.  They stop behind a newline, and `fgets` also when its buffer is
full.  The lines of a stream are what `getline` returns one after the other.
-/

namespace CS537.Foundation

variable {α : Type*} [DecidableEq α] (newline : α)

/-- `fgets`, for a buffer of `n` characters and the null character behind them. -/
def fgets : ℕ → List α → List α × List α
  | 0, s => ([], s)
  | _ + 1, [] => ([], [])
  | n + 1, c :: s =>
    if c = newline then ([c], s) else ((c :: (fgets n s).1), (fgets n s).2)

/-- `getline`; without a character it returns -1. -/
def getline : List α → List α × List α
  | [] => ([], [])
  | c :: s => if c = newline then ([c], s) else ((c :: (getline s).1), (getline s).2)

variable {newline} {n : ℕ} {s text rest : List α}

theorem fgets_append (n : ℕ) (s : List α) : (fgets newline n s).1 ++ (fgets newline n s).2 = s := by
  induction n generalizing s with
  | zero => rfl
  | succ n ih =>
    cases s with
    | nil => rfl
    | cons c s =>
      rw [fgets]
      split
      · rfl
      · exact congrArg (c :: ·) (ih s)

theorem getline_append (s : List α) : (getline newline s).1 ++ (getline newline s).2 = s := by
  induction s with
  | nil => rfl
  | cons c s ih =>
    rw [getline]
    split
    · rfl
    · exact congrArg (c :: ·) ih

/-- A line that fits is read with its newline. -/
theorem fgets_line (htext : newline ∉ text) (hlength : text.length < n) :
    fgets newline n (text ++ newline :: rest) = (text ++ [newline], rest) := by
  induction text generalizing n with
  | nil =>
    obtain ⟨n, rfl⟩ := Nat.exists_eq_succ_of_ne_zero (Nat.ne_of_gt hlength)
    exact if_pos rfl
  | cons c text ih =>
    obtain ⟨n, rfl⟩ := Nat.exists_eq_succ_of_ne_zero (Nat.ne_of_gt (Nat.zero_lt_of_lt hlength))
    obtain ⟨hc, htext⟩ := not_or.mp (mt List.mem_cons.mpr htext)
    rw [List.cons_append, fgets, if_neg (Ne.symm hc), ih htext (Nat.lt_of_succ_lt_succ hlength)]
    rfl

theorem getline_line (htext : newline ∉ text) :
    getline newline (text ++ newline :: rest) = (text ++ [newline], rest) := by
  induction text with
  | nil => exact if_pos rfl
  | cons c text ih =>
    obtain ⟨hc, htext⟩ := not_or.mp (mt List.mem_cons.mpr htext)
    rw [List.cons_append, getline, if_neg (Ne.symm hc), ih htext]
    rfl

/-- The last line of a stream may end without a newline. -/
theorem getline_last (htext : newline ∉ text) : getline newline text = (text, []) := by
  induction text with
  | nil => rfl
  | cons c text ih =>
    obtain ⟨hc, htext⟩ := not_or.mp (mt List.mem_cons.mpr htext)
    rw [getline, if_neg (Ne.symm hc), ih htext]

theorem getline_ne_nil (hs : s ≠ []) : (getline newline s).1 ≠ [] := by
  obtain ⟨c, s, rfl⟩ := List.exists_cons_of_ne_nil hs
  rw [getline]
  split
  · exact List.cons_ne_nil c []
  · exact List.cons_ne_nil c _

omit [DecidableEq α] in
/-- What is left is shorter if something has been read. -/
theorem length_rest_lt {line rest s : List α} (happend : line ++ rest = s) (hline : line ≠ []) :
    rest.length < s.length := by
  rw [← happend, List.length_append]
  exact Nat.lt_add_of_pos_left (List.length_pos_iff.mpr hline)

/-! ## The lines of a stream -/

variable (newline) in
/-- What `getline` returns until the end of the stream. -/
def lines (s : List α) : List (List α) :=
  if _h : s = [] then [] else (getline newline s).1 :: lines (getline newline s).2
termination_by s.length
decreasing_by exact length_rest_lt (getline_append s) (getline_ne_nil _h)

variable (newline) in
/-- A line without its newline. -/
def chomp (line : List α) : List α := if line.getLast? = some newline then line.dropLast else line

theorem lines_nil : lines newline ([] : List α) = [] := by
  rw [lines, dif_pos rfl]

theorem lines_of_ne_nil (hs : s ≠ []) :
    lines newline s = (getline newline s).1 :: lines newline (getline newline s).2 := by
  rw [lines, dif_neg hs]

theorem lines_eq_nil_iff : lines newline s = [] ↔ s = [] := by
  rw [lines]
  split
  next hs => exact iff_of_true rfl hs
  next hs => exact iff_of_false (List.cons_ne_nil _ _) hs

theorem ne_nil_of_lines {line : List α} {more : List (List α)} (h : lines newline s = line :: more) :
    s ≠ [] := fun hs ↦
  List.cons_ne_nil line more (h.symm.trans (lines_eq_nil_iff.mpr hs))

/-- The first line and the lines of what is left. -/
theorem getline_of_lines {line : List α} {more : List (List α)} (h : lines newline s = line :: more) :
    (getline newline s).1 = line ∧ lines newline (getline newline s).2 = more := by
  rw [lines_of_ne_nil (ne_nil_of_lines h)] at h
  exact List.cons.inj h

theorem lines_line (htext : newline ∉ text) (rest : List α) :
    lines newline (text ++ newline :: rest) = (text ++ [newline]) :: lines newline rest := by
  rw [lines_of_ne_nil (List.append_ne_nil_of_right_ne_nil _ (List.cons_ne_nil _ _)),
    getline_line htext]

/-- What is not in a stream is neither in its first line nor in the rest. -/
theorem notMem_getline {c : α} (h : c ∉ s) :
    c ∉ (getline newline s).1 ∧ c ∉ (getline newline s).2 := by
  have happend : (getline newline s).1 ++ (getline newline s).2 = s := getline_append s
  rw [← happend, List.mem_append, not_or] at h
  exact h

/-- A newline can only be at the end of a line. -/
theorem notMem_dropLast_getline (s : List α) : newline ∉ (getline newline s).1.dropLast := by
  induction s with
  | nil => exact List.not_mem_nil
  | cons c s ih =>
    rw [getline]
    split
    · exact List.not_mem_nil
    next hc =>
      intro hmem
      cases hline : (getline newline s).1 with
      | nil =>
        rw [hline] at hmem
        exact List.not_mem_nil hmem
      | cons d line =>
        rw [hline] at ih hmem
        exact (List.mem_cons.mp hmem).elim (fun heq ↦ hc heq.symm) ih

theorem notMem_dropLast_of_mem_lines {line : List α} (h : line ∈ lines newline s) :
    newline ∉ line.dropLast := by
  fun_induction lines newline s with
  | case1 => exact absurd h List.not_mem_nil
  | case2 s hs ih =>
    rcases List.mem_cons.mp h with rfl | h
    · exact notMem_dropLast_getline s
    · exact ih h

theorem chomp_concat (text : List α) : chomp newline (text ++ [newline]) = text := by
  rw [chomp, if_pos List.getLast?_concat, List.dropLast_concat]

theorem notMem_chomp {line : List α} (hline : newline ∉ line.dropLast) :
    newline ∉ chomp newline line := by
  rw [chomp]
  split
  next => exact hline
  next hlast =>
    intro hmem
    have hne : line ≠ [] := List.ne_nil_of_mem hmem
    rw [← List.dropLast_concat_getLast hne, List.mem_append, List.mem_singleton] at hmem
    rw [List.getLast?_eq_some_getLast hne, Option.some.injEq] at hlast
    exact hmem.elim hline fun heq ↦ hlast heq.symm

end CS537.Foundation
