import Mathlib.Data.List.TakeWhile

/-!
# Tokens between separators

The tokens of a list are its longest stretches without a separator, as successive calls of
`strtok` return them.
-/

namespace CS537.Foundation

variable {α : Type*} (p : α → Bool)

/-- The C library's `strtok`: the first token, and what is left after the separator at its end. -/
def strtok (s : List α) : Option (List α × List α) :=
  match s.dropWhile p with
  | [] => none
  | c :: cs => some ((c :: cs).takeWhile (!p ·), ((c :: cs).dropWhile (!p ·)).tail)

/-- What the calls of `strtok` return, one after the other. -/
def tokens : List α → List (List α)
  | [] => []
  | c :: cs =>
    if p c then tokens cs
    else
      match cs with
      | [] => [[c]]
      | d :: _ => if p d then [c] :: tokens cs else (tokens cs).modifyHead (c :: ·)

variable {p} {c d : α} {s t : List α}

theorem tokens_cons_sep (hc : p c = true) : tokens p (c :: s) = tokens p s := by
  rw [tokens.eq_def]
  exact if_pos hc

theorem tokens_singleton (hc : p c = false) : tokens p [c] = [[c]] := by
  simp [tokens, hc]

theorem tokens_cons_cons_sep (hc : p c = false) (hd : p d = true) :
    tokens p (c :: d :: s) = [c] :: tokens p (d :: s) := by
  rw [tokens]
  simp [hc, hd]

theorem tokens_cons_cons (hc : p c = false) (hd : p d = false) :
    tokens p (c :: d :: s) = (tokens p (d :: s)).modifyHead (c :: ·) := by
  rw [tokens]
  simp [hc, hd]

theorem tokens_append_of_notMem (hs : ∀ c ∈ s, p c = false) (hne : s ≠ [])
    (ht : ∀ c ∈ t.head?, p c = true) : tokens p (s ++ t) = s :: tokens p t := by
  induction s with
  | nil => exact absurd rfl hne
  | cons c s ih =>
    have hc : p c = false := hs c List.mem_cons_self
    cases s with
    | nil =>
      cases t with
      | nil => exact tokens_singleton hc
      | cons d t => exact tokens_cons_cons_sep hc (ht d rfl)
    | cons d s =>
      have hd : p d = false := hs d (List.mem_cons_of_mem c List.mem_cons_self)
      have htail := ih (fun e he ↦ hs e (List.mem_cons_of_mem c he)) (List.cons_ne_nil d s)
      calc
        tokens p (c :: d :: (s ++ t)) = (tokens p (d :: (s ++ t))).modifyHead (c :: ·) :=
          tokens_cons_cons hc hd
        _ = (c :: d :: s) :: tokens p t := by
          rw [← List.cons_append, htail]
          rfl

/-- Induction on a list from one separator or stretch without separators to the next. -/
theorem stretch_induction {P : List α → Prop} (nil : P [])
    (cons : ∀ c s, p c = true → P s → P (c :: s))
    (stretch : ∀ w s, w ≠ [] → (∀ c ∈ w, p c = false) → (∀ c ∈ s.head?, p c = true) → P s →
      P (w ++ s)) (s : List α) : P s := by
  induction hn : s.length using Nat.strong_induction_on generalizing s with
  | _ n ih =>
    subst hn
    cases s with
    | nil => exact nil
    | cons c s =>
      cases hc : p c with
      | true => exact cons c s hc (ih _ (Nat.lt_succ_self _) s rfl)
      | false =>
        have hsplit := List.takeWhile_append_dropWhile (p := (!p ·)) (l := c :: s)
        have hdrop : ((c :: s).dropWhile (!p ·)).length < (c :: s).length := by
          have hle := (List.dropWhile_suffix (!p ·) (l := s)).length_le
          rw [List.dropWhile_cons_of_pos (by simp [hc])]
          exact Nat.lt_succ_of_le hle
        rw [← hsplit]
        refine stretch _ _ ?_ (fun d hd ↦ ?_) (fun d hd ↦ ?_) (ih _ hdrop _ rfl)
        · simp [hc]
        · simpa using List.mem_takeWhile_imp hd
        · have hhead := List.head?_dropWhile_not (!p ·) (c :: s)
          rw [Option.mem_def.mp hd] at hhead
          simpa using hhead

theorem tokens_dropWhile (s : List α) : tokens p (s.dropWhile p) = tokens p s := by
  induction s with
  | nil => rfl
  | cons c s ih =>
    cases hc : p c with
    | true => rw [List.dropWhile_cons_of_pos hc, ih, tokens_cons_sep hc]
    | false => rw [List.dropWhile_cons_of_neg (by simp [hc])]

/-- The tokens are those of `strtok`. -/
theorem tokens_eq_strtok (s : List α) :
    tokens p s = match strtok p s with
      | none => []
      | some (token, rest) => token :: tokens p rest := by
  rw [← tokens_dropWhile, strtok]
  cases h : s.dropWhile p with
  | nil => rfl
  | cons c cs =>
    have hc : p c = false := by
      have hhead := List.head?_dropWhile_not p s
      simpa [h] using hhead
    have hsplit := List.takeWhile_append_dropWhile (p := (!p ·)) (l := c :: cs)
    have hrest : tokens p ((c :: cs).dropWhile (!p ·)).tail =
        tokens p ((c :: cs).dropWhile (!p ·)) := by
      cases hd : (c :: cs).dropWhile (!p ·) with
      | nil => rfl
      | cons d ds =>
        have hhead := List.head?_dropWhile_not (!p ·) (c :: cs)
        rw [List.tail_cons, tokens_cons_sep]
        simpa [hd] using hhead
    have htoken : tokens p ((c :: cs).takeWhile (!p ·) ++ (c :: cs).dropWhile (!p ·)) =
        (c :: cs).takeWhile (!p ·) :: tokens p ((c :: cs).dropWhile (!p ·)) := by
      refine tokens_append_of_notMem (fun d hd ↦ ?_) ?_ fun d hd ↦ ?_
      · simpa using List.mem_takeWhile_imp hd
      · simp [hc]
      · have hhead := List.head?_dropWhile_not (!p ·) (c :: cs)
        rw [Option.mem_def.mp hd] at hhead
        simpa using hhead
    calc
      tokens p (c :: cs) =
          (c :: cs).takeWhile (!p ·) :: tokens p ((c :: cs).dropWhile (!p ·)) := by
        rw [← htoken, hsplit]
      _ = (c :: cs).takeWhile (!p ·) :: tokens p ((c :: cs).dropWhile (!p ·)).tail := by
        rw [hrest]

end CS537.Foundation
