import CS537.Shell.Parse
import Mathlib.Data.List.Induction

/-!
# The grammar of command lines

A line is made of words and redirection characters, with blanks between them; only between two
words a blank is necessary.  `lex` finds them, and is the inverse of writing them down.
-/

namespace CS537.Shell

open Foundation

inductive Lexeme where
  | word (w : Word)
  | redirect
  deriving DecidableEq

/-- A character of a word. -/
def wordChar (c : Char) : Prop := c ≠ ' ' ∧ c ≠ '>'

instance : DecidablePred wordChar := fun _ ↦ inferInstanceAs (Decidable (_ ∧ _))

structure IsWord (w : Word) : Prop where
  nonempty : w ≠ []
  chars : ∀ c ∈ w, wordChar c

/-- The text consists of these lexemes, with any number of blanks around them. -/
inductive Renders : List Lexeme → List Char → Prop
  | nil : Renders [] []
  | blank {ls : List Lexeme} {s : List Char} : Renders ls s → Renders ls (' ' :: s)
  | redirect {ls : List Lexeme} {s : List Char} : Renders ls s →
      Renders (.redirect :: ls) ('>' :: s)
  | word {w : Word} {ls : List Lexeme} {s : List Char} : IsWord w →
      (∀ c ∈ s.head?, ¬wordChar c) → Renders ls s → Renders (.word w :: ls) (w ++ s)

/-- Put a character in front of the first word. -/
def prepend (c : Char) : List Lexeme → List Lexeme
  | .word w :: ls => .word (c :: w) :: ls
  | ls => .word [c] :: ls

/-- The lexemes of a text. -/
def lex : List Char → List Lexeme
  | [] => []
  | c :: cs =>
    if c = ' ' then lex cs
    else if c = '>' then .redirect :: lex cs
    else
      match cs with
      | [] => [.word [c]]
      | d :: _ => if wordChar d then prepend c (lex cs) else .word [c] :: lex cs

variable {c d : Char} {s t : List Char} {w : Word} {ls ms : List Lexeme}

theorem lex_cons_blank : lex (' ' :: s) = lex s := by
  rw [lex.eq_def]
  rfl

theorem lex_cons_redirect : lex ('>' :: s) = .redirect :: lex s := by
  rw [lex.eq_def]
  rfl

theorem lex_cons_of_end (hc : wordChar c) (hs : ∀ d ∈ s.head?, ¬wordChar d) :
    lex (c :: s) = .word [c] :: lex s := by
  rw [lex.eq_def]
  cases s with
  | nil => simp [hc.1, hc.2, lex]
  | cons d s =>
    have hd : ¬wordChar d := hs d rfl
    simp only [if_neg hc.1, if_neg hc.2, if_neg hd]

theorem lex_cons_cons (hc : wordChar c) (hd : wordChar d) :
    lex (c :: d :: s) = prepend c (lex (d :: s)) := by
  rw [lex.eq_def]
  simp only [if_neg hc.1, if_neg hc.2, if_pos hd]

/-- A text that starts with a word has it for its first lexeme. -/
theorem lex_word_append (hw : IsWord w) (hs : ∀ d ∈ s.head?, ¬wordChar d) :
    lex (w ++ s) = .word w :: lex s := by
  obtain ⟨hne, hw⟩ := hw
  induction w with
  | nil => exact absurd rfl hne
  | cons c w ih =>
    have hc : wordChar c := hw c List.mem_cons_self
    cases w with
    | nil => exact lex_cons_of_end hc hs
    | cons d w =>
      have hd : wordChar d := hw d (List.mem_cons_of_mem c List.mem_cons_self)
      have htail := ih (List.cons_ne_nil d w) fun e he ↦ hw e (List.mem_cons_of_mem c he)
      calc
        lex (c :: d :: (w ++ s)) = prepend c (lex (d :: (w ++ s))) := lex_cons_cons hc hd
        _ = .word (c :: d :: w) :: lex s := by
          rw [← List.cons_append, htail]
          rfl

theorem lex_word (hw : IsWord w) : lex w = [.word w] := by
  have h := lex_word_append (s := []) hw fun _ hd ↦ absurd hd (Option.not_mem_none _)
  rwa [List.append_nil] at h

theorem eq_of_not_wordChar (h : ¬wordChar c) : c = ' ' ∨ c = '>' := by
  by_contra hne
  exact h (not_or.mp hne)

/-- Induction on a text from one lexeme to the next. -/
theorem text_induction {P : List Char → Prop} (nil : P []) (blank : ∀ s, P s → P (' ' :: s))
    (redirect : ∀ s, P s → P ('>' :: s))
    (word : ∀ w s, IsWord w → (∀ c ∈ s.head?, ¬wordChar c) → P s → P (w ++ s)) (s : List Char) :
    P s := by
  induction s using stretch_induction (p := fun c ↦ !decide (wordChar c)) with
  | nil => exact nil
  | cons c s hc ih =>
    rcases eq_of_not_wordChar (by simpa using hc) with rfl | rfl
    · exact blank s ih
    · exact redirect s ih
  | stretch w s hne hw hs ih =>
    exact word w s ⟨hne, fun c hc ↦ by simpa using hw c hc⟩ (fun c hc ↦ by simpa using hs c hc) ih

/-- A text is the writing of its lexemes and of no others. -/
theorem renders_iff_lex : Renders ls s ↔ lex s = ls := by
  constructor
  · intro h
    induction h with
    | nil => rfl
    | blank _ ih => rw [lex_cons_blank, ih]
    | redirect _ ih => rw [lex_cons_redirect, ih]
    | word hw hs _ ih => rw [lex_word_append hw hs, ih]
  · rintro rfl
    induction s using text_induction with
    | nil => exact .nil
    | blank s ih =>
      rw [lex_cons_blank]
      exact .blank ih
    | redirect s ih =>
      rw [lex_cons_redirect]
      exact .redirect ih
    | word w s hw hs ih =>
      rw [lex_word_append hw hs]
      exact .word hw hs ih

theorem head?_of_append_cons (hs : ∀ e ∈ s.head?, ¬wordChar e) (hd : ¬wordChar d) :
    ∀ e ∈ (s ++ d :: t).head?, ¬wordChar e := by
  cases s with
  | nil =>
    intro e he
    rwa [← Option.some.inj (Option.mem_def.mp he)]
  | cons e s => exact hs

/-- A blank or a redirection character ends the lexeme before it. -/
theorem lex_append_cons (hd : ¬wordChar d) : lex (s ++ d :: t) = lex s ++ lex (d :: t) := by
  induction s using text_induction with
  | nil => rfl
  | blank s ih => rw [List.cons_append, lex_cons_blank, ih, lex_cons_blank]
  | redirect s ih => rw [List.cons_append, lex_cons_redirect, ih, lex_cons_redirect, List.cons_append]
  | word w s hw hs ih =>
    calc
      lex (w ++ s ++ d :: t) = .word w :: lex (s ++ d :: t) := by
        rw [List.append_assoc, lex_word_append hw (head?_of_append_cons hs hd)]
      _ = lex (w ++ s) ++ lex (d :: t) := by rw [ih, lex_word_append hw hs, List.cons_append]

theorem not_wordChar_blank : ¬wordChar ' ' := fun h ↦ h.1 rfl

theorem not_wordChar_redirect : ¬wordChar '>' := fun h ↦ h.2 rfl

theorem lex_cons_append (hc : ¬wordChar c) : lex (c :: t) = lex [c] ++ lex t := by
  rcases eq_of_not_wordChar hc with rfl | rfl
  · rw [lex_cons_blank, lex_cons_blank]
    rfl
  · rw [lex_cons_redirect, lex_cons_redirect]
    rfl

/-- The word at the end of a text, or nothing, is lexed on its own. -/
theorem exists_trailing (s : List Char) :
    ∃ u w, s = u ++ w ∧ (∀ c ∈ w, wordChar c) ∧ (∀ c ∈ u.getLast?, ¬wordChar c) ∧
      ∀ t, lex (u ++ t) = lex u ++ lex t := by
  induction s using List.reverseRecOn with
  | nil => exact ⟨[], [], rfl, by simp, by simp, fun _ ↦ rfl⟩
  | append_singleton s c ih =>
    by_cases hc : wordChar c
    · obtain ⟨u, w, rfl, hw, hu, hlex⟩ := ih
      refine ⟨u, w ++ [c], List.append_assoc u w [c], fun d hd ↦ ?_, hu, hlex⟩
      rcases List.mem_append.mp hd with hd | hd
      · exact hw d hd
      · rwa [List.mem_singleton.mp hd]
    · refine ⟨s ++ [c], [], (List.append_nil _).symm, by simp, by simpa using hc, fun t ↦ ?_⟩
      calc
        lex (s ++ [c] ++ t) = lex s ++ lex (c :: t) := by
          rw [List.append_assoc, List.singleton_append, lex_append_cons hc]
        _ = lex (s ++ [c]) ++ lex t := by
          rw [lex_cons_append hc, lex_append_cons hc, List.append_assoc]

end CS537.Shell
