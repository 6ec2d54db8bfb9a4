import CS537.Shell.Grammar

/-!
# What `parse_command` makes of a line

The loop over the tokens accepts the lexemes of a line if there is at most one redirection
character with at most one word after it; it keeps all words, and counts those behind that
character.  The newline is a word of its own there if no other word is in front of it.
-/

namespace CS537.Shell

open Foundation

def words (ls : List Lexeme) : List Word :=
  ls.filterMap fun l ↦ match l with
    | .word w => some w
    | .redirect => none

/-- The lexemes behind the first redirection character. -/
def afterRedirect : List Lexeme → List Lexeme
  | [] => []
  | .redirect :: ls => ls
  | .word _ :: ls => afterRedirect ls

/-- At most one word follows the redirection character. -/
structure Acceptable (ls : List Lexeme) : Prop where
  oneWord : (words (afterRedirect ls)).length ≤ 1
  oneRedirect : .redirect ∉ afterRedirect ls

/-- The locals of the loop when the lexemes read so far are acceptable. -/
def stateOf (ls : List Lexeme) : ParseState :=
  ⟨words ls, decide (.redirect ∈ ls), (words (afterRedirect ls)).length⟩

/-- The result of the loop when it has come to the end of these lexemes. -/
def Scans (ls : List Lexeme) (result : Except ParseError ParseState) : Prop :=
  (Acceptable ls ∧ result = .ok (stateOf ls)) ∨
    ¬Acceptable ls ∧ ∃ e, e ≠ .overflow ∧ result = .error e

variable {s t token : List Char} {ls ms : List Lexeme} {w : Word}

@[simp]
theorem words_nil : words [] = [] := rfl

@[simp]
theorem words_cons_word : words (.word w :: ls) = w :: words ls := rfl

@[simp]
theorem words_cons_redirect : words (.redirect :: ls) = words ls := rfl

@[simp]
theorem words_append : words (ls ++ ms) = words ls ++ words ms := List.filterMap_append

theorem afterRedirect_of_notMem (h : .redirect ∉ ls) : afterRedirect ls = [] := by
  induction ls with
  | nil => rfl
  | cons l ls ih =>
    cases l with
    | word w => exact ih fun hmem ↦ h (List.mem_cons_of_mem _ hmem)
    | redirect => exact absurd List.mem_cons_self h

theorem afterRedirect_append_of_notMem (h : .redirect ∉ ls) :
    afterRedirect (ls ++ ms) = afterRedirect ms := by
  induction ls with
  | nil => rfl
  | cons l ls ih =>
    cases l with
    | word w => exact ih fun hmem ↦ h (List.mem_cons_of_mem _ hmem)
    | redirect => exact absurd List.mem_cons_self h

theorem afterRedirect_append_of_mem (h : .redirect ∈ ls) :
    afterRedirect (ls ++ ms) = afterRedirect ls ++ ms := by
  induction ls with
  | nil => exact absurd h List.not_mem_nil
  | cons l ls ih =>
    cases l with
    | word w => exact ih ((List.mem_cons.mp h).resolve_left Lexeme.noConfusion)
    | redirect => rfl

theorem Acceptable.of_append (h : Acceptable (ls ++ ms)) : Acceptable ls := by
  by_cases hmem : .redirect ∈ ls
  · obtain ⟨hword, hredirect⟩ := h
    rw [afterRedirect_append_of_mem hmem] at hword hredirect
    rw [words_append, List.length_append] at hword
    exact ⟨by omega, fun hr ↦ hredirect (List.mem_append_left ms hr)⟩
  · rw [← List.append_nil ls]
    constructor
    · rw [afterRedirect_append_of_notMem hmem]
      exact Nat.zero_le 1
    · rw [afterRedirect_append_of_notMem hmem]
      exact List.not_mem_nil

theorem redirect_mem_lex_iff : .redirect ∈ lex s ↔ '>' ∈ s := by
  induction s using text_induction with
  | nil => simp [lex]
  | blank s ih => simp [lex_cons_blank, ih]
  | redirect s ih => simp [lex_cons_redirect]
  | word w s hw hs ih =>
    have hnot : '>' ∉ w := fun hmem ↦ not_wordChar_redirect (hw.chars _ hmem)
    rw [lex_word_append hw hs, List.mem_cons, List.mem_append, ih]
    exact ⟨fun h ↦ .inr (h.resolve_left Lexeme.noConfusion), fun h ↦ .inr (h.resolve_left hnot)⟩

/-- A word takes two characters with the one behind it. -/
theorem two_mul_words_le (s : List Char) :
    2 * (words (lex s)).length ≤ s.length + 1 ∧
      ((∀ c ∈ s.head?, ¬wordChar c) → 2 * (words (lex s)).length ≤ s.length) := by
  induction s using text_induction with
  | nil => exact ⟨Nat.zero_le 1, fun _ ↦ le_rfl⟩
  | blank s ih =>
    rw [lex_cons_blank, List.length_cons]
    exact ⟨Nat.le_succ_of_le ih.1, fun _ ↦ ih.1⟩
  | redirect s ih =>
    rw [lex_cons_redirect, words_cons_redirect, List.length_cons]
    exact ⟨Nat.le_succ_of_le ih.1, fun _ ↦ ih.1⟩
  | word w s hw hs ih =>
    have hlength : 0 < w.length := List.length_pos_iff.mpr hw.nonempty
    have hrest := ih.2 hs
    rw [lex_word_append hw hs, words_cons_word, List.length_cons, List.length_append]
    refine ⟨by omega, fun hhead ↦ ?_⟩
    obtain ⟨c, w, rfl⟩ := List.exists_cons_of_ne_nil hw.nonempty
    exact absurd (hw.chars c List.mem_cons_self) (hhead c rfl)

theorem words_lex_le (s : List Char) : 2 * (words (lex s)).length ≤ s.length + 1 :=
  (two_mul_words_le s).1

/-! ## The loop over the tokens -/

theorem push_of_lt {st : ParseState} (h : st.args.length < maxParseNum) :
    st.push w = .ok { st with args := st.args ++ [w] } := if_pos h

theorem push_stateOf (h : .redirect ∉ ls) (hroom : (words ls).length < maxParseNum) :
    (stateOf ls).push w = .ok (stateOf (ls ++ [.word w])) := by
  have hw : (.redirect : Lexeme) ∉ ls ++ [.word w] := by simpa using h
  rw [push_of_lt hroom, stateOf, stateOf, afterRedirect_of_notMem h, afterRedirect_of_notMem hw,
    decide_eq_false h, decide_eq_false hw, words_append]
  rfl

theorem pushAfterRd_stateOf (h : .redirect ∈ ls) (hroom : (words ls).length < maxParseNum) :
    (stateOf ls).pushAfterRd w = .ok (stateOf (ls ++ [.word w])) := by
  have hw : (.redirect : Lexeme) ∈ ls ++ [.word w] := List.mem_append_left _ h
  rw [ParseState.pushAfterRd, push_of_lt hroom, stateOf, stateOf, afterRedirect_append_of_mem h,
    decide_eq_true h, decide_eq_true hw, words_append, words_append, List.length_append]
  rfl

/-- A word or nothing. -/
def wordOrNothing (w : Word) : List Lexeme := if w = [] then [] else [.word w]

theorem redirect_notMem_wordOrNothing (w : Word) : .redirect ∉ wordOrNothing w := by
  unfold wordOrNothing
  split <;> simp

theorem words_wordOrNothing_le (w : Word) : (words (wordOrNothing w)).length ≤ 1 := by
  unfold wordOrNothing
  split <;> simp

/-- The word in front of the redirection character is pushed when the flag is already set. -/
theorem push_left_stateOf (h : .redirect ∉ ls)
    (hroom : (words (ls ++ wordOrNothing w)).length ≤ maxParseNum) :
    (if w = [] then .ok { stateOf ls with rdFlag := true }
      else { stateOf ls with rdFlag := true }.push w) =
      Except.ok (stateOf (ls ++ wordOrNothing w ++ [.redirect])) := by
  have hflag (ms : List Lexeme) (hms : .redirect ∉ ms) :
      stateOf (ms ++ [.redirect]) = { stateOf ms with rdFlag := true } := by
    have hr : (.redirect : Lexeme) ∈ ms ++ [.redirect] := List.mem_append_right _ (by simp)
    rw [stateOf, stateOf, afterRedirect_append_of_notMem hms, afterRedirect_of_notMem hms,
      decide_eq_true hr, words_append]
    exact congrArg (ParseState.mk · _ _) (List.append_nil _)
  have hnotMem : .redirect ∉ ls ++ wordOrNothing w := by
    rw [List.mem_append, not_or]
    exact ⟨h, redirect_notMem_wordOrNothing w⟩
  rw [hflag _ hnotMem]
  unfold wordOrNothing at hroom ⊢
  by_cases hw : w = []
  · rw [if_pos hw, if_pos hw, List.append_nil]
  · rw [if_neg hw] at hroom ⊢
    rw [if_neg hw]
    have hlt : (words ls).length < maxParseNum := by
      rw [words_append, List.length_append] at hroom
      exact hroom
    have hpush := push_stateOf (w := w) h hlt
    rw [push_of_lt hlt] at hpush
    rw [push_of_lt hlt, ← Except.ok.inj hpush]

theorem pushAfterRd_right_stateOf (h : .redirect ∈ ls)
    (hroom : (words (ls ++ wordOrNothing w)).length ≤ maxParseNum) :
    (if w = [] then .ok (stateOf ls) else (stateOf ls).pushAfterRd w) =
      Except.ok (stateOf (ls ++ wordOrNothing w)) := by
  unfold wordOrNothing at hroom ⊢
  by_cases hw : w = []
  · rw [if_pos hw, if_pos hw, List.append_nil]
  · rw [if_neg hw] at hroom ⊢
    rw [if_neg hw]
    rw [words_append, List.length_append] at hroom
    exact pushAfterRd_stateOf h hroom

/-- A token without the redirection character. -/
theorem addToken_word (hls : Acceptable ls) (htoken : '>' ∉ token)
    (hlex : lex token = [.word token]) (hroom : (words ls).length < maxParseNum) :
    Scans (ls ++ lex token) (addToken (stateOf ls) token) := by
  rw [hlex, addToken, if_neg htoken]
  by_cases hmem : .redirect ∈ ls
  · have hafter : afterRedirect (ls ++ [.word token]) = afterRedirect ls ++ [.word token] :=
      afterRedirect_append_of_mem hmem
    have hcount : (words (afterRedirect (ls ++ [.word token]))).length =
        (words (afterRedirect ls)).length + 1 := by
      rw [hafter, words_append, List.length_append]
      rfl
    have hrd : (stateOf ls).rdFlag = true := decide_eq_true hmem
    rw [if_pos hrd]
    by_cases hone : (stateOf ls).numArgAfterRd + 1 > 1
    · rw [if_pos hone]
      refine .inr ⟨fun h ↦ ?_, .multipleArguments, by decide, rfl⟩
      exact absurd (hcount ▸ h.oneWord) (Nat.not_le.mpr hone)
    · rw [if_neg hone, pushAfterRd_stateOf hmem hroom]
      refine .inl ⟨⟨hcount ▸ Nat.not_lt.mp hone, ?_⟩, rfl⟩
      rw [hafter]
      simpa using hls.oneRedirect
  · have hrd : ¬(stateOf ls).rdFlag = true := by simpa [stateOf] using hmem
    rw [if_neg hrd, push_stateOf hmem hroom]
    refine .inl ⟨?_, rfl⟩
    constructor
    · rw [afterRedirect_append_of_notMem hmem]
      exact Nat.zero_le 1
    · rw [afterRedirect_append_of_notMem hmem]
      exact List.not_mem_nil

/-- A token with the redirection character. -/
theorem addToken_redirect {left right : Word}
    (htoken : token = left ++ '>' :: right) (hleft : '>' ∉ left)
    (hlexLeft : lex left = wordOrNothing left)
    (hlexRight : '>' ∉ right → lex right = wordOrNothing right)
    (hroom : (words (ls ++ lex token)).length ≤ maxParseNum) :
    Scans (ls ++ lex token) (addToken (stateOf ls) token) := by
  have hlex : lex token = lex left ++ .redirect :: lex right := by
    rw [htoken, lex_append_cons not_wordChar_redirect, lex_cons_redirect]
  have hmem : '>' ∈ token := by simp [htoken]
  have hleft (c : Char) (hc : c ∈ left) : decide (c ≠ '>') = true :=
    decide_eq_true fun heq ↦ hleft (heq ▸ hc)
  have htake : token.takeWhile (· ≠ '>') = left := by
    rw [htoken, List.takeWhile_append_of_pos hleft]
    exact List.append_nil left
  have hdrop : (token.dropWhile (· ≠ '>')).tail = right := by
    rw [htoken, List.dropWhile_append_of_pos hleft]
    rfl
  rw [addToken, if_pos hmem]
  simp only [htake, hdrop]
  by_cases hrd : .redirect ∈ ls
  · rw [if_pos (.inl (decide_eq_true hrd))]
    refine .inr ⟨fun h ↦ ?_, .multipleRedirections, by decide, rfl⟩
    have hone := h.oneRedirect
    rw [afterRedirect_append_of_mem hrd, hlex] at hone
    exact hone (by simp)
  · have hafter : afterRedirect (ls ++ lex token) = lex right := by
      rw [afterRedirect_append_of_notMem hrd, hlex, hlexLeft,
        afterRedirect_append_of_notMem (redirect_notMem_wordOrNothing left)]
      rfl
    by_cases hright : '>' ∈ right
    · rw [if_pos (.inr hright)]
      refine .inr ⟨fun h ↦ ?_, .multipleRedirections, by decide, rfl⟩
      have hone := h.oneRedirect
      rw [hafter] at hone
      exact hone (redirect_mem_lex_iff.mpr hright)
    · have hflag : ¬((stateOf ls).rdFlag = true ∨ '>' ∈ right) := by
        rw [not_or]
        exact ⟨by simpa [stateOf] using hrd, hright⟩
      have hlexeq : ls ++ lex token =
          ls ++ wordOrNothing left ++ [.redirect] ++ wordOrNothing right := by
        rw [hlex, hlexLeft, hlexRight hright]
        simp
      have hroom' : (words (ls ++ wordOrNothing left)).length ≤ maxParseNum := by
        rw [hlexeq] at hroom
        simp only [words_append, List.length_append] at hroom ⊢
        omega
      rw [if_neg hflag, push_left_stateOf hrd hroom']
      refine .inl ⟨⟨?_, ?_⟩, ?_⟩
      · rw [hafter, hlexRight hright]
        exact words_wordOrNothing_le right
      · rw [hafter, hlexRight hright]
        exact redirect_notMem_wordOrNothing right
      · rw [hlexeq] at hroom ⊢
        exact pushAfterRd_right_stateOf (by simp) hroom

/-- A token is a word, or what is in front of the first redirection character and behind it. -/
theorem addToken_scans (hls : Acceptable ls) (hne : token ≠ []) (htoken : ' ' ∉ token)
    (hroom : (words (ls ++ lex token)).length ≤ maxParseNum) :
    Scans (ls ++ lex token) (addToken (stateOf ls) token) := by
  have hisWord {w : Word} (hne : w ≠ []) (hblank : ' ' ∉ w) (hredirect : '>' ∉ w) : IsWord w :=
    ⟨hne, fun c hc ↦ ⟨fun heq ↦ hblank (heq ▸ hc), fun heq ↦ hredirect (heq ▸ hc)⟩⟩
  have hlex {w : Word} (hblank : ' ' ∉ w) (hredirect : '>' ∉ w) : lex w = wordOrNothing w := by
    unfold wordOrNothing
    split
    next hnil => rw [hnil, lex]
    next hne => exact lex_word (hisWord hne hblank hredirect)
  by_cases hmem : '>' ∈ token
  · obtain ⟨left, right, htoken', hleft⟩ := List.eq_append_cons_of_mem hmem
    have hblank : ' ' ∉ left ∧ ' ' ∉ right := by
      rw [htoken'] at htoken
      simpa using htoken
    exact addToken_redirect htoken' hleft (hlex hblank.1 hleft) (hlex hblank.2) hroom
  · have hword : lex token = [.word token] := lex_word (hisWord hne htoken hmem)
    rw [hword, words_append, List.length_append] at hroom
    exact addToken_word hls hmem hword hroom

/-- The whole loop. -/
theorem addTokens_scans (hls : Acceptable ls)
    (hroom : (words (ls ++ lex s)).length ≤ maxParseNum) :
    Scans (ls ++ lex s) (addTokens (stateOf ls) s) := by
  induction s using stretch_induction (p := (· == ' ')) generalizing ls with
  | nil =>
    rw [lex, List.append_nil]
    exact .inl ⟨hls, rfl⟩
  | cons c s hc ih =>
    rw [beq_iff_eq] at hc
    subst hc
    rw [lex_cons_blank] at hroom ⊢
    rw [addTokens, tokens_cons_sep (by simp)]
    exact ih hls hroom
  | stretch w s hne hw hs ih =>
    have hblank : ' ' ∉ w := fun hmem ↦ by simpa using hw _ hmem
    have hlex : lex (w ++ s) = lex w ++ lex s := by
      cases s with
      | nil => rw [List.append_nil, lex, List.append_nil]
      | cons c s =>
        obtain rfl : c = ' ' := by simpa using hs c rfl
        exact lex_append_cons not_wordChar_blank
    rw [hlex, ← List.append_assoc] at hroom ⊢
    have hroom' : (words (ls ++ lex w)).length ≤ maxParseNum := by
      rw [words_append, List.length_append] at hroom
      omega
    rw [addTokens, tokens_append_of_notMem hw hne hs, List.foldlM_cons]
    rcases addToken_scans hls hne hblank hroom' with ⟨hacceptable, heq⟩ | ⟨hnot, e, he, heq⟩
    · rw [heq]
      exact ih hacceptable hroom
    · rw [heq]
      exact .inr ⟨fun h ↦ hnot h.of_append, e, he, rfl⟩

/-! ## The newline -/

/-- The newline is not attached to a word. -/
def InputLine.newlineApart (line : InputLine) : Prop :=
  line.newline = true ∧ ∀ c ∈ line.text.getLast?, ¬wordChar c

variable {line : InputLine}

theorem wordChar_newline : wordChar '\n' := by decide

theorem lex_bytes_of_apart (h : line.newlineApart) :
    lex line.bytes = lex line.text ++ [.word ['\n']] := by
  obtain ⟨u, w, htext, hw, hu, hlex⟩ := exists_trailing line.text
  obtain rfl : w = [] := by
    by_contra hne
    have hlast := List.getLast?_eq_some_getLast hne
    refine h.2 _ ?_ (hw _ (List.getLast_mem hne))
    rw [htext, List.getLast?_append, hlast]
    rfl
  rw [List.append_nil] at htext
  rw [InputLine.bytes, if_pos h.1, htext, hlex]
  rfl

theorem lex_bytes_of_not_apart (hnewline : line.newline = true) (h : ¬line.newlineApart) :
    ∃ ls w, w ≠ [] ∧ lex line.text = ls ++ [.word w] ∧
      lex line.bytes = ls ++ [.word (w ++ ['\n'])] := by
  obtain ⟨u, w, htext, hw, hu, hlex⟩ := exists_trailing line.text
  have hne : w ≠ [] := by
    rintro rfl
    rw [List.append_nil] at htext
    exact h ⟨hnewline, htext ▸ hu⟩
  have hword : IsWord (w ++ ['\n']) := by
    refine ⟨by simp, fun c hc ↦ ?_⟩
    rcases List.mem_append.mp hc with hc | hc
    · exact hw c hc
    · rw [List.mem_singleton.mp hc]
      exact wordChar_newline
  refine ⟨lex u, w, hne, ?_, ?_⟩
  · rw [htext, hlex, lex_word ⟨hne, hw⟩]
  · rw [InputLine.bytes, if_pos hnewline, htext, List.append_assoc, hlex, lex_word hword]

theorem lex_bytes_of_not_newline (h : line.newline = false) : lex line.bytes = lex line.text := by
  rw [InputLine.bytes, if_neg (by simp [h])]

/-- The words of a line fit into `arg_arr`. -/
theorem words_bytes_le (line : InputLine) : (words (lex line.bytes)).length ≤ maxParseNum := by
  have hwords := words_lex_le line.bytes
  have hlength : line.bytes.length < maxCommandLen := by
    have hfits := line.fits
    unfold InputLine.bytes
    cases hn : line.newline with
    | true => simpa [hn] using hfits
    | false =>
      simp only [hn, Bool.false_eq_true, if_false] at hfits ⊢
      exact lt_of_le_of_lt hfits (by decide)
  simp only [maxParseNum, maxCommandLen] at hlength ⊢
  omega

theorem words_text_lt (line : InputLine) : (words (lex line.text)).length < maxParseNum := by
  have hwords := words_lex_le line.text
  have hfits := line.fits
  cases hn : line.newline with
  | true =>
    simp only [hn, if_true, maxCommandLen, maxParseNum] at hfits ⊢
    omega
  | false =>
    simp only [hn, Bool.false_eq_true, if_false, maxParseNum] at hfits ⊢
    omega

theorem mem_words_lex (hw : w ∈ words (lex s)) : IsWord w ∧ ∀ c ∈ w, c ∈ s := by
  induction s using text_induction with
  | nil => exact absurd hw List.not_mem_nil
  | blank s ih =>
    rw [lex_cons_blank] at hw
    exact ⟨(ih hw).1, fun c hc ↦ List.mem_cons_of_mem _ ((ih hw).2 c hc)⟩
  | redirect s ih =>
    rw [lex_cons_redirect, words_cons_redirect] at hw
    exact ⟨(ih hw).1, fun c hc ↦ List.mem_cons_of_mem _ ((ih hw).2 c hc)⟩
  | word v s hv hs ih =>
    rw [lex_word_append hv hs, words_cons_word] at hw
    rcases List.mem_cons.mp hw with rfl | hw
    · exact ⟨hv, fun c hc ↦ List.mem_append_left s hc⟩
    · exact ⟨(ih hw).1, fun c hc ↦ List.mem_append_right v ((ih hw).2 c hc)⟩

theorem stripNewline_append (args : List Word) :
    stripNewline (args ++ [w ++ ['\n']]) = some (args ++ if w = [] then [] else [w]) := by
  rw [stripNewline, List.getLast?_concat]
  by_cases hw : w = []
  · simp [hw]
  · have hlength : 0 < w.length := List.length_pos_iff.mpr hw
    simp [hw, hlength]

/-- Without its newline a line has the words of its text. -/
theorem stripNewline_words (h : line.newline = true ∨ words (lex line.text) ≠ []) :
    stripNewline (words (lex line.bytes)) = some (words (lex line.text)) := by
  by_cases hnewline : line.newline = true
  · by_cases hapart : line.newlineApart
    · have hstrip := stripNewline_append (w := []) (words (lex line.text))
      rw [lex_bytes_of_apart hapart, words_append]
      simpa using hstrip
    · obtain ⟨ls, w, hne, htext, hbytes⟩ := lex_bytes_of_not_apart hnewline hapart
      have hstrip := stripNewline_append (w := w) (words ls)
      rw [htext, hbytes, words_append, words_append]
      simpa [hne] using hstrip
  · have hne := h.resolve_left hnewline
    rw [lex_bytes_of_not_newline (by simpa using hnewline), stripNewline,
      List.getLast?_eq_some_getLast hne]
    have hlast : '\n' ∉ (words (lex line.text)).getLast hne := fun hmem ↦
      line.noNewline ((mem_words_lex (List.getLast_mem hne)).2 _ hmem)
    have hend : ((words (lex line.text)).getLast hne).getLast? ≠ some '\n' := fun heq ↦
      hlast (List.mem_of_getLast? heq)
    have hhead : ((words (lex line.text)).getLast hne).head? ≠ some '\n' := fun heq ↦
      hlast (List.mem_of_head? heq)
    simp only [hend, hhead, and_false, if_false]

end CS537.Shell
