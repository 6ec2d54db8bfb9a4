import CS537.Shell.Lines

/-!
# Command lines and the commands they start

A command line consists of the words of a command, a file for its output if there is one, and a mark
for the background.  `parse_command` starts the commands of some such lines; others, and lines of
other forms, have words taken for arguments, files and marks that they are not.
-/

namespace CS537.Shell

open Foundation

def amp : Word := ['&']

/-- The words of a command with the file its output is redirected to. -/
structure CommandLine where
  words : List Word
  file : Option Word
  background : Bool
  nonempty : words ≠ []
  lastNotAmp : words.getLast? ≠ some amp

def CommandLine.lexemes (c : CommandLine) : List Lexeme :=
  c.words.map .word ++ ((c.file.map fun f ↦ [.redirect, .word f]).getD [] ++
    if c.background then [.word amp] else [])

/-- The line consists of this command line, with any number of blanks. -/
def InputLine.Denotes (line : InputLine) (c : CommandLine) : Prop := Renders c.lexemes line.text

def IsBuiltIn (args : List Word) : Prop :=
  args = [exitCmd] ∨ args = [jobsCmd] ∨ ∃ w, args = [waitCmd, w]

/-- The last word is a mark for the background. -/
def markedBackground (args : List Word) : Bool := decide (args.getLast? = some amp)

/-- The words that are left for the command: all but one for the background and one for the
redirection. -/
def commandWords (args : List Word) (rdFlag : Bool) : List Word :=
  args.take (args.length - (markedBackground args).toNat - rdFlag.toNat)

variable {line : InputLine} {args : List Word} {argc : ℤ} {bgFlag rdFlag : Bool} {c : CommandLine}

theorem checkBuiltIn_one (a : Word) (args : List Word) :
    checkBuiltIn (a :: args) 1 =
      if a = exitCmd then some .exit else if a = jobsCmd then some .jobs else none := by
  simp [checkBuiltIn]

theorem checkBuiltIn_two (a b : Word) (args : List Word) :
    checkBuiltIn (a :: b :: args) 2 =
      if a = waitCmd then if isnumber b then some (.wait (atoi b)) else some .waitInvalid
      else none := by
  simp [checkBuiltIn]

theorem checkBuiltIn_of_ne (h1 : argc ≠ 1) (h2 : argc ≠ 2) : checkBuiltIn args argc = none := by
  rw [checkBuiltIn, if_neg h1, if_neg fun h ↦ h2 h.1]

/-- A built-in command is recognised by its words, and starts no process. -/
theorem checkBuiltIn_cases (hargc : argc.toNat ≤ args.length) :
    (IsBuiltIn (args.take argc.toNat) ∧ ∃ command, checkBuiltIn args argc = some command ∧
        command ≠ .undefined ∧ command.calls = []) ∨
      ¬IsBuiltIn (args.take argc.toNat) ∧ checkBuiltIn args argc = none := by
  by_cases h1 : argc = 1
  · subst h1
    obtain ⟨a, rest, rfl⟩ := List.exists_cons_of_length_pos (Nat.lt_of_lt_of_le Nat.one_pos hargc)
    have hbuiltIn : IsBuiltIn [a] ↔ a = exitCmd ∨ a = jobsCmd := by simp [IsBuiltIn]
    change (IsBuiltIn [a] ∧ _) ∨ ¬IsBuiltIn [a] ∧ _
    rw [hbuiltIn, checkBuiltIn_one]
    by_cases hexit : a = exitCmd
    · exact .inl ⟨.inl hexit, .exit, if_pos hexit, by decide, rfl⟩
    · by_cases hjobs : a = jobsCmd
      · exact .inl ⟨.inr hjobs, .jobs, by rw [if_neg hexit, if_pos hjobs], by decide, rfl⟩
      · exact .inr ⟨not_or.mpr ⟨hexit, hjobs⟩, by rw [if_neg hexit, if_neg hjobs]⟩
  · by_cases h2 : argc = 2
    · subst h2
      match args, hargc with
      | a :: b :: rest, _ =>
        have hbuiltIn : IsBuiltIn [a, b] ↔ a = waitCmd := by simp [IsBuiltIn]
        change (IsBuiltIn [a, b] ∧ _) ∨ ¬IsBuiltIn [a, b] ∧ _
        rw [hbuiltIn, checkBuiltIn_two]
        by_cases hwait : a = waitCmd
        · rw [if_pos hwait]
          by_cases hnumber : isnumber b = true
          · exact .inl ⟨hwait, .wait (atoi b), if_pos hnumber, Command.noConfusion, rfl⟩
          · exact .inl ⟨hwait, .waitInvalid, if_neg hnumber, Command.noConfusion, rfl⟩
        · exact .inr ⟨hwait, if_neg hwait⟩
    · refine .inr ⟨fun hbuiltIn ↦ ?_, checkBuiltIn_of_ne h1 h2⟩
      have hlength : (args.take argc.toNat).length = argc.toNat := List.length_take_of_le hargc
      rcases hbuiltIn with heq | heq | ⟨w, heq⟩ <;> rw [heq] at hlength <;> simp at hlength <;> omega

/-- `argc`, which is negative for the line `>&`. -/
def argcOf (args : List Word) (rdFlag : Bool) : ℤ :=
  args.length - (markedBackground args).toNat - rdFlag.toNat

theorem commandWords_eq : commandWords args rdFlag = args.take (argcOf args rdFlag).toNat := by
  have htoNat : (argcOf args rdFlag).toNat =
      args.length - (markedBackground args).toNat - rdFlag.toNat := by
    rw [argcOf]
    omega
  rw [htoNat, commandWords]

theorem runArgs_eq (hargs : args ≠ []) :
    runArgs args rdFlag = (checkBuiltIn args (argcOf args rdFlag)).getD
      (funcGeneralCmd args (argcOf args rdFlag) (markedBackground args) rdFlag) := by
  unfold runArgs argcOf markedBackground
  rw [List.getLast?_eq_some_getLast hargs]
  simp only [Option.some.injEq, amp]

/-- What `parse_command` does with the words of a line. -/
theorem runArgs_cases (rdFlag : Bool) (hargs : args ≠ []) :
    (IsBuiltIn (commandWords args rdFlag) ∧ runArgs args rdFlag ≠ .undefined ∧
        (runArgs args rdFlag).calls = []) ∨
      ¬IsBuiltIn (commandWords args rdFlag) ∧ runArgs args rdFlag =
        funcGeneralCmd args (argcOf args rdFlag) (markedBackground args) rdFlag := by
  have hargc : (argcOf args rdFlag).toNat ≤ args.length := by
    rw [argcOf]
    omega
  rw [commandWords_eq, runArgs_eq hargs]
  rcases checkBuiltIn_cases hargc with ⟨hbuiltIn, command, hcommand, heffect⟩ | ⟨hbuiltIn, hnone⟩
  · rw [hcommand]
    exact .inl ⟨hbuiltIn, heffect⟩
  · rw [hnone]
    exact .inr ⟨hbuiltIn, rfl⟩

/-- A process is started, or memory out of bounds is accessed. -/
theorem funcGeneralCmd_effect :
    funcGeneralCmd args argc bgFlag rdFlag = .undefined ∨
      (funcGeneralCmd args argc bgFlag rdFlag).calls ≠ [] := by
  unfold funcGeneralCmd
  split
  · exact .inl rfl
  · split
    · split
      · exact .inr (List.cons_ne_nil _ _)
      · exact .inl rfl
    · exact .inr (List.cons_ne_nil _ _)

theorem funcGeneralCmd_background {argv : List Word} {redirect : Option Word} {background : Bool}
    (h : funcGeneralCmd args argc bgFlag rdFlag = .general argv redirect background) :
    background = bgFlag := by
  unfold funcGeneralCmd at h
  split at h
  · exact Command.noConfusion h
  · split at h
    · split at h
      · exact (Command.general.inj h).2.2.symm
      · exact Command.noConfusion h
    · exact (Command.general.inj h).2.2.symm

theorem parseCommand_of_not_acceptable (h : ¬Acceptable (lex line.bytes)) :
    ∃ e, parseCommand line.bytes = .rejected e := by
  have hstart : Acceptable [] := ⟨Nat.zero_le 1, List.not_mem_nil⟩
  rcases addTokens_scans (s := line.bytes) hstart (words_bytes_le line) with ⟨hls, -⟩ | ⟨-, e, he, heq⟩
  · exact absurd hls h
  · refine ⟨e, ?_⟩
    unfold parseCommand
    rw [show (⟨[], false, 0⟩ : ParseState) = stateOf [] from rfl, heq]
    cases e with
    | overflow => exact absurd rfl he
    | multipleRedirections => rfl
    | multipleArguments => rfl

theorem redirect_mem_bytes : .redirect ∈ lex line.bytes ↔ .redirect ∈ lex line.text := by
  rw [redirect_mem_lex_iff, redirect_mem_lex_iff, InputLine.bytes]
  split
  · simp
  · rfl

theorem parseCommand_of_acceptable (h : Acceptable (lex line.bytes)) :
    parseCommand line.bytes =
      if line.newline = true ∨ words (lex line.text) ≠ [] then
        runArgs (words (lex line.text)) (decide (.redirect ∈ lex line.text))
      else .undefined := by
  have hstart : Acceptable [] := ⟨Nat.zero_le 1, List.not_mem_nil⟩
  rcases addTokens_scans (s := line.bytes) hstart (words_bytes_le line) with ⟨-, heq⟩ | ⟨hls, -⟩
  · unfold parseCommand
    rw [show (⟨[], false, 0⟩ : ParseState) = stateOf [] from rfl, heq, List.nil_append]
    dsimp only [stateOf]
    by_cases hwords : line.newline = true ∨ words (lex line.text) ≠ []
    · rw [if_pos hwords, stripNewline_words hwords, decide_eq_decide.mpr redirect_mem_bytes]
    · obtain ⟨hnewline, hnone⟩ := not_or.mp hwords
      rw [if_neg hwords, lex_bytes_of_not_newline (by simpa using hnewline), not_not.mp hnone]
      rfl
  · exact absurd h hls

/-- The effect on a line from which no process may be started. -/
theorem starts_nothing_iff (line : InputLine) :
    parseCommand line.bytes ≠ .undefined ∧ (parseCommand line.bytes).calls = [] ↔
      ¬Acceptable (lex line.bytes) ∨ (words (lex line.text) = [] ∧ line.newline = true) ∨
        IsBuiltIn (commandWords (words (lex line.text)) (decide (.redirect ∈ lex line.text))) := by
  by_cases hacceptable : Acceptable (lex line.bytes)
  · rw [parseCommand_of_acceptable hacceptable, or_iff_right (not_not.mpr hacceptable)]
    by_cases hwords : words (lex line.text) = []
    · have hnot : ¬IsBuiltIn (commandWords [] (decide (.redirect ∈ lex line.text))) := by
        simp [commandWords, IsBuiltIn]
      rw [hwords, or_iff_left hnot, and_iff_right rfl]
      by_cases hnewline : line.newline = true
      · rw [if_pos (.inl hnewline)]
        exact iff_of_true ⟨Command.noConfusion, rfl⟩ hnewline
      · rw [if_neg (not_or.mpr ⟨hnewline, not_not.mpr rfl⟩)]
        exact iff_of_false (fun h ↦ h.1 rfl) hnewline
    · rw [if_pos (.inr hwords), or_iff_right fun h ↦ hwords h.1]
      rcases runArgs_cases (decide (.redirect ∈ lex line.text)) hwords with
        ⟨hbuiltIn, heffect⟩ | ⟨hbuiltIn, hgeneral⟩
      · exact iff_of_true heffect hbuiltIn
      · refine iff_of_false (fun h ↦ ?_) hbuiltIn
        rw [hgeneral] at h
        exact funcGeneralCmd_effect.elim h.1 fun hcalls ↦ hcalls h.2
  · obtain ⟨e, he⟩ := parseCommand_of_not_acceptable hacceptable
    rw [he]
    exact iff_of_true ⟨Command.noConfusion, rfl⟩ (.inl hacceptable)

/-! ## Lines of the grammar -/

theorem words_map (ws : List Word) : Shell.words (ws.map .word) = ws := by
  induction ws with
  | nil => rfl
  | cons w ws ih => rw [List.map_cons, words_cons_word, ih]

theorem redirect_notMem_map (ws : List Word) : .redirect ∉ ws.map Lexeme.word := by
  simp

/-- A newline behind a word changes the word only. -/
theorem acceptable_append_word {w w' : Word} {ls : List Lexeme} (h : Acceptable (ls ++ [.word w])) :
    Acceptable (ls ++ [.word w']) := by
  by_cases hmem : .redirect ∈ ls
  · obtain ⟨hone, hredirect⟩ := h
    rw [afterRedirect_append_of_mem hmem] at hone hredirect
    constructor
    · rw [afterRedirect_append_of_mem hmem]
      simpa using hone
    · rw [afterRedirect_append_of_mem hmem]
      simpa using hredirect
  · constructor
    · rw [afterRedirect_append_of_notMem hmem]
      exact Nat.zero_le 1
    · rw [afterRedirect_append_of_notMem hmem]
      exact List.not_mem_nil

theorem acceptable_bytes_of_not_apart (h : ¬line.newlineApart) (htext : Acceptable (lex line.text)) :
    Acceptable (lex line.bytes) := by
  by_cases hnewline : line.newline = true
  · obtain ⟨ls, w, -, hlex, hbytes⟩ := lex_bytes_of_not_apart hnewline h
    rw [hlex] at htext
    rw [hbytes]
    exact acceptable_append_word htext
  · rwa [lex_bytes_of_not_newline (by simpa using hnewline)]

theorem acceptable_text_of_bytes (h : Acceptable (lex line.bytes)) : Acceptable (lex line.text) := by
  by_cases hnewline : line.newline = true
  · by_cases hapart : line.newlineApart
    · rw [lex_bytes_of_apart hapart] at h
      exact h.of_append
    · obtain ⟨ls, w, -, hlex, hbytes⟩ := lex_bytes_of_not_apart hnewline hapart
      rw [hbytes] at h
      rw [hlex]
      exact acceptable_append_word h
  · rwa [lex_bytes_of_not_newline (by simpa using hnewline)] at h

theorem acceptable_of_notMem {ls : List Lexeme} (h : .redirect ∉ ls) : Acceptable ls := by
  constructor
  · rw [afterRedirect_of_notMem h]
    exact Nat.zero_le 1
  · rw [afterRedirect_of_notMem h]
    exact List.not_mem_nil

/-- The words behind those of the command are one for each flag. -/
theorem argcOf_append {ws rest : List Word}
    (hrest : rest.length = (markedBackground (ws ++ rest)).toNat + rdFlag.toNat) :
    argcOf (ws ++ rest) rdFlag = ws.length := by
  rw [argcOf, List.length_append, hrest]
  omega

/-- A command whose words are followed by one word for each flag is started. -/
theorem runArgs_append {ws rest : List Word} (hne : ws ≠ []) (hbuiltIn : ¬IsBuiltIn ws)
    (hrest : rest.length = (markedBackground (ws ++ rest)).toNat + rdFlag.toNat)
    (hroom : (ws ++ rest).length < maxParseNum) :
    runArgs (ws ++ rest) rdFlag =
      .general ws (if rdFlag then rest.head? else none) (markedBackground (ws ++ rest)) := by
  have hargc := argcOf_append hrest
  have htake : (ws ++ rest).take ws.length = ws := List.take_left
  have hwords : commandWords (ws ++ rest) rdFlag = ws := by
    rw [commandWords_eq, hargc, Int.toNat_natCast, htake]
  rcases runArgs_cases rdFlag (List.append_ne_nil_of_left_ne_nil hne rest) with
    ⟨hbuiltIn', -⟩ | ⟨-, hrun⟩
  · rw [hwords] at hbuiltIn'
    exact absurd hbuiltIn' hbuiltIn
  · rw [List.length_append] at hroom
    have hdefined : ¬((ws.length : ℤ) < 0 ∨ (maxParseNum : ℤ) ≤ ws.length) := by omega
    rw [hrun, hargc, funcGeneralCmd, if_neg hdefined, Int.toNat_natCast, htake]
    cases rdFlag with
    | false => rfl
    | true =>
      obtain ⟨f, rest, rfl⟩ : ∃ f rest', rest = f :: rest' := by
        refine List.exists_cons_of_length_pos ?_
        rw [hrest]
        exact Nat.succ_pos _
      rw [List.getElem?_append_right le_rfl, Nat.sub_self]
      rfl

theorem words_lexemes (c : CommandLine) :
    Shell.words c.lexemes = c.words ++ (c.file.toList ++ if c.background then [amp] else []) := by
  rw [CommandLine.lexemes, words_append, words_append, words_map]
  cases c.file <;> cases c.background <;> rfl

/-- Without a redirection the command of the line is started. -/
theorem parseCommand_no_file (hline : lex line.text = c.lexemes) (hfile : c.file = none)
    (hbuiltIn : ¬IsBuiltIn c.words) :
    parseCommand line.bytes = .general c.words c.file c.background := by
  have hwords : Shell.words (lex line.text) = c.words ++ if c.background then [amp] else [] := by
    rw [hline, words_lexemes, hfile]
    rfl
  have hredirect : .redirect ∉ lex line.text := by
    rw [hline, CommandLine.lexemes, hfile]
    cases c.background <;> simp
  have hmarked : markedBackground (c.words ++ if c.background then [amp] else []) = c.background := by
    cases hb : c.background with
    | true => simp [markedBackground]
    | false => simpa [markedBackground] using c.lastNotAmp
  have hrest : (if c.background then [amp] else []).length =
      (markedBackground (c.words ++ if c.background then [amp] else [])).toNat + false.toNat := by
    rw [hmarked]
    cases c.background <;> rfl
  have hroom := words_text_lt line
  have hne := List.append_ne_nil_of_left_ne_nil c.nonempty (if c.background then [amp] else [])
  rw [hwords] at hroom
  rw [parseCommand_of_acceptable (acceptable_of_notMem (mt redirect_mem_bytes.mp hredirect)),
    decide_eq_false hredirect, hwords, if_pos (.inr hne),
    runArgs_append c.nonempty hbuiltIn hrest hroom, hmarked, hfile]
  rfl

theorem afterRedirect_lexemes {f : Word} (hfile : c.file = some f) :
    afterRedirect c.lexemes = .word f :: if c.background then [.word amp] else [] := by
  rw [CommandLine.lexemes, hfile, afterRedirect_append_of_notMem (redirect_notMem_map _)]
  rfl

/-- With a redirection it is started if the line ends with the file, which is no mark. -/
theorem parseCommand_file {f : Word} (hline : lex line.text = c.lexemes) (hfile : c.file = some f)
    (hbuiltIn : ¬IsBuiltIn c.words) :
    parseCommand line.bytes = .general c.words c.file c.background ↔
      c.background = false ∧ f ≠ amp ∧ ¬line.newlineApart := by
  have hredirect : .redirect ∈ lex line.text := by
    rw [hline, CommandLine.lexemes, hfile]
    simp
  have hafter : afterRedirect (lex line.text) =
      .word f :: if c.background then [.word amp] else [] := by
    rw [hline, afterRedirect_lexemes hfile]
  by_cases hacceptable : Acceptable (lex line.bytes)
  · have hbackground : c.background = false := by
      have hone := (acceptable_text_of_bytes hacceptable).oneWord
      rw [hafter] at hone
      cases hb : c.background with
      | false => rfl
      | true => simp [hb] at hone
    have hapart : ¬line.newlineApart := fun hapart ↦ by
      have hone := hacceptable.oneWord
      rw [lex_bytes_of_apart hapart, afterRedirect_append_of_mem hredirect, hafter] at hone
      simp at hone
    have hwords : Shell.words (lex line.text) = c.words ++ [f] := by
      rw [hline, words_lexemes, hfile, hbackground]
      rfl
    have hne : c.words ++ [f] ≠ [] := by simp
    have hmarked : markedBackground (c.words ++ [f]) = decide (f = amp) :=
      decide_eq_decide.mpr (by rw [List.getLast?_concat, Option.some.injEq])
    rw [parseCommand_of_acceptable hacceptable, decide_eq_true hredirect, hwords,
      if_pos (.inr hne), hbackground, hfile]
    by_cases hamp : f = amp
    · -- The file is taken for the mark.
      refine iff_of_false (fun hrun ↦ ?_) fun h ↦ h.2.1 hamp
      rcases runArgs_cases true hne with ⟨-, -, hcalls⟩ | ⟨-, hgeneral⟩
      · rw [hrun] at hcalls
        exact absurd hcalls (List.cons_ne_nil _ _)
      · rw [hgeneral] at hrun
        have hmark := funcGeneralCmd_background hrun
        rw [hmarked, decide_eq_true hamp] at hmark
        exact absurd hmark Bool.false_ne_true
    · have hrest : [f].length = (markedBackground (c.words ++ [f])).toNat + true.toNat := by
        rw [hmarked, decide_eq_false hamp]
        rfl
      have hroom := words_text_lt line
      rw [hwords] at hroom
      rw [runArgs_append c.nonempty hbuiltIn hrest hroom, hmarked, decide_eq_false hamp]
      exact iff_of_true rfl ⟨rfl, hamp, hapart⟩
  · obtain ⟨e, he⟩ := parseCommand_of_not_acceptable hacceptable
    rw [he]
    refine iff_of_false Command.noConfusion fun ⟨hbackground, _, hapart⟩ ↦ hacceptable ?_
    refine acceptable_bytes_of_not_apart hapart ⟨?_, ?_⟩
    · rw [hafter, hbackground]
      exact le_rfl
    · rw [hafter, hbackground]
      simp

/-! ## When `parse_command` follows the grammar -/

/-- A line with a command starts it, and another line starts nothing. -/
def InputLine.Obeyed (line : InputLine) : Prop :=
  (∀ c, line.Denotes c → ¬IsBuiltIn c.words →
      parseCommand line.bytes = .general c.words c.file c.background) ∧
    ((∀ c, ¬line.Denotes c) →
      parseCommand line.bytes ≠ .undefined ∧ (parseCommand line.bytes).calls = [])

/-- The lines that `parse_command` understands. -/
def InputLine.Understood (line : InputLine) : Prop :=
  (∀ c, line.Denotes c → ¬IsBuiltIn c.words →
      c.file = none ∨ c.background = false ∧ c.file ≠ some amp ∧ ¬line.newlineApart) ∧
    ((∀ c, ¬line.Denotes c) →
      ¬Acceptable (lex line.bytes) ∨ (words (lex line.text) = [] ∧ line.newline = true) ∨
        IsBuiltIn (commandWords (words (lex line.text)) (decide (.redirect ∈ lex line.text))))

theorem obeyed_iff_understood (line : InputLine) : line.Obeyed ↔ line.Understood := by
  have hcommand (c : CommandLine) (hline : line.Denotes c) (hbuiltIn : ¬IsBuiltIn c.words) :
      parseCommand line.bytes = .general c.words c.file c.background ↔
        c.file = none ∨ c.background = false ∧ c.file ≠ some amp ∧ ¬line.newlineApart := by
    have hlex := renders_iff_lex.mp hline
    by_cases hfile : c.file = none
    · exact iff_of_true (parseCommand_no_file hlex hfile hbuiltIn) (.inl hfile)
    · obtain ⟨f, hf⟩ := Option.ne_none_iff_exists'.mp hfile
      rw [parseCommand_file hlex hf hbuiltIn, or_iff_right hfile, hf, ne_eq, ne_eq,
        Option.some.injEq]
  constructor
  · rintro ⟨hdenotes, hother⟩
    exact ⟨fun c hline hbuiltIn ↦ (hcommand c hline hbuiltIn).mp (hdenotes c hline hbuiltIn),
      fun hnone ↦ (starts_nothing_iff line).mp (hother hnone)⟩
  · rintro ⟨hdenotes, hother⟩
    exact ⟨fun c hline hbuiltIn ↦ (hcommand c hline hbuiltIn).mpr (hdenotes c hline hbuiltIn),
      fun hnone ↦ (starts_nothing_iff line).mpr (hother hnone)⟩

/-- The line `ls > f &`, for which no process is started. -/
def listToFile : InputLine where
  text := ['l', 's', ' ', '>', ' ', 'f', ' ', '&']
  newline := true
  noNewline := by decide
  noNul := by decide
  fits := by decide

/-- The line `ls >`, on which the shell unlinks `ls`. -/
def noFile : InputLine where
  text := ['l', 's', ' ', '>']
  newline := true
  noNewline := by decide
  noNul := by decide
  fits := by decide

/-- A command in the background with its output in a file is rejected; without a file the command
is taken for it. -/
theorem redirections_not_obeyed :
    (∃ c : CommandLine, listToFile.Denotes c ∧ ¬IsBuiltIn c.words ∧
        parseCommand listToFile.bytes = .rejected .multipleArguments) ∧
      ((∀ c, ¬noFile.Denotes c) ∧
        (parseCommand noFile.bytes).calls =
          [.fork, .unlink ['l', 's'], .openCreate ['l', 's'], .execvp []]) ∧
      ¬listToFile.Obeyed ∧ ¬noFile.Obeyed := by
  have hlist : listToFile.Denotes
      ⟨[['l', 's']], some ['f'], true, List.cons_ne_nil _ _, by decide⟩ :=
    renders_iff_lex.mpr (by decide)
  have hbuiltIn : ¬IsBuiltIn [['l', 's']] := by
    simp [IsBuiltIn, exitCmd, jobsCmd]
  have hrejected : parseCommand listToFile.bytes = .rejected .multipleArguments := by decide
  have hunlink : parseCommand noFile.bytes = .general [] (some ['l', 's']) false := by decide
  have hnone (c : CommandLine) : ¬noFile.Denotes c := by
    intro hline
    have hlex : c.lexemes = [.word ['l', 's'], .redirect] :=
      (renders_iff_lex.mp hline).symm.trans (by decide)
    cases hfile : c.file with
    | none =>
      have hredirect : .redirect ∉ c.lexemes := by
        rw [CommandLine.lexemes, hfile]
        cases c.background <;> simp
      rw [hlex] at hredirect
      exact hredirect (by simp)
    | some f =>
      have hafter := afterRedirect_lexemes hfile
      rw [hlex] at hafter
      exact absurd hafter.symm (List.cons_ne_nil _ _)
  refine ⟨⟨_, hlist, hbuiltIn, hrejected⟩, ⟨hnone, by rw [hunlink]; rfl⟩, fun h ↦ ?_, fun h ↦ ?_⟩
  · have hstarted := h.1 _ hlist hbuiltIn
    rw [hrejected] at hstarted
    exact Command.noConfusion hstarted
  · have hcalls := (h.2 hnone).2
    rw [hunlink] at hcalls
    exact absurd hcalls (List.cons_ne_nil _ _)

end CS537.Shell
