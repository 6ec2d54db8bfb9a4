import CS537.Foundation.Accesses
import CS537.Shell.CommandLines

/-!
# The token array

`parse_command` stores the words of a line in `arg_arr`, an array of `MAX_PARSE_NUM` elements on its
stack, and `func_general_cmd` uses them as its arguments.  This module lists the accesses on a line in
their order, and determines on which lines they stay among the elements that have been stored.
-/

namespace CS537.Shell

open Foundation

/-! ## The accesses on a line -/

/-- The body of the loop over the tokens; `num_parse` is the number of the words so far. -/
def tokenAccesses (st : ParseState) (token : Word) : List Access :=
  if '>' ∈ token then
    let left := token.takeWhile (· ≠ '>')
    let right := (token.dropWhile (· ≠ '>')).tail
    if st.rdFlag ∨ '>' ∈ right then []
    else
      let numParse := if left = [] then st.args.length else st.args.length + 1
      (if left = [] then [] else [.store st.args.length]) ++
        if right = [] then [] else [.store numParse]
  else if st.rdFlag ∧ st.numArgAfterRd + 1 > 1 then []
  else [.store st.args.length]

/-- The loop. -/
def loopAccesses (st : ParseState) : List Word → List Access
  | [] => []
  | token :: rest =>
    tokenAccesses st token ++ match addToken st token with
      | .ok st => loopAccesses st rest
      | .error _ => []

/-- `check_built_in`: each word is compared with `wait` or with the commands without an argument. -/
def builtInAccesses (args : List Word) (argc : ℤ) : List Access :=
  if argc = 1 then [.load 0]
  else if argc = 2 then .load 0 :: if args[0]? = some waitCmd then [.load 1] else []
  else []

/-- `func_general_cmd`: the file is loaded before the fork.  The parent hands the arguments of a job in
the background to `job_arr_add`; the child stores the null pointer in its own copy of the array, from
which `execvp` takes the program. -/
def generalAccesses (argc : ℤ) (bgFlag rdFlag : Bool) : List Access :=
  (if rdFlag then [.load argc] else []) ++
    ((if bgFlag then ((List.range argc.toNat).map Int.ofNat).map .load else []) ++
      [.store argc, .load 0])

/-- The rest of `parse_command`, from the words without the newline on. -/
def runAccesses (args : List Word) (rdFlag : Bool) : List Access :=
  if args = [] then []
  else
    let bgFlag := markedBackground args
    let argc := argcOf args rdFlag
    .load (args.length - 1) :: (builtInAccesses args argc ++
      if checkBuiltIn args argc = none then generalAccesses argc bgFlag rdFlag else [])

/-- `parse_command`; the last word is loaded to look for the newline. -/
def parseAccesses (command : List Char) : List Access :=
  loopAccesses ⟨[], false, 0⟩ (tokens (· == ' ') command) ++
    match addTokens ⟨[], false, 0⟩ command with
    | .error _ => []
    | .ok st => .load (st.args.length - 1) :: match stripNewline st.args with
      | none => []
      | some args => runAccesses args st.rdFlag

/-- The accesses to the array on a line stay among its elements that have been stored. -/
def InputLine.Contained (line : InputLine) : Prop :=
  Orderly maxParseNum [] (parseAccesses line.bytes)

/-- There is no word on a line without a newline, or only a mark for the background on a line with a
redirection. -/
structure InputLine.Wordless (line : InputLine) : Prop where
  acceptable : Acceptable (lex line.bytes)
  words : line.newline = false ∧ Shell.words (lex line.text) = [] ∨
    .redirect ∈ lex line.text ∧ Shell.words (lex line.text) = [amp]

variable {line : InputLine} {st st' : ParseState} {token : Word} {stored : List ℤ}

/-! ## The loop -/

/-- The accesses stay inside from a state on whose words have been stored, and if a new state is
reached its words have been stored, too. -/
def Stores (stored : List ℤ) (as : List Access) (result : Except ParseError ParseState) : Prop :=
  Orderly maxParseNum stored as ∧
    ∀ st', result = .ok st' → Filled (storedBy stored as) st'.args.length

theorem stores_nil (h : Filled stored st.args.length) (hargs : st'.args = st.args) :
    Stores stored [] (.ok st') := by
  refine ⟨trivial, fun st'' heq ↦ ?_⟩
  obtain rfl := Except.ok.inj heq
  rwa [hargs]

theorem stores_push (hfilled : Filled stored st.args.length) (h : st.push token ≠ .error .overflow) :
    Stores stored [.store st.args.length] (st.push token) := by
  unfold ParseState.push at h ⊢
  split
  next hlt =>
    refine ⟨⟨⟨Int.natCast_nonneg _, Int.ofNat_lt.mpr hlt⟩, trivial⟩, fun st' heq ↦ ?_⟩
    obtain rfl := Except.ok.inj heq
    rw [List.length_append]
    exact hfilled.store
  next hge => exact absurd (if_neg hge) h

theorem Stores.bind {as bs : List Access} {m : Except ParseError ParseState}
    {f : ParseState → Except ParseError ParseState} (h : m.bind f ≠ .error .overflow)
    (hm : m ≠ .error .overflow → Stores stored as m)
    (hf : ∀ st', m = .ok st' → Filled (storedBy stored as) st'.args.length →
      f st' ≠ .error .overflow → Stores (storedBy stored as) bs (f st'))
    (herror : ∀ e, m = .error e → e ≠ .overflow → bs = []) :
    Stores stored (as ++ bs) (m.bind f) := by
  cases m with
  | error e =>
    have he : e ≠ .overflow := fun heq ↦ h (congrArg _ heq)
    rw [herror e rfl he, List.append_nil]
    exact ⟨(hm h).1, nofun⟩
  | ok st =>
    have hfirst := hm nofun
    have hrest := hf st rfl (hfirst.2 st rfl) h
    refine ⟨orderly_append.mpr ⟨hfirst.1, hrest.1⟩, fun st' heq ↦ ?_⟩
    rw [storedBy_append]
    exact hrest.2 st' heq

theorem length_of_push (h : st.push token = .ok st') : st'.args.length = st.args.length + 1 := by
  unfold ParseState.push at h
  split at h
  · obtain rfl := Except.ok.inj h
    exact List.length_append
  · exact nomatch h

theorem push_error {e : ParseError} (h : st.push token = .error e) : e = .overflow := by
  unfold ParseState.push at h
  split at h
  · exact nomatch h
  · exact (Except.error.inj h).symm

theorem stores_pushAfterRd (hfilled : Filled stored st.args.length)
    (h : st.pushAfterRd token ≠ .error .overflow) :
    Stores stored [.store st.args.length] (st.pushAfterRd token) := by
  have hargs : ({ st with numArgAfterRd := st.numArgAfterRd + 1 } : ParseState).args = st.args := rfl
  rw [← hargs] at hfilled
  exact stores_push hfilled h

/-- The part of a token behind the redirection character. -/
theorem stores_right (hfilled : Filled stored st.args.length)
    (h : (if token = [] then .ok st else st.pushAfterRd token) ≠ Except.error .overflow) :
    Stores stored (if token = [] then [] else [.store st.args.length])
      (if token = [] then .ok st else st.pushAfterRd token) := by
  by_cases htoken : token = []
  · rw [if_pos htoken, if_pos htoken]
    exact stores_nil hfilled rfl
  · rw [if_neg htoken] at h
    rw [if_neg htoken, if_neg htoken]
    exact stores_pushAfterRd hfilled h

/-- A token is stored behind the words so far, in one piece or in two. -/
theorem stores_addToken (hfilled : Filled stored st.args.length)
    (h : addToken st token ≠ .error .overflow) :
    Stores stored (tokenAccesses st token) (addToken st token) := by
  unfold addToken tokenAccesses at *
  split
  next hmem =>
    rw [if_pos hmem] at h
    dsimp only at h ⊢
    split
    next => exact ⟨trivial, nofun⟩
    next hflag =>
      rw [if_neg hflag] at h
      by_cases hleft : token.takeWhile (· ≠ '>') = []
      · simp only [if_pos hleft] at h ⊢
        have hright : Filled stored ({ st with rdFlag := true } : ParseState).args.length := hfilled
        exact stores_right hright h
      · simp only [if_neg hleft] at h ⊢
        refine Stores.bind h (stores_push hfilled) (fun st' hpush hst' hright ↦ ?_)
          fun e hpush he ↦ absurd (push_error hpush) he
        have hlength := length_of_push hpush
        dsimp only at hlength
        have hstores := stores_right hst' hright
        rwa [hlength] at hstores
  next hmem =>
    rw [if_neg hmem] at h
    by_cases hflag : st.rdFlag = true
    · rw [if_pos hflag] at h ⊢
      by_cases hone : st.numArgAfterRd + 1 > 1
      · rw [if_pos ⟨hflag, hone⟩, if_pos hone]
        exact ⟨trivial, nofun⟩
      · rw [if_neg hone] at h ⊢
        rw [if_neg fun hboth ↦ hone hboth.2]
        exact stores_pushAfterRd hfilled h
    · rw [if_neg hflag] at h ⊢
      rw [if_neg fun hboth ↦ hflag hboth.1]
      exact stores_push hfilled h

/-- The loop stores the words one behind the other. -/
theorem stores_loop (hfilled : Filled stored st.args.length) {ts : List Word}
    (h : ts.foldlM addToken st ≠ .error .overflow) :
    Stores stored (loopAccesses st ts) (ts.foldlM addToken st) := by
  induction ts generalizing st stored with
  | nil => exact stores_nil hfilled rfl
  | cons token ts ih =>
    rw [List.foldlM_cons] at h ⊢
    refine Stores.bind h (stores_addToken hfilled) (fun st' htoken hst' hrest ↦ ?_)
      fun e htoken _ ↦ ?_
    · rw [htoken]
      exact ih hst' hrest
    · rw [htoken]

/-- The loop on a line: it comes to the end of the line, or rejects it. -/
theorem addTokens_bytes (line : InputLine) :
    Scans (lex line.bytes) (addTokens ⟨[], false, 0⟩ line.bytes) :=
  have hstart : Acceptable [] := ⟨Nat.zero_le 1, List.not_mem_nil⟩
  addTokens_scans hstart (words_bytes_le line)

theorem stores_line (line : InputLine) :
    Stores [] (loopAccesses ⟨[], false, 0⟩ (tokens (· == ' ') line.bytes))
      (addTokens ⟨[], false, 0⟩ line.bytes) := by
  have hempty : Filled [] (ParseState.mk [] false 0).args.length :=
    fun i hi hlt ↦ absurd hlt (Int.not_lt.mpr hi)
  refine stores_loop hempty fun hover ↦ ?_
  rcases addTokens_bytes line with ⟨-, heq⟩ | ⟨-, e, he, heq⟩
  · exact nomatch hover.symm.trans heq
  · exact he (Except.error.inj (heq.symm.trans hover))

/-! ## Behind the loop -/

section Rest

variable {args : List Word} {rdFlag : Bool}

theorem argcOf_le (args : List Word) (rdFlag : Bool) : argcOf args rdFlag ≤ args.length := by
  rw [argcOf]
  omega

/-- `argc` is negative only if nothing is left for the command. -/
theorem argcOf_neg_iff (hargs : args ≠ []) :
    argcOf args rdFlag < 0 ↔ args = [amp] ∧ rdFlag = true := by
  have hlength : 0 < args.length := List.length_pos_iff.mpr hargs
  constructor
  · intro hneg
    rw [argcOf] at hneg
    have hmarked : markedBackground args = true := by
      by_contra hn
      rw [Bool.not_eq_true] at hn
      rw [hn] at hneg
      cases rdFlag <;> simp only [Bool.toNat_false, Bool.toNat_true] at hneg <;> omega
    have hrd : rdFlag = true := by
      by_contra hn
      rw [Bool.not_eq_true] at hn
      rw [hmarked, hn] at hneg
      simp only [Bool.toNat_false, Bool.toNat_true] at hneg
      omega
    rw [hmarked, hrd, Bool.toNat_true] at hneg
    obtain ⟨word, rfl⟩ := List.length_eq_one_iff.mp (show args.length = 1 by omega)
    have hlast := of_decide_eq_true hmarked
    rw [List.getLast?_singleton, Option.some.injEq] at hlast
    exact ⟨by rw [hlast], hrd⟩
  · rintro ⟨rfl, rfl⟩
    decide

theorem orderly_builtInAccesses (hfilled : Filled stored args.length)
    (hroom : args.length < maxParseNum) {argc : ℤ} (hargc : argc ≤ args.length) :
    Orderly maxParseNum stored (builtInAccesses args argc) := by
  have hload {i : ℤ} (hi : 0 ≤ i) (hlt : i < argc) :
      (0 ≤ i ∧ i < (maxParseNum : ℤ)) ∧ i ∈ stored :=
    ⟨⟨hi, by omega⟩, hfilled i hi (by omega)⟩
  unfold builtInAccesses
  split
  next h =>
    obtain ⟨hbounds, hmem⟩ := hload (i := 0) le_rfl (by omega)
    exact ⟨hbounds, hmem, trivial⟩
  next =>
    split
    next h =>
      obtain ⟨hbounds, hmem⟩ := hload (i := 0) le_rfl (by omega)
      obtain ⟨hbounds', hmem'⟩ := hload (i := 1) (by decide) (by omega)
      refine ⟨hbounds, hmem, ?_⟩
      split
      · exact ⟨hbounds', hmem', trivial⟩
      · trivial
    next => trivial

/-- `func_general_cmd` needs a count of arguments that is not negative, and with a redirection a word
behind the arguments. -/
theorem orderly_generalAccesses_iff (hfilled : Filled stored args.length)
    (hroom : args.length < maxParseNum) {argc : ℤ} (hargc : argc ≤ args.length) {bgFlag : Bool}
    (hfile : rdFlag = true → argc < args.length) :
    Orderly maxParseNum stored (generalAccesses argc bgFlag rdFlag) ↔ 0 ≤ argc := by
  unfold generalAccesses
  rw [orderly_append, orderly_append]
  constructor
  · rintro ⟨-, -, hstore, -⟩
    exact hstore.1
  · intro hnonneg
    have hbounds : 0 ≤ argc ∧ argc < (maxParseNum : ℤ) := ⟨hnonneg, by omega⟩
    refine ⟨?_, ?_, hbounds, ⟨le_rfl, by decide⟩, ?_, trivial⟩
    · split
      next hrd => exact ⟨hbounds, hfilled argc hnonneg (hfile hrd), trivial⟩
      next => trivial
    · cases bgFlag with
      | true =>
        refine orderly_loads hfilled.storedBy hroom.le fun i hi ↦ ?_
        obtain ⟨j, hj, rfl⟩ := List.mem_map.mp hi
        rw [List.mem_range] at hj
        exact ⟨Int.natCast_nonneg j, show (j : ℤ) < args.length by omega⟩
      | false => trivial
    · by_cases hzero : argc = 0
      · rw [hzero]
        exact List.mem_cons_self
      · exact List.mem_cons_of_mem _ (mem_storedBy (mem_storedBy (hfilled 0 le_rfl (by omega))))

theorem orderly_runAccesses_iff (hargs : args ≠ []) (hfilled : Filled stored args.length)
    (hroom : args.length < maxParseNum) :
    Orderly maxParseNum stored (runAccesses args rdFlag) ↔ ¬(args = [amp] ∧ rdFlag = true) := by
  have hlength : 0 < args.length := List.length_pos_iff.mpr hargs
  have hargc := argcOf_le args rdFlag
  have hbuiltIn := orderly_builtInAccesses hfilled hroom hargc
  have hload : (0 ≤ (args.length - 1 : ℤ) ∧ (args.length - 1 : ℤ) < (maxParseNum : ℤ)) ∧
      (args.length - 1 : ℤ) ∈ stored :=
    ⟨⟨by omega, by omega⟩, hfilled _ (by omega) (by omega)⟩
  have hfile : rdFlag = true → argcOf args rdFlag < args.length := by
    rintro rfl
    rw [argcOf, Bool.toNat_true]
    omega
  rw [← argcOf_neg_iff hargs, not_lt, runAccesses, if_neg hargs]
  dsimp only
  rw [Orderly, and_iff_right hload.1, and_iff_right hload.2, orderly_append, and_iff_right hbuiltIn]
  by_cases hnone : checkBuiltIn args (argcOf args rdFlag) = none
  · rw [if_pos hnone]
    exact orderly_generalAccesses_iff hfilled.storedBy hroom hargc hfile
  · rw [if_neg hnone]
    refine iff_of_true trivial (Int.not_lt.mp fun hneg ↦ hnone ?_)
    exact checkBuiltIn_of_ne (by omega) (by omega)

end Rest

/-- Only the last word can be lost with the newline. -/
theorem length_of_stripNewline {args args' : List Word} (h : stripNewline args = some args') :
    args'.length ≤ args.length ∧ 0 < args.length := by
  unfold stripNewline at h
  split at h
  next => exact nomatch h
  next last hlast =>
    have hpos : 0 < args.length := by
      refine List.length_pos_iff.mpr fun hnil ↦ ?_
      rw [hnil] at hlast
      exact nomatch hlast
    refine ⟨?_, hpos⟩
    split at h
    · obtain rfl := Option.some.inj h
      rw [List.length_append, List.length_dropLast, List.length_singleton]
      omega
    · split at h
      · obtain rfl := Option.some.inj h
        rw [List.length_dropLast]
        omega
      · obtain rfl := Option.some.inj h
        exact le_rfl

/-- The accesses stay among the elements that have been stored if and only if there is a word on the
line, or a newline and no redirection. -/
theorem contained_iff (line : InputLine) : line.Contained ↔ ¬line.Wordless := by
  obtain ⟨horderly, hstored⟩ := stores_line line
  rw [InputLine.Contained, parseAccesses, orderly_append, and_iff_right horderly]
  rcases addTokens_bytes line with ⟨hacceptable, heq⟩ | ⟨hnot, e, -, heq⟩
  · have hfilled := hstored _ heq
    have hroom := words_bytes_le line
    simp only [heq, stateOf] at hfilled ⊢
    rw [Orderly]
    by_cases hwords : line.newline = true ∨ words (lex line.text) ≠ []
    · have hstrip := stripNewline_words hwords
      obtain ⟨hlength, hpos⟩ := length_of_stripNewline hstrip
      have hload : (0 ≤ ((words (lex line.bytes)).length - 1 : ℤ) ∧
          ((words (lex line.bytes)).length - 1 : ℤ) < (maxParseNum : ℤ)) ∧
          ((words (lex line.bytes)).length - 1 : ℤ) ∈ storedBy [] _ :=
        ⟨⟨by omega, by omega⟩, hfilled _ (by omega) (by omega)⟩
      rw [and_iff_right hload.1, and_iff_right hload.2, hstrip]
      dsimp only
      rw [decide_eq_decide.mpr redirect_mem_bytes]
      by_cases hnone : words (lex line.text) = []
      · rw [hnone]
        refine iff_of_true trivial fun h ↦ ?_
        rcases h.words with ⟨hnewline, -⟩ | ⟨-, hamp⟩
        · have htrue := hwords.resolve_right (not_not.mpr hnone)
          rw [hnewline] at htrue
          exact Bool.false_ne_true htrue
        · rw [hnone] at hamp
          exact absurd hamp.symm (List.cons_ne_nil _ _)
      · rw [orderly_runAccesses_iff hnone (hfilled.mono hlength) (words_text_lt line),
          decide_eq_true_eq, not_iff_not]
        constructor
        · exact fun h ↦ ⟨hacceptable, .inr ⟨h.2, h.1⟩⟩
        · exact fun h ↦ (h.words.resolve_left fun hnil ↦ hnone hnil.2).symm
    · obtain ⟨hnewline, hnone⟩ := not_or.mp hwords
      have hbytes : words (lex line.bytes) = [] := by
        rw [lex_bytes_of_not_newline (by simpa using hnewline), not_not.mp hnone]
      refine iff_of_false (fun h ↦ ?_) fun h ↦
        h ⟨hacceptable, .inl ⟨by simpa using hnewline, not_not.mp hnone⟩⟩
      rw [hbytes] at h
      exact absurd h.1.1 (by decide)
  · rw [heq]
    exact iff_of_true trivial fun h ↦ hnot h.acceptable

/-! ## What is undefined -/

theorem funcGeneralCmd_defined {args : List Word} {argc : ℤ} {bgFlag rdFlag : Bool}
    (hnonneg : 0 ≤ argc) (hlt : argc < maxParseNum) (hfile : rdFlag = true → argc < args.length) :
    funcGeneralCmd args argc bgFlag rdFlag ≠ .undefined := by
  rw [funcGeneralCmd, if_neg (by omega)]
  cases rdFlag with
  | false => exact Command.noConfusion
  | true =>
    have hfile := hfile rfl
    have hsome : args[argc.toNat]? = some args[argc.toNat] :=
      List.getElem?_eq_getElem (by omega)
    simp only [hsome, if_true]
    exact Command.noConfusion

/-- `parse_command` is undefined just on the lines on which it leaves the array. -/
theorem parseCommand_undefined_iff (line : InputLine) :
    parseCommand line.bytes = .undefined ↔ ¬line.Contained := by
  rw [contained_iff, not_not]
  by_cases hacceptable : Acceptable (lex line.bytes)
  · rw [parseCommand_of_acceptable hacceptable]
    split
    next hwords =>
      by_cases hnone : words (lex line.text) = []
      · rw [hnone]
        refine iff_of_false Command.noConfusion fun h ↦ ?_
        rcases h.words with ⟨hnewline, -⟩ | ⟨-, hamp⟩
        · have htrue := hwords.resolve_right (not_not.mpr hnone)
          rw [hnewline] at htrue
          exact Bool.false_ne_true htrue
        · exact absurd (hnone.symm.trans hamp).symm (List.cons_ne_nil _ _)
      · have hargc := argcOf_le (words (lex line.text)) (decide (.redirect ∈ lex line.text))
        have hneg : argcOf (words (lex line.text)) (decide (.redirect ∈ lex line.text)) < 0 ↔ _ :=
          argcOf_neg_iff hnone
        have hroom := words_text_lt line
        rw [decide_eq_true_eq] at hneg
        by_cases hlt : argcOf (words (lex line.text)) (decide (.redirect ∈ lex line.text)) < 0
        · refine iff_of_true ?_ ⟨hacceptable, .inr (hneg.mp hlt).symm⟩
          rw [runArgs_eq hnone, checkBuiltIn_of_ne (by omega) (by omega), Option.getD_none,
            funcGeneralCmd, if_pos (.inl hlt)]
        · refine iff_of_false ?_ fun h ↦ hlt (hneg.mpr (h.words.resolve_left fun hnil ↦
            hnone hnil.2).symm)
          rcases runArgs_cases (decide (.redirect ∈ lex line.text)) hnone with
            ⟨-, hdefined, -⟩ | ⟨-, hgeneral⟩
          · exact hdefined
          · rw [hgeneral]
            refine funcGeneralCmd_defined (Int.not_lt.mp hlt) (by omega) fun hrd ↦ ?_
            rw [hrd, argcOf, Bool.toNat_true]
            omega
    next hwords =>
      obtain ⟨hnewline, hnone⟩ := not_or.mp hwords
      exact iff_of_true rfl ⟨hacceptable, .inl ⟨by simpa using hnewline, not_not.mp hnone⟩⟩
  · obtain ⟨e, he⟩ := parseCommand_of_not_acceptable hacceptable
    rw [he]
    exact iff_of_false Command.noConfusion fun h ↦ hacceptable h.acceptable

/-! ## Lines without a command -/

/-- The last line of a batch file consists of a blank and has no newline. -/
def blankLine : InputLine where
  text := [' ']
  newline := false
  noNewline := by decide
  noNul := by decide
  fits := by decide

/-- The line `>&`. -/
def backgroundLine : InputLine where
  text := ['>', '&']
  newline := true
  noNewline := by decide
  noNul := by decide
  fits := by decide

/-- On both lines the index -1 is used. -/
theorem accesses_outside : ¬blankLine.Contained ∧ ¬backgroundLine.Contained := by
  have hblank : parseAccesses blankLine.bytes = [.load (-1)] := by decide
  have hbackground : parseAccesses backgroundLine.bytes =
      [.store 0, .load 0, .load 0, .load (-1), .store (-1), .load 0] := by decide
  rw [InputLine.Contained, InputLine.Contained, hblank, hbackground]
  constructor
  · exact fun h ↦ absurd h.1.1 (by decide)
  · exact fun h ↦ absurd h.2.2.2.2.2.1.1 (by decide)

end CS537.Shell
