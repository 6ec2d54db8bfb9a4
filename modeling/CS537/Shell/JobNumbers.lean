import CS537.Foundation.History
import CS537.Foundation.Numerals
import CS537.Shell.CommandLines
import CS537.Shell.JobRuns

/-!
# The numbers of the jobs

`jobid_next` grows with every command that is run, in the foreground or in the background, and the
number behind `wait` goes through `atoi`.  Both are indices of `bg_flag`, which has `MAX_JID`
elements.  This module determines in which sessions they stay inside, whatever the children do.
-/

namespace CS537.Shell

open Foundation

/-- The number that a string of digits stands for. -/
def numberOf (digits : Word) : ℕ := ofDecimal (digits.map fun c ↦ c.toNat - '0'.toNat)

/-- The second word of a line. -/
def InputLine.argument (line : InputLine) : Word := (words (lex line.text)).getD 1 []

/-- What the shell does with the number of a job: it is an index of `bg_flag`, or `func_wait` compares
it, for a number that was typed. -/
inductive Use where
  | flag (index : ℤ)
  | compared (typed : Word) (jobid : ℤ)
  deriving DecidableEq

/-- The index lies in the array, and the number is the one typed. -/
def Use.Good : Use → Prop
  | .flag index => 0 ≤ index ∧ index < maxJid
  | .compared typed jobid => jobid = numberOf typed

/-- The uses on a line when `jobid_next` has the given value: `job_arr_add` sets the flag of a job in
the background, and `func_wait` looks at the flag of a number below `jobid_next`. -/
def InputLine.uses (line : InputLine) (jobidNext : ℕ) : List Use :=
  match parseCommand line.bytes with
  | .general _ _ true => [.flag jobidNext]
  | .wait jobid =>
    .compared line.argument jobid :: if jobid < jobidNext then [.flag jobid] else []
  | _ => []

/-- A condition on a line after so many commands. -/
def InputLine.WithinLimits (line : InputLine) (commands : ℕ) : Prop :=
  match parseCommand line.bytes with
  | .general _ _ true => commands < maxJid
  | .wait _ => numberOf line.argument < 2 ^ 31 ∧
      (numberOf line.argument < maxJid ∨ commands ≤ numberOf line.argument)
  | _ => True

/-- The line is one of a command that is run by a child. -/
def InputLine.startsChild (line : InputLine) : Bool :=
  match parseCommand line.bytes with
  | .general _ _ _ => true
  | _ => false

/-- The number of commands that have been run. -/
def commandsIn (lines : List InputLine) : ℕ := lines.countP InputLine.startsChild

/-- Notes each line that is entered with its uses. -/
def noteUses (s : ShellState) (session : List (InputLine × List Use)) :
    Event → List (InputLine × List Use)
  | .line l _ => (l, l.uses s.jobidNext) :: session
  | _ => session

variable {line : InputLine} {junk : ℤ → Bool} {s s' : ShellState}

/-! ## Typed numbers -/

/-- A number that does not fit into a `long` is replaced by the greatest one that does, and only the
last 32 bits are kept. -/
theorem bmod_min_eq_iff (n : ℕ) :
    Int.bmod (min n (2 ^ 63 - 1) : ℕ) (2 ^ 32) = n ↔ n < 2 ^ 31 := by
  rw [Int.bmod_def]
  split
  · omega
  · omega

theorem foldl_digits (digits : Word) :
    digits.foldl (fun n c ↦ 10 * n + (c.toNat - '0'.toNat)) 0 = numberOf digits := by
  rw [numberOf, ofDecimal, Nat.ofDigits_eq_foldr, List.foldr_reverse, List.foldl_map]
  simp only [Nat.cast_id, Nat.add_comm]

/-- `atoi` gives the number of digits that fit into an `int`. -/
theorem atoi_eq_iff (digits : Word) : atoi digits = numberOf digits ↔ numberOf digits < 2 ^ 31 := by
  rw [← bmod_min_eq_iff, ← foldl_digits]
  exact Iff.rfl

theorem checkBuiltIn_wait {args : List Word} {argc jobid : ℤ}
    (h : checkBuiltIn args argc = some (.wait jobid)) :
    ∃ word, args[1]? = some word ∧ jobid = atoi word := by
  unfold checkBuiltIn at h
  split at h
  · split at h
    · exact nomatch h
    · split at h
      · exact nomatch h
      · exact nomatch h
  · split at h
    · split at h
      next word hword =>
        split at h
        · rw [Option.some.injEq, Command.wait.injEq] at h
          exact ⟨word, hword, h.symm⟩
        · exact nomatch h
      next => exact nomatch h
    · exact nomatch h

theorem funcGeneralCmd_ne_wait {args : List Word} {argc jobid : ℤ} {bgFlag rdFlag : Bool} :
    funcGeneralCmd args argc bgFlag rdFlag ≠ .wait jobid := by
  unfold funcGeneralCmd
  split
  · exact Command.noConfusion
  · split
    · split
      · exact Command.noConfusion
      · exact Command.noConfusion
    · exact Command.noConfusion

/-- `func_wait` is called for the second word of the line. -/
theorem eq_atoi_argument {jobid : ℤ} (h : parseCommand line.bytes = .wait jobid) :
    jobid = atoi line.argument := by
  by_cases hacceptable : Acceptable (lex line.bytes)
  · rw [parseCommand_of_acceptable hacceptable] at h
    split at h
    next =>
      by_cases hwords : words (lex line.text) = []
      · rw [hwords] at h
        exact Command.noConfusion h
      · rw [runArgs_eq hwords] at h
        cases hbuiltIn : checkBuiltIn (words (lex line.text))
            (argcOf (words (lex line.text)) (decide (.redirect ∈ lex line.text))) with
        | none =>
          rw [hbuiltIn] at h
          exact absurd h funcGeneralCmd_ne_wait
        | some command =>
          rw [hbuiltIn] at h
          obtain rfl : command = .wait jobid := h
          obtain ⟨word, hword, hjobid⟩ := checkBuiltIn_wait hbuiltIn
          rw [hjobid, InputLine.argument, List.getD_eq_getElem?_getD, hword, Option.getD_some]
    next => exact Command.noConfusion h
  · obtain ⟨e, he⟩ := parseCommand_of_not_acceptable hacceptable
    rw [he] at h
    exact Command.noConfusion h

/-- The uses on a line are good if and only if the line keeps to the limits. -/
theorem forall_uses_good_iff (line : InputLine) (jobidNext : ℕ) :
    (∀ u ∈ line.uses jobidNext, u.Good) ↔ line.WithinLimits jobidNext := by
  unfold InputLine.uses InputLine.WithinLimits
  split
  next =>
    rw [List.forall_mem_singleton, Use.Good]
    omega
  next jobid hcommand =>
    have hjobid := eq_atoi_argument hcommand
    have hatoi := atoi_eq_iff line.argument
    rw [List.forall_mem_cons, Use.Good, hjobid, hatoi]
    refine and_congr_right fun hlt ↦ ?_
    rw [hatoi.mpr hlt]
    split
    · rw [List.forall_mem_singleton, Use.Good]
      omega
    · exact iff_of_true (fun u hu ↦ absurd hu List.not_mem_nil) (by omega)
  next => exact iff_of_true (fun u hu ↦ absurd hu List.not_mem_nil) trivial

/-! ## Steps -/

/-- The number of commands that have been started. -/
def ShellState.commands (s : ShellState) : ℕ :=
  match s.phase with
  | .foreground _ | .cleaning _ _ _ => s.jobidNext + 1
  | _ => s.jobidNext

/-- The flags are as before, and no command has been started. -/
structure StartsNothing (s s' : ShellState) : Prop where
  bgFlag : s'.bgFlag = s.bgFlag
  commands : s'.commands = s.commands

theorem startsNothing_listSlot {i : ℕ} {printed : List (ℕ × List Char)}
    (hphase : s.phase = .listing i printed) (j : Fin maxSimJobs) :
    StartsNothing s (s.listSlot j printed) := by
  have hcommands : s.commands = s.jobidNext := by rw [ShellState.commands, hphase]
  unfold ShellState.listSlot
  split
  · exact ⟨rfl, hcommands.symm⟩
  · split
    · exact ⟨rfl, hcommands.symm⟩
    · split
      · exact ⟨rfl, hcommands.symm⟩
      · exact ⟨rfl, hcommands.symm⟩

theorem startsNothing_addJob {argv : List Word} {pid i : ℕ}
    (hphase : s.phase = .cleaning argv pid i) : StartsNothing s (s.addJob argv pid) := by
  have hcommands : s.commands = s.jobidNext + 1 := by rw [ShellState.commands, hphase]
  unfold ShellState.addJob
  dsimp only
  split
  · exact ⟨rfl, hcommands.symm⟩
  · exact ⟨rfl, hcommands.symm⟩

theorem startsNothing_advance (h : s.advance = some s') : StartsNothing s s' := by
  unfold ShellState.advance at h
  split at h
  next argv pid i hphase =>
    split at h
    next hi =>
      obtain rfl := Option.some.inj h
      have hclean := ShellState.recedes_cleanSlot s ⟨i, hi⟩ (.cleaning argv pid (i + 1))
      refine ⟨hclean.bgFlag, ?_⟩
      rw [ShellState.commands, ShellState.commands, hphase, ← hclean.jobidNext]
    next =>
      obtain rfl := Option.some.inj h
      exact startsNothing_addJob hphase
  next jobid pid hphase =>
    obtain ⟨children, -, rfl⟩ := Option.map_eq_some_iff.mp h
    exact ⟨rfl, by rw [ShellState.commands, ShellState.commands, hphase]⟩
  next jobid hphase =>
    obtain rfl := Option.some.inj h
    exact ⟨rfl, by rw [ShellState.commands, ShellState.commands, hphase]⟩
  next i printed hphase =>
    split at h
    next hi =>
      obtain rfl := Option.some.inj h
      exact startsNothing_listSlot hphase _
    next =>
      obtain rfl := Option.some.inj h
      exact ⟨rfl, by rw [ShellState.commands, ShellState.commands, hphase]⟩
  next => exact nomatch h
  next => exact nomatch h
  next => exact nomatch h

theorem startsNothing_reap {pid : ℕ} (h : s.reap pid = some s') : StartsNothing s s' := by
  unfold ShellState.reap at h
  split at h
  next child k hphase hchild =>
    dsimp only at h
    split at h
    · obtain rfl := Option.some.inj h
      exact ⟨rfl, by rw [ShellState.commands, ShellState.commands, hphase]⟩
    · obtain rfl := Option.some.inj h
      exact ⟨rfl, rfl⟩
  next => exact nomatch h

/-- Only a line starts a command. -/
theorem startsNothing_step {e : Event} (he : ∀ l pid, e ≠ .line l pid)
    (h : s.step junk e = some s') : StartsNothing s s' := by
  have hsilent : StartsNothing s { s with said := none } := ⟨rfl, rfl⟩
  unfold ShellState.step at h
  cases e with
  | line l pid => exact absurd rfl (he l pid)
  | advance =>
    have hadvance := startsNothing_advance h
    exact ⟨hadvance.bgFlag, hadvance.commands⟩
  | reaped pid =>
    have hreap := startsNothing_reap h
    exact ⟨hreap.bgFlag, hreap.commands⟩
  | ended pid =>
    dsimp only at h
    split at h
    · obtain rfl := Option.some.inj h
      exact ⟨rfl, rfl⟩
    · exact nomatch h

/-- A shell that has ended stays so. -/
theorem dead_step {e : Event} (hphase : s.phase = .dead) (h : s.step junk e = some s') :
    s'.phase = .dead := by
  unfold ShellState.step at h
  cases e with
  | line l pid => simp [hphase] at h
  | advance => simp [ShellState.advance, hphase] at h
  | reaped pid => simp [ShellState.reap, hphase] at h
  | ended pid =>
    dsimp only at h
    split at h
    · obtain rfl := Option.some.inj h
      exact hphase
    · exact nomatch h

/-- The shell reads a line at its prompt. -/
theorem step_line {l : InputLine} {pid : ℕ} (h : s.step junk (.line l pid) = some s') :
    s.phase = .prompt ∧
      { s with said := none }.runCommand junk (parseCommand l.bytes) pid = some s' := by
  unfold ShellState.step at h
  dsimp only at h
  split at h
  next hphase => exact ⟨hphase, h⟩
  next => exact nomatch h

/-- What a line does to the flags and to the number of commands. -/
structure LineEffect (s s' : ShellState) (l : InputLine) : Prop where
  commands : s'.phase = .dead ∨ s'.commands = s.commands + l.startsChild.toNat
  bgFlag : ∀ k, s'.bgFlag k ≠ s.bgFlag k → .flag k ∈ l.uses s.jobidNext

theorem StartsNothing.lineEffect {l : InputLine} (h : StartsNothing s s')
    (hl : l.startsChild = false) : LineEffect s s' l where
  commands := by
    rw [hl, Bool.toNat_false, Nat.add_zero]
    exact .inr h.commands
  bgFlag k hk := absurd (congrFun h.bgFlag k) hk

theorem lineEffect_funcGeneral {l : InputLine} {argv : List Word} {redirect : Option Word}
    {background : Bool} {pid : ℕ} (hphase : s.phase = .prompt)
    (hl : parseCommand l.bytes = .general argv redirect background)
    (h : s.funcGeneral argv background pid = some s') : LineEffect s s' l := by
  have hcommands : s.commands = s.jobidNext := by rw [ShellState.commands, hphase]
  have hstarts : l.startsChild = true := by rw [InputLine.startsChild, hl]
  unfold ShellState.funcGeneral at h
  split at h
  next =>
    cases background with
    | true =>
      simp only [if_true] at h
      split at h
      · obtain rfl := Option.some.inj h
        refine ⟨.inr ?_, fun k hk ↦ ?_⟩
        · rw [hcommands, hstarts]
          rfl
        · have hnext : k = s.jobidNext := by_contra fun hne ↦ hk (Function.update_of_ne hne _ _)
          rw [InputLine.uses, hl, hnext]
          exact List.mem_singleton_self _
      · obtain rfl := Option.some.inj h
        exact ⟨.inl rfl, fun k hk ↦ absurd rfl hk⟩
    | false =>
      simp only [Bool.false_eq_true, if_false] at h
      obtain rfl := Option.some.inj h
      refine ⟨.inr ?_, fun k hk ↦ absurd rfl hk⟩
      rw [hcommands, hstarts]
      rfl
  next => exact nomatch h

theorem startsNothing_funcWait (hphase : s.phase = .prompt) (jobid : ℤ) :
    StartsNothing s (s.funcWait junk jobid) := by
  have hcommands : s.commands = s.jobidNext := by rw [ShellState.commands, hphase]
  unfold ShellState.funcWait
  split
  · exact ⟨rfl, rfl⟩
  · exact ⟨rfl, hcommands.symm⟩

theorem lineEffect_step {l : InputLine} {pid : ℕ} (h : s.step junk (.line l pid) = some s') :
    LineEffect s s' l := by
  obtain ⟨hphase, hrun⟩ := step_line h
  have hcommands : s.commands = s.jobidNext := by rw [ShellState.commands, hphase]
  have hstart {command : Command} (hl : parseCommand l.bytes = command)
      (hcommand : ∀ argv redirect background, command ≠ .general argv redirect background) :
      l.startsChild = false := by
    unfold InputLine.startsChild
    split
    next argv redirect background hgeneral =>
      exact absurd (hl.symm.trans hgeneral) (hcommand argv redirect background)
    next => rfl
  cases hl : parseCommand l.bytes with
  | general argv redirect background =>
    rw [hl] at hrun
    have heffect := lineEffect_funcGeneral (s := { s with said := none }) hphase hl hrun
    exact ⟨heffect.commands, heffect.bgFlag⟩
  | wait jobid =>
    rw [hl] at hrun
    obtain rfl := Option.some.inj hrun
    have hquiet : ({ s with said := none } : ShellState).phase = .prompt := hphase
    have hwait : StartsNothing _ (ShellState.funcWait junk { s with said := none } jobid) :=
      startsNothing_funcWait hquiet jobid
    exact StartsNothing.lineEffect ⟨hwait.bgFlag, hwait.commands⟩ (hstart hl (by simp))
  | waitInvalid =>
    rw [hl] at hrun
    obtain rfl := Option.some.inj hrun
    exact StartsNothing.lineEffect ⟨rfl, rfl⟩ (hstart hl (by simp))
  | jobs =>
    rw [hl] at hrun
    obtain rfl := Option.some.inj hrun
    exact StartsNothing.lineEffect ⟨rfl, hcommands.symm⟩ (hstart hl (by simp))
  | exit =>
    rw [hl] at hrun
    obtain rfl := Option.some.inj hrun
    exact StartsNothing.lineEffect ⟨rfl, hcommands.symm⟩ (hstart hl (by simp))
  | rejected e =>
    rw [hl] at hrun
    obtain rfl := Option.some.inj hrun
    exact StartsNothing.lineEffect ⟨rfl, rfl⟩ (hstart hl (by simp))
  | empty =>
    rw [hl] at hrun
    obtain rfl := Option.some.inj hrun
    exact StartsNothing.lineEffect ⟨rfl, rfl⟩ (hstart hl (by simp))
  | undefined =>
    rw [hl] at hrun
    obtain rfl := Option.some.inj hrun
    exact StartsNothing.lineEffect ⟨rfl, hcommands.symm⟩ (hstart hl (by simp))

/-- The flags are used as noted: if the uses on a line are good the step does not depend on what lies
outside of `bg_flag`. -/
theorem step_congr_of_good {l : InputLine} {pid : ℕ} (hgood : ∀ u ∈ l.uses s.jobidNext, u.Good)
    (junk junk' : ℤ → Bool) : s.step junk (.line l pid) = s.step junk' (.line l pid) := by
  unfold ShellState.step
  cases hphase : s.phase with
  | prompt =>
    dsimp only
    cases hl : parseCommand l.bytes with
    | wait jobid =>
      by_cases hlt : jobid < s.jobidNext
      · have hbounds : 0 ≤ jobid ∧ jobid < maxJid := by
          rw [InputLine.uses, hl] at hgood
          refine hgood (.flag jobid) (List.mem_cons_of_mem _ ?_)
          rw [if_pos hlt]
          exact List.mem_singleton_self _
        simp only [ShellState.runCommand, ShellState.funcWait, ShellState.flagAt, if_pos hbounds]
      · have hge : jobid ≥ s.jobidNext := Int.not_lt.mp hlt
        simp only [ShellState.runCommand, ShellState.funcWait, hge, true_or, if_true]
    | _ => rfl
  | _ => rfl

/-! ## Sessions -/

/-- The commands that have been started are those on the lines. -/
def Counted (s : ShellState) (session : List (InputLine × List Use)) : Prop :=
  s.phase = .dead ∨ s.commands = commandsIn (session.map Prod.fst)

/-- The uses noted for a line are those after the commands on the lines before it. -/
def Noted (session : List (InputLine × List Use)) : Prop :=
  EachAfter (fun earlier x ↦ x.2 = x.1.uses (commandsIn (earlier.map Prod.fst))) session

theorem commandsIn_cons (l : InputLine) (lines : List InputLine) :
    commandsIn (l :: lines) = commandsIn lines + l.startsChild.toNat := by
  rw [commandsIn, commandsIn, List.countP_cons]
  cases l.startsChild <;> rfl

theorem counted_step {session : List (InputLine × List Use)} {e : Event}
    (hs : Counted s session ∧ Noted session) (h : s.step junk e = some s') :
    Counted s' (noteUses s session e) ∧ Noted (noteUses s session e) := by
  obtain ⟨hcounted, hnoted⟩ := hs
  by_cases he : ∃ l pid, e = .line l pid
  · obtain ⟨l, pid, rfl⟩ := he
    have hphase := (step_line h).1
    have hlines : s.commands = commandsIn (session.map Prod.fst) :=
      hcounted.resolve_left fun hdead ↦ nomatch hphase.symm.trans hdead
    have hnext : s.jobidNext = commandsIn (session.map Prod.fst) := by
      rw [← hlines, ShellState.commands, hphase]
    refine ⟨(lineEffect_step h).commands.imp_right fun hcommands ↦ ?_, ?_, hnoted⟩
    · rw [hcommands, hlines, noteUses, List.map_cons, commandsIn_cons]
    · rw [hnext]
  · have hnone (l : InputLine) (pid : ℕ) : e ≠ .line l pid := fun heq ↦ he ⟨l, pid, heq⟩
    have hsession : noteUses s session e = session := by
      cases e with
      | line l pid => exact absurd rfl (hnone l pid)
      | _ => rfl
    rw [hsession]
    have hstep := startsNothing_step hnone h
    refine ⟨hcounted.imp (fun hdead ↦ dead_step hdead h) fun hcommands ↦ ?_, hnoted⟩
    rw [hstep.commands, hcommands]

/-- The shell with a note of its session. -/
def notedSession (junk : ℤ → Bool) : Machine (ShellState × List (InputLine × List Use)) Event :=
  (jobControl junk).observed noteUses

theorem noted_of_run {es : List Event} {session : List (InputLine × List Use)}
    (h : (notedSession junk).run (initial, []) es = some (s, session)) : Noted session := by
  have hinit : Counted initial [] ∧ Noted [] := ⟨.inr rfl, trivial⟩
  refine (Machine.run_invariant (fun x ↦ Counted x.1 x.2 ∧ Noted x.2) ?_ hinit h).2
  rintro ⟨s, session⟩ e t hs ht
  obtain ⟨s', hstep, rfl⟩ := Option.map_eq_some_iff.mp ht
  exact counted_step hs hstep

theorem forall_uses_iff {session : List (InputLine × List Use)} (h : Noted session) :
    (∀ x ∈ session, ∀ u ∈ x.2, u.Good) ↔
      EachAfter (fun earlier l ↦ l.WithinLimits (commandsIn earlier)) (session.map Prod.fst) := by
  induction session with
  | nil => exact iff_of_true (fun x hx ↦ absurd hx List.not_mem_nil) trivial
  | cons x session ih =>
    obtain ⟨huses, hrest⟩ := h
    rw [List.forall_mem_cons, huses, forall_uses_good_iff, ih hrest]
    exact Iff.rfl

/-- In every session, whatever the children do, all indices lie in `bg_flag` and all numbers compared
are the ones typed if and only if each line keeps to the limits after the commands before it. -/
theorem session_uses_good_iff (junk : ℤ → Bool) (es : List Event) (s : ShellState)
    (session : List (InputLine × List Use))
    (h : (notedSession junk).run (initial, []) es = some (s, session)) :
    (∀ x ∈ session, ∀ u ∈ x.2, u.Good) ↔
      EachAfter (fun earlier l ↦ l.WithinLimits (commandsIn earlier)) (session.map Prod.fst) :=
  forall_uses_iff (noted_of_run h)

/-! ## A number that does not fit -/

/-- The line `wait 4294967295`. -/
def wrappedWait : InputLine where
  text := ['w', 'a', 'i', 't', ' ', '4', '2', '9', '4', '9', '6', '7', '2', '9', '5']
  newline := true
  noNewline := by decide
  noNul := by decide
  fits := by decide

theorem parseCommand_wrappedWait : parseCommand wrappedWait.bytes = .wait (-1) := by decide

theorem run_wrappedWait : ∃ s, (notedSession fun _ ↦ false).run (initial, []) [.line wrappedWait 1] =
    some (s, [(wrappedWait, [.compared wrappedWait.argument (-1), .flag (-1)])]) := by
  have huses : wrappedWait.uses 0 = [.compared wrappedWait.argument (-1), .flag (-1)] := by
    rw [InputLine.uses, parseCommand_wrappedWait]
    rfl
  refine ⟨initial.funcWait (fun _ ↦ false) (-1), ?_⟩
  have hstep : initial.step (fun _ ↦ false) (.line wrappedWait 1) =
      some (initial.funcWait (fun _ ↦ false) (-1)) := by
    change initial.runCommand (fun _ ↦ false) (parseCommand wrappedWait.bytes) 1 = _
    rw [parseCommand_wrappedWait]
    rfl
  have hobserved : (notedSession fun _ ↦ false).step (initial, []) (.line wrappedWait 1) =
      some (initial.funcWait (fun _ ↦ false) (-1), [(wrappedWait, wrappedWait.uses 0)]) := by
    simp only [notedSession, Machine.observed, jobControl, hstep, Option.map_some]
    rfl
  rw [Machine.run_cons, hobserved, huses]
  rfl

/-- The number -1 is compared for the one typed, and is the index of a flag. -/
theorem wait_reads_outside : ∃ s session, (notedSession fun _ ↦ false).run (initial, [])
    [.line wrappedWait 1] = some (s, session) ∧ ¬∀ x ∈ session, ∀ u ∈ x.2, u.Good := by
  obtain ⟨s, hrun⟩ := run_wrappedWait
  refine ⟨s, _, hrun, fun h ↦ ?_⟩
  rw [List.forall_mem_singleton] at h
  have hflag : Use.Good (.flag (-1)) := h _ (List.mem_cons_of_mem _ (List.mem_singleton_self _))
  exact absurd hflag.1 (by decide)

theorem session_uses_good_wrappedWait : ∃ s session, (notedSession fun _ ↦ false).run (initial, [])
    [.line wrappedWait 1] = some (s, session) ∧ ((∀ x ∈ session, ∀ u ∈ x.2, u.Good) ↔
      EachAfter (fun earlier l ↦ l.WithinLimits (commandsIn earlier)) (session.map Prod.fst)) := by
  obtain ⟨s, hrun⟩ := run_wrappedWait
  exact ⟨s, _, hrun, session_uses_good_iff _ _ s _ hrun⟩

end CS537.Shell
