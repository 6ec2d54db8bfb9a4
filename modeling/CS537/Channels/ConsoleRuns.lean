import CS537.Channels.ConsoleLines
import CS537.Channels.PipeRuns
import Mathlib.Data.List.Induction

/-!
# Runs of the console

What is shown on the screen is what the processes have read, the lines that wait for them and the line
that is being typed.  A call of `consoleread` gets bytes of one line, and it gets none only for a
control-D.
-/

namespace CS537.Channels

open Foundation

/-! ## The screen -/

/-- `consputc` on the text shown so far. -/
def putc (screen : List UInt8) (code : ℕ) : List UInt8 :=
  if code = BACKSPACE then screen.dropLast else screen ++ [code.toUInt8]

/-- The text shown after codes have been given to `consputc`. -/
def shown (codes : List ℕ) : List UInt8 := codes.foldl putc []

theorem shown_append (codes codes' : List ℕ) : shown (codes ++ codes') = codes'.foldl putc (shown codes) :=
  List.foldl_append

theorem putc_byte (screen : List UInt8) (c : UInt8) : putc screen c.toNat = screen ++ [c] := by
  have hc : c.toNat ≠ BACKSPACE := Nat.ne_of_lt c.toNat_lt
  rw [putc, if_neg hc]
  simp

theorem putc_backspaces (screen line : List UInt8) :
    (List.replicate line.length BACKSPACE).foldl putc (screen ++ line) = screen := by
  induction line using List.reverseRecOn with
  | nil => simp
  | append_singleton line c ih =>
    rw [List.length_append, List.length_singleton, List.replicate_succ, List.foldl_cons, putc, if_pos rfl,
      ← List.append_assoc, List.dropLast_concat]
    exact ih

/-! ## Keys -/

/-- What the keys keep of the lines. -/
structure Lines.WellFormed (x : Lines) : Prop where
  no_newline : newline ∉ x.edit
  no_eof : ctrl 'D' ∉ x.edit
  length_le : x.pending.length + x.edit.length ≤ INPUT_BUF
  room : x.edit ≠ [] → x.pending.length + x.edit.length < INPUT_BUF

/-- What a key does, with the screen. -/
structure Lines.KeySpec (x : Lines) (r : KeyResult Lines) : Prop where
  wellFormed : r.input.WellFormed
  screen : ∀ before, r.echo.foldl putc (before ++ x.pending ++ x.edit) =
    before ++ r.input.pending ++ r.input.edit
  pending : r.wakes = false → r.input.pending = x.pending

theorem Lines.key_spec {x : Lines} (h : x.WellFormed) (c : UInt8) : x.KeySpec (x.key c) := by
  have hsame : x.KeySpec ⟨x, [], false⟩ := ⟨h, fun _ ↦ rfl, fun _ ↦ rfl⟩
  unfold Lines.key
  by_cases hp : c = ctrl 'P'
  · rw [if_pos hp]
    exact hsame
  rw [if_neg hp]
  by_cases hu : c = ctrl 'U'
  · rw [if_pos hu]
    refine ⟨⟨List.not_mem_nil, List.not_mem_nil, ?_, fun hne ↦ absurd rfl hne⟩, fun before ↦ ?_, fun _ ↦ rfl⟩
    · exact (Nat.add_le_add_left (Nat.zero_le _) _).trans h.length_le
    · rw [putc_backspaces, List.append_nil]
  rw [if_neg hu]
  by_cases hback : c = ctrl 'H' ∨ c = 0x7f
  · rw [if_pos hback]
    by_cases hedit : x.edit ≠ []
    · rw [if_pos hedit]
      have hshort : x.pending.length + x.edit.dropLast.length < INPUT_BUF := by
        have hroom := h.room hedit
        rw [List.length_dropLast]
        omega
      refine ⟨⟨fun hmem ↦ h.no_newline (List.dropLast_subset _ hmem),
        fun hmem ↦ h.no_eof (List.dropLast_subset _ hmem), hshort.le, fun _ ↦ hshort⟩,
        fun before ↦ ?_, fun _ ↦ rfl⟩
      rw [List.foldl_cons, List.foldl_nil, putc, if_pos rfl, List.dropLast_append_of_ne_nil hedit]
    · rw [if_neg hedit]
      exact hsame
  rw [if_neg hback]
  by_cases hroom : c ≠ 0 ∧ x.pending.length + x.edit.length < INPUT_BUF
  · rw [if_pos hroom]
    dsimp only
    generalize (if c = '\r'.toNat.toUInt8 then newline else c) = c'
    by_cases hcommit : c' = newline ∨ c' = ctrl 'D' ∨ x.pending.length + x.edit.length + 1 = INPUT_BUF
    · rw [if_pos hcommit]
      refine ⟨⟨List.not_mem_nil, List.not_mem_nil, ?_, fun hne ↦ absurd rfl hne⟩, fun before ↦ ?_,
        fun hwakes ↦ (by cases hwakes)⟩
      · simp only [List.length_append, List.length_singleton, List.length_nil]
        omega
      · rw [List.foldl_cons, List.foldl_nil, putc_byte]
        simp only [List.append_assoc, List.append_nil]
    · rw [if_neg hcommit]
      obtain ⟨hline, heof, hlast⟩ := not_or.mp hcommit |>.imp id not_or.mp
      have hshort : x.pending.length + (x.edit ++ [c']).length < INPUT_BUF := by
        rw [List.length_append, List.length_singleton]
        omega
      refine ⟨⟨?_, ?_, hshort.le, fun _ ↦ hshort⟩, fun before ↦ ?_, fun _ ↦ rfl⟩
      · exact fun hmem ↦ (List.mem_append.mp hmem).elim h.no_newline
          fun hc ↦ hline (List.mem_singleton.mp hc).symm
      · exact fun hmem ↦ (List.mem_append.mp hmem).elim h.no_eof
          fun hc ↦ heof (List.mem_singleton.mp hc).symm
      · rw [List.foldl_cons, List.foldl_nil, putc_byte, List.append_assoc (before ++ x.pending)]
  · rw [if_neg hroom]
    exact hsame

/-! ## Reads -/

theorem mem_dropLast_of_ne {a c : UInt8} {l : List UInt8} (hc : c ≠ a) (h : a ∈ (c :: l).dropLast) :
    a ∈ l.dropLast := by
  cases l with
  | nil => simp at h
  | cons b l =>
    rw [List.dropLast_cons_cons] at h
    exact (List.mem_cons.mp h).resolve_left fun hac ↦ hc hac.symm

/-- What a section of `consoleread` does with `n` bytes to go. -/
structure Lines.ReadSpec (target n : ℕ) (x : Lines) (r : LineResult Lines) : Prop where
  edit : r.input.edit = x.edit
  pending : x.pending = r.taken ++ r.input.pending
  length_le : r.bytes.length ≤ n
  no_eof : ctrl 'D' ∉ r.bytes
  one_line : newline ∉ r.bytes.dropLast
  taken : r.taken = r.bytes ∨ r.bytes = [] ∧ r.taken = [ctrl 'D'] ∧ target ≤ n ∧ r.waits = false
  waits : r.waits = true → r.input.pending = [] ∧ newline ∉ r.bytes
  returns : r.waits = false → r.bytes = [] → n = 0 ∨ n < target ∨ r.taken = [ctrl 'D']

theorem Lines.read_spec (target n : ℕ) (hn : n ≤ target) (x : Lines) :
    x.ReadSpec target n (x.read target n) := by
  induction n generalizing x with
  | zero =>
    exact ⟨rfl, rfl, le_rfl, List.not_mem_nil, List.not_mem_nil, .inl rfl, fun hwaits ↦ (by cases hwaits),
      fun _ _ ↦ .inl rfl⟩
  | succ n ih =>
    obtain ⟨pending, edit⟩ := x
    cases pending with
    | nil =>
      exact ⟨rfl, rfl, Nat.zero_le _, List.not_mem_nil, List.not_mem_nil, .inl rfl,
        fun _ ↦ ⟨rfl, List.not_mem_nil⟩, fun hwaits ↦ (by cases hwaits)⟩
    | cons c pending =>
      rw [Lines.read]
      by_cases heof : c = ctrl 'D'
      · rw [if_pos heof]
        by_cases hsome : n + 1 < target
        · rw [if_pos hsome]
          exact ⟨rfl, rfl, Nat.zero_le _, List.not_mem_nil, List.not_mem_nil, .inl rfl,
            fun hwaits ↦ (by cases hwaits), fun _ _ ↦ .inr (.inl hsome)⟩
        · rw [if_neg hsome]
          have htaken : [c] = [ctrl 'D'] := by rw [heof]
          exact ⟨rfl, rfl, Nat.zero_le _, List.not_mem_nil, List.not_mem_nil,
            .inr ⟨rfl, htaken, Nat.le_of_not_lt hsome, rfl⟩, fun hwaits ↦ (by cases hwaits),
            fun _ _ ↦ .inr (.inr htaken)⟩
      rw [if_neg heof]
      by_cases hline : c = newline
      · rw [if_pos hline]
        exact ⟨rfl, rfl, Nat.succ_le_succ (Nat.zero_le n), fun hmem ↦ heof (List.mem_singleton.mp hmem).symm,
          List.not_mem_nil, .inl rfl, fun hwaits ↦ (by cases hwaits),
          fun _ hnil ↦ absurd hnil (List.cons_ne_nil c [])⟩
      · rw [if_neg hline]
        have hrest := ih (Nat.le_of_succ_le hn) ⟨pending, edit⟩
        -- the caller has a byte, so a control-D is left for the next call
        have htaken := hrest.taken.resolve_right fun hcut ↦ absurd hcut.2.2.1 (Nat.not_le_of_gt hn)
        refine ⟨hrest.edit, congrArg (c :: ·) hrest.pending, Nat.succ_le_succ hrest.length_le, fun hmem ↦ ?_,
          fun hmem ↦ ?_, .inl (congrArg (c :: ·) htaken), fun hwaits ↦ ⟨(hrest.waits hwaits).1, fun hmem ↦ ?_⟩,
          fun _ hnil ↦ absurd hnil (List.cons_ne_nil c _)⟩
        · exact (List.mem_cons.mp hmem).elim (fun hc ↦ heof hc.symm) hrest.no_eof
        · exact hrest.one_line (mem_dropLast_of_ne hline hmem)
        · exact (List.mem_cons.mp hmem).elim (fun hc ↦ hline hc.symm) (hrest.waits hwaits).2

/-! ## The invariant -/

/-- What a call has taken from the input: its bytes, or one control-D that it returns 0 for. -/
def ConsoleCall.Recorded (taken : List UInt8) : ConsoleCall → Prop
  | .idle => taken = []
  | .reading target got _ =>
    taken = got ∧ got.length ≤ target ∧ newline ∉ got ∧ ctrl 'D' ∉ got
  | .returned target bytes =>
    bytes.length ≤ target ∧ newline ∉ bytes.dropLast ∧ ctrl 'D' ∉ bytes ∧
      (taken = bytes ∧ (bytes = [] → target = 0) ∨ bytes = [] ∧ taken = [ctrl 'D'])
  | .failed _ got => taken = got

def ConsoleCall.Asleep : ConsoleCall → Prop
  | .reading _ _ asleep => asleep = true
  | _ => False

theorem ConsoleCall.recorded_wake {taken : List UInt8} (call : ConsoleCall) :
    call.wake.Recorded taken ↔ call.Recorded taken := by
  cases call <;> exact Iff.rfl

theorem ConsoleCall.not_asleep_wake (call : ConsoleCall) : ¬call.wake.Asleep := by
  cases call <;> simp [wake, Asleep]

variable {ι : Type*} [DecidableEq ι]

/-- What holds in every run of the console as its users see it. -/
structure LinesInv (t : ConsoleState Lines ι) : Prop where
  wellFormed : t.input.WellFormed
  screen : shown t.echo = t.taken.map Prod.snd ++ t.input.pending ++ t.input.edit
  calls : ∀ c, (t.calls c).Recorded (bytesOf c t.taken)
  asleep : ∀ c, (t.calls c).Asleep → t.input.pending = []

namespace LinesInv

variable {t : ConsoleState Lines ι} {c : ι}

theorem recorded (h : LinesInv t) {call : ConsoleCall} (hcall : t.calls c = call) :
    call.Recorded (bytesOf c t.taken) :=
  hcall ▸ h.calls c

/-- One call goes on without reading. -/
theorem setCall (h : LinesInv t) {call : ConsoleCall} (hcall : call.Recorded (bytesOf c t.taken))
    (hasleep : ¬call.Asleep) : LinesInv (t.setCall c call) := by
  refine ⟨h.wellFormed, h.screen, fun c' ↦ ?_, fun c' hc' ↦ ?_⟩
  all_goals by_cases hc : c' = c
  · subst hc
    simp only [ConsoleState.setCall, Function.update_self]
    exact hcall
  · simp only [ConsoleState.setCall, Function.update_of_ne hc]
    exact h.calls c'
  · subst hc
    simp only [ConsoleState.setCall, Function.update_self] at hc'
    exact absurd hc' hasleep
  · simp only [ConsoleState.setCall, Function.update_of_ne hc] at hc'
    exact h.asleep c' hc'

theorem typed (h : LinesInv t) (k : UInt8) : LinesInv (t.typed lineInput k) := by
  have hspec : t.input.KeySpec (lineInput.key t.input k) := Lines.key_spec h.wellFormed k
  have hscreen : shown (t.echo ++ (lineInput.key t.input k).echo) = t.taken.map Prod.snd ++
      (lineInput.key t.input k).input.pending ++ (lineInput.key t.input k).input.edit := by
    rw [shown_append, h.screen]
    exact hspec.screen _
  rw [ConsoleState.typed]
  by_cases hwakes : (lineInput.key t.input k).wakes = true
  · rw [if_pos hwakes]
    exact ⟨hspec.wellFormed, hscreen, fun c ↦ (ConsoleCall.recorded_wake _).mpr (h.calls c),
      fun c hc ↦ absurd hc (ConsoleCall.not_asleep_wake _)⟩
  · rw [if_neg hwakes]
    have hpending := hspec.pending (Bool.eq_false_iff.mpr hwakes)
    exact ⟨hspec.wellFormed, hscreen, h.calls, fun c hc ↦ hpending.trans (h.asleep c hc)⟩

theorem consoleintr (h : LinesInv t) (keys : List UInt8) : LinesInv (t.consoleintr lineInput keys) := by
  induction keys generalizing t with
  | nil => exact h
  | cons k keys ih => exact ih (h.typed k)

/-- A section of `consoleread` takes bytes of the lines. -/
theorem fetch (h : LinesInv t) {x : Lines} {taken : List UInt8} (hedit : x.edit = t.input.edit)
    (hpending : t.input.pending = taken ++ x.pending) {call : ConsoleCall}
    (hcall : call.Recorded (bytesOf c t.taken ++ taken)) (hasleep : call.Asleep → x.pending = []) :
    LinesInv (({ t with input := x, taken := t.taken ++ taken.map (c, ·) } :
      ConsoleState Lines ι).setCall c call) where
  wellFormed := by
    have hlength := h.wellFormed.length_le
    rw [hpending, List.length_append] at hlength
    refine ⟨hedit ▸ h.wellFormed.no_newline, hedit ▸ h.wellFormed.no_eof, ?_, fun hne ↦ ?_⟩
    · simp only [ConsoleState.setCall, hedit]
      omega
    · have hroom := h.wellFormed.room (hedit ▸ hne)
      rw [hpending, List.length_append] at hroom
      simp only [ConsoleState.setCall, hedit]
      omega
  screen := by
    simp only [ConsoleState.setCall, map_snd_append, h.screen, hpending, hedit, List.append_assoc]
  calls c' := by
    by_cases hc : c' = c
    · subst hc
      simp only [ConsoleState.setCall, Function.update_self, bytesOf_append_self]
      exact hcall
    · simp only [ConsoleState.setCall, Function.update_of_ne hc, bytesOf_append_of_ne hc]
      exact h.calls c'
  asleep c' hc' := by
    by_cases hc : c' = c
    · subst hc
      simp only [ConsoleState.setCall, Function.update_self] at hc'
      exact hasleep hc'
    · simp only [ConsoleState.setCall, Function.update_of_ne hc] at hc'
      have hnil := h.asleep c' hc'
      rw [hpending] at hnil
      exact (List.append_eq_nil_iff.mp hnil).2

theorem consoleread (h : LinesInv t) {target : ℕ} {got : List UInt8}
    (hcall : t.calls c = .reading target got false) :
    LinesInv (t.consoleread lineInput c target got) := by
  obtain ⟨hgot, hlength, hline, heof⟩ := h.recorded hcall
  have hspec : t.input.ReadSpec target (target - got.length)
      (lineInput.read target (target - got.length) t.input) :=
    Lines.read_spec target _ (Nat.sub_le _ _) t.input
  generalize hr : lineInput.read target (target - got.length) t.input = r at hspec
  have htotal : (got ++ r.bytes).length ≤ target := by
    have hle := hspec.length_le
    rw [List.length_append]
    omega
  have hnoeof : ctrl 'D' ∉ got ++ r.bytes := fun hmem ↦
    (List.mem_append.mp hmem).elim heof hspec.no_eof
  have htaken : r.taken = r.bytes → bytesOf c t.taken ++ r.taken = got ++ r.bytes := by
    intro heq
    rw [hgot, heq]
  simp only [ConsoleState.consoleread, hr]
  by_cases hwaits : r.waits = true
  · have hsame : r.taken = r.bytes := hspec.taken.resolve_right fun hcut ↦ by
      simp [hwaits] at hcut
    have hnoline : newline ∉ got ++ r.bytes := fun hmem ↦
      (List.mem_append.mp hmem).elim hline (hspec.waits hwaits).2
    rw [if_pos hwaits]
    by_cases hkilled : t.killed c = true
    · rw [if_pos hkilled]
      exact h.fetch hspec.edit hspec.pending (htaken hsame) fun hasleep ↦ hasleep.elim
    · rw [if_neg hkilled]
      exact h.fetch hspec.edit hspec.pending ⟨htaken hsame, htotal, hnoline, hnoeof⟩
        fun _ ↦ (hspec.waits hwaits).1
  · rw [if_neg hwaits]
    have hreturns := hspec.returns (Bool.eq_false_iff.mpr hwaits)
    refine h.fetch hspec.edit hspec.pending ⟨htotal, ?_, hnoeof, ?_⟩ fun hasleep ↦ hasleep.elim
    · rcases eq_or_ne r.bytes [] with hnil | hne
      · rw [hnil, List.append_nil]
        exact fun hmem ↦ hline (List.dropLast_subset got hmem)
      · rw [List.dropLast_append_of_ne_nil hne]
        exact fun hmem ↦ (List.mem_append.mp hmem).elim hline hspec.one_line
    · rcases hspec.taken with hsame | ⟨hnil, heot, hfirst, -⟩
      · refine .inl ⟨htaken hsame, fun hempty ↦ ?_⟩
        obtain ⟨hgotnil, hbytes⟩ := List.append_eq_nil_iff.mp hempty
        rw [hgotnil, List.length_nil, Nat.sub_zero] at hreturns
        rcases hreturns hbytes with hzero | hlt | hcut
        · exact hzero
        · exact absurd hlt (lt_irrefl target)
        · rw [hsame, hbytes] at hcut
          cases hcut
      · have hgotnil : got = [] := List.length_eq_zero_iff.mp (by omega)
        exact .inr ⟨by rw [hgotnil, hnil, List.nil_append], by rw [hgot, hgotnil, heot, List.nil_append]⟩

theorem step (h : LinesInv t) {l : ConsoleLabel ι} {t' : ConsoleState Lines ι}
    (hstep : t.step lineInput l = some t') : LinesInv t' := by
  unfold ConsoleState.step at hstep
  split at hstep
  case h_1 keys => exact Option.some.inj hstep ▸ h.consoleintr keys
  case h_2 =>
    split at hstep
    next hcall =>
      have hrecorded := h.recorded hcall
      exact Option.some.inj hstep ▸ h.setCall ⟨hrecorded, Nat.zero_le _, List.not_mem_nil, List.not_mem_nil⟩
        fun hasleep ↦ (by cases hasleep)
    next => cases hstep
  case h_3 =>
    split at hstep
    next hcall => exact Option.some.inj hstep ▸ h.consoleread hcall
    next => cases hstep
  case h_4 =>
    split at hstep
    next hcall =>
      have hrecorded := h.recorded hcall
      exact Option.some.inj hstep ▸ h.setCall hrecorded fun hasleep ↦ (by cases hasleep)
    next => cases hstep
  case h_5 => exact Option.some.inj hstep ▸ ⟨h.wellFormed, h.screen, h.calls, h.asleep⟩

end LinesInv

theorem linesInv_of_reachable {t : ConsoleState Lines ι} (h : (console lineInput ι).Reachable t) :
    LinesInv t := by
  refine h.invariant ?_ fun _ _ _ _ hs _ hstep ↦ hs.step hstep
  intro t hinit
  have hstart : t = consoleInit lineInput ι := hinit
  subst hstart
  exact ⟨⟨List.not_mem_nil, List.not_mem_nil, Nat.zero_le _, fun _ ↦ Nat.zero_lt_succ 127⟩, rfl, fun _ ↦ rfl,
    fun _ hasleep ↦ hasleep.elim⟩

/-- A console is a ring with the lines that it holds. -/
theorem exists_lines {s : ConsoleState Input ι} (h : (console inputRing ι).Reachable s) :
    ∃ t, s.Shows t ∧ LinesInv t := by
  have hlines : ∃ t, s.Shows t ∧ (console lineInput ι).Reachable t := by
    induction h with
    | init hinit => exact ⟨_, hinit ▸ consoleInit_shows ι, .init rfl⟩
    | step _ _ hstep ih =>
      obtain ⟨t, hshows, ht⟩ := ih
      obtain ⟨t', hstep', hshows'⟩ := hshows.step hstep
      exact ⟨t', hshows', ht.next hstep'⟩
  obtain ⟨t, hshows, ht⟩ := hlines
  exact ⟨t, hshows, linesInv_of_reachable ht⟩

/-! ## Results -/

/-- What the screen shows is what the processes have read, then the bytes that wait for them and then
the line that is being typed.  A call returns bytes of one line, and returns 0 to a caller that wants
bytes for one control-D only. -/
theorem screen_is_input {s : ConsoleState Input ι} (h : (console inputRing ι).Reachable s) :
    (∃ pending edit, s.input.Shows ⟨pending, edit⟩ ∧
      shown s.echo = s.taken.map Prod.snd ++ pending ++ edit) ∧
    ∀ c, (s.calls c).Recorded (bytesOf c s.taken) := by
  obtain ⟨t, hshows, hinv⟩ := exists_lines h
  refine ⟨⟨t.input.pending, t.input.edit, hshows.input, ?_⟩, fun c ↦ ?_⟩
  · rw [hshows.echo, hshows.taken]
    exact hinv.screen
  · rw [hshows.calls, hshows.taken]
    exact hinv.calls c

/-- A line is typed. -/
theorem screen_is_input_line :
    let s := (consoleInit inputRing ℕ).consoleintr inputRing [104, 105, 13]
    ∃ pending edit, s.input.Shows ⟨pending, edit⟩ ∧
      shown s.echo = s.taken.map Prod.snd ++ pending ++ edit :=
  have hstart : (console inputRing ℕ).Reachable (consoleInit inputRing ℕ) := .init rfl
  (screen_is_input (hstart.next (l := .intr [104, 105, 13]) rfl)).1

/-- While a reader sleeps there is nothing to read and room for the next byte, so the ring never keeps a
reader and the keyboard waiting for each other. -/
theorem sleeping_reader_has_room {s : ConsoleState Input ι} (h : (console inputRing ι).Reachable s)
    {c : ι} (hasleep : (s.calls c).Asleep) :
    s.input.ring.first = s.input.w ∧
      (s.input.ring.last + (uintBound - s.input.ring.first)) % uintBound < INPUT_BUF := by
  obtain ⟨t, hshows, hinv⟩ := exists_lines h
  rw [hshows.calls] at hasleep
  have hpending := hinv.asleep c hasleep
  refine ⟨hshows.input.first_eq_w_iff.mpr hpending, ?_⟩
  rw [hshows.input.length]
  rcases eq_or_ne t.input.edit [] with hedit | hedit
  · rw [hpending, hedit]
    decide
  · exact hinv.wellFormed.room hedit

/-- A reader comes before the first key. -/
theorem sleeping_reader_has_room_first :
    let s := ((consoleInit inputRing ℕ).setCall 0 (.reading 5 [] false)).consoleread inputRing 0 5 []
    s.input.ring.first = s.input.w ∧
      (s.input.ring.last + (uintBound - s.input.ring.first)) % uintBound < INPUT_BUF :=
  have hcalled : (console inputRing ℕ).Reachable ((consoleInit inputRing ℕ).setCall 0 (.reading 5 [] false)) :=
    .step (.init rfl) trivial (l := .callRead 0 5) rfl
  sleeping_reader_has_room (c := 0) (hcalled.next (l := .run 0) rfl) rfl

end CS537.Channels
