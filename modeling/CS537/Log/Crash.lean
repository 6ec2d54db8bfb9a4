import CS537.Log.Runs

/-!
# Crashes and the space of the log

A crash at any moment, the recovery after another crash included, leaves the effect of the file
system calls that have been committed, each as a whole.  `log_write` does not panic as long as every
call writes fewer than `MAXOPBLOCKS` blocks.  With as many as that it may: `begin_op` reserves space
for three such calls, but the log has one place less, and `log_write` refuses a block of a full log
even where it is listed already.
-/

open scoped BigOperators

namespace CS537.Log

open Foundation

section Recovery

variable {ι : Type*} [DecidableEq ι] {area : LogArea} {k : ℕ} {d : EmptyLog area} {s t : LogState ι}

/-! ## After a crash -/

/-- What the process in `recover_from_log` does, and that it is done. -/
def Activity.InRecovery : Activity → Prop
  | .none => True
  | .readHead => True
  | .installTrans _ => True
  | .clearHead => True
  | _ => False

/-- The kernel in `recover_from_log`, or behind it. -/
structure Recovering (durable : List (LogWrite ι)) (s : LogState ι) : Prop where
  committing : s.committing = false
  activity : s.activity.InRecovery
  halted : s.halted = none
  durable : s.durable = durable

omit [DecidableEq ι] in
theorem Recovering.crash (s : LogState ι) : Recovering s.durable s.crash :=
  ⟨rfl, trivial, rfl, rfl⟩

theorem Recovering.step {durable : List (LogWrite ι)} (h : Recovering durable s)
    {l : LogLabel ι} (hl : l = .proceed ∨ l = .crash) (hs : s.step area l = some t) :
    Recovering durable t := by
  have hnot {a : Activity} (ha : s.activity = a) (hout : ¬a.InRecovery) : Recovering durable t :=
    absurd (ha ▸ h.activity) hout
  rcases hl with rfl | rfl
  · cases LogState.step_cases hs with
    | readHead => exact ⟨h.committing, trivial, h.halted, h.durable⟩
    | writeLog hactivity => exact hnot hactivity id
    | logWritten hactivity => exact hnot hactivity id
    | writeHead hactivity => exact hnot hactivity id
    | install => exact ⟨h.committing, trivial, h.halted, h.durable⟩
    | installed => exact ⟨h.committing, trivial, h.halted, h.durable⟩
    | clearHead =>
      refine ⟨h.committing, ?_, h.halted, h.durable⟩
      simp only [LogState.setActivity, h.committing, Bool.false_eq_true, if_false]
      trivial
    | leave hactivity => exact hnot hactivity id
  · cases LogState.step_cases hs with
    | crash => exact ⟨rfl, trivial, rfl, h.durable⟩

theorem LogInv.disk_eq {base : ℕ → Block} (h : LogInv area k base s) (hactivity : s.activity = .none)
    {b : ℕ} (hb : area.Home b) : s.disk b = replay (contents s.durable) base b := by
  rw [← h.recoverable.content b hb, recovered_of_empty (h.phase_none hactivity).1]

theorem LogInv.recent_eq_nil {base : ℕ → Block} (h : LogInv area k base s)
    (hactivity : s.activity = .none) (hidle : s.outstanding = 0) : s.recent = [] := by
  obtain ⟨openOps, hreserved, hcard⟩ := h.reserved hactivity
  have hlh : s.lh = [] := hreserved.idle (Finset.card_eq_zero.mp (hcard ▸ hidle))
  rw [← List.map_eq_nil_iff (f := LogWrite.block), List.eq_nil_iff_forall_not_mem]
  intro b hb
  rw [← (h.phase_none hactivity).2.2 b, hlh] at hb
  exact List.not_mem_nil hb

/-! ## The recovery and the commit come to their ends -/

/-- What stays while the process in `commit` or in `recover_from_log` copies blocks. -/
structure Copied (s t : LogState ι) : Prop where
  halted : t.halted = s.halted
  committing : t.committing = s.committing
  outstanding : t.outstanding = s.outstanding
  lh : t.lh = s.lh
  ops : t.ops = s.ops
  durable : t.durable = s.durable
  recent : t.recent = s.recent

omit [DecidableEq ι] in
theorem Copied.trans {u : LogState ι} (h : Copied s t) (h' : Copied t u) : Copied s u :=
  ⟨h'.halted.trans h.halted, h'.committing.trans h.committing, h'.outstanding.trans h.outstanding,
    h'.lh.trans h.lh, h'.ops.trans h.ops, h'.durable.trans h.durable, h'.recent.trans h.recent⟩

theorem step_proceed (hhalted : s.halted = none) : s.step area .proceed = s.proceed area := by
  rw [LogState.step, if_pos hhalted]

/-- The loop of `write_log` or of `install_trans`, of which `hstep` makes one round, with `m` blocks to
go. -/
theorem exists_copied {loop : ℕ → Activity} (d : EmptyLog area)
    (hstep : ∀ (s : LogState ι) (tail b : ℕ), s.halted = none → s.activity = loop tail →
      s.lh[tail]? = some b → ∃ t, s.step area .proceed = some t ∧ t.activity = loop (tail + 1) ∧ Copied s t)
    (m : ℕ) : ∀ (s : LogState ι) (tail : ℕ), s.halted = none → s.activity = loop tail →
      s.lh.length = tail + m → ∃ t, (area.machine d).run s (List.replicate m .proceed) = some t ∧
        t.activity = loop (tail + m) ∧ Copied s t := by
  induction m with
  | zero => exact fun s tail _ hactivity _ ↦ ⟨s, rfl, hactivity, rfl, rfl, rfl, rfl, rfl, rfl, rfl⟩
  | succ m ih =>
    intro s tail hhalted hactivity hlength
    have hget : s.lh[tail]? = some s.lh[tail] := List.getElem?_eq_getElem (by omega)
    obtain ⟨u, hu, hnext, hcopied⟩ := hstep s tail _ hhalted hactivity hget
    obtain ⟨t, hrun, hend, hcopied'⟩ := ih u (tail + 1) (hcopied.halted.trans hhalted) hnext
      (by rw [hcopied.lh]; omega)
    refine ⟨t, ?_, ?_, hcopied.trans hcopied'⟩
    · rw [List.replicate_succ, Machine.run_cons_of_step _ hu]
      exact hrun
    · rw [hend]
      congr 1
      omega

/-- `write_log` from its start. -/
theorem exists_logWritten (d : EmptyLog area) (hhalted : s.halted = none)
    (hactivity : s.activity = .writeLog 0) :
    ∃ t, (area.machine d).run s (List.replicate (s.lh.length + 1) .proceed) = some t ∧
      t.activity = .writeHead ∧ Copied s t := by
  have hround (s : LogState ι) (tail b : ℕ) (hhalted : s.halted = none)
      (hactivity : s.activity = .writeLog tail) (hget : s.lh[tail]? = some b) :
      ∃ t, s.step area .proceed = some t ∧ t.activity = .writeLog (tail + 1) ∧ Copied s t := by
    refine ⟨(s.bwrite (area.start + tail + 1) (s.bread b)).setActivity (.writeLog (tail + 1)), ?_, rfl,
      rfl, rfl, rfl, rfl, rfl, rfl, rfl⟩
    simp only [step_proceed hhalted, LogState.proceed, hactivity, hget]
  obtain ⟨t, hrun, hend, hcopied⟩ :=
    exists_copied d hround s.lh.length s 0 hhalted hactivity (Nat.zero_add _).symm
  have hnone : t.lh[0 + s.lh.length]? = none := by
    rw [hcopied.lh, Nat.zero_add, List.getElem?_eq_none le_rfl]
  have hlast : (area.machine d).step t .proceed = some (t.setActivity .writeHead) := by
    simp only [LogArea.machine, step_proceed (hcopied.halted.trans hhalted), LogState.proceed, hend, hnone]
  refine ⟨t.setActivity .writeHead, ?_, rfl,
    hcopied.trans ⟨rfl, rfl, rfl, rfl, rfl, rfl, rfl⟩⟩
  rw [List.replicate_succ', Machine.run_append, hrun, Option.bind_some,
    Machine.run_cons_of_step _ hlast, Machine.run_nil]

/-- `install_trans` from its start, and the erasing of the header. -/
theorem exists_installed (d : EmptyLog area) (hhalted : s.halted = none)
    (hactivity : s.activity = .installTrans 0) :
    ∃ t, (area.machine d).run s (List.replicate (s.lh.length + 2) .proceed) = some t ∧
      t.activity = (if s.committing then .leave else .none) ∧ t.lh = [] ∧ Copied s { t with lh := s.lh } := by
  have hround (s : LogState ι) (tail b : ℕ) (hhalted : s.halted = none)
      (hactivity : s.activity = .installTrans tail) (hget : s.lh[tail]? = some b) :
      ∃ t, s.step area .proceed = some t ∧ t.activity = .installTrans (tail + 1) ∧ Copied s t := by
    refine ⟨(s.bwrite b (s.bread (area.start + tail + 1))).setActivity (.installTrans (tail + 1)), ?_, rfl,
      rfl, rfl, rfl, rfl, rfl, rfl, rfl⟩
    simp only [step_proceed hhalted, LogState.proceed, hactivity, hget]
  obtain ⟨t, hrun, hend, hcopied⟩ :=
    exists_copied d hround s.lh.length s 0 hhalted hactivity (Nat.zero_add _).symm
  have hhalted' := hcopied.halted.trans hhalted
  have hnone : t.lh[0 + s.lh.length]? = none := by
    rw [hcopied.lh, Nat.zero_add, List.getElem?_eq_none le_rfl]
  have hinstalled : (area.machine d).step t .proceed =
      some { t.setActivity .clearHead with lh := [] } := by
    simp only [LogArea.machine, step_proceed hhalted', LogState.proceed, hend, hnone]
  let u : LogState ι := { t.setActivity .clearHead with lh := [] }
  have hclear : (area.machine d).step u .proceed =
      some ((u.bwrite area.start (writeHeader u.lh (u.bread area.start))).setActivity
        (if u.committing then .leave else .none)) := step_proceed (s := u) hhalted'
  refine ⟨(u.bwrite area.start (writeHeader u.lh (u.bread area.start))).setActivity
    (if u.committing then .leave else .none), ?_, ?_, rfl, hcopied.halted, hcopied.committing,
    hcopied.outstanding, rfl, hcopied.ops, hcopied.durable, hcopied.recent⟩
  · rw [List.replicate_add, Machine.run_append, hrun, Option.bind_some]
    exact (Machine.run_cons_of_step _ hinstalled _).trans (Machine.run_cons_of_step _ hclear _)
  · change (if t.committing then Activity.leave else Activity.none) = _
    rw [hcopied.committing]

theorem exists_recovered (d : EmptyLog area) (s : LogState ι) :
    ∃ t, (area.machine d).run s
        (.crash :: List.replicate ((readHeader (s.disk area.start)).length + 3) .proceed) = some t ∧
      t.activity = .none ∧ t.halted = none ∧ t.ops = s.crash.ops := by
  have hcrash : (area.machine d).step s .crash = some s.crash := rfl
  have hreadHead : (area.machine d).step s.crash .proceed =
      some { s.crash with lh := readHeader (s.crash.bread area.start), activity := .installTrans 0 } :=
    step_proceed (s := s.crash) rfl
  obtain ⟨t, hrun, hend, -, hcopied⟩ := exists_installed d
    (s := { s.crash with lh := readHeader (s.crash.bread area.start), activity := .installTrans 0 }) rfl rfl
  refine ⟨t, ?_, hend, hcopied.halted, hcopied.ops⟩
  rw [List.replicate_succ, Machine.run_cons_of_step _ hcrash, Machine.run_cons_of_step _ hreadHead]
  exact hrun

/-- The last system call in progress ends, and the header of its transaction is written. -/
theorem exists_headWritten (d : EmptyLog area) {o : ι} (hhalted : s.halted = none)
    (hop : s.ops o = .active) (hcommitting : s.committing = false) (hlast : s.outstanding = 1)
    (hlh : s.lh ≠ []) :
    ∃ t, (area.machine d).run s (.endOp o :: List.replicate (s.lh.length + 2) .proceed) = some t ∧
      t.activity = .installTrans 0 ∧ t.committing = true ∧ t.halted = none ∧ t.lh = s.lh ∧
      t.durable = s.durable ++ s.recent ∧ t.recent = [] := by
  have hpos := List.length_pos_of_ne_nil hlh
  have hendOp : (area.machine d).step s (.endOp o) = some { s.setOp o .ended with
      outstanding := s.outstanding - 1, committing := true, activity := .writeLog 0 } := by
    simp only [LogArea.machine, LogState.step, hhalted, LogState.endOp, hop, hcommitting, hlast, hpos,
      if_true, Bool.false_eq_true, if_false]
  obtain ⟨t, hrun, hactivity, hcopied⟩ := exists_logWritten d (s := { s.setOp o .ended with
    outstanding := s.outstanding - 1, committing := true, activity := .writeLog 0 }) hhalted rfl
  have hhalted' : t.halted = none := hcopied.halted.trans hhalted
  have hwrite : (area.machine d).step t .proceed = some
      { (t.bwrite area.start (writeHeader t.lh (t.bread area.start))).setActivity (.installTrans 0) with
        durable := t.durable ++ t.recent
        recent := [] } := by
    simp only [LogArea.machine, step_proceed hhalted', LogState.proceed, hactivity]
  refine ⟨{ (t.bwrite area.start (writeHeader t.lh (t.bread area.start))).setActivity (.installTrans 0) with
    durable := t.durable ++ t.recent, recent := [] }, ?_, rfl, hcopied.committing, hhalted', hcopied.lh, ?_,
    rfl⟩
  · rw [Machine.run_cons_of_step _ hendOp, List.replicate_succ', Machine.run_append]
    exact (congrArg (Option.bind · _) hrun).trans (Machine.run_cons_of_step _ hwrite [])
  · change t.durable ++ t.recent = _
    rw [hcopied.durable, hcopied.recent]
    rfl

/-- The last system call in progress ends, and the commit comes to its end. -/
theorem exists_committed (d : EmptyLog area) {o : ι} (hhalted : s.halted = none)
    (hop : s.ops o = .active) (hcommitting : s.committing = false) (hlast : s.outstanding = 1)
    (hlh : s.lh ≠ []) :
    ∃ t, (area.machine d).run s (.endOp o :: List.replicate (2 * s.lh.length + 5) .proceed) = some t ∧
      t.activity = .none ∧ t.halted = none ∧ t.durable = s.durable ++ s.recent ∧ t.recent = [] := by
  obtain ⟨u, hu, hactivity, hcommitting', hhalted', hlh', hdurable, hrecent⟩ :=
    exists_headWritten d hhalted hop hcommitting hlast hlh
  obtain ⟨v, hv, hleave, -, hcopied⟩ := exists_installed d hhalted' hactivity
  rw [hcommitting', if_pos rfl] at hleave
  have hhalted'' : v.halted = none := hcopied.halted.trans hhalted'
  have hlast : (area.machine d).step v .proceed = some { v.setActivity .none with committing := false } := by
    simp only [LogArea.machine, step_proceed hhalted'', LogState.proceed, hleave]
  refine ⟨{ v.setActivity .none with committing := false }, ?_, rfl, hhalted'',
    hcopied.durable.trans hdurable, hcopied.recent.trans hrecent⟩
  have hsplit : 2 * s.lh.length + 5 = (s.lh.length + 2) + (u.lh.length + 2 + 1) := by
    rw [hlh']
    omega
  rw [hsplit, List.replicate_add, ← List.cons_append, Machine.run_append, hu, Option.bind_some,
    List.replicate_succ', Machine.run_append, hv, Option.bind_some, Machine.run_cons_of_step _ hlast,
    Machine.run_nil]

end Recovery

/-! ## A committed write on the log of a new file system -/

section Example

variable {area : LogArea}

/-- The log is empty, and the first `n` calls have begun. -/
structure Begun (n : ℕ) (s : LogState ℕ) : Prop where
  halted : s.halted = none
  activity : s.activity = .none
  committing : s.committing = false
  lh : s.lh = []
  durable : s.durable = []
  recent : s.recent = []
  outstanding : s.outstanding = n
  active : ∀ o < n, s.ops o = .active
  idle : ∀ o, n ≤ o → s.ops o = .idle

theorem fits_of_proceed {l : LogLabel ℕ} {s : LogState ℕ} {k n : ℕ}
    (hl : l ∈ List.replicate n .proceed) : area.Fits k s l := by
  rw [List.eq_of_mem_replicate hl]
  trivial

theorem exists_begun_zero (d : EmptyLog area) (k : ℕ) :
    ∃ s : LogState ℕ, (area.machine d).ReachableVia (area.Fits k) s ∧ Begun 0 s := by
  let u : LogState ℕ := { LogState.boot d.disk with
    lh := readHeader ((LogState.boot d.disk : LogState ℕ).bread area.start)
    activity := .installTrans 0 }
  have hread : (LogState.boot d.disk : LogState ℕ).step area .proceed = some u := rfl
  obtain ⟨s, hrun, hactivity, hlh, hcopied⟩ := exists_installed d (s := u) rfl rfl
  have hreached : (area.machine d).ReachableVia (area.Fits k) s :=
    Machine.ReachableVia.run (.step (l := .proceed) (.init rfl) trivial hread)
      (fun l hl v ↦ fits_of_proceed hl) hrun
  exact ⟨s, hreached, hcopied.halted, hactivity, hcopied.committing, hlh, hcopied.durable, hcopied.recent,
    hcopied.outstanding, fun o ho ↦ absurd ho (Nat.not_lt_zero o), fun o _ ↦ congrFun hcopied.ops o⟩

theorem Begun.next (area : LogArea) {s : LogState ℕ} {n : ℕ} (h : Begun n s) (hn : n ≤ 2) :
    ∃ t, s.step area (.beginOp n) = some t ∧ Begun (n + 1) t := by
  have hspace : s.lh.length + (s.outstanding + 1) * MAXOPBLOCKS ≤ LOGSIZE := by
    rw [h.lh, h.outstanding, List.length_nil]
    simp only [MAXOPBLOCKS, LOGSIZE]
    omega
  refine ⟨{ s.setOp n .active with outstanding := s.outstanding + 1 }, ?_, h.halted, h.activity,
    h.committing, h.lh, h.durable, h.recent, congrArg (· + 1) h.outstanding, fun o ho ↦ ?_, fun o ho ↦ ?_⟩
  · simp only [LogState.step, h.halted, if_true, LogState.beginOp, h.idle n le_rfl]
    rw [if_pos ⟨h.activity, h.committing, hspace⟩]
  · by_cases hon : o = n
    · rw [hon]
      exact Function.update_self _ _ _
    · exact (Function.update_of_ne hon _ _).trans (h.active o (by omega))
  · exact (Function.update_of_ne (by omega) _ _).trans (h.idle o (by omega))

/-- A system call has written one block. -/
theorem exists_written (d : EmptyLog area) {b : ℕ} (hb : area.Home b) (data : Block) :
    ∃ s : LogState ℕ, (area.machine d).ReachableVia (area.Fits (MAXOPBLOCKS - 1)) s ∧
      s.halted = none ∧ s.ops 0 = .active ∧ s.committing = false ∧ s.outstanding = 1 ∧ s.lh = [b] ∧
      s.durable = [] ∧ s.recent = [⟨0, b, data⟩] := by
  obtain ⟨s₀, hs₀, h₀⟩ := exists_begun_zero d (MAXOPBLOCKS - 1)
  obtain ⟨s, hs, h⟩ := h₀.next area (Nat.zero_le 2)
  have hreached : (area.machine d).ReachableVia (area.Fits (MAXOPBLOCKS - 1)) s :=
    .step (l := .beginOp 0) hs₀ trivial hs
  have hop := h.active 0 Nat.one_pos
  have hfits : area.Fits (MAXOPBLOCKS - 1) s (.checkWrite 0 b data) := by
    refine ⟨hb, ?_⟩
    rw [h.recent]
    exact (Finset.card_singleton b).le.trans (by decide)
  have hfull : ¬(LOGSIZE ≤ s.lh.length ∨ area.size - 1 ≤ s.lh.length) := by
    have henough := area.enough
    simp only [h.lh, List.length_nil, LOGSIZE, MAXOPBLOCKS] at henough ⊢
    omega
  have hcheck : s.step area (.checkWrite 0 b data) = some (s.setOp 0 (.logging b data)) := by
    simp only [LogState.step, h.halted, if_true, LogState.checkWrite, hop, if_neg hfull, h.outstanding]
    rfl
  have happend : (s.setOp 0 (.logging b data)).step area (.appendWrite 0) =
      some { s.setOp 0 .active with
        buf := Function.update s.buf b (some ⟨data, true⟩)
        recent := s.recent ++ [⟨0, b, data⟩]
        lh := s.lh ++ [b] } := by
    simp only [LogState.step, LogState.setOp, h.halted, if_true, LogState.appendWrite,
      Function.update_self, h.lh, Function.update_idem]
    rfl
  refine ⟨_, .step (l := .appendWrite 0) (.step hreached hfits hcheck) trivial happend, h.halted,
    Function.update_self 0 _ s.ops, h.committing, h.outstanding, ?_, h.durable, ?_⟩
  · exact congrArg (· ++ [b]) h.lh
  · exact congrArg (· ++ [⟨0, b, data⟩]) h.recent

/-- The log as the formatter lays it out. -/
def mkfsLog : LogArea := ⟨2, Mkfs.nlog, by decide, by decide⟩

def zeroDisk : EmptyLog mkfsLog := ⟨fun _ _ ↦ 0, rfl⟩

/-- A block of ones. -/
def ones : Block := fun _ ↦ 1

/-- A system call has written ones to block 100; the header of its transaction is on the disk, and the
block is not in its place yet. -/
theorem exists_committing : ∃ s : LogState ℕ,
    (mkfsLog.machine zeroDisk).ReachableVia (mkfsLog.Fits (MAXOPBLOCKS - 1)) s ∧
      s.activity = .installTrans 0 ∧ s.committing = true ∧ s.durable = [⟨0, 100, ones⟩] := by
  obtain ⟨s, hs, hhalted, hop, hcommitting, hlast, hlh, hdurable, hrecent⟩ :=
    exists_written zeroDisk (b := 100) (by decide) ones
  obtain ⟨t, hrun, hactivity, hcommitting', -, -, hdurable', -⟩ :=
    exists_headWritten zeroDisk hhalted hop hcommitting hlast (by rw [hlh]; exact List.cons_ne_nil _ _)
  rw [hdurable, hrecent, List.nil_append] at hdurable'
  refine ⟨t, hs.run (fun l hl u ↦ ?_) hrun, hactivity, hcommitting', hdurable'⟩
  rcases List.mem_cons.mp hl with rfl | hl
  · trivial
  · exact fits_of_proceed hl

end Example

/-! ## What a crash leaves -/

section Recovery

variable {ι : Type*} [DecidableEq ι] {area : LogArea} {d : EmptyLog area} {s t : LogState ι}

/-- When the log has been recovered after a crash, and perhaps after more crashes during the
recovery, the blocks are those that the committed writes make.  A file system call whose writes
were committed had ended, and none of its writes were left behind. -/
theorem crash_atomic (hs : (area.machine d).ReachableVia (area.Fits (MAXOPBLOCKS - 1)) s)
    {ls : List (LogLabel ι)} (hls : ∀ l ∈ ls, l = .proceed ∨ l = .crash)
    (hrun : (area.machine d).run s (.crash :: ls) = some t) (hup : t.activity = .none) :
    (∀ b, area.Home b → t.disk b = replay (contents s.durable) d.disk b) ∧
      (∀ w ∈ s.durable, s.ops w.op = .ended) ∧
      (∀ w ∈ s.durable, ∀ w' ∈ s.recent, w.op ≠ w'.op) ∧
      (s.activity = .none → s.outstanding = 0 → s.recent = []) := by
  have hk : MAXOPBLOCKS - 1 < MAXOPBLOCKS := by decide
  have hinv := logInv_of_reachable hk hs
  obtain ⟨u, hu, hrun⟩ := Option.bind_eq_some_iff.mp hrun
  obtain rfl := Option.some.inj (hu : some s.crash = some u)
  have hstep : ∀ (u : LogState ι) l v, l = .proceed ∨ l = .crash →
      LogInv area (MAXOPBLOCKS - 1) d.disk u ∧ Recovering s.durable u → u.step area l = some v →
        LogInv area (MAXOPBLOCKS - 1) d.disk v ∧ Recovering s.durable v := by
    rintro u l v hl ⟨hinv, hrec⟩ hv
    refine ⟨hinv.step hk ?_ hv, hrec.step hl hv⟩
    rcases hl with rfl | rfl <;> trivial
  obtain ⟨hinv', hrec⟩ := Machine.run_invariant_on _ hstep hls ⟨hinv.crash, .crash s⟩ hrun
  refine ⟨fun b hb ↦ ?_, hinv.recorded.ended, hinv.recorded.apart, hinv.recent_eq_nil⟩
  rw [hinv'.disk_eq hup hb, hrec.durable]

/-- A crash after the header has been written, and before the block has been copied to its place. -/
theorem crash_atomic_committed : ∃ s t : LogState ℕ, s.activity = .installTrans 0 ∧
    (∃ n, (mkfsLog.machine zeroDisk).run s (.crash :: List.replicate n .proceed) = some t) ∧
      t.activity = .none ∧ t.disk 100 = ones := by
  obtain ⟨s, hs, hactivity, -, hdurable⟩ := exists_committing
  obtain ⟨t, hrun, hup, -⟩ := exists_recovered zeroDisk s
  have hdisk := (crash_atomic hs (fun l hl ↦ .inl (List.eq_of_mem_replicate hl)) hrun hup).1 100 (by decide)
  rw [hdurable] at hdisk
  exact ⟨s, t, hactivity, ⟨_, hrun⟩, hup, hdisk⟩

/-- After a crash the kernel completes the recovery in a bounded number of steps. -/
theorem recovery_completes (hs : (area.machine d).ReachableVia (area.Fits (MAXOPBLOCKS - 1)) s) :
    ∃ n ≤ LOGSIZE + 1, ∃ t, (area.machine d).run s (.crash :: List.replicate n .proceed) = some t ∧
      t.activity = .none ∧ t.halted = none := by
  have hinv := logInv_of_reachable (by decide) hs
  have hlength := hinv.recoverable.listed.length_le
  obtain ⟨t, hrun, hup, hhalted, -⟩ := exists_recovered d s
  refine ⟨(readHeader (s.disk area.start)).length + 3, ?_, t, hrun, hup, hhalted⟩
  simp only [MAXOPBLOCKS, LOGSIZE] at hlength ⊢
  omega

theorem recovery_completes_committed : ∃ s : LogState ℕ, s.durable = [⟨0, 100, ones⟩] ∧
    ∃ n ≤ LOGSIZE + 1, ∃ t : LogState ℕ,
      (mkfsLog.machine zeroDisk).run s (.crash :: List.replicate n .proceed) = some t ∧
        t.activity = .none ∧ t.halted = none := by
  obtain ⟨s, hs, -, -, hdurable⟩ := exists_committing
  exact ⟨s, hdurable, recovery_completes hs⟩

/-! ## While the kernel runs -/

/-- Calls read what has been written last, before and during a commit; between commits the disk has
nothing of the calls that are not committed. -/
theorem write_ahead (hs : (area.machine d).ReachableVia (area.Fits (MAXOPBLOCKS - 1)) s)
    (hup : s.Up) {b : ℕ} (hb : area.Home b) :
    s.bread b = replay (contents (s.durable ++ s.recent)) d.disk b ∧
      recovered area s.disk b = replay (contents s.durable) d.disk b ∧
      (s.activity = .none → s.disk b = replay (contents s.durable) d.disk b) := by
  have hinv := logInv_of_reachable (by decide) hs
  exact ⟨hinv.view hup b hb, hinv.recoverable.content b hb, fun hactivity ↦ hinv.disk_eq hactivity hb⟩

/-- The block is read as it was written, and would be recovered so. -/
theorem write_ahead_committed : ∃ s : LogState ℕ, s.activity = .installTrans 0 ∧ s.bread 100 = ones ∧
    recovered mkfsLog s.disk 100 = ones := by
  obtain ⟨s, hs, hactivity, hcommitting, hdurable⟩ := exists_committing
  have hphase := (logInv_of_reachable (by decide) hs).phase
  simp only [LogState.Phase, hactivity] at hphase
  obtain ⟨hbread, hrecovered, -⟩ := write_ahead hs (.inr hcommitting) (b := 100) (by decide)
  rw [hdurable, hphase.2.1] at hbread
  rw [hdurable] at hrecovered
  exact ⟨s, hactivity, hbread, hrecovered⟩

end Recovery

/-! ## Panics -/

section Space

variable {area : LogArea} {d : EmptyLog area} {k : ℕ}

theorem LogInv.not_halted {ι : Type*} [DecidableEq ι] {base : ℕ → Block} {s t : LogState ι}
    {l : LogLabel ι} (h : LogInv area k base s) (hk : k < MAXOPBLOCKS) (hhalted : s.halted = none)
    (hs : s.step area l = some t) : t.halted = none := by
  have hlength := h.listed.length_le
  have hsize := area.enough
  simp only [MAXOPBLOCKS, LOGSIZE] at hk hlength hsize
  have hopen {o : ι} (ho : (s.ops o).Open) : 0 < s.outstanding ∧ s.committing = false := by
    obtain ⟨openOps, -, hcard, hmem⟩ := h.exists_openOps ho
    exact ⟨hcard ▸ Finset.card_pos.mpr ⟨o, hmem⟩, (h.phase_none (h.activity_of_open ho)).2.1⟩
  cases LogState.step_cases hs with
  | tooBig _ hfull =>
    simp only [MAXOPBLOCKS, LOGSIZE] at hfull
    omega
  | outside hop houtside =>
    have hpos := (hopen (hop ▸ OpState.open_active)).1
    omega
  | overrun _ hfull =>
    simp only [MAXOPBLOCKS, LOGSIZE] at hfull
    omega
  | endTwice hop hcommitting =>
    have hnot := (hopen (hop ▸ OpState.open_active)).2
    exact absurd (hnot.symm.trans hcommitting) Bool.false_ne_true
  | crash => rfl
  | _ => exact hhalted

theorem halted_eq_none {s : LogState ℕ} (hk : k < MAXOPBLOCKS)
    (hs : (area.machine d).ReachableVia (area.Fits k) s) : s.halted = none := by
  induction hs with
  | init hi =>
    rw [show _ = LogState.boot d.disk from hi]
    rfl
  | step hr hfits ht ih => exact (logInv_of_reachable hk hr).not_halted hk ih ht

/-- The block number `n` behind the log. -/
def LogArea.blockAt (area : LogArea) (n : ℕ) : ℕ := area.start + area.size + n

theorem LogArea.home_blockAt {n : ℕ} (hn : n < 2 ^ 31) : area.Home (area.blockAt n) := by
  have hbound := area.bound
  exact ⟨by simp only [blockAt]; omega, Or.inr (Nat.le_add_right _ _)⟩

/-- The blocks that call `o` writes. -/
def LogArea.blocksOf (area : LogArea) (o : ℕ) : Finset ℕ :=
  (Finset.range MAXOPBLOCKS).image fun j ↦ area.blockAt (MAXOPBLOCKS * o + j)

theorem LogArea.blockAt_mem_blocksOf (area : LogArea) (n : ℕ) :
    area.blockAt n ∈ area.blocksOf (n / MAXOPBLOCKS) := by
  refine Finset.mem_image.mpr ⟨n % MAXOPBLOCKS, Finset.mem_range.mpr ?_, ?_⟩
  · exact Nat.mod_lt n (by decide)
  · rw [Nat.div_add_mod]

theorem card_insert_blocksOf_le {recent : List (LogWrite ℕ)} {n : ℕ}
    (hwritten : ∀ o, writtenBy recent o ⊆ area.blocksOf o) :
    (insert (area.blockAt n) (writtenBy recent (n / MAXOPBLOCKS))).card ≤ MAXOPBLOCKS := by
  calc
    (insert (area.blockAt n) (writtenBy recent (n / MAXOPBLOCKS))).card
        ≤ (area.blocksOf (n / MAXOPBLOCKS)).card :=
      Finset.card_le_card (Finset.insert_subset (area.blockAt_mem_blocksOf n) (hwritten _))
    _ ≤ (Finset.range MAXOPBLOCKS).card := Finset.card_image_le
    _ = MAXOPBLOCKS := Finset.card_range _

/-- Three calls are in progress and have written `n` blocks, ten of them each at most. -/
structure Crowded (area : LogArea) (n : ℕ) (s : LogState ℕ) : Prop where
  halted : s.halted = none
  outstanding : 0 < s.outstanding
  active : ∀ o < 3, s.ops o = .active
  lh : s.lh = (List.range n).map area.blockAt
  written : ∀ o, writtenBy s.recent o ⊆ area.blocksOf o

/-- One of the calls logs one more block, unless `log_write` panics. -/
theorem Crowded.next {s : LogState ℕ} {n : ℕ} (h : Crowded area n s) (hk : MAXOPBLOCKS ≤ k)
    (hn : n < LOGSIZE) (hs : (area.machine d).ReachableVia (area.Fits k) s) :
    (∃ (t : LogState ℕ) (msg : String), (area.machine d).ReachableVia (area.Fits k) t ∧
        t.halted = some (.panic msg)) ∨
      ∃ t : LogState ℕ, (area.machine d).ReachableVia (area.Fits k) t ∧ Crowded area (n + 1) t := by
  have hop : s.ops (n / MAXOPBLOCKS) = .active := h.active _ (Nat.div_lt_of_lt_mul hn)
  have hsmall : n < 2 ^ 31 := hn.trans (by decide)
  have hfits : area.Fits k s (.checkWrite (n / MAXOPBLOCKS) (area.blockAt n) fun _ ↦ 0) :=
    ⟨area.home_blockAt hsmall, (card_insert_blocksOf_le h.written).trans hk⟩
  have hlength : s.lh.length = n := by rw [h.lh, List.length_map, List.length_range]
  by_cases hfull : LOGSIZE ≤ s.lh.length ∨ area.size - 1 ≤ s.lh.length
  · left
    refine ⟨s.halt (.panic "too big a transaction"), _, .step hs hfits ?_, rfl⟩
    simp only [LogArea.machine, LogState.step, h.halted, if_true, LogState.checkWrite, hop,
      if_pos hfull]
  · right
    have hmem : area.blockAt n ∉ s.lh := by
      rw [h.lh, List.mem_map]
      rintro ⟨i, hi, heq⟩
      have hlt := List.mem_range.mp hi
      simp only [LogArea.blockAt] at heq
      omega
    have hcheck : s.step area (.checkWrite (n / MAXOPBLOCKS) (area.blockAt n) fun _ ↦ 0) =
        some (s.setOp (n / MAXOPBLOCKS) (.logging (area.blockAt n) fun _ ↦ 0)) := by
      have hpos := h.outstanding
      simp only [LogState.step, h.halted, if_true, LogState.checkWrite, hop, if_neg hfull,
        if_neg (show ¬s.outstanding < 1 by omega)]
    have happend : (s.setOp (n / MAXOPBLOCKS) (.logging (area.blockAt n) fun _ ↦ 0)).step area
        (.appendWrite (n / MAXOPBLOCKS)) = some { s.setOp (n / MAXOPBLOCKS) .active with
          buf := Function.update s.buf (area.blockAt n) (some ⟨fun _ ↦ 0, true⟩)
          recent := s.recent ++ [⟨n / MAXOPBLOCKS, area.blockAt n, fun _ ↦ 0⟩]
          lh := s.lh ++ [area.blockAt n] } := by
      simp only [LogState.step, LogState.setOp, h.halted, if_true, LogState.appendWrite,
        Function.update_self, if_neg hmem, if_neg (not_or.mp hfull).1, Function.update_idem]
    have hchecked := Machine.ReachableVia.step hs hfits hcheck
    refine ⟨_, .step (l := .appendWrite (n / MAXOPBLOCKS)) hchecked trivial happend, h.halted,
      h.outstanding, fun o ho ↦ ?_, ?_, fun o ↦ ?_⟩
    · by_cases hon : o = n / MAXOPBLOCKS
      · rw [hon]
        exact Function.update_self _ _ _
      · exact (Function.update_of_ne hon _ _).trans (h.active o ho)
    · simp only [h.lh, List.range_succ, List.map_append, List.map_singleton]
    · by_cases hon : o = n / MAXOPBLOCKS
      · subst hon
        rw [writtenBy_append_self]
        exact Finset.insert_subset (area.blockAt_mem_blocksOf n) (h.written _)
      · rw [writtenBy_append_of_ne hon]
        exact h.written o

/-- From the start of the kernel to three calls that have written nothing. -/
theorem exists_crowded (d : EmptyLog area) (k : ℕ) :
    ∃ s : LogState ℕ, (area.machine d).ReachableVia (area.Fits k) s ∧ Crowded area 0 s := by
  obtain ⟨s₀, hs₀, h₀⟩ := exists_begun_zero d k
  obtain ⟨s₁, hs₁, h₁⟩ := h₀.next area (by decide)
  obtain ⟨s₂, hs₂, h₂⟩ := h₁.next area (by decide)
  obtain ⟨s₃, hs₃, h₃⟩ := h₂.next area (by decide)
  have hreached : (area.machine d).ReachableVia (area.Fits k) s₃ :=
    .step (l := .beginOp 2) (.step (l := .beginOp 1) (.step (l := .beginOp 0) hs₀ trivial hs₁) trivial hs₂)
      trivial hs₃
  refine ⟨s₃, hreached, h₃.halted, ?_, h₃.active, h₃.lh, fun o ↦ ?_⟩
  · rw [h₃.outstanding]
    decide
  · rw [h₃.recent]
    exact Finset.empty_subset _

/-- The log panics in no run in which each call writes at most `k` blocks if and only if `k` is smaller
than `MAXOPBLOCKS`. -/
theorem no_panic_iff (d : EmptyLog area) (k : ℕ) :
    (∀ s : LogState ℕ, (area.machine d).ReachableVia (area.Fits k) s →
      ∀ msg, s.halted ≠ some (.panic msg)) ↔ k < MAXOPBLOCKS := by
  refine ⟨fun h ↦ ?_, fun hk s hs msg hpanic ↦ ?_⟩
  swap
  · rw [halted_eq_none hk hs] at hpanic
    cases hpanic
  by_contra hk
  have hk : MAXOPBLOCKS ≤ k := Nat.le_of_not_lt hk
  have hcrowded : ∀ n ≤ LOGSIZE, ∃ s : LogState ℕ,
      (area.machine d).ReachableVia (area.Fits k) s ∧ Crowded area n s := by
    intro n
    induction n with
    | zero => exact fun _ ↦ exists_crowded d k
    | succ n ih =>
      intro hn
      obtain ⟨s, hs, hcrowded⟩ := ih (Nat.le_of_succ_le hn)
      rcases hcrowded.next hk hn hs with ⟨t, msg, ht, hpanic⟩ | hnext
      · exact absurd hpanic (h t ht msg)
      · exact hnext
  obtain ⟨s, hs, hcrowded⟩ := hcrowded LOGSIZE le_rfl
  have hlength : s.lh.length = LOGSIZE := by rw [hcrowded.lh, List.length_map, List.length_range]
  -- all blocks of the log are taken, and the block is listed already
  have hfits : area.Fits k s (.checkWrite 0 (area.blockAt 0) fun _ ↦ 0) :=
    ⟨area.home_blockAt (by decide), (card_insert_blocksOf_le hcrowded.written).trans hk⟩
  have hpanic : s.step area (.checkWrite 0 (area.blockAt 0) fun _ ↦ 0) =
      some (s.halt (.panic "too big a transaction")) := by
    simp only [LogState.step, hcrowded.halted, if_true, LogState.checkWrite,
      hcrowded.active 0 (by decide), if_pos (Or.inl hlength.ge)]
  exact h _ (.step hs hfits hpanic) _ rfl

end Space

end CS537.Log
