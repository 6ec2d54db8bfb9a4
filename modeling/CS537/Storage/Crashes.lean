import CS537.Storage.Journal
import CS537.Storage.Runs

/-!
# Crashes

The kernel on its log, with crashes at any moment and in the middle of a recovery, is the files that
survive crashes.  The writes of a call come to the log one after another, and the log panics at none of
them; a commit is made when no system call is in progress, and a crash goes back to the last one.
-/

namespace CS537.Storage

open Foundation Log
open FileSystem (Inum FsState)
open FsCheck (BSIZE)
open Mkfs (Dinode HostFile NINODES)

variable {ι : Type} [DecidableEq ι] {sb : SuperBlock} {area : LogArea} {d : EmptyLog area}

/-! ## The writes of a call -/

section Writes

variable {base : ℕ → Block} {s t : LogState ι} {o : ι} {ws : List (ℕ × Block)} {k : ℕ}

/-- What is the same in the log after the writes of a call, and what is new. -/
structure LoggedWrites (s : LogState ι) (o : ι) (ws : List (ℕ × Block)) (t : LogState ι) : Prop where
  durable : t.durable = s.durable
  recent : t.recent = s.recent ++ ws.map fun w ↦ ⟨o, w.1, w.2⟩
  ops : t.ops = s.ops
  activity : t.activity = s.activity
  committing : t.committing = s.committing
  bread : t.bread = replay ws s.bread

omit [DecidableEq ι] in
/-- A buffer is set. -/
theorem bread_setBuf (s : LogState ι) (b : ℕ) (data : Block) (dirty : Bool) :
    (fun c ↦ (Function.update s.buf b (some ⟨data, dirty⟩) c).elim (s.disk c) Buf.data) =
      Function.update s.bread b data := by
  funext c
  by_cases hc : c = b
  · rw [hc, Function.update_self, Function.update_self, Option.elim_some]
  · rw [Function.update_of_ne hc, Function.update_of_ne hc, LogState.bread]

/-- `log_write` of one block. -/
theorem exists_logWrite (h : LogInv area k base s) (hk : k < MAXOPBLOCKS) (hhalted : s.halted = none)
    (hop : s.ops o = .active) {b : ℕ} (data : Block) (hhome : area.Home b)
    (hcard : (insert b (writtenBy s.recent o)).card ≤ k) :
    ∃ u t, s.step area (.checkWrite o b data) = some u ∧ u.halted = none ∧
      u.step area (.appendWrite o) = some t ∧ LogInv area k base t ∧ t.halted = none ∧
      LoggedWrites s o [(b, data)] t := by
  have hchecked : ∃ u, s.step area (.checkWrite o b data) = some u := by
    simp only [LogState.step, if_pos hhalted, LogState.checkWrite, hop]
    split_ifs
    exacts [⟨_, rfl⟩, ⟨_, rfl⟩, ⟨_, rfl⟩]
  obtain ⟨u, hu⟩ := hchecked
  have huinv := h.step (l := .checkWrite o b data) hk ⟨hhome, hcard⟩ hu
  have huhalted := h.not_halted hk hhalted hu
  obtain rfl : u = s.setOp o (.logging b data) := by
    cases LogState.step_cases hu with
    | tooBig => cases huhalted
    | outside => cases huhalted
    | checkWrite => rfl
  have huop : (s.setOp o (.logging b data)).ops o = .logging b data := Function.update_self _ _ _
  have happended : ∃ t, (s.setOp o (.logging b data)).step area (.appendWrite o) = some t := by
    simp only [LogState.step, if_pos huhalted, LogState.appendWrite, huop]
    split_ifs
    exacts [⟨_, rfl⟩, ⟨_, rfl⟩, ⟨_, rfl⟩]
  obtain ⟨t, ht⟩ := happended
  have hthalted := huinv.not_halted hk huhalted ht
  have hops : Function.update (Function.update s.ops o (.logging b data)) o .active = s.ops := by
    rw [Function.update_idem, ← hop, Function.update_eq_self]
  refine ⟨_, t, hu, huhalted, ht, huinv.step (l := .appendWrite o) hk trivial ht, hthalted, ?_⟩
  cases LogState.step_cases ht with
  | absorb hop' =>
    obtain ⟨rfl, rfl⟩ := OpState.logging.inj (huop.symm.trans hop')
    exact ⟨rfl, rfl, hops, rfl, rfl, bread_setBuf s b data true⟩
  | overrun => cases hthalted
  | append hop' =>
    obtain ⟨rfl, rfl⟩ := OpState.logging.inj (huop.symm.trans hop')
    exact ⟨rfl, rfl, hops, rfl, rfl, bread_setBuf s b data true⟩

omit [DecidableEq ι] in
theorem LoggedWrites.cons {u : LogState ι} {w : ℕ × Block} (h : LoggedWrites s o [w] u)
    (h' : LoggedWrites u o ws t) : LoggedWrites s o (w :: ws) t where
  durable := h'.durable.trans h.durable
  recent := by rw [h'.recent, h.recent, List.append_assoc, List.map_singleton, List.singleton_append,
    List.map_cons]
  ops := h'.ops.trans h.ops
  activity := h'.activity.trans h.activity
  committing := h'.committing.trans h.committing
  bread := by
    rw [h'.bread, h.bread]
    rfl

theorem writtenBy_logged {u : LogState ι} {w : ℕ × Block} (h : LoggedWrites s o [w] u) :
    writtenBy u.recent o = insert w.1 (writtenBy s.recent o) := by
  rw [h.recent, List.map_singleton, writtenBy_append_self]

/-- All writes of a call go through `log_write`. -/
theorem exists_logWrites (h : LogInv area k base s) (hk : k < MAXOPBLOCKS) (hhalted : s.halted = none)
    (hop : ws ≠ [] → s.ops o = .active) (hhome : ∀ w ∈ ws, area.Home w.1)
    (hcard : (writtenBy s.recent o ∪ (ws.map Prod.fst).toFinset).card ≤ k) :
    ∃ t, Journal.logWrites area o ws s = some t ∧ LogInv area k base t ∧ t.halted = none ∧
      LoggedWrites s o ws t := by
  induction ws generalizing s with
  | nil =>
    exact ⟨s, rfl, h, hhalted, rfl, by rw [List.map_nil, List.append_nil], rfl, rfl, rfl, rfl⟩
  | cons w ws ih =>
    have hactive := hop (List.cons_ne_nil w ws)
    have hfirst : (insert w.1 (writtenBy s.recent o)).card ≤ k := by
      refine (Finset.card_le_card ?_).trans hcard
      rw [List.map_cons, List.toFinset_cons, Finset.union_insert]
      exact Finset.insert_subset_insert w.1 Finset.subset_union_left
    obtain ⟨u, v, hu, huhalted, hv, hvinv, hvhalted, hwritten⟩ :=
      exists_logWrite h hk hhalted hactive w.2 (hhome w List.mem_cons_self) hfirst
    have hrest : (writtenBy v.recent o ∪ (ws.map Prod.fst).toFinset).card ≤ k := by
      rw [writtenBy_logged hwritten]
      rwa [List.map_cons, List.toFinset_cons, Finset.union_insert, ← Finset.insert_union] at hcard
    obtain ⟨t, ht, htinv, hthalted, hwritten'⟩ := ih hvinv hvhalted
      (fun _ ↦ (congrFun hwritten.ops o).trans hactive)
      (fun w' hw' ↦ hhome w' (List.mem_cons_of_mem w hw')) hrest
    refine ⟨t, ?_, htinv, hthalted, hwritten.cons hwritten'⟩
    rw [Journal.logWrites, hu, Option.bind_some, Journal.unlessHalted, if_pos huhalted, hv,
      Option.bind_some, Journal.unlessHalted, if_pos hvhalted, ht]

end Writes

/-! ## The files above the log -/

/-- The blocks that are committed. -/
def committed (d : EmptyLog area) (s : LogState ι) : ℕ → Block := replay (Log.contents s.durable) d.disk

/-- The kernel between two steps, with the files as the system calls see them, and as a crash leaves
them. -/
structure Survives (sb : SuperBlock) (d : EmptyLog area) (s : Journal ι) (ft : Durable ι) : Prop where
  log : LogInv area (MAXOPBLOCKS - 1) d.disk s.log
  running : s.log.halted = none
  openOps : ∀ o, o ∈ ft.openOps ↔ (s.log.ops o).Open
  atRest : ∀ o, (s.log.ops o).Open → s.log.ops o = .active
  up : s.log.Up → Represents sb s.cache ft.files
  down : ¬s.log.Up → ft.files = ft.saved ∧ s = .of s.log (.start s.log.disk)
  saved : Represents sb (.start (committed d s.log)) ft.saved
  fresh : restarted ft.saved = ft.saved
  settled : s.log.Up → (∀ o, ¬(s.log.ops o).Open) → s.log.recent = [] → ft.saved = restarted ft.files

section Steps

variable {s t : Journal ι} {ft : Durable ι} {log : LogState ι} {o : ι}

/-- The log lies before the inodes. -/
theorem home_of_managed (hl : sb.Laid) (harea : area.start + area.size ≤ sb.inodestart) {b : ℕ}
    (hb : sb.Managed b) : area.Home b :=
  ⟨hb.2.trans (hl.size_lt.trans (by decide)), .inr (harea.trans hb.1)⟩

/-- The kernel is started on the same blocks. -/
theorem Represents.restarted {c : Cache} {fs : FsState} {block : ℕ → Block} (h : Represents sb c fs)
    (hl : sb.Laid) (hblocks : ∀ b, sb.Managed b → block b = c.volume.block b) :
    Represents sb (.start block) (restarted fs) where
  files := h.files.congr hl hblocks fun _ hj ↦ by cases hj
  valid _ := rfl
  refs := rfl
  locks := rfl
  exists_of_ref _ hi := absurd hi (Nat.not_lt_zero _)
  of_locked i hi := absurd hi (Finset.notMem_empty i)

/-- The blocks that the calls read depend on the writes only. -/
theorem bread_eq {log' : LogState ι} (hl : sb.Laid) (harea : area.start + area.size ≤ sb.inodestart)
    (hinv : LogInv area (MAXOPBLOCKS - 1) d.disk log) (hinv' : LogInv area (MAXOPBLOCKS - 1) d.disk log')
    (hup : log.Up) (hup' : log'.Up) (hwrites : log.durable ++ log.recent = log'.durable ++ log'.recent)
    {b : ℕ} (hb : sb.Managed b) : log.bread b = log'.bread b := by
  have hhome := home_of_managed hl harea hb
  rw [hinv.view hup b hhome, hinv'.view hup' b hhome, hwrites]

namespace Survives

variable (h : Survives sb d s ft) (hl : sb.Laid) (harea : area.start + area.size ≤ sb.inodestart)
include h hl harea

/-- The log has changed, but not what the calls read. -/
theorem of_log {gt : Durable ι} (hinv : LogInv area (MAXOPBLOCKS - 1) d.disk log)
    (hrunning : log.halted = none) (hup : log.Up ↔ s.log.Up)
    (hwrites : log.durable ++ log.recent = s.log.durable ++ s.log.recent)
    (hopen : ∀ o, o ∈ gt.openOps ↔ (log.ops o).Open)
    (hrest : ∀ o, (log.ops o).Open → log.ops o = .active) (hfiles : gt.files = ft.files)
    (hdown : ¬log.Up → gt.saved = ft.saved) (hsaved : Represents sb (.start (committed d log)) gt.saved)
    (hfresh : Storage.restarted gt.saved = gt.saved)
    (hsettled : log.Up → (∀ o, ¬(log.ops o).Open) → log.recent = [] →
      gt.saved = Storage.restarted gt.files) :
    Survives sb d { s with log } gt where
  log := hinv
  running := hrunning
  openOps := hopen
  atRest := hrest
  up hup' := by
    rw [hfiles]
    exact (h.up (hup.mp hup')).congr hl
      (fun b hb ↦ bread_eq hl harea hinv h.log hup' (hup.mp hup') hwrites hb) rfl rfl rfl rfl
  down hup' := by
    obtain ⟨hsame, hmemory⟩ := h.down (mt hup.mpr hup')
    refine ⟨by rw [hfiles, hdown hup', hsame], ?_⟩
    rw [hmemory]
    rfl
  saved := hsaved
  fresh := hfresh
  settled := hsettled

/-- Nothing has changed but the buffers, the disk and the way to go. -/
theorem quiet (hinv : LogInv area (MAXOPBLOCKS - 1) d.disk log) (hrunning : log.halted = none)
    (hup : log.Up ↔ s.log.Up) (hdurable : log.durable = s.log.durable)
    (hrecent : log.recent = s.log.recent) (hops : log.ops = s.log.ops) :
    Survives sb d { s with log } ft := by
  refine h.of_log hl harea hinv hrunning hup (by rw [hdurable, hrecent]) ?_ ?_ rfl (fun _ ↦ rfl) ?_ h.fresh ?_
  · rw [hops]
    exact h.openOps
  · rw [hops]
    exact h.atRest
  · rw [committed, hdurable]
    exact h.saved
  · rw [hops, hrecent]
    exact fun hup' ↦ h.settled (hup.mp hup')

theorem beginOp (hstep : s.log.step area (.beginOp o) = some log) :
    ∃ gt, (durableMachine sb.ninodes).step ft (.event (.beginOp o)) = some gt ∧
      Survives sb d { s with log } gt := by
  have hinv := h.log.step (l := .beginOp o) (by decide) trivial hstep
  cases LogState.step_cases hstep with
  | beginOp hop hactivity =>
    have hnew : o ∉ ft.openOps := by
      rw [h.openOps, hop]
      exact id
    have hopen (p : ι) : (Function.update s.log.ops o .active p).Open ↔ p = o ∨ (s.log.ops p).Open := by
      by_cases hp : p = o
      · rw [hp, Function.update_self]
        exact iff_of_true OpState.open_active (.inl rfl)
      · rw [Function.update_of_ne hp]
        exact (or_iff_right hp).symm
    refine ⟨{ ft with openOps := insert o ft.openOps }, if_neg hnew, ?_⟩
    refine h.of_log hl harea hinv h.running Iff.rfl rfl (fun p ↦ ?_) (fun p hp ↦ ?_) rfl (fun _ ↦ rfl)
      h.saved h.fresh fun _ hnone ↦ absurd ((hopen o).mpr (.inl rfl)) (hnone o)
    · change p ∈ insert o ft.openOps ↔ (Function.update s.log.ops o .active p).Open
      rw [hopen, Finset.mem_insert, h.openOps]
    · change Function.update s.log.ops o .active p = .active
      by_cases hpo : p = o
      · rw [hpo, Function.update_self]
      · rw [Function.update_of_ne hpo]
        exact h.atRest p (((hopen p).mp hp).resolve_left hpo)

/-- The calls see what is committed, when all writes are. -/
theorem committed_eq (hup : s.log.Up) {b : ℕ} (hb : sb.Managed b) :
    replay (Log.contents (s.log.durable ++ s.log.recent)) d.disk b = s.cache.volume.block b :=
  (h.log.view hup b (home_of_managed hl harea hb)).symm

/-- The last system call in progress ends, or another one. -/
theorem endOp (hstep : s.log.step area (.endOp o) = some log) :
    ∃ ms gt, (durableMachine sb.ninodes).run ft ms = some gt ∧
      ms.filterMap DurableLabel.event? = [.endOp o] ∧ Survives sb d { s with log } gt := by
  have hinv := h.log.step (l := .endOp o) (by decide) trivial hstep
  have hrunning := h.log.not_halted (by decide) h.running hstep
  have hopen (p : ι) : (Function.update s.log.ops o .ended p).Open ↔ p ≠ o ∧ (s.log.ops p).Open := by
    by_cases hp : p = o
    · rw [hp, Function.update_self]
      exact iff_of_false id fun hne ↦ hne.1 rfl
    · rw [Function.update_of_ne hp]
      exact (and_iff_right hp).symm
  have hrest (p : ι) (hp : (Function.update s.log.ops o .ended p).Open) :
      Function.update s.log.ops o .ended p = .active := by
    obtain ⟨hne, hp⟩ := (hopen p).mp hp
    rw [Function.update_of_ne hne]
    exact h.atRest p hp
  have herase (p : ι) : p ∈ ft.openOps.erase o ↔ (Function.update s.log.ops o .ended p).Open := by
    rw [hopen, Finset.mem_erase, h.openOps]
  cases LogState.step_cases hstep with
  | endTwice => cases hrunning
  | endLast hop _ _ =>
    have hopen₀ := hop ▸ OpState.open_active
    have hmem : o ∈ ft.openOps := (h.openOps o).mpr hopen₀
    have hactivity := h.log.activity_of_open hopen₀
    have hup : s.log.Up := .inl hactivity
    have hblocks := (h.log.phase_none hactivity).2.2
    have hfirst : (durableMachine sb.ninodes).step ft (.event (.endOp o)) =
        some { ft with openOps := ft.openOps.erase o } := if_pos hmem
    by_cases hnone : s.log.recent = []
    · have hlast : ft.openOps.erase o = ∅ := by
        refine Finset.eq_empty_of_forall_notMem fun p hp ↦ (hinv.busy ?_).2 p ((herase p).mp hp)
        change (if 0 < s.log.lh.length then Activity.writeLog 0 else .leave) ≠ .none
        split <;> exact fun heq ↦ by cases heq
      have hcommit : (durableMachine sb.ninodes).step { ft with openOps := ft.openOps.erase o } .commit =
          some ⟨ft.files, Storage.restarted ft.files, ft.openOps.erase o⟩ := if_pos hlast
      refine ⟨[.event (.endOp o), .commit], ⟨ft.files, Storage.restarted ft.files, ft.openOps.erase o⟩, ?_,
        rfl, h.of_log hl harea hinv hrunning (iff_of_true (.inr rfl) hup) rfl herase hrest rfl
        (fun hdown ↦ absurd (.inr rfl) hdown) ((h.up hup).restarted hl fun b hb ↦ ?_) rfl fun _ _ _ ↦ rfl⟩
      · rw [Machine.run_cons_of_step _ hfirst, Machine.run_cons_of_step _ hcommit, Machine.run_nil]
      · have hcommitted := h.committed_eq hl harea hup hb
        rwa [hnone, List.append_nil] at hcommitted
    · refine ⟨[.event (.endOp o)], _, Machine.run_cons_of_step _ hfirst [], rfl, h.of_log hl harea hinv
        hrunning (iff_of_true (.inr rfl) hup) rfl herase hrest rfl (fun hdown ↦ absurd (.inr rfl) hdown)
        h.saved h.fresh fun _ _ hrecent ↦ absurd hrecent hnone⟩
  | endOther hop _ hother =>
    have hopen₀ := hop ▸ OpState.open_active
    have hmem : o ∈ ft.openOps := (h.openOps o).mpr hopen₀
    have hactivity := h.log.activity_of_open hopen₀
    have hfirst : (durableMachine sb.ninodes).step ft (.event (.endOp o)) =
        some { ft with openOps := ft.openOps.erase o } := if_pos hmem
    refine ⟨[.event (.endOp o)], _, Machine.run_cons_of_step _ hfirst [], rfl, h.of_log hl harea hinv
      hrunning Iff.rfl rfl herase hrest rfl (fun _ ↦ rfl) h.saved h.fresh fun _ hnone _ ↦ ?_⟩
    obtain ⟨openOps, hreserved, hcard⟩ := hinv.reserved hactivity
    refine absurd ?_ hother
    rw [show s.log.outstanding - 1 = openOps.card from hcard, Finset.card_eq_zero]
    exact Finset.eq_empty_of_forall_notMem fun p hp ↦ hnone p ((hreserved.mem_iff p).mp hp)

/-- The transaction is committed. -/
theorem commit (hactivity : s.log.activity = .writeHead) (hstep : s.log.step area .proceed = some log)
    (hdurable : log.durable = s.log.durable ++ s.log.recent) (hrecent : log.recent = [])
    (hops : log.ops = s.log.ops) (hcommitting : log.committing = s.log.committing) :
    (durableMachine sb.ninodes).step ft .commit = some { ft with saved := Storage.restarted ft.files } ∧
      Survives sb d { s with log } { ft with saved := Storage.restarted ft.files } := by
  have hinv := h.log.step (l := .proceed) (by decide) trivial hstep
  have hphase := h.log.phase
  simp only [LogState.Phase, hactivity] at hphase
  have hup : s.log.Up := .inr hphase.2.1
  have hup' : log.Up := .inr (hcommitting.trans hphase.2.1)
  have hnone := (h.log.busy fun hnone ↦ by rw [hactivity] at hnone; cases hnone).2
  have hlast : ft.openOps = ∅ :=
    Finset.eq_empty_of_forall_notMem fun o ho ↦ hnone o ((h.openOps o).mp ho)
  refine ⟨if_pos hlast, h.of_log hl harea hinv (h.log.not_halted (by decide) h.running hstep)
    (iff_of_true hup' hup) (by rw [hdurable, hrecent, List.append_nil]) ?_ ?_ rfl
    (fun hdown ↦ absurd hup' hdown) ?_ rfl fun _ _ _ ↦ rfl⟩
  · rw [hops]
    exact h.openOps
  · rw [hops]
    exact h.atRest
  · refine (h.up hup).restarted hl fun b hb ↦ ?_
    rw [committed, hdurable]
    exact h.committed_eq hl harea hup hb

/-- The recovery comes to its end. -/
theorem recovered (hdown : ¬s.log.Up) (hactivity : s.log.activity = .clearHead)
    (hstep : s.log.step area .proceed = some log) (hup : log.Up) (hdurable : log.durable = s.log.durable)
    (hrecent : log.recent = s.log.recent) (hops : log.ops = s.log.ops) :
    Survives sb d { s with log } ft := by
  have hinv := h.log.step (l := .proceed) (by decide) trivial hstep
  have hphase := h.log.phase
  simp only [LogState.Phase, hactivity] at hphase
  obtain ⟨hsame, hmemory⟩ := h.down hdown
  refine ⟨hinv, h.log.not_halted (by decide) h.running hstep, ?_, ?_, fun _ ↦ ?_,
    fun hdown' ↦ absurd hup hdown', ?_, h.fresh, fun _ _ _ ↦ ?_⟩
  · rw [hops]
    exact h.openOps
  · rw [hops]
    exact h.atRest
  · rw [hsame]
    rw [hmemory]
    refine h.saved.congr hl (fun b hb ↦ ?_) rfl rfl rfl rfl
    have hview := hinv.view hup b (home_of_managed hl harea hb)
    rwa [hdurable, hrecent, hphase.2.1, List.append_nil] at hview
  · rw [committed, hdurable]
    exact h.saved
  · rw [hsame, h.fresh]

/-- A step of the process in `commit` or in `recover_from_log`. -/
theorem proceed (hstep : s.log.step area .proceed = some log) :
    ∃ ms gt, (durableMachine sb.ninodes).run ft ms = some gt ∧
      ms.filterMap DurableLabel.event? = [] ∧ Survives sb d { s with log } gt := by
  have hinv := h.log.step (l := .proceed) (by decide) trivial hstep
  have hrunning := h.log.not_halted (by decide) h.running hstep
  have hbusy {a a' : Activity} (ha : a ≠ .none) (ha' : a' ≠ .none) (c : Bool) :
      (a = .none ∨ c = true) ↔ (a' = .none ∨ c = true) := or_congr_left (iff_of_false ha ha')
  cases LogState.step_cases hstep with
  | readHead hactivity =>
    exact ⟨[], ft, rfl, rfl, h.quiet hl harea hinv hrunning
      (hbusy (by simp) (by simp [hactivity]) _) rfl rfl rfl⟩
  | writeLog hactivity hb =>
    exact ⟨[], ft, rfl, rfl, h.quiet hl harea hinv hrunning
      (hbusy (by simp [LogState.setActivity]) (by simp [hactivity]) _) rfl rfl rfl⟩
  | logWritten hactivity hend =>
    exact ⟨[], ft, rfl, rfl, h.quiet hl harea hinv hrunning
      (hbusy (by simp [LogState.setActivity]) (by simp [hactivity]) _) rfl rfl rfl⟩
  | writeHead hactivity =>
    obtain ⟨hcommit, hsurvives⟩ := h.commit hl harea hactivity hstep rfl rfl rfl rfl
    exact ⟨[.commit], _, Machine.run_cons_of_step _ hcommit [], rfl, hsurvives⟩
  | install hactivity hb =>
    exact ⟨[], ft, rfl, rfl, h.quiet hl harea hinv hrunning
      (hbusy (by simp [LogState.setActivity]) (by simp [hactivity]) _) rfl rfl rfl⟩
  | installed hactivity hend =>
    exact ⟨[], ft, rfl, rfl, h.quiet hl harea hinv hrunning
      (hbusy (by simp [LogState.setActivity]) (by simp [hactivity]) _) rfl rfl rfl⟩
  | clearHead hactivity =>
    by_cases hcommitting : s.log.committing = true
    · exact ⟨[], ft, rfl, rfl, h.quiet hl harea hinv hrunning
        (iff_of_true (.inr hcommitting) (.inr hcommitting)) rfl rfl rfl⟩
    · have hdown : ¬s.log.Up := by
        rintro (hnone | htrue)
        · rw [hactivity] at hnone
          cases hnone
        · exact hcommitting htrue
      exact ⟨[], ft, rfl, rfl, h.recovered hl harea hdown hactivity hstep (.inl (if_neg hcommitting))
        rfl rfl rfl⟩
  | leave hactivity =>
    have hphase := h.log.phase
    simp only [LogState.Phase, hactivity] at hphase
    exact ⟨[], ft, rfl, rfl, h.quiet hl harea hinv hrunning
      (iff_of_true (.inl rfl) (.inr hphase.2.1)) rfl rfl rfl⟩

/-- A buffer is filled or taken. -/
theorem buffers {l : LogLabel ι} (hl' : (∃ b, l = .read b) ∨ ∃ b, l = .evict b)
    (hstep : s.log.step area l = some log) : Survives sb d { s with log } ft := by
  have hfits : area.Fits (MAXOPBLOCKS - 1) s.log l := by
    rcases hl' with ⟨b, rfl⟩ | ⟨b, rfl⟩ <;> trivial
  have hinv := h.log.step (by decide) hfits hstep
  have hrunning := h.log.not_halted (by decide) h.running hstep
  rcases hl' with ⟨b, rfl⟩ | ⟨b, rfl⟩
  · cases LogState.step_cases hstep with
    | read => exact h.quiet hl harea hinv hrunning Iff.rfl rfl rfl rfl
  · cases LogState.step_cases hstep with
    | evict => exact h.quiet hl harea hinv hrunning Iff.rfl rfl rfl rfl

omit hl harea in
/-- A crash. -/
theorem crash : Survives sb d (.of s.log.crash (.start s.log.disk)) (.start ft.saved) := by
  have hinv := h.log.crash
  have hnone := (hinv.busy fun hnone ↦ by cases hnone).2
  have hdown : ¬s.log.crash.Up := by
    rintro (hnone | htrue)
    · cases hnone
    · cases htrue
  exact ⟨hinv, rfl, fun o ↦ iff_of_false (Finset.notMem_empty o) (hnone o),
    fun o ho ↦ absurd ho (hnone o), fun hup ↦ absurd hup hdown, fun _ ↦ ⟨rfl, rfl⟩, h.saved, h.fresh,
    fun hup ↦ absurd hup hdown⟩

end Survives

/-! ## The calls above the log -/

/-- A call outside of a transaction leaves the files as they are. -/
theorem inode_of_not_inTransaction {ninodes : ℕ} {call : Call} {answer : Answer} {fs ft : FsState}
    (hcall : ¬call.InTransaction) (hrun : call.onFiles ninodes fs = .ok (answer, ft)) :
    ft.inode = fs.inode := by
  cases call with
  | iget inum =>
    obtain ⟨a, t, higet, hpure⟩ := exists_of_bind_ok hrun
    obtain ⟨-, rfl⟩ := Prod.mk.inj (Except.ok.inj hpure)
    rw [FileSystem.iget] at higet
    split_ifs at higet
    · obtain ⟨-, rfl⟩ := Prod.mk.inj (Except.ok.inj higet)
      rfl
    · obtain ⟨-, rfl⟩ := Prod.mk.inj (Except.ok.inj higet)
      rfl
  | idup ip =>
    obtain ⟨-, rfl⟩ := Prod.mk.inj (Except.ok.inj hrun)
    rfl
  | ilock ip =>
    obtain ⟨a, t, hilock, hpure⟩ := exists_of_bind_ok hrun
    obtain ⟨-, rfl⟩ := Prod.mk.inj (Except.ok.inj hpure)
    simp only [FileSystem.ilock] at hilock
    split_ifs at hilock
    obtain ⟨-, rfl⟩ := Prod.mk.inj (Except.ok.inj hilock)
    rfl
  | iunlock ip =>
    obtain ⟨a, t, hiunlock, hpure⟩ := exists_of_bind_ok hrun
    obtain ⟨-, rfl⟩ := Prod.mk.inj (Except.ok.inj hpure)
    rw [FileSystem.iunlock] at hiunlock
    split_ifs at hiunlock
    obtain ⟨-, rfl⟩ := Prod.mk.inj (Except.ok.inj hiunlock)
    rfl
  | readi ip off n =>
    obtain ⟨-, rfl⟩ := Prod.mk.inj (Except.ok.inj hrun)
    rfl
  | iput ip => exact absurd trivial hcall
  | ialloc type => exact absurd trivial hcall
  | setFields ip major minor nlink => exact absurd trivial hcall
  | writei ip src off => exact absurd trivial hcall

omit [DecidableEq ι] in
/-- The blocks of a call that has returned, when they have gone through `log_write`. -/
theorem LoggedWrites.block {c : Cache} {log' : LogState ι} (h : LoggedWrites log o (writes c.volume) log')
    {v : Volume} (hv : v.block = log.bread) (hlogged : v.logged = []) (hlogs : Logs v c.volume) :
    log'.bread = c.volume.block := by
  obtain ⟨l, hl, hblock⟩ := hlogs
  rw [hlogged, List.nil_append] at hl
  funext b
  rw [h.bread, writes, replay_map, hl, ← hv]
  by_cases hb : b ∈ l
  · rw [if_pos hb]
  · rw [if_neg hb, hblock b hb]

section Call

variable {call : Call} {answer : Answer} {c : Cache}

/-- What the log makes of a call that returns. -/
theorem Survives.exists_logged (h : Survives sb d s ft) (hl : sb.Laid)
    (harea : area.start + area.size ≤ sb.inodestart) (hcalls : s.Calls sb o call)
    (hreturns : call.onBlocks sb s.cache = .ok (answer, c))
    (hcard : (writtenBy s.log.recent o ∪ c.volume.logged.toFinset).card < MAXOPBLOCKS) :
    ∃ log, Journal.logWrites area o (writes c.volume) s.log = some log ∧
      LogInv area (MAXOPBLOCKS - 1) d.disk log ∧ log.halted = none ∧
        LoggedWrites s.log o (writes c.volume) log := by
  obtain ⟨-, -, hup, htransaction, hallowed⟩ := hcalls
  have hrep := h.up hup
  obtain ⟨l, hlogged, hmem⟩ := (hrep.logged_ends hl (hrep.allowed_iff.mp hallowed)).1 _ _ hreturns
  have hlogged' : c.volume.logged = l := hlogged.trans (List.nil_append l)
  have hfst : (writes c.volume).map Prod.fst = c.volume.logged := by
    rw [writes, List.map_map]
    exact List.map_id _
  have hblocks (w : ℕ × Block) (hw : w ∈ writes c.volume) : call.InTransaction ∧ sb.Managed w.1 := by
    refine hmem w.1 ?_
    rw [← hlogged', ← hfst]
    exact List.mem_map_of_mem hw
  refine exists_logWrites h.log (by decide) h.running (fun hne ↦ ?_)
    (fun w hw ↦ home_of_managed hl harea (hblocks w hw).2) ?_
  · obtain ⟨w, hw⟩ := List.exists_mem_of_ne_nil _ hne
    exact h.atRest o (htransaction (hblocks w hw).1)
  · rw [hfst]
    exact Nat.le_pred_of_lt hcard

/-- A call over the log is a call over the files. -/
theorem Survives.exists_call (h : Survives sb d s ft) (hl : sb.Laid) (hninodes : sb.ninodes ≤ 65536)
    (harea : area.start + area.size ≤ sb.inodestart)
    (hcalled : Journal.Called sb area s o call answer c log)
    (hcard : (writtenBy s.log.recent o ∪ c.volume.logged.toFinset).card < MAXOPBLOCKS) :
    ∃ gt, (durableMachine sb.ninodes).step ft (.event (.call o call answer)) = some gt ∧
      Survives sb d (.of log c) gt := by
  obtain ⟨-, -, hup₀, htransaction, hallowed₀⟩ := hcalled.calls
  have hrep := h.up hup₀
  have hallowed := hrep.allowed_iff.mp hallowed₀
  obtain ⟨files, hfiles, hrepc⟩ := (hrep.call_matches hl hninodes hallowed).1 _ _ hcalled.returns
  obtain ⟨log', hlog', hinv, hrunning, hwritten⟩ :=
    h.exists_logged hl harea hcalled.calls hcalled.returns hcard
  obtain rfl := Option.some.inj (hlog'.symm.trans hcalled.logged)
  have hblock := hwritten.block (v := s.cache.volume) rfl rfl (call.leads _ _ _ hcalled.returns)
  have hup : log'.Up := by
    rw [LogState.Up, hwritten.activity, hwritten.committing]
    exact hup₀
  have hopen : call.InTransaction → o ∈ ft.openOps := fun ht ↦ (h.openOps o).mpr (htransaction ht)
  refine ⟨{ ft with files }, ?_, hinv, hrunning, ?_, ?_, fun _ ↦ ?_, fun hdown ↦ absurd hup hdown, ?_,
    h.fresh, fun _ hnone hrecent ↦ ?_⟩
  · change Durable.call sb.ninodes ft o call answer = _
    rw [Durable.call, if_pos ⟨hopen, hallowed⟩, stateAfter_eq_some.mpr hfiles]
    rfl
  · change ∀ p, p ∈ ft.openOps ↔ (log'.ops p).Open
    rw [hwritten.ops]
    exact h.openOps
  · change ∀ p, (log'.ops p).Open → log'.ops p = .active
    rw [hwritten.ops]
    exact h.atRest
  · exact hrepc.congr hl (fun b _ ↦ congrFun hblock b) rfl rfl rfl rfl
  · change Represents sb (.start (committed d log')) ft.saved
    rw [committed, hwritten.durable]
    exact h.saved
  · change log'.recent = [] at hrecent
    rw [hwritten.recent, List.append_eq_nil_iff] at hrecent
    have hnone' (p : ι) : ¬(s.log.ops p).Open := by
      rw [← hwritten.ops]
      exact hnone p
    have hcall : ¬call.InTransaction := fun ht ↦ hnone' o (htransaction ht)
    have hinode := inode_of_not_inTransaction hcall hfiles
    rw [h.settled hup₀ hnone' hrecent.1, restarted, restarted, hinode]

/-- A call that panics does so in `fs.c`, and nothing has changed. -/
theorem Survives.callPanic (h : Survives sb d s ft) (hl : sb.Laid)
    (harea : area.start + area.size ≤ sb.inodestart) (hfits : s.Fits sb (.panic o call))
    (hstep : s.callPanic sb area o call = some t) : Survives sb d t ft := by
  obtain ⟨hcalls, ⟨answer, c, log, hc, hlog, hhalted, -⟩ | ⟨msg, -, rfl⟩⟩ := Journal.callPanic_cases hstep
  · obtain ⟨log', hlog', -, hrunning, -⟩ := h.exists_logged hl harea hcalls hc (hfits _ _ hc)
    obtain rfl := Option.some.inj (hlog'.symm.trans hlog)
    exact absurd hrunning hhalted
  · exact ⟨h.log, h.running, h.openOps, h.atRest, h.up, fun hdown ↦ absurd hcalls.2.2.1 hdown, h.saved,
      h.fresh, h.settled⟩

end Call

end Steps

end CS537.Storage
