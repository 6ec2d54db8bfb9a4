import CS537.Storage.Crashes

/-!
# Runs with crashes

The kernel on a disk of the formatter.  Whatever system calls are made, and wherever it crashes, it
returns what files that survive crashes would return; after a crash it comes up again with the files
that were committed last; and the log accepts the writes of every system call that returns.
-/

namespace CS537.Storage

open Foundation Log
open FileSystem (Inum FsState NINODE)
open Mkfs (HostFile NINODES uintAt)

variable {ι : Type} [DecidableEq ι] {sb : SuperBlock} {area : LogArea} {d : EmptyLog area}
  {s t : Journal ι} {ft : Durable ι} {fs : FsState} {l : JournalLabel ι} {ls : List (JournalLabel ι)}

/-! ## Any run -/

/-- A step of the kernel is a step of the files that survive crashes, perhaps with a commit, or it is
none. -/
theorem Survives.step (h : Survives sb d s ft) (hl : sb.Laid) (hninodes : sb.ninodes ≤ 65536)
    (harea : area.start + area.size ≤ sb.inodestart) (hfits : s.Fits sb l)
    (hstep : s.step sb area l = some t) : ∃ ms gt, (durableMachine sb.ninodes).run ft ms = some gt ∧
      ms.filterMap DurableLabel.event? = [l].filterMap JournalLabel.event? ∧ Survives sb d t gt := by
  have hsingle {e : Event ι} {gt : Durable ι}
      (hgt : (durableMachine sb.ninodes).step ft (.event e) = some gt) (hsurvives : Survives sb d t gt) :
      ∃ ms gt, (durableMachine sb.ninodes).run ft ms = some gt ∧
        ms.filterMap DurableLabel.event? = [e] ∧ Survives sb d t gt :=
    ⟨[.event e], gt, Machine.run_cons_of_step _ hgt [], rfl, hsurvives⟩
  cases l with
  | event e =>
    cases e with
    | beginOp o =>
      obtain ⟨-, log, hlog, rfl⟩ := Journal.logStep_eq_some.mp hstep
      obtain ⟨gt, hgt, hsurvives⟩ := h.beginOp hl harea hlog
      exact hsingle hgt hsurvives
    | call o call answer =>
      obtain ⟨c, log, hcalled, rfl⟩ := Journal.call_eq_some.mp hstep
      obtain ⟨gt, hgt, hsurvives⟩ :=
        h.exists_call hl hninodes harea hcalled (hfits _ _ hcalled.returns)
      exact hsingle hgt hsurvives
    | endOp o =>
      obtain ⟨-, log, hlog, rfl⟩ := Journal.logStep_eq_some.mp hstep
      exact h.endOp hl harea hlog
    | crash =>
      obtain rfl := Option.some.inj hstep
      have hcrash : (durableMachine sb.ninodes).step ft (.event .crash) = some (.start ft.saved) := rfl
      exact hsingle hcrash h.crash
  | panic o call => exact ⟨[], ft, rfl, rfl, h.callPanic hl harea hfits hstep⟩
  | read b =>
    obtain ⟨-, log, hlog, rfl⟩ := Journal.logStep_eq_some.mp hstep
    exact ⟨[], ft, rfl, rfl, h.buffers hl harea (.inl ⟨b, rfl⟩) hlog⟩
  | evict b =>
    obtain ⟨-, log, hlog, rfl⟩ := Journal.logStep_eq_some.mp hstep
    exact ⟨[], ft, rfl, rfl, h.buffers hl harea (.inr ⟨b, rfl⟩) hlog⟩
  | proceed =>
    obtain ⟨-, log, hlog, rfl⟩ := Journal.logStep_eq_some.mp hstep
    exact h.proceed hl harea hlog

/-- The kernel before its first step. -/
theorem Survives.boot (h : Represents sb (.start d.disk) fs) (hl : sb.Laid) :
    Survives (ι := ι) sb d (.boot d.disk) (.start (restarted fs)) := by
  have hdown : ¬(LogState.boot d.disk : LogState ι).Up := by
    rintro (hnone | htrue)
    · cases hnone
    · cases htrue
  exact ⟨.boot d, rfl, fun o ↦ iff_of_false (Finset.notMem_empty o) id, fun _ ho ↦ ho.elim,
    fun hup ↦ absurd hup hdown, fun _ ↦ ⟨rfl, rfl⟩, h.restarted hl fun _ _ ↦ rfl, rfl,
    fun hup ↦ absurd hup hdown⟩

/-- A run of the kernel is a run of the files that survive crashes. -/
theorem Survives.run (h : Survives sb d s ft) (hl : sb.Laid) (hninodes : sb.ninodes ≤ 65536)
    (harea : area.start + area.size ≤ sb.inodestart)
    (hfits : (journalMachine sb area d).Permits (Journal.Fits sb) s ls)
    (hrun : (journalMachine sb area d).run s ls = some t) :
    ∃ ms gt, (durableMachine sb.ninodes).run ft ms = some gt ∧
      ms.filterMap DurableLabel.event? = ls.filterMap JournalLabel.event? ∧ Survives sb d t gt :=
  Machine.run_matched (fun _ _ _ _ h hok hstep ↦ h.step hl hninodes harea hok hstep) h hfits hrun

theorem Survives.not_open (h : Survives sb d s ft) (hopen : ft.openOps = ∅) (o : ι) :
    ¬(s.log.ops o).Open := by
  rw [← h.openOps, hopen]
  exact Finset.notMem_empty o

/-- When no system call is in progress, there is nothing to commit. -/
theorem Survives.recent_eq_nil (h : Survives sb d s ft) (hactivity : s.log.activity = .none)
    (hopen : ft.openOps = ∅) : s.log.recent = [] := by
  obtain ⟨openOps, hreserved, hcard⟩ := h.log.reserved hactivity
  have hempty : openOps = ∅ :=
    Finset.eq_empty_of_forall_notMem fun o ho ↦ h.not_open hopen o ((hreserved.mem_iff o).mp ho)
  have hidle : s.log.outstanding = 0 := by rw [hcard, hempty, Finset.card_empty]
  exact h.log.recent_eq_nil hactivity hidle

theorem Survives.saved_eq (h : Survives sb d s ft) (hactivity : s.log.activity = .none)
    (hopen : ft.openOps = ∅) : ft.saved = restarted ft.files :=
  h.settled (.inl hactivity) (h.not_open hopen) (h.recent_eq_nil hactivity hopen)

/-! ## After a crash -/

/-- The kernel crashes and recovers, and makes no system call. -/
def JournalLabel.Restarts : JournalLabel ι → Prop
  | .event .crash | .read _ | .evict _ | .proceed => True
  | .event (.beginOp _) | .event (.call _ _ _) | .event (.endOp _) | .panic _ _ => False

omit [DecidableEq ι] in
theorem JournalLabel.Restarts.event_eq {e : Event ι} (h : l.Restarts) (he : l.event? = some e) :
    e = .crash := by
  match l, h, he with
  | .event .crash, _, he => exact (Option.some.inj he).symm

theorem JournalLabel.Restarts.fits (h : l.Restarts) (s : Journal ι) : s.Fits sb l := by
  match l, h with
  | .event .crash, _ | .read _, _ | .evict _, _ | .proceed, _ => trivial

theorem Durable.openOps_call {ninodes : ℕ} {gt : Durable ι} {o : ι} {call : Call} {answer : Answer}
    (h : (durableMachine ninodes).step ft (.event (.call o call answer)) = some gt) :
    gt.openOps = ft.openOps := by
  change Durable.call ninodes ft o call answer = some gt at h
  rw [Durable.call] at h
  split_ifs at h
  obtain ⟨files, -, rfl⟩ := Option.map_eq_some_iff.mp h
  rfl

/-- The files stay as they were committed. -/
theorem durable_restarts {ninodes : ℕ} {ms : List (DurableLabel ι)} {gt : Durable ι}
    (h : restarted fs = fs) (hms : ∀ m ∈ ms, ∀ e, m.event? = some e → e = .crash)
    (hrun : (durableMachine ninodes).run (.start fs) ms = some gt) : gt = .start fs := by
  refine Machine.run_invariant_on (fun gt ↦ gt = .start fs) (fun u m v hm hu hstep ↦ ?_) hms rfl hrun
  subst hu
  cases m with
  | event e =>
    obtain rfl := hm e rfl
    exact (Option.some.inj hstep).symm
  | commit =>
    have hcommit : some (⟨fs, restarted fs, ∅⟩ : Durable ι) = some v := hstep
    rw [h] at hcommit
    exact (Option.some.inj hcommit).symm

/-- The kernel is up again, after how many crashes there were. -/
theorem Survives.restarts (h : Survives sb d s ft) (hl : sb.Laid) (hninodes : sb.ninodes ≤ 65536)
    (harea : area.start + area.size ≤ sb.inodestart) (hls : ∀ l ∈ ls, l.Restarts)
    (hrun : (journalMachine sb area d).run s (.event .crash :: ls) = some t) :
    Survives sb d t (.start ft.saved) := by
  obtain ⟨u, hu, hrun⟩ := Option.bind_eq_some_iff.mp hrun
  obtain rfl := Option.some.inj hu
  obtain ⟨ms, gt, hgt, hevents, hsurvives⟩ :=
    h.crash.run hl hninodes harea (.of_forall (fun l hl' s ↦ (hls l hl').fits s) _) hrun
  have hms (m : DurableLabel ι) (hm : m ∈ ms) (e : Event ι) (he : m.event? = some e) : e = .crash := by
    have hmem : e ∈ ms.filterMap DurableLabel.event? := List.mem_filterMap.mpr ⟨m, hm, he⟩
    rw [hevents] at hmem
    obtain ⟨l, hl', hle⟩ := List.mem_filterMap.mp hmem
    exact (hls l hl').event_eq hle
  rwa [durable_restarts h.fresh hms hgt] at hsurvives

/-- The process in `commit` or in `recover_from_log` goes on as on the log alone. -/
theorem run_proceed {log : LogState ι} {n : ℕ} (hpanicked : s.panicked = none)
    (hrun : (area.machine d).run s.log (List.replicate n .proceed) = some log) :
    (journalMachine sb area d).run s (List.replicate n .proceed) = some { s with log } := by
  induction n generalizing s with
  | zero =>
    obtain rfl := Option.some.inj hrun
    rfl
  | succ n ih =>
    obtain ⟨u, hu, hrun⟩ := Option.bind_eq_some_iff.mp hrun
    have hstep : (journalMachine sb area d).step s .proceed = some { s with log := u } :=
      Journal.logStep_eq_some.mpr ⟨hpanicked, u, hu, rfl⟩
    rw [List.replicate_succ, Machine.run_cons_of_step _ hstep]
    exact ih hpanicked hrun

/-- The recovery comes to its end. -/
theorem Survives.exists_recovered (h : Survives sb d s ft) : ∃ n ≤ LOGSIZE + 1, ∃ t,
    (journalMachine sb area d).run s (.event .crash :: List.replicate n .proceed) = some t ∧
      t.log.activity = .none ∧ t.log.ops = s.log.crash.ops ∧ t.panicked = none := by
  obtain ⟨log, hrun, hactivity, -, hops⟩ := Log.exists_recovered d s.log
  obtain ⟨u, hu, hrun⟩ := Option.bind_eq_some_iff.mp hrun
  obtain rfl := Option.some.inj hu
  have hstep : (journalMachine sb area d).step s (.event .crash) =
      some (.of s.log.crash (.start s.log.disk)) := rfl
  refine ⟨(readHeader (s.log.disk area.start)).length + 3, ?_,
    { Journal.of s.log.crash (.start s.log.disk) with log }, ?_, hactivity, hops, rfl⟩
  · have hlength := h.log.recoverable.listed.length_le
    simp only [MAXOPBLOCKS, LOGSIZE] at hlength ⊢
    omega
  · rw [Machine.run_cons_of_step _ hstep]
    exact run_proceed rfl hrun

omit [DecidableEq ι] in
theorem restarts_of_proceed {n : ℕ} (hl : l ∈ List.replicate n .proceed) : l.Restarts := by
  rw [List.eq_of_mem_replicate hl]
  trivial

/-! ## A system call with its commit -/

/-- A call that returns is made. -/
theorem Survives.exists_called (h : Survives sb d s ft) (hl : sb.Laid)
    (harea : area.start + area.size ≤ sb.inodestart) {o : ι} {call : Call} {answer : Answer} {c : Cache}
    (hcalls : s.Calls sb o call) (hreturns : call.onBlocks sb s.cache = .ok (answer, c))
    (hcard : (writtenBy s.log.recent o ∪ c.volume.logged.toFinset).card < MAXOPBLOCKS) :
    ∃ log, Journal.Called sb area s o call answer c log ∧ LoggedWrites s.log o (writes c.volume) log := by
  obtain ⟨log, hlog, -, hrunning, hwritten⟩ := h.exists_logged hl harea hcalls hreturns hcard
  exact ⟨log, ⟨hcalls, hreturns, hlog, hrunning⟩, hwritten⟩

/-- The last system call in progress ends, and what it has written is committed. -/
theorem Survives.exists_commit (h : Survives sb d s ft) {o : ι} (hpanicked : s.panicked = none)
    (hopen : ft.openOps = {o}) (hrecent : s.log.recent ≠ []) : ∃ n t,
      (journalMachine sb area d).run s (.event (.endOp o) :: List.replicate n .proceed) = some t ∧
        t.log.activity = .none ∧ t.log.durable = s.log.durable ++ s.log.recent := by
  have hop : (s.log.ops o).Open := by
    rw [← h.openOps, hopen]
    exact Finset.mem_singleton_self o
  have hactivity := h.log.activity_of_open hop
  obtain ⟨-, hcommitting, hblocks⟩ := h.log.phase_none hactivity
  have hlh : s.log.lh ≠ [] := by
    obtain ⟨w, hw⟩ := List.exists_mem_of_ne_nil _ hrecent
    exact List.ne_nil_of_mem ((hblocks w.block).mpr (List.mem_map_of_mem hw))
  have hlast : s.log.outstanding = 1 := by
    obtain ⟨openOps, hreserved, hcard⟩ := h.log.reserved hactivity
    have hsame : openOps = ft.openOps := Finset.ext fun p ↦ by rw [hreserved.mem_iff, h.openOps]
    rw [hcard, hsame, hopen, Finset.card_singleton]
  obtain ⟨log, hrun, hend, -, hdurable, -⟩ :=
    Log.exists_committed d h.running (h.atRest o hop) hcommitting hlast hlh
  obtain ⟨u, hu, hrun⟩ := Option.bind_eq_some_iff.mp hrun
  have hstep : (journalMachine sb area d).step s (.event (.endOp o)) = some { s with log := u } :=
    Journal.logStep_eq_some.mpr ⟨hpanicked, u, hu, rfl⟩
  refine ⟨2 * s.log.lh.length + 5, { s with log }, ?_, hend, hdurable⟩
  rw [Machine.run_cons_of_step _ hstep]
  exact run_proceed (s := { s with log := u }) hpanicked hrun

/-! ## The disk of the formatter -/

/-- What `initlog` takes from the data of block 1. -/
def initlog (data : Block) : ℕ × ℕ := (uintAt data 16, uintAt data 12)

section

variable {files : List HostFile} {img : FsCheck.Image}

theorem initlog_mkfs (hinodes : files.length + 1 < NINODES) (hrun : Mkfs.mkfs files = .ok img) :
    initlog ((Volume.ofImage img).block 1) = (mkfsLog.start, mkfsLog.size) := by
  obtain ⟨s, rfl, -, h⟩ := Mkfs.exists_of_mkfs hinodes hrun
  have hstart := superblock_image h (k := 4) (by decide)
  have hsize := superblock_image h (k := 3) (by decide)
  exact Prod.ext hstart hsize

/-- The header block of the log is zero. -/
theorem log_empty_mkfs (hinodes : files.length + 1 < NINODES) (hrun : Mkfs.mkfs files = .ok img) :
    readHeader ((Volume.ofImage img).block mkfsLog.start) = [] := by
  have hzero (r : ℕ) (hr : r < 4) : (Volume.ofImage img).block mkfsLog.start r = 0 :=
    Mkfs.mkfs_log_zero hinodes hrun (Nat.le_add_right _ r) (Nat.lt_of_lt_of_le
      (Nat.add_lt_add_left hr _) (by decide))
  have hlength : uintAt ((Volume.ofImage img).block mkfsLog.start) 0 = 0 := by
    refine Mkfs.uintAt_of_bytes (by decide) fun r hr ↦ ?_
    rw [Nat.zero_add, hzero r hr, Mkfs.byteOf, Nat.zero_div]
    rfl
  rw [readHeader, hlength]
  rfl

/-- The log of an image. -/
def imageLog (hinodes : files.length + 1 < NINODES) (hrun : Mkfs.mkfs files = .ok img) : EmptyLog mkfsLog :=
  ⟨(Volume.ofImage img).block, log_empty_mkfs hinodes hrun⟩

end

theorem mkfsLog_le : mkfsLog.start + mkfsLog.size ≤ layout.inodestart := by decide

/-! ## Runs on the disk of the formatter -/

/-- The kernel on a disk of the formatter: whatever system calls are made and wherever the kernel
crashes, it does not panic in the log, and it returns what the host files would, of which a crash leaves
those of the last commit.  A system call that was the last one in progress is committed when `end_op`
returns. -/
theorem formatted_run_survives_crashes {files : List HostFile} {img : FsCheck.Image}
    (hinodes : files.length + 1 < NINODES) (hroot : ¬32 ∣ files.length + 2)
    (hmkfs : Mkfs.mkfs files = .ok img) : ∃ (area : LogArea) (d : EmptyLog area) (fs : FsState),
      initlog (d.disk 1) = (area.start, area.size) ∧ d.disk = (Volume.ofImage img).block ∧
        BootFiles files fs ∧ ∀ (ls : List (JournalLabel ι)) (s : Journal ι),
          (journalMachine (readsb (d.disk 1)) area d).Permits (Journal.Fits (readsb (d.disk 1)))
            (.boot d.disk) ls →
          (journalMachine (readsb (d.disk 1)) area d).run (.boot d.disk) ls = some s →
            s.log.halted = none ∧ ∃ ms ft,
              (durableMachine (readsb (d.disk 1)).ninodes).run (.start (restarted fs)) ms = some ft ∧
                ms.filterMap DurableLabel.event? = ls.filterMap JournalLabel.event? ∧
                (s.log.Up → Represents (readsb (d.disk 1)) s.cache ft.files) ∧
                (s.log.activity = .none → ft.openOps = ∅ → ft.saved = restarted ft.files) := by
  obtain ⟨fs, hfiles, hrep⟩ := represents_boot hinodes hroot hmkfs
  refine ⟨mkfsLog, imageLog hinodes hmkfs, fs, initlog_mkfs hinodes hmkfs, rfl, hfiles,
    fun ls s hfits hrun ↦ ?_⟩
  have hsb : readsb ((imageLog hinodes hmkfs).disk 1) = layout := readsb_mkfs hinodes hmkfs
  rw [hsb] at hfits hrun ⊢
  obtain ⟨ms, ft, hft, hevents, h⟩ := (Survives.boot (d := imageLog hinodes hmkfs) hrep laid_layout).run
    laid_layout (by decide) mkfsLog_le hfits hrun
  exact ⟨h.running, ms, ft, hft, hevents, h.up, h.saved_eq⟩

/-! ## A run with a commit -/

/-- The kernel is up, nothing waits for a commit, and there was no panic. -/
structure Ready (sb : SuperBlock) (d : EmptyLog area) (s : Journal ι) (ft : Durable ι) : Prop where
  survives : Survives sb d s ft
  panicked : s.panicked = none
  activity : s.log.activity = .none
  recent : s.log.recent = []

/-- A call outside of a transaction, on files on which it returns. -/
theorem Ready.exists_lookup (h : Ready sb d s ft) (hl : sb.Laid) (hninodes : sb.ninodes ≤ 65536)
    (harea : area.start + area.size ≤ sb.inodestart) (o : ι) {call : Call} {answer : Answer}
    {files : FsState} (hcall : ¬call.InTransaction)
    (hallowed : call.Allowed sb.ninodes ft.files.refs ft.files.locks fun i ↦ typeCode (ft.files.inode i).type)
    (hfiles : call.onFiles sb.ninodes ft.files = .ok (answer, files)) : ∃ t,
      s.Fits sb (.event (.call o call answer)) ∧
        (journalMachine sb area d).step s (.event (.call o call answer)) = some t ∧
          Ready sb d t { ft with files } ∧ t.log = s.log := by
  have hrep := h.survives.up (.inl h.activity)
  have hcalls : s.Calls sb o call :=
    ⟨h.panicked, h.survives.running, .inl h.activity, fun ht ↦ absurd ht hcall,
      hrep.allowed_iff.mpr hallowed⟩
  have hlogged {a : Answer} {c : Cache} (hc : call.onBlocks sb s.cache = .ok (a, c)) :
      c.volume.logged = [] := by
    obtain ⟨l, hl', hmem⟩ := (hrep.logged_ends hl hallowed).1 _ _ hc
    obtain rfl : l = [] := List.eq_nil_iff_forall_not_mem.mpr fun b hb ↦ hcall (hmem b hb).1
    exact hl'
  have hcard {a : Answer} {c : Cache} (hc : call.onBlocks sb s.cache = .ok (a, c)) :
      (writtenBy s.log.recent o ∪ c.volume.logged.toFinset).card < MAXOPBLOCKS := by
    rw [h.recent, hlogged hc]
    exact (by decide : (∅ : Finset ℕ).card < MAXOPBLOCKS)
  have hmatches := hrep.call_matches hl hninodes hallowed
  cases hc : call.onBlocks sb s.cache with
  | error e =>
    rcases hmatches.2 e hc with ⟨-, ip, src, off, rfl⟩ | hfault
    · exact absurd trivial hcall
    · rw [hfiles] at hfault
      cases hfault
  | ok r =>
    obtain ⟨a, c⟩ := r
    obtain ⟨files', hfiles', -⟩ := hmatches.1 a c hc
    obtain ⟨rfl, rfl⟩ := Prod.mk.inj (Except.ok.inj (hfiles'.symm.trans hfiles))
    have hlog : Journal.logWrites area o (writes c.volume) s.log = some s.log := by
      rw [writes, hlogged hc]
      rfl
    have hcalled : Journal.Called sb area s o call a c s.log := ⟨hcalls, hc, hlog, h.survives.running⟩
    obtain ⟨gt, hgt, hsurvives⟩ := h.survives.exists_call hl hninodes harea hcalled (hcard hc)
    have hfilesStep : (durableMachine sb.ninodes).step ft (.event (.call o call a)) =
        some { ft with files := files' } := by
      change Durable.call sb.ninodes ft o call a = _
      rw [Durable.call, if_pos ⟨fun ht ↦ absurd ht hcall, hallowed⟩, stateAfter_eq_some.mpr hfiles]
      rfl
    obtain rfl := Option.some.inj (hfilesStep.symm.trans hgt)
    refine ⟨.of s.log c, fun _ _ hc' ↦ hcard hc', Journal.call_eq_some.mpr ⟨c, s.log, hcalled, rfl⟩,
      ⟨hsurvives, rfl, h.activity, h.recent⟩, rfl⟩

/-- The kernel comes up on a disk. -/
theorem exists_ready (h : Represents sb (.start d.disk) fs) (hl : sb.Laid) (hninodes : sb.ninodes ≤ 65536)
    (harea : area.start + area.size ≤ sb.inodestart) : ∃ ls s,
      (journalMachine (ι := ι) sb area d).Permits (Journal.Fits sb) (.boot d.disk) ls ∧
        (journalMachine sb area d).run (.boot d.disk) ls = some s ∧
          Ready sb d s (.start (restarted fs)) ∧ ∀ o, s.log.ops o = .idle := by
  have hboot := Survives.boot (ι := ι) h hl
  obtain ⟨n, -, s, hrun, hactivity, hops, hpanicked⟩ := hboot.exists_recovered
  have hs := hboot.restarts hl hninodes harea (fun _ ↦ restarts_of_proceed) hrun
  refine ⟨_, s, .of_forall (fun l hl' s ↦ ?_) _, hrun,
    ⟨hs, hpanicked, hactivity, hs.recent_eq_nil hactivity rfl⟩, fun o ↦ ?_⟩
  · rcases List.mem_cons.mp hl' with rfl | hl'
    · trivial
    · exact (restarts_of_proceed hl').fits s
  · rw [hops]
    rfl

/-- A system call begins when no other one is in progress. -/
theorem Ready.exists_beginOp (h : Ready sb d s ft) (hl : sb.Laid)
    (harea : area.start + area.size ≤ sb.inodestart) {o : ι} (hopen : ft.openOps = ∅)
    (hidle : s.log.ops o = .idle) : ∃ t,
      (journalMachine sb area d).step s (.event (.beginOp o)) = some t ∧
        Ready sb d t { ft with openOps := {o} } := by
  obtain ⟨-, hcommitting, hblocks⟩ := h.survives.log.phase_none h.activity
  have hlh : s.log.lh = [] := by
    rw [List.eq_nil_iff_forall_not_mem]
    intro b hb
    rw [hblocks, h.recent] at hb
    exact List.not_mem_nil hb
  obtain ⟨openOps, hreserved, hcard⟩ := h.survives.log.reserved h.activity
  have hempty : openOps = ∅ :=
    Finset.eq_empty_of_forall_notMem fun p hp ↦ h.survives.not_open hopen p ((hreserved.mem_iff p).mp hp)
  have hspace : s.log.lh.length + (s.log.outstanding + 1) * MAXOPBLOCKS ≤ LOGSIZE := by
    rw [hlh, hcard, hempty, Finset.card_empty, List.length_nil]
    decide
  have hlog : s.log.step area (.beginOp o) =
      some { s.log.setOp o .active with outstanding := s.log.outstanding + 1 } := by
    simp only [LogState.step, h.survives.running, if_true, LogState.beginOp, hidle]
    rw [if_pos ⟨h.activity, hcommitting, hspace⟩]
  obtain ⟨gt, hgt, hsurvives⟩ := h.survives.beginOp hl harea hlog
  have hnew : o ∉ ft.openOps := hopen ▸ Finset.notMem_empty o
  have hbegun : (durableMachine sb.ninodes).step ft (.event (.beginOp o)) =
      some { ft with openOps := insert o ft.openOps } := if_neg hnew
  obtain rfl := Option.some.inj (hbegun.symm.trans hgt)
  rw [hopen] at hsurvives
  exact ⟨_, Journal.logStep_eq_some.mpr ⟨h.panicked, _, hlog, rfl⟩, hsurvives, h.panicked, h.activity, h.recent⟩

/-- A system call has begun and holds the lock of the root directory. -/
theorem exists_rootLocked (h : Represents sb (.start d.disk) fs) (hl : sb.Laid)
    (hninodes : sb.ninodes ≤ 65536) (harea : area.start + area.size ≤ sb.inodestart)
    (hexists : 1 < sb.ninodes) (htype : (fs.inode 1).type ≠ .free) (o : ι) : ∃ ls s ft,
      (journalMachine sb area d).Permits (Journal.Fits sb) (.boot d.disk) ls ∧
        (journalMachine sb area d).run (.boot d.disk) ls = some s ∧
          Ready sb d s ft ∧ ft.openOps = {o} ∧ 1 ∈ ft.files.locks := by
  obtain ⟨ls, s, hfits, hrun, hs, hidle⟩ := exists_ready (ι := ι) h hl hninodes harea
  obtain ⟨files, hfiles⟩ : ∃ files, files =
    ({ restarted fs with refs := {1}, valid := Function.update (fun _ ↦ false) 1 false } : FsState) :=
    ⟨_, rfl⟩
  have higet : (Call.iget 1).onFiles sb.ninodes (restarted fs) = .ok (.inode 1, files) := by
    rw [hfiles]
    rfl
  have hlocked : (Call.ilock 1).onFiles sb.ninodes files = .ok (.done,
      { files with locks := insert 1 files.locks, valid := Function.update files.valid 1 true }) := by
    have href : ¬files.ref 1 < 1 := hfiles ▸ Nat.not_lt.mpr (Multiset.count_singleton_self 1).ge
    have hfree : 1 ∉ files.locks := hfiles ▸ Finset.notMem_empty 1
    have hused : ¬(files.valid 1 = false ∧ (files.inode 1).type = .free) := by
      rw [hfiles]
      exact fun hfree ↦ htype hfree.2
    exact bind_of_ok ((if_neg href).trans ((if_neg hfree).trans (if_neg hused)))
  have href : 1 ∈ files.refs := hfiles ▸ Multiset.mem_singleton_self 1
  have houtsideGet : ¬(Call.iget 1).InTransaction := id
  have houtsideLock : ¬(Call.ilock 1).InTransaction := id
  obtain ⟨u, hfitsu, hu, hsu, hlogu⟩ := hs.exists_lookup hl hninodes harea o houtsideGet hexists higet
  obtain ⟨v, hfitsv, hv, hsv, hlogv⟩ := hsu.exists_lookup hl hninodes harea o houtsideLock href hlocked
  have hidlev : v.log.ops o = .idle := by rw [hlogv, hlogu, hidle]
  obtain ⟨w, hw, hsw⟩ := hsv.exists_beginOp hl harea rfl hidlev
  have hrest : (journalMachine sb area d).Permits (Journal.Fits sb) s
      [.event (.call o (.iget 1) (.inode 1)), .event (.call o (.ilock 1) .done), .event (.beginOp o)] := by
    refine ⟨hfitsu, fun u' hu' ↦ ?_⟩
    obtain rfl := Option.some.inj (hu.symm.trans hu')
    exact ⟨hfitsv, fun _ _ ↦ ⟨trivial, fun _ _ ↦ trivial⟩⟩
  refine ⟨_, w, _, hfits.append hrun hrest, ?_, hsw, rfl, Finset.mem_insert_self 1 files.locks⟩
  rw [Machine.run_append, hrun, Option.bind_some, Machine.run_cons_of_step _ hu,
    Machine.run_cons_of_step _ hv, Machine.run_cons_of_step _ hw, Machine.run_nil]

/-- Then the inode of the root directory can be written. -/
theorem Ready.setFields (h : Ready sb d s ft) (hl : sb.Laid) {o : ι} (hopen : ft.openOps = {o})
    (hlock : 1 ∈ ft.files.locks) : s.Calls sb o (.setFields 1 0 0 1) ∧ ∃ c,
      (Call.setFields 1 0 0 1).onBlocks sb s.cache = .ok (.done, c) ∧ c.volume.logged = [sb.iblock 1] := by
  have hrep := h.survives.up (.inl h.activity)
  have hop : (s.log.ops o).Open := by
    rw [← h.survives.openOps, hopen]
    exact Finset.mem_singleton_self o
  have hallowed : (Call.setFields 1 0 0 1).Allowed sb.ninodes ft.files.refs ft.files.locks
      fun i ↦ typeCode (ft.files.inode i).type := ⟨hlock, by decide, by decide, by decide⟩
  obtain ⟨v, hv, -, -, hlogged⟩ := setFields_run hrep.files.consistent hl (hrep.valid_of_locked hlock)
    hallowed.2.1 hallowed.2.2.1 hallowed.2.2.2
  exact ⟨⟨h.panicked, h.survives.running, .inl h.activity, fun _ ↦ hop, hrep.allowed_iff.mpr hallowed⟩,
    _, bind_of_ok (onVolume_of_ok hv), hlogged⟩

/-- The kernel has committed a write. -/
theorem exists_committedRun (h : Represents sb (.start d.disk) fs) (hl : sb.Laid)
    (hninodes : sb.ninodes ≤ 65536) (harea : area.start + area.size ≤ sb.inodestart)
    (hexists : 1 < sb.ninodes) (htype : (fs.inode 1).type ≠ .free) (o : ι) :
    ∃ (ls : List (JournalLabel ι)) (s : Journal ι),
      (journalMachine sb area d).Permits (Journal.Fits sb) (.boot d.disk) ls ∧
        (journalMachine sb area d).run (.boot d.disk) ls = some s ∧ s.log.activity = .none ∧
          s.log.durable ≠ [] := by
  obtain ⟨ls, s, ft, hfits, hrun, hs, hopen, hlock⟩ :=
    exists_rootLocked h hl hninodes harea hexists htype o
  obtain ⟨hcalls, c, hc, hlogged⟩ := hs.setFields hl hopen hlock
  have hcard : (writtenBy s.log.recent o ∪ c.volume.logged.toFinset).card < MAXOPBLOCKS := by
    rw [hs.recent, hlogged]
    exact (Nat.lt_succ_self 1).trans (by decide)
  obtain ⟨log, hcalled, hwritten⟩ := hs.survives.exists_called hl harea hcalls hc hcard
  have hstep : (journalMachine sb area d).step s (.event (.call o (.setFields 1 0 0 1) .done)) =
      some (.of log c) := Journal.call_eq_some.mpr ⟨c, log, hcalled, rfl⟩
  obtain ⟨gt, hgt, hsurvives⟩ := hs.survives.exists_call hl hninodes harea hcalled hcard
  have hrecent : log.recent ≠ [] := by
    rw [hwritten.recent, writes, hlogged]
    exact List.append_ne_nil_of_right_ne_nil _ (List.cons_ne_nil _ _)
  obtain ⟨n, t, hcommit, hactivity, hdurable⟩ :=
    hsurvives.exists_commit rfl ((Durable.openOps_call hgt).trans hopen) hrecent
  have hfitsStep : s.Fits sb (.event (.call o (.setFields 1 0 0 1) .done)) := by
    intro answer c' hc'
    obtain ⟨-, rfl⟩ := Prod.mk.inj (Except.ok.inj (hc.symm.trans hc'))
    exact hcard
  have hfitsCommit (l : JournalLabel ι) (hl' : l ∈ .event (.endOp o) :: List.replicate n .proceed)
      (s : Journal ι) : s.Fits sb l := by
    rcases List.mem_cons.mp hl' with rfl | hl'
    · trivial
    · exact (restarts_of_proceed hl').fits s
  refine ⟨_, t, hfits.append hrun (show (journalMachine sb area d).Permits (Journal.Fits sb) s
    (.event (.call o (.setFields 1 0 0 1) .done) :: .event (.endOp o) :: List.replicate n .proceed) from
      ⟨hfitsStep, fun u _ ↦ .of_forall hfitsCommit u⟩), ?_, hactivity, ?_⟩
  · rw [Machine.run_append, hrun, Option.bind_some, Machine.run_cons_of_step _ hstep, hcommit]
  · rw [hdurable]
    exact List.append_ne_nil_of_right_ne_nil _ hrecent

/-- A disk with one file of two bytes, and a run with a commit. -/
theorem formatted_run_survives_crashes_oneFile : ∃ (d : EmptyLog mkfsLog) (ls : List (JournalLabel ℕ))
    (s : Journal ℕ), (journalMachine layout mkfsLog d).run (.boot d.disk) ls = some s ∧
      s.log.durable ≠ [] ∧ s.log.halted = none ∧
      ∃ ft : Durable ℕ, (s.log.Up → Represents layout s.cache ft.files) ∧
        (ft.openOps = ∅ → ft.saved = restarted ft.files) := by
  obtain ⟨img, hmkfs⟩ := exists_oneFile
  obtain ⟨⟨start, size, henough, hbound⟩, d, fs, hlog, hdisk, hfiles, hruns⟩ :=
    formatted_run_survives_crashes (ι := ℕ) (by decide) (by decide) hmkfs
  have hsb : readsb (d.disk 1) = layout := by
    rw [hdisk]
    exact readsb_mkfs (by decide) hmkfs
  rw [hdisk, initlog_mkfs (by decide) hmkfs] at hlog
  obtain ⟨rfl, rfl⟩ := Prod.mk.inj hlog
  rw [hsb] at hruns
  obtain ⟨fs', hfiles', hrep⟩ := represents_boot (by decide) (by decide) hmkfs
  have hstart : Represents layout (.start d.disk) fs' := by
    rw [hdisk]
    exact hrep
  have htype : (fs'.inode 1).type ≠ .free := by
    rw [hfiles'.type]
    decide
  obtain ⟨ls, s, hfits, hrun, hactivity, hdurable⟩ :=
    exists_committedRun hstart laid_layout (by decide) mkfsLog_le (by decide) htype 0
  obtain ⟨hrunning, ms, ft, -, -, hup, hsaved⟩ := hruns ls s hfits hrun
  exact ⟨d, ls, s, hrun, hdurable, hrunning, ft, hup, hsaved hactivity⟩

/-! ## What a crash leaves -/

section

variable (hl : sb.Laid) (hninodes : sb.ninodes ≤ 65536) (harea : area.start + area.size ≤ sb.inodestart)
  (h : Represents sb (.start d.disk) fs)
  (hfits : (journalMachine sb area d).Permits (Journal.Fits sb) (.boot d.disk) ls)
  (hrun : (journalMachine sb area d).run (.boot d.disk) ls = some s)
include hl hninodes harea h hfits hrun

/-- After a crash, and perhaps after more crashes during the recovery, the kernel comes up with the files
of the last commit.  Without another crash the recovery takes a bounded number of steps. -/
theorem crash_restores_commit : ∃ ms ft,
    (durableMachine sb.ninodes).run (.start (restarted fs)) ms = some ft ∧
      ms.filterMap DurableLabel.event? = ls.filterMap JournalLabel.event? ∧
      (s.log.activity = .none → ft.openOps = ∅ → ft.saved = restarted ft.files) ∧
      (∀ ls' t, (∀ l ∈ ls', l.Restarts) →
        (journalMachine sb area d).run s (.event .crash :: ls') = some t → t.log.Up →
          Represents sb t.cache ft.saved) ∧
      ∃ n ≤ LOGSIZE + 1, ∃ t,
        (journalMachine sb area d).run s (.event .crash :: List.replicate n .proceed) = some t ∧
          t.log.activity = .none := by
  obtain ⟨ms, ft, hft, hevents, hs⟩ := (Survives.boot h hl).run hl hninodes harea hfits hrun
  obtain ⟨n, hn, t, hrun', hactivity, -⟩ := hs.exists_recovered
  exact ⟨ms, ft, hft, hevents, hs.saved_eq,
    fun ls' t hls' hrun' ↦ (hs.restarts hl hninodes harea hls' hrun').up, n, hn, t, hrun', hactivity⟩

/-- The log takes the writes of every call that returns, if a system call writes fewer than `MAXOPBLOCKS`
blocks, and the blocks that the next call reads are those that this one has left. -/
theorem log_accepts_call {o : ι} {call : Call} {answer : Answer} {c : Cache}
    (hcalls : s.Calls sb o call) (hreturns : call.onBlocks sb s.cache = .ok (answer, c))
    (hcard : (writtenBy s.log.recent o ∪ c.volume.logged.toFinset).card < MAXOPBLOCKS) :
    ∃ t, (journalMachine sb area d).step s (.event (.call o call answer)) = some t ∧
      t.log.halted = none ∧ t.cache.volume.block = c.volume.block := by
  obtain ⟨ms, ft, -, -, hs⟩ := (Survives.boot h hl).run hl hninodes harea hfits hrun
  obtain ⟨log, hcalled, hwritten⟩ := hs.exists_called hl harea hcalls hreturns hcard
  exact ⟨.of log c, Journal.call_eq_some.mpr ⟨c, log, hcalled, rfl⟩, hcalled.running,
    hwritten.block (v := s.cache.volume) rfl rfl (call.leads _ _ _ hreturns)⟩

end

/-- The disk of the formatter with one file of two bytes. -/
theorem exists_oneFileLog : ∃ (d : EmptyLog mkfsLog) (fs : FsState),
    Represents layout (.start d.disk) fs ∧ (fs.inode 1).type ≠ .free := by
  obtain ⟨img, hmkfs⟩ := exists_oneFile
  obtain ⟨fs, hfiles, hrep⟩ := represents_boot (by decide) (by decide) hmkfs
  refine ⟨imageLog (by decide) hmkfs, fs, hrep, ?_⟩
  rw [hfiles.type]
  decide

/-- A crash after a commit. -/
theorem crash_restores_commit_oneFile : ∃ (d : EmptyLog mkfsLog) (ls : List (JournalLabel ℕ))
    (s : Journal ℕ) (ft : Durable ℕ),
    (journalMachine layout mkfsLog d).run (.boot d.disk) ls = some s ∧ s.log.durable ≠ [] ∧
      ∃ n ≤ LOGSIZE + 1, ∃ t : Journal ℕ, (journalMachine layout mkfsLog d).run s
        (.event .crash :: List.replicate n .proceed) = some t ∧ t.log.activity = .none ∧
          Represents layout t.cache ft.saved := by
  obtain ⟨d, fs, hrep, htype⟩ := exists_oneFileLog
  obtain ⟨ls, s, hfits, hrun, -, hdurable⟩ :=
    exists_committedRun hrep laid_layout (by decide) mkfsLog_le (by decide) htype 0
  obtain ⟨ms, ft, -, -, -, hsaved, n, hn, t, hrun', hactivity⟩ :=
    crash_restores_commit laid_layout (by decide) mkfsLog_le hrep hfits hrun
  exact ⟨d, ls, s, ft, hrun, hdurable, n, hn, t, hrun', hactivity,
    hsaved _ t (fun _ ↦ restarts_of_proceed) hrun' (.inl hactivity)⟩

/-- The inode of the root directory is written. -/
theorem log_accepts_call_oneFile : ∃ (d : EmptyLog mkfsLog) (s t : Journal ℕ) (c : Cache),
    (Call.setFields 1 0 0 1).onBlocks layout s.cache = .ok (.done, c) ∧
      c.volume.logged = [layout.iblock 1] ∧
      (journalMachine layout mkfsLog d).step s (.event (.call 0 (.setFields 1 0 0 1) .done)) = some t ∧
        t.log.halted = none := by
  obtain ⟨d, fs, hrep, htype⟩ := exists_oneFileLog
  obtain ⟨ls, s, ft, hfits, hrun, hs, hopen, hlock⟩ :=
    exists_rootLocked hrep laid_layout (by decide) mkfsLog_le (by decide) htype 0
  obtain ⟨hcalls, c, hc, hlogged⟩ := hs.setFields laid_layout hopen hlock
  have hcard : (writtenBy s.log.recent 0 ∪ c.volume.logged.toFinset).card < MAXOPBLOCKS := by
    rw [hs.recent, hlogged]
    decide
  obtain ⟨t, ht, hrunning, -⟩ :=
    log_accepts_call laid_layout (by decide) mkfsLog_le hrep hfits hrun hcalls hc hcard
  exact ⟨d, s, t, c, hc, hlogged, ht, hrunning⟩

end CS537.Storage
