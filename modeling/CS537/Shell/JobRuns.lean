import CS537.Shell.Jobs
import Mathlib.Data.Finset.Range

/-!
# What the shell says about its jobs

A background job that has not ended is in the table, from the end of `job_arr_add` on.  The
slots are given up only after their process has been found gone, whoever waited for it, and a process
identifier that is used again belongs to one child at a time.
-/

namespace CS537.Shell

open Foundation

variable {children children' : ℕ → Option Child} {s s' : ShellState} {n k pid : ℕ}
  {new : Option ℕ} {job : JobInfo}

/-- Some children have ended or are gone. -/
def Shrinks (children children' : ℕ → Option Child) : Prop :=
  ∀ pid c, children' pid = some c →
    ∃ d, children pid = some d ∧ d.command = c.command ∧ (c.ended = false → d.ended = false)

theorem Shrinks.refl : Shrinks children children := fun _ c h ↦ ⟨c, h, rfl, id⟩

theorem shrinks_update_none : Shrinks children (Function.update children pid none) := by
  intro p c h
  by_cases hp : p = pid
  · rw [hp, Function.update_self] at h
    exact absurd h.symm (Option.some_ne_none c)
  · rw [Function.update_of_ne hp] at h
    exact ⟨c, h, rfl, id⟩

theorem shrinks_update_ended (h : children pid = some ⟨k, false⟩) :
    Shrinks children (Function.update children pid (some ⟨k, true⟩)) := by
  intro p c hp
  by_cases hpp : p = pid
  · rw [hpp, Function.update_self] at hp
    obtain rfl := Option.some.inj hp
    exact ⟨⟨k, false⟩, hpp ▸ h, rfl, fun _ ↦ rfl⟩
  · rw [Function.update_of_ne hpp] at hp
    exact ⟨c, hp, rfl, id⟩

/-- `waitpid` leaves the children as they are while the one asked for is running, and otherwise
removes it. -/
theorem waitpid_cases (children : ℕ → Option Child) (pid : ℕ) :
    (waitpid children pid = none ∧ ∃ k, children pid = some ⟨k, false⟩) ∨
      waitpid children pid = some (Function.update children pid none) := by
  unfold waitpid
  cases h : children pid with
  | none => exact .inr rfl
  | some c =>
    obtain ⟨k, ended⟩ := c
    cases ended with
    | false => exact .inl ⟨rfl, k, rfl⟩
    | true => exact .inr rfl

namespace ShellState

/-- Job `k` is in the table with process `pid`. -/
def InTable (s : ShellState) (k pid : ℕ) : Prop :=
  ∃ i job, s.jobArr i = some job ∧ job.jobid = k ∧ job.jobpid = pid

/-- What holds of the tables after `n` commands have been started; the process of the last one is
`new` if it has yet to be added to the table. -/
structure Tables (s : ShellState) (n : ℕ) (new : Option ℕ) : Prop where
  childUnique : ∀ p q c d, s.children p = some c → s.children q = some d →
    c.command = d.command → p = q
  childLt : ∀ p c, s.children p = some c → c.command < n
  flags : ∀ k, s.bgFlag k = true → k ∈ s.background
  backgroundLt : ∀ k ∈ s.background, k < n
  slotUnique : ∀ i j job job', s.jobArr i = some job → s.jobArr j = some job' →
    job.jobid = job'.jobid → i = j
  slotLt : ∀ i job, s.jobArr i = some job → job.jobid < s.jobidNext
  tracked : ∀ k ∈ s.background, ∀ pid, s.Running k pid →
    s.InTable k pid ∨ new = some pid ∧ k = s.jobidNext

/-- Children end or go, and with them their slots. -/
structure Recedes (s s' : ShellState) : Prop where
  jobidNext : s'.jobidNext = s.jobidNext
  bgFlag : s'.bgFlag = s.bgFlag
  background : s'.background = s.background
  children : Shrinks s.children s'.children
  kept : ∀ i job, s'.jobArr i = some job → s.jobArr i = some job
  lost : ∀ i job, s.jobArr i = some job →
    s'.jobArr i = some job ∨ ∀ k, ¬s'.Running k job.jobpid

namespace Recedes

theorem running (h : s.Recedes s') (hk : s'.Running k pid) : s.Running k pid := by
  obtain ⟨d, hd, hcommand, hended⟩ := h.children pid _ hk
  obtain ⟨command, ended⟩ := d
  rw [Running, hd]
  exact congrArg some (Child.mk.injEq _ _ _ _ ▸ ⟨hcommand, hended rfl⟩)

theorem ended (h : s.Recedes s') (hk : s.Ended k) : s'.Ended k :=
  fun pid hrunning ↦ hk pid (h.running hrunning)

theorem inTable (h : s.Recedes s') (hk : s.InTable k pid) (hrunning : s'.Running k pid) :
    s'.InTable k pid := by
  obtain ⟨i, job, hjob, hjobid, hjobpid⟩ := hk
  rcases h.lost i job hjob with hkept | hlost
  · exact ⟨i, job, hkept, hjobid, hjobpid⟩
  · exact absurd hrunning (hjobpid ▸ hlost k)

end Recedes

theorem Tables.recedes (ht : s.Tables n new) (h : s.Recedes s') : s'.Tables n new where
  childUnique p q c d hc hd heq := by
    obtain ⟨c', hc', hcommand, -⟩ := h.children p c hc
    obtain ⟨d', hd', hcommand', -⟩ := h.children q d hd
    exact ht.childUnique p q c' d' hc' hd' (by rw [hcommand, hcommand', heq])
  childLt p c hc := by
    obtain ⟨c', hc', hcommand, -⟩ := h.children p c hc
    rw [← hcommand]
    exact ht.childLt p c' hc'
  flags k hk := by
    rw [h.background]
    exact ht.flags k (h.bgFlag ▸ hk)
  backgroundLt k hk := ht.backgroundLt k (h.background ▸ hk)
  slotUnique i j job job' hi hj heq :=
    ht.slotUnique i j job job' (h.kept i job hi) (h.kept j job' hj) heq
  slotLt i job hi := by
    rw [h.jobidNext]
    exact ht.slotLt i job (h.kept i job hi)
  tracked k hk pid hrunning := by
    rw [h.jobidNext]
    rcases ht.tracked k (h.background ▸ hk) pid (h.running hrunning) with htable | hnew
    · exact .inl (h.inTable htable hrunning)
    · exact .inr hnew

/-- A step that changes neither the children nor the tables. -/
theorem recedes_of_eq (hchildren : s'.children = s.children) (hjobidNext : s'.jobidNext = s.jobidNext)
    (hbgFlag : s'.bgFlag = s.bgFlag) (hjobArr : s'.jobArr = s.jobArr)
    (hbackground : s'.background = s.background) : s.Recedes s' :=
  ⟨hjobidNext, hbgFlag, hbackground, hchildren ▸ Shrinks.refl, fun _ _ h ↦ hjobArr ▸ h,
    fun _ _ h ↦ .inl (hjobArr ▸ h)⟩

/-- A job that has not ended is in a slot from `i` on, if it has not been printed. -/
def Listing (s : ShellState) (i : ℕ) (printed : List (ℕ × List Char)) : Prop :=
  ∀ k ∈ s.background, ¬s.Ended k → k ∈ printed.map Prod.fst ∨
    ∃ j job, i ≤ j.val ∧ s.jobArr j = some job ∧ job.jobid = k

/-- Where the shell is, what holds of its tables and of what it is about to say. -/
def Inv (s : ShellState) : Prop :=
  match s.phase with
  | .prompt => s.Tables s.jobidNext none
  | .foreground _ => s.Tables (s.jobidNext + 1) none
  | .cleaning _ pid _ => s.Tables (s.jobidNext + 1) (some pid)
  | .waiting jobid found => s.Tables s.jobidNext none ∧
      ∃ k : ℕ, jobid = k ∧ k ∈ s.background ∧ ∀ pid, s.Running k pid → found = some pid
  | .listing i printed => s.Tables s.jobidNext none ∧ s.Listing i printed
  | .dead => True

theorem inv_of_prompt (hphase : s.phase = .prompt) (ht : s.Tables s.jobidNext none) : s.Inv := by
  rw [Inv, hphase]
  exact ht

theorem Inv.tables (hs : s.Inv) (hphase : s.phase = .prompt) : s.Tables s.jobidNext none := by
  rw [Inv, hphase] at hs
  exact hs

/-- A step keeps the invariant, and what the shell says at it is true. -/
def Sound (s' : ShellState) : Prop := s'.Inv ∧ ∀ o, s'.said = some o → s'.Truthful o

theorem sound_of_silent (h : s'.Inv) (hsaid : s'.said = none) : s'.Sound := by
  refine ⟨h, fun o ho ↦ ?_⟩
  rw [hsaid] at ho
  exact absurd ho.symm (Option.some_ne_none o)

/-! ## The commands -/

/-- A child that runs the next command has been forked. -/
theorem Tables.fork (ht : s.Tables s.jobidNext none)
    (hchildren : s'.children = Function.update s.children pid (some ⟨s.jobidNext, false⟩))
    (hjobidNext : s'.jobidNext = s.jobidNext) (hjobArr : s'.jobArr = s.jobArr)
    (hflags : ∀ k, s'.bgFlag k = true → k ∈ s'.background)
    (hbackground : ∀ k ∈ s'.background,
      k ∈ s.background ∨ k = s.jobidNext ∧ new = some pid) :
    s'.Tables (s.jobidNext + 1) new := by
  have hchild (p : ℕ) (c : Child) (hc : s'.children p = some c) :
      (p = pid ∧ c = ⟨s.jobidNext, false⟩) ∨ s.children p = some c := by
    rw [hchildren] at hc
    by_cases hp : p = pid
    · rw [hp, Function.update_self] at hc
      exact .inl ⟨hp, (Option.some.inj hc).symm⟩
    · rw [Function.update_of_ne hp] at hc
      exact .inr hc
  constructor
  case childUnique =>
    intro p q c d hc hd heq
    rcases hchild p c hc with ⟨hp, rfl⟩ | hc'
    · rcases hchild q d hd with ⟨hq, -⟩ | hd'
      · rw [hp, hq]
      · exact absurd heq (Nat.ne_of_gt (ht.childLt q d hd'))
    · rcases hchild q d hd with ⟨-, rfl⟩ | hd'
      · exact absurd heq (Nat.ne_of_lt (ht.childLt p c hc'))
      · exact ht.childUnique p q c d hc' hd' heq
  case childLt =>
    intro p c hc
    rcases hchild p c hc with ⟨-, rfl⟩ | hc'
    · exact Nat.lt_succ_self _
    · exact Nat.lt_succ_of_lt (ht.childLt p c hc')
  case flags => exact hflags
  case backgroundLt =>
    intro k hk
    rcases hbackground k hk with hk | ⟨rfl, -⟩
    · exact Nat.lt_succ_of_lt (ht.backgroundLt k hk)
    · exact Nat.lt_succ_self _
  case slotUnique =>
    rw [hjobArr]
    exact ht.slotUnique
  case slotLt =>
    rw [hjobArr, hjobidNext]
    exact ht.slotLt
  case tracked =>
    intro k hk p hrunning
    rw [hjobidNext, InTable, hjobArr]
    rcases hchild p _ hrunning with ⟨rfl, heq⟩ | hrunning'
    · have hk' : k = s.jobidNext := congrArg Child.command heq
      rcases hbackground k hk with hk | ⟨-, hnew⟩
      · exact absurd hk' (Nat.ne_of_lt (ht.backgroundLt k hk))
      · exact .inr ⟨hnew, hk'⟩
    · rcases hbackground k hk with hk | ⟨rfl, -⟩
      · exact .inl ((ht.tracked k hk p hrunning').resolve_right fun h ↦
          absurd h.1.symm (Option.some_ne_none p))
      · exact absurd (ht.childLt p _ hrunning') (Nat.lt_irrefl _)

theorem Tables.funcGeneral (hs : s.Tables s.jobidNext none) (hsaid : s.said = none) {argv : List Word} {background : Bool} (hroom : background = true → s.jobidNext < maxJid)
    (h : s.funcGeneral argv background pid = some s') : s'.Sound := by
  unfold ShellState.funcGeneral at h
  split at h
  next =>
    cases background with
    | true =>
      rw [if_pos rfl, if_pos (hroom rfl)] at h
      obtain rfl := Option.some.inj h
      refine sound_of_silent (hs.fork rfl rfl rfl (fun k hk ↦ ?_) fun k hk ↦ ?_) hsaid
      · by_cases hk' : k = s.jobidNext
        · exact Finset.mem_insert.mpr (.inl hk')
        · dsimp only at hk
          rw [Function.update_of_ne hk'] at hk
          exact Finset.mem_insert_of_mem (hs.flags k hk)
      · rcases Finset.mem_insert.mp hk with hk | hk
        · exact .inr ⟨hk, rfl⟩
        · exact .inl hk
    | false =>
      rw [if_neg Bool.false_ne_true] at h
      obtain rfl := Option.some.inj h
      exact sound_of_silent (hs.fork rfl rfl rfl hs.flags fun k hk ↦ .inl hk) hsaid
  next => simp at h

/-- A job that is running is found by its number. -/
theorem Tables.found (ht : s.Tables n new) (hk : s.InTable k pid) :
    ((List.finRange maxSimJobs).findSome? fun i ↦
      (s.jobArr i).bind fun job ↦ if (job.jobid : ℤ) = k then some job.jobpid else none) =
        some pid := by
  obtain ⟨i, job, hjob, hjobid, hjobpid⟩ := hk
  have hself : (s.jobArr i).bind (fun job ↦
      if (job.jobid : ℤ) = k then some job.jobpid else none) = some pid := by
    rw [hjob, Option.bind_some, if_pos (congrArg _ hjobid), hjobpid]
  cases hfound : (List.finRange maxSimJobs).findSome? fun i ↦
      (s.jobArr i).bind fun job ↦ if (job.jobid : ℤ) = k then some job.jobpid else none with
  | none =>
    have hnone := List.findSome?_eq_none_iff.mp hfound i (List.mem_finRange i)
    rw [hself] at hnone
    exact absurd hnone (Option.some_ne_none pid)
  | some p =>
    obtain ⟨j, -, hj⟩ := List.exists_of_findSome?_eq_some hfound
    obtain ⟨job', hjob', hif⟩ := Option.bind_eq_some_iff.mp hj
    split at hif
    next heq =>
      have hij : i = j := ht.slotUnique i j job job' hjob hjob' (hjobid.trans (by omega))
      rw [← hij, hself] at hj
      exact hj.symm
    next => simp at hif

/-- `func_wait` waits for a job that was started in the background. -/
theorem Tables.funcWait (ht : s.Tables s.jobidNext none) (hphase : s.phase = .prompt)
    (hsaid : s.said = none) (junk : ℤ → Bool) {jobid : ℤ}
    (hroom : 0 ≤ jobid ∧ jobid < maxJid ∨ s.jobidNext ≤ jobid) : (s.funcWait junk jobid).Sound := by
  unfold ShellState.funcWait
  split
  next =>
    refine ⟨inv_of_prompt hphase (ht.recedes (recedes_of_eq rfl rfl rfl rfl rfl)), fun o ho ↦ ?_⟩
    obtain rfl := Option.some.inj ho
    exact trivial
  next hvalid =>
    obtain ⟨hlt, hflag⟩ := not_or.mp hvalid
    have hbounds : 0 ≤ jobid ∧ jobid < maxJid := hroom.resolve_right hlt
    obtain ⟨k, rfl⟩ := Int.eq_ofNat_of_zero_le hbounds.1
    rw [Bool.not_eq_false, flagAt, if_pos hbounds] at hflag
    have hk : k ∈ s.background := ht.flags k hflag
    refine sound_of_silent ⟨ht.recedes (recedes_of_eq rfl rfl rfl rfl rfl), k, rfl, hk,
      fun pid hrunning ↦ ?_⟩ hsaid
    exact ht.found ((ht.tracked k hk pid hrunning).resolve_right fun h ↦
      absurd h.1.symm (Option.some_ne_none pid))

theorem Inv.runCommand (hs : s.Inv) (hphase : s.phase = .prompt) (hsaid : s.said = none)
    (junk : ℤ → Bool) {l : InputLine} (hroom : s.HasRoom (.line l pid))
    (h : s.runCommand junk (parseCommand l.bytes) pid = some s') : s'.Sound := by
  have ht := hs.tables hphase
  rw [HasRoom] at hroom
  cases hcommand : parseCommand l.bytes with
  | general argv redirect background =>
    rw [hcommand] at h hroom
    exact ht.funcGeneral hsaid hroom h
  | wait jobid =>
    rw [hcommand] at h hroom
    obtain rfl := Option.some.inj h
    exact ht.funcWait hphase hsaid junk hroom
  | waitInvalid =>
    rw [hcommand] at h
    obtain rfl := Option.some.inj h
    refine ⟨inv_of_prompt hphase (ht.recedes (recedes_of_eq rfl rfl rfl rfl rfl)), fun o ho ↦ ?_⟩
    obtain rfl := Option.some.inj ho
    exact trivial
  | jobs =>
    rw [hcommand] at h
    obtain rfl := Option.some.inj h
    refine sound_of_silent ⟨ht.recedes (recedes_of_eq rfl rfl rfl rfl rfl), fun k hk hended ↦ ?_⟩ hsaid
    obtain ⟨pid, hrunning⟩ := not_forall_not.mp hended
    obtain ⟨j, job, hjob, hjobid, -⟩ := (ht.tracked k hk pid hrunning).resolve_right fun h ↦
      absurd h.1.symm (Option.some_ne_none pid)
    exact .inr ⟨j, job, Nat.zero_le _, hjob, hjobid⟩
  | exit =>
    rw [hcommand] at h
    obtain rfl := Option.some.inj h
    exact sound_of_silent trivial hsaid
  | rejected e =>
    rw [hcommand] at h
    obtain rfl := Option.some.inj h
    exact sound_of_silent hs hsaid
  | empty =>
    rw [hcommand] at h
    obtain rfl := Option.some.inj h
    exact sound_of_silent hs hsaid
  | undefined =>
    rw [hcommand] at hroom
    exact absurd hroom not_false

/-! ## The loops over the table -/

/-- A slot whose process is not running is given up. -/
theorem recedes_dropSlot {i : Fin maxSimJobs} (hjob : s.jobArr i = some job)
    (hchildren : s'.children = Function.update s.children job.jobpid none)
    (hjobidNext : s'.jobidNext = s.jobidNext) (hbgFlag : s'.bgFlag = s.bgFlag)
    (hjobArr : s'.jobArr = Function.update s.jobArr i none)
    (hbackground : s'.background = s.background) : s.Recedes s' := by
  refine ⟨hjobidNext, hbgFlag, hbackground, hchildren ▸ shrinks_update_none, fun j job' hj ↦ ?_,
    fun j job' hj ↦ ?_⟩
  · rw [hjobArr] at hj
    by_cases hij : j = i
    · rw [hij, Function.update_self] at hj
      exact absurd hj.symm (Option.some_ne_none job')
    · rwa [Function.update_of_ne hij] at hj
  · rw [hjobArr]
    by_cases hij : j = i
    · subst hij
      obtain rfl := Option.some.inj (hjob.symm.trans hj)
      refine .inr fun k hrunning ↦ ?_
      rw [Running, hchildren, Function.update_self] at hrunning
      exact absurd hrunning.symm (Option.some_ne_none _)
    · rw [Function.update_of_ne hij]
      exact .inl hj

theorem recedes_cleanSlot (s : ShellState) (i : Fin maxSimJobs) (phase : Phase) :
    s.Recedes { s.cleanSlot i with phase := phase } := by
  unfold cleanSlot
  cases hjob : s.jobArr i with
  | none => exact recedes_of_eq rfl rfl rfl rfl rfl
  | some job =>
    rcases waitpid_cases s.children job.jobpid with ⟨hwait, -⟩ | hwait
    · simp only [hwait]
      exact recedes_of_eq rfl rfl rfl rfl rfl
    · simp only [hwait]
      exact recedes_dropSlot hjob rfl rfl rfl rfl rfl

theorem cleanSlot_frame (s : ShellState) (i : Fin maxSimJobs) :
    (s.cleanSlot i).jobidNext = s.jobidNext ∧ (s.cleanSlot i).said = s.said := by
  unfold cleanSlot
  split
  · exact ⟨rfl, rfl⟩
  · split <;> exact ⟨rfl, rfl⟩

/-- `job_arr_add` finds a free slot for the job. -/
theorem Tables.addJob (ht : s.Tables (s.jobidNext + 1) (some pid)) (hsaid : s.said = none)
    (argv : List Word) (hroom : ∃ j, s.jobArr j = none) : (s.addJob argv pid).Sound := by
  have hfound : ∃ i, (List.finRange maxSimJobs).find? (fun i ↦ (s.jobArr i).isNone) = some i ∧
      s.jobArr i = none := by
    obtain ⟨j, hj⟩ := hroom
    cases hfind : (List.finRange maxSimJobs).find? fun i ↦ (s.jobArr i).isNone with
    | none =>
      have hnone := List.find?_eq_none.mp hfind j (List.mem_finRange j)
      simp [hj] at hnone
    | some i => exact ⟨i, rfl, by simpa using List.find?_some hfind⟩
  obtain ⟨i, hfind, hi⟩ := hfound
  have hslot (j : Fin maxSimJobs) (job : JobInfo)
      (hj : Function.update s.jobArr i (some ⟨s.jobidNext, argv, pid⟩) j = some job) :
      (j = i ∧ job = ⟨s.jobidNext, argv, pid⟩) ∨ s.jobArr j = some job := by
    by_cases hji : j = i
    · rw [hji, Function.update_self] at hj
      exact .inl ⟨hji, (Option.some.inj hj).symm⟩
    · rw [Function.update_of_ne hji] at hj
      exact .inr hj
  unfold ShellState.addJob
  simp only [hfind, Nat.add_sub_cancel]
  refine sound_of_silent (inv_of_prompt rfl ?_) hsaid
  constructor
  case childUnique => exact ht.childUnique
  case childLt => exact ht.childLt
  case flags => exact ht.flags
  case backgroundLt => exact ht.backgroundLt
  case slotUnique =>
    intro j j' job job' hj hj' heq
    rcases hslot j job hj with ⟨hji, rfl⟩ | hj
    · rcases hslot j' job' hj' with ⟨hji', -⟩ | hj'
      · rw [hji, hji']
      · exact absurd heq (Nat.ne_of_gt (ht.slotLt j' job' hj'))
    · rcases hslot j' job' hj' with ⟨-, rfl⟩ | hj'
      · exact absurd heq (Nat.ne_of_lt (ht.slotLt j job hj))
      · exact ht.slotUnique j j' job job' hj hj' heq
  case slotLt =>
    intro j job hj
    rcases hslot j job hj with ⟨-, rfl⟩ | hj
    · exact Nat.lt_succ_self _
    · exact Nat.lt_succ_of_lt (ht.slotLt j job hj)
  case tracked =>
    intro k hk p hrunning
    rcases ht.tracked k hk p hrunning with ⟨j, job, hj, hjobid, hjobpid⟩ | ⟨hp, rfl⟩
    · have hji : j ≠ i := fun heq ↦ by simp [heq, hi] at hj
      exact .inl ⟨j, job, (Function.update_of_ne hji _ _).trans hj, hjobid, hjobpid⟩
    · obtain rfl := Option.some.inj hp
      exact .inl ⟨i, _, Function.update_self _ _ _, rfl, rfl⟩

theorem Listing.next {i : Fin maxSimJobs} {printed printed' : List (ℕ × List Char)}
    (hl : s.Listing i printed) (h : s.Recedes s') (hprinted : printed ⊆ printed')
    (hi : ∀ job, s.jobArr i = some job → job.jobid ∈ s.background → ¬s'.Ended job.jobid →
      job.jobid ∈ printed'.map Prod.fst)
    (hothers : ∀ j, j ≠ i → s'.jobArr j = s.jobArr j) : s'.Listing (i + 1) printed' := by
  intro k hk hended
  rcases hl k (h.background ▸ hk) fun hend ↦ hended (h.ended hend) with hmem | ⟨j, job, hij, hj, hjobid⟩
  · exact .inl (List.map_subset _ hprinted hmem)
  · by_cases heq : j = i
    · rw [h.background] at hk
      rw [← hjobid] at hk hended ⊢
      exact .inl (hi job (heq ▸ hj) hk hended)
    · have hne : i.val ≠ j.val := fun hval ↦ heq (Fin.ext hval.symm)
      exact .inr ⟨j, job, by omega, (hothers j heq).trans hj, hjobid⟩

/-- One round of `func_jobs` prints the job in the slot, or finds that it has ended. -/
theorem Tables.listSlot (ht : s.Tables s.jobidNext none) (hsaid : s.said = none)
    {i : Fin maxSimJobs} {printed : List (ℕ × List Char)} (hl : s.Listing i printed)
    (hroom : ∀ job, s.jobArr i = some job → job.argv = [] → ∀ k, ¬s.Running k job.jobpid) :
    (s.listSlot i printed).Sound := by
  unfold ShellState.listSlot
  cases hjob : s.jobArr i with
  | none =>
    have hrecedes : s.Recedes { s with phase := .listing (i + 1) printed } :=
      recedes_of_eq rfl rfl rfl rfl rfl
    refine sound_of_silent ⟨ht.recedes hrecedes, hl.next hrecedes (List.Subset.refl _)
      (fun job hi ↦ ?_) fun _ _ ↦ rfl⟩ hsaid
    rw [hjob] at hi
    exact absurd hi.symm (Option.some_ne_none job)
  | some job =>
    rcases waitpid_cases s.children job.jobpid with ⟨hwait, k, hk⟩ | hwait
    · have hargv : job.argv ≠ [] := fun heq ↦ hroom job hjob heq k hk
      simp only [hwait, jobCmd, if_neg hargv]
      have hrecedes : s.Recedes { s with
          phase := .listing (i + 1)
            (printed ++ [(job.jobid, (job.argv.flatMap (· ++ [' '])).dropLast)]) } :=
        recedes_of_eq rfl rfl rfl rfl rfl
      refine sound_of_silent ⟨ht.recedes hrecedes, hl.next hrecedes (List.subset_append_left _ _)
        (fun job' hi _ _ ↦ ?_) fun _ _ ↦ rfl⟩ hsaid
      obtain rfl := Option.some.inj (hjob.symm.trans hi)
      simp
    · simp only [hwait]
      have hrecedes : s.Recedes { s with
          children := Function.update s.children job.jobpid none
          jobArr := Function.update s.jobArr i none
          phase := .listing (i + 1) printed } := recedes_dropSlot hjob rfl rfl rfl rfl rfl
      refine sound_of_silent ⟨ht.recedes hrecedes, hl.next hrecedes (List.Subset.refl _)
        (fun job' hi hk hended ↦ ?_) fun j hj ↦ Function.update_of_ne hj _ _⟩ hsaid
      -- A process that runs the job would be the one that `waitpid` has found gone.
      obtain rfl := Option.some.inj (hjob.symm.trans hi)
      obtain ⟨pid, hrunning⟩ := not_forall_not.mp hended
      obtain ⟨j, job', hj, hjobid, hjobpid⟩ :=
        (ht.tracked _ hk pid (hrecedes.running hrunning)).resolve_right fun h ↦
          absurd h.1.symm (Option.some_ne_none pid)
      have hij : j = i := ht.slotUnique j i job' job hj hjob hjobid
      obtain rfl := Option.some.inj (hjob.symm.trans (hij ▸ hj))
      rw [Running, ← hjobpid] at hrunning
      exact absurd ((Function.update_self _ _ _).symm.trans hrunning).symm (Option.some_ne_none _)

theorem Inv.advance (hs : s.Inv) (hsaid : s.said = none) (hroom : s.HasRoom .advance)
    (h : s.advance = some s') : s'.Sound := by
  unfold ShellState.advance at h
  cases hphase : s.phase with
  | prompt => simp [hphase] at h
  | foreground pid => simp [hphase] at h
  | dead => simp [hphase] at h
  | cleaning argv pid i =>
    simp only [hphase] at h
    rw [Inv, hphase] at hs
    split at h
    next hi =>
      obtain rfl := Option.some.inj h
      have hrecedes := recedes_cleanSlot s ⟨i, hi⟩ (.cleaning argv pid (i + 1))
      refine sound_of_silent ?_ ((cleanSlot_frame s _).2.trans hsaid)
      have ht := hs.recedes hrecedes
      rwa [← (cleanSlot_frame s ⟨i, hi⟩).1] at ht
    next hi =>
      obtain rfl := Option.some.inj h
      rw [HasRoom, hphase] at hroom
      exact Tables.addJob hs hsaid argv (hroom (Nat.not_lt.mp hi))
  | waiting jobid found =>
    rw [Inv, hphase] at hs
    obtain ⟨ht, k, rfl, hk, hfound⟩ := hs
    cases found with
    | none =>
      simp only [hphase] at h
      obtain rfl := Option.some.inj h
      refine ⟨inv_of_prompt rfl (ht.recedes (recedes_of_eq rfl rfl rfl rfl rfl)), fun o ho ↦ ?_⟩
      obtain rfl := Option.some.inj ho
      exact ⟨k, rfl, hk, fun pid hrunning ↦
        absurd (hfound pid hrunning).symm (Option.some_ne_none pid)⟩
    | some pid =>
      simp only [hphase] at h
      obtain ⟨children, hwait, rfl⟩ := Option.map_eq_some_iff.mp h
      obtain rfl : children = Function.update s.children pid none := by
        rcases waitpid_cases s.children pid with ⟨hnone, -⟩ | hsome
        · rw [hnone] at hwait
          exact absurd hwait.symm (Option.some_ne_none _)
        · exact Option.some.inj (hwait.symm.trans hsome)
      have hrecedes : s.Recedes { s with
          children := Function.update s.children pid none
          phase := .prompt
          said := some (.terminated k) } :=
        ⟨rfl, rfl, rfl, shrinks_update_none, fun _ _ h ↦ h, fun _ _ h ↦ .inl h⟩
      refine ⟨inv_of_prompt rfl (ht.recedes hrecedes), fun o ho ↦ ?_⟩
      obtain rfl := Option.some.inj ho
      refine ⟨k, rfl, hk, fun p hrunning ↦ ?_⟩
      obtain rfl := Option.some.inj (hfound p (hrecedes.running hrunning))
      exact absurd ((Function.update_self _ _ _).symm.trans hrunning).symm (Option.some_ne_none _)
  | listing i printed =>
    simp only [hphase] at h
    rw [Inv, hphase] at hs
    obtain ⟨ht, hl⟩ := hs
    split at h
    next hi =>
      obtain rfl := Option.some.inj h
      rw [HasRoom, hphase] at hroom
      exact ht.listSlot hsaid hl (hroom hi)
    next hi =>
      obtain rfl := Option.some.inj h
      refine ⟨inv_of_prompt rfl (ht.recedes (recedes_of_eq rfl rfl rfl rfl rfl)), fun o ho ↦ ?_⟩
      obtain rfl := Option.some.inj ho
      intro k hk hended
      refine (hl k hk hended).resolve_right fun ⟨j, _, hij, _⟩ ↦ ?_
      exact absurd (lt_of_lt_of_le j.isLt (Nat.not_lt.mp hi)) (Nat.not_lt.mpr hij)

/-! ## The children -/

/-- The invariant says nothing about a child that has ended. -/
theorem Inv.recedes (hs : s.Inv) (h : s.Recedes s') (hphase : s'.phase = s.phase)
    (hjobArr : s'.jobArr = s.jobArr) : s'.Inv := by
  unfold Inv at hs ⊢
  rw [hphase, h.jobidNext]
  cases hp : s.phase with
  | prompt =>
    rw [hp] at hs
    exact Tables.recedes hs h
  | foreground pid =>
    rw [hp] at hs
    exact Tables.recedes hs h
  | cleaning argv pid i =>
    rw [hp] at hs
    exact Tables.recedes hs h
  | waiting jobid found =>
    rw [hp] at hs
    obtain ⟨ht, k, hjobid, hk, hfound⟩ := hs
    exact ⟨ht.recedes h, k, hjobid, h.background ▸ hk, fun pid hrunning ↦
      hfound pid (h.running hrunning)⟩
  | listing i printed =>
    rw [hp] at hs
    obtain ⟨ht, hl⟩ := hs
    refine ⟨ht.recedes h, fun k hk hended ↦ ?_⟩
    rw [hjobArr]
    exact hl k (h.background ▸ hk) fun hend ↦ hended (h.ended hend)
  | dead => trivial

/-- The command in the foreground has come to its end. -/
theorem Tables.endCommand (ht : s.Tables (s.jobidNext + 1) none)
    (hchildren : s'.children = s.children) (hjobidNext : s'.jobidNext = s.jobidNext + 1)
    (hbgFlag : s'.bgFlag = s.bgFlag) (hjobArr : s'.jobArr = s.jobArr)
    (hbackground : s'.background = s.background) : s'.Tables s'.jobidNext none where
  childUnique := hchildren ▸ ht.childUnique
  childLt := hchildren ▸ hjobidNext ▸ ht.childLt
  flags := hbgFlag ▸ hbackground ▸ ht.flags
  backgroundLt := hbackground ▸ hjobidNext ▸ ht.backgroundLt
  slotUnique := hjobArr ▸ ht.slotUnique
  slotLt i job hi := by
    rw [hjobidNext]
    exact Nat.lt_succ_of_lt (ht.slotLt i job (hjobArr ▸ hi))
  tracked k hk pid hrunning := by
    rw [InTable, hjobArr]
    refine .inl ((ht.tracked k (hbackground ▸ hk) pid ?_).resolve_right fun h ↦
      absurd h.1.symm (Option.some_ne_none pid))
    rwa [Running, ← hchildren]

theorem Inv.reap (hs : s.Inv) (hsaid : s.said = none) (h : s.reap pid = some s') : s'.Sound := by
  unfold ShellState.reap at h
  split at h
  next child k hphase hchild =>
    have hrecedes : s.Recedes { s with children := Function.update s.children pid none } :=
      ⟨rfl, rfl, rfl, shrinks_update_none, fun _ _ h ↦ h, fun _ _ h ↦ .inl h⟩
    have htables : s.Tables (s.jobidNext + 1) none := by
      rw [Inv, hphase] at hs
      exact hs
    have ht := htables.recedes hrecedes
    dsimp only at h
    split at h
    · obtain rfl := Option.some.inj h
      exact sound_of_silent (inv_of_prompt rfl (ht.endCommand rfl rfl rfl rfl rfl)) hsaid
    · obtain rfl := Option.some.inj h
      exact sound_of_silent (hs.recedes hrecedes rfl rfl) hsaid
  next => simp at h

theorem Inv.step (hs : s.Inv) {e : Event} (junk : ℤ → Bool) (hroom : s.HasRoom e)
    (h : s.step junk e = some s') : s'.Sound := by
  have hs₀ : ({ s with said := none } : ShellState).Inv :=
    hs.recedes (recedes_of_eq rfl rfl rfl rfl rfl) rfl rfl
  unfold ShellState.step at h
  cases e with
  | line l pid =>
    dsimp only at h
    split at h
    next hphase => exact hs₀.runCommand hphase rfl junk hroom h
    next => simp at h
  | advance => exact hs₀.advance rfl hroom h
  | reaped pid => exact hs₀.reap rfl h
  | ended pid =>
    dsimp only at h
    split at h
    next k hchild =>
      obtain rfl := Option.some.inj h
      have hrecedes : s.Recedes { s with
          children := Function.update s.children pid (some ⟨k, true⟩)
          said := none } :=
        ⟨rfl, rfl, rfl, shrinks_update_ended hchild, fun _ _ h ↦ h, fun _ _ h ↦ .inl h⟩
      exact sound_of_silent (hs.recedes hrecedes rfl rfl) rfl
    next => simp at h

theorem inv_initial : initial.Inv := by
  refine inv_of_prompt rfl ?_
  constructor <;> simp [initial, Running]

end ShellState

/-- While the tables have room, the shell tells the truth about its jobs. -/
theorem said_truthful (junk : ℤ → Bool) (s : ShellState) (o : Output)
    (hs : (jobControl junk).ReachableVia ShellState.HasRoom s) (ho : s.said = some o) :
    s.Truthful o := by
  have hinit (s : ShellState) (hs : s = initial) : s.Sound := by
    rw [hs]
    exact ShellState.sound_of_silent ShellState.inv_initial rfl
  have hstep (s : ShellState) (e : Event) (s' : ShellState)
      (_ : (jobControl junk).ReachableVia ShellState.HasRoom s) (hs : s.Sound)
      (hroom : s.HasRoom e) (h : s.step junk e = some s') : s'.Sound := hs.1.step junk hroom h
  exact (Machine.ReachableVia.invariant hinit hstep hs).2 o ho

/-! ## As many jobs as the table has slots -/

/-- The line `sleep 9 &`. -/
def sleepLine : InputLine where
  text := ['s', 'l', 'e', 'e', 'p', ' ', '9', ' ', '&']
  newline := true
  noNewline := by decide
  noNul := by decide
  fits := by decide

def sleepArgv : List Word := [['s', 'l', 'e', 'e', 'p'], ['9']]

/-- The first `k` jobs are running in the first `k` slots, as far as there are slots. -/
def filled (k : ℕ) : ShellState where
  children pid := if 0 < pid ∧ pid ≤ k then some ⟨pid - 1, false⟩ else none
  jobidNext := k
  bgFlag j := decide (j < k)
  jobArr i := if i.val < k then some ⟨i, sleepArgv, i + 1⟩ else none
  phase := .prompt
  said := none
  background := Finset.range k

/-- The next job is about to be added; `i` slots have been examined. -/
def adding (k i : ℕ) : ShellState :=
  { filled (k + 1) with
    jobidNext := k
    jobArr := (filled k).jobArr
    phase := .cleaning sleepArgv (k + 1) i }

variable (junk : ℤ → Bool) {ok : ShellState → Event → Prop}

theorem step_filled {k : ℕ} (hk : k < maxJid) :
    (filled k).step junk (.line sleepLine (k + 1)) = some (adding k 0) := by
  have hparse : parseCommand sleepLine.bytes = .general sleepArgv none true := by decide
  have hfree : (filled k).children (k + 1) = none := if_neg (by omega)
  have hchildren : Function.update (filled k).children (k + 1) (some ⟨k, false⟩) =
      (filled (k + 1)).children := by
    funext pid
    by_cases hpid : pid = k + 1
    · rw [hpid, Function.update_self]
      exact (if_pos ⟨Nat.succ_pos k, le_rfl⟩).symm
    · rw [Function.update_of_ne hpid, filled, filled]
      dsimp only
      congr 1
      exact propext (by omega)
  have hflag : Function.update (filled k).bgFlag k true = (filled (k + 1)).bgFlag := by
    funext j
    by_cases hj : j = k
    · rw [hj, Function.update_self]
      exact (decide_eq_true (Nat.lt_succ_self k)).symm
    · rw [Function.update_of_ne hj]
      exact decide_eq_decide.mpr (by omega)
  have hbackground : insert k (filled k).background = (filled (k + 1)).background :=
    Finset.range_add_one.symm
  calc
    (filled k).step junk (.line sleepLine (k + 1)) =
        (filled k).funcGeneral sleepArgv true (k + 1) := by
      change (filled k).runCommand junk (parseCommand sleepLine.bytes) (k + 1) = _
      rw [hparse]
      rfl
    _ = some (adding k 0) := by
      unfold ShellState.funcGeneral
      rw [if_pos hfree]
      simp only [if_true]
      rw [if_pos (show (filled k).jobidNext < maxJid from hk), adding, ← hchildren, ← hflag,
        ← hbackground]
      rfl

/-- The processes of all jobs in the table are running. -/
theorem cleanSlot_adding (k : ℕ) (i : Fin maxSimJobs) :
    (adding k i).cleanSlot i = adding k i := by
  unfold ShellState.cleanSlot
  by_cases hik : i.val < k
  · have hjob : (adding k i).jobArr i = some ⟨i, sleepArgv, i + 1⟩ := if_pos hik
    have hchild : (adding k i).children (i + 1) = some ⟨i, false⟩ := if_pos (by omega)
    simp only [hjob, waitpid, hchild]
  · have hjob : (adding k i).jobArr i = none := if_neg hik
    simp only [hjob]

theorem step_adding {k i : ℕ} (hi : i < maxSimJobs) :
    (adding k i).step junk .advance = some (adding k (i + 1)) := by
  change (adding k i).advance = _
  unfold ShellState.advance
  have hclean := cleanSlot_adding k ⟨i, hi⟩
  simp only [adding] at hclean ⊢
  rw [dif_pos hi, hclean]

theorem step_adding_last {k : ℕ} (hk : k < maxSimJobs) :
    (adding k maxSimJobs).step junk .advance = some (filled (k + 1)) := by
  have hfind : (List.finRange maxSimJobs).find? (fun i ↦ ((filled k).jobArr i).isNone) =
      some ⟨k, hk⟩ := by
    rw [List.find?_eq_some_iff_getElem]
    refine ⟨by simp [filled], k, by simpa using hk, by simp, fun j hj ↦ ?_⟩
    simp [filled, hj]
  have hjobArr : Function.update (filled k).jobArr ⟨k, hk⟩ (some ⟨k, sleepArgv, k + 1⟩) =
      (filled (k + 1)).jobArr := by
    funext i
    by_cases hi : i = ⟨k, hk⟩
    · rw [hi, Function.update_self]
      exact (if_pos (Nat.lt_succ_self k)).symm
    · have hne : i.val ≠ k := fun heq ↦ hi (Fin.ext heq)
      rw [Function.update_of_ne hi, filled, filled]
      dsimp only
      congr 1
      exact propext (by omega)
  change (adding k maxSimJobs).advance = _
  unfold ShellState.advance
  simp only [adding, dif_neg (lt_irrefl maxSimJobs)]
  unfold ShellState.addJob
  simp only [hfind, Nat.add_sub_cancel]
  rw [hjobArr]
  rfl

/-- The rounds of `job_arr_add` for the next job. -/
theorem reachable_adding (hline : ∀ k < maxSimJobs + 1, ok (filled k) (.line sleepLine (k + 1)))
    (hadvance : ∀ k < maxSimJobs + 1, ∀ i < maxSimJobs, ok (adding k i) .advance) {k : ℕ}
    (hk : k < maxSimJobs + 1) (hs : (jobControl junk).ReachableVia ok (filled k)) :
    ∀ i ≤ maxSimJobs, (jobControl junk).ReachableVia ok (adding k i) := by
  intro i hi
  induction i with
  | zero =>
    have hlt : k < maxJid := lt_of_lt_of_le hk (by decide)
    exact .step hs (hline k hk) (step_filled junk hlt)
  | succ i ih => exact .step (ih (Nat.le_of_succ_le hi)) (hadvance k hk i hi) (step_adding junk hi)

theorem filled_zero : filled 0 = initial := by
  have hchildren : (filled 0).children = initial.children := by
    funext pid
    exact if_neg fun h ↦ Nat.not_lt.mpr h.2 h.1
  unfold filled initial at hchildren ⊢
  simpa using hchildren

theorem reachable_filled {k : ℕ} (hk : k ≤ maxSimJobs) :
    (jobControl junk).Reachable (filled k) := by
  induction k with
  | zero => exact .init filled_zero
  | succ k ih =>
    have hadding := reachable_adding junk (fun _ _ ↦ trivial) (fun _ _ _ _ ↦ trivial)
      (Nat.lt_succ_of_lt hk) (ih (Nat.le_of_succ_le hk)) maxSimJobs le_rfl
    have hlast : (jobControl junk).step (adding k maxSimJobs) .advance = some (filled (k + 1)) :=
      step_adding_last junk hk
    exact .step hadding trivial hlast

/-- The line `wait 40`. -/
def waitLine : InputLine where
  text := ['w', 'a', 'i', 't', ' ', '4', '0']
  newline := true
  noNewline := by decide
  noNul := by decide
  fits := by decide

/-- The table is full, and job 40 has not been added. -/
def crowded : ShellState :=
  { adding maxSimJobs maxSimJobs with
    phase := .prompt
    jobidNext := maxSimJobs + 1
    said := some .tooManyJobs }

theorem jobArr_crowded (i : Fin maxSimJobs) : crowded.jobArr i = some ⟨i, sleepArgv, i + 1⟩ :=
  if_pos i.isLt

theorem step_adding_crowded :
    (adding maxSimJobs maxSimJobs).step junk .advance = some crowded := by
  have hfind : (List.finRange maxSimJobs).find? (fun i ↦ (crowded.jobArr i).isNone) = none := by
    rw [List.find?_eq_none]
    intro i _
    simp [jobArr_crowded]
  change (adding maxSimJobs maxSimJobs).advance = _
  unfold ShellState.advance
  simp only [adding, dif_neg (lt_irrefl maxSimJobs)]
  unfold ShellState.addJob
  simp only [crowded, adding] at hfind ⊢
  simp only [hfind]

theorem step_crowded : crowded.step junk (.line waitLine 0) =
    some { crowded with phase := .waiting 40 none, said := none } := by
  have hparse : parseCommand waitLine.bytes = .wait 40 := by decide
  have hfound : ((List.finRange maxSimJobs).findSome? fun i ↦ (crowded.jobArr i).bind fun job ↦
      if (job.jobid : ℤ) = 40 then some job.jobpid else none) = none := by
    rw [List.findSome?_eq_none_iff]
    intro i _
    have hi : i.val < 40 := i.isLt
    rw [jobArr_crowded, Option.bind_some, if_neg (by dsimp only; omega)]
  have hflag : ({ crowded with said := none } : ShellState).flagAt junk 40 = true := by
    rw [ShellState.flagAt, if_pos ⟨by decide, by decide⟩]
    decide
  have hvalid : ¬((40 : ℤ) ≥ crowded.jobidNext ∨
      ({ crowded with said := none } : ShellState).flagAt junk 40 = false) := by
    rw [not_or, hflag]
    exact ⟨by decide, by decide⟩
  calc
    crowded.step junk (.line waitLine 0) =
        some (({ crowded with said := none } : ShellState).funcWait junk 40) := by
      change ({ crowded with said := none } : ShellState).runCommand junk
        (parseCommand waitLine.bytes) 0 = _
      rw [hparse]
      rfl
    _ = some { crowded with phase := .waiting 40 none, said := none } := by
      unfold ShellState.funcWait
      rw [if_neg hvalid]
      exact congrArg (fun found ↦ some { crowded with phase := .waiting 40 found, said := none })
        hfound

/-- With all slots taken, the shell says that the next job has terminated while it is running. -/
theorem full_table_untruthful : ∃ s, (jobControl fun _ ↦ false).Reachable s ∧
    s.said = some (.terminated 40) ∧ s.Running 40 41 ∧ ¬s.Truthful (.terminated 40) := by
  have hadding : (jobControl fun _ ↦ false).Reachable (adding maxSimJobs maxSimJobs) :=
    reachable_adding _ (fun _ _ ↦ trivial) (fun _ _ _ _ ↦ trivial)
      (Nat.lt_succ_self maxSimJobs) (reachable_filled _ le_rfl) maxSimJobs le_rfl
  have hcrowded : (jobControl fun _ ↦ false).Reachable crowded :=
    hadding.next (l := .advance) (step_adding_crowded fun _ ↦ false)
  have hwaiting : (jobControl fun _ ↦ false).Reachable
      { crowded with phase := .waiting 40 none, said := none } :=
    hcrowded.next (l := .line waitLine 0) (step_crowded fun _ ↦ false)
  have hsaid : (jobControl fun _ ↦ false).step
      { crowded with phase := .waiting 40 none, said := none } .advance =
        some { crowded with phase := .prompt, said := some (.terminated 40) } := rfl
  have hrunning : crowded.Running 40 41 := by
    rw [ShellState.Running]
    decide
  refine ⟨{ crowded with phase := .prompt, said := some (.terminated 40) },
    hwaiting.next (l := .advance) hsaid, rfl, hrunning, ?_⟩
  rintro ⟨k, hk, -, hended⟩
  obtain rfl : k = 40 := by omega
  exact hended 41 hrunning

/-- The line `wait 0`. -/
def waitFirst : InputLine where
  text := ['w', 'a', 'i', 't', ' ', '0']
  newline := true
  noNewline := by decide
  noNul := by decide
  fits := by decide

/-- The first job, waited for and then ended. -/
theorem said_truthful_first : ∃ s : ShellState,
    s.said = some (.terminated 0) ∧ s.Truthful (.terminated 0) := by
  have hline (k : ℕ) (hk : k < maxSimJobs + 1) :
      (filled k).HasRoom (.line sleepLine (k + 1)) := by
    have hparse : parseCommand sleepLine.bytes = .general sleepArgv none true := by decide
    rw [ShellState.HasRoom, hparse]
    exact fun _ ↦ lt_of_lt_of_le hk (by decide)
  have hadvance (k : ℕ) (_ : k < maxSimJobs + 1) (i : ℕ) (hi : i < maxSimJobs) :
      (adding k i).HasRoom .advance := fun hle ↦ absurd hi (Nat.not_lt.mpr hle)
  have hadding : (jobControl fun _ ↦ false).ReachableVia ShellState.HasRoom
      (adding 0 maxSimJobs) :=
    reachable_adding _ hline hadvance (Nat.succ_pos _) (.init filled_zero) maxSimJobs le_rfl
  have hfilled : (jobControl fun _ ↦ false).ReachableVia ShellState.HasRoom (filled 1) :=
    .step (l := .advance) hadding (fun _ ↦ ⟨⟨0, by decide⟩, rfl⟩)
      (step_adding_last (fun _ ↦ false) (by decide))
  have hparse : parseCommand waitFirst.bytes = .wait 0 := by decide
  have hroom : (filled 1).HasRoom (.line waitFirst 0) := by
    rw [ShellState.HasRoom, hparse]
    exact .inl (by decide)
  have hwait : (filled 1).step (fun _ ↦ false) (.line waitFirst 0) =
      some { filled 1 with phase := .waiting 0 (some 1) } := by
    change (filled 1).runCommand (fun _ ↦ false) (parseCommand waitFirst.bytes) 0 = _
    rw [hparse]
    rfl
  have hwaiting : (jobControl fun _ ↦ false).ReachableVia ShellState.HasRoom
      { filled 1 with phase := .waiting 0 (some 1) } :=
    .step (l := .line waitFirst 0) hfilled hroom hwait
  have hended : (jobControl fun _ ↦ false).ReachableVia ShellState.HasRoom
      { filled 1 with
        children := Function.update (filled 1).children 1 (some ⟨0, true⟩)
        phase := .waiting 0 (some 1) } := .step (l := .ended 1) hwaiting trivial rfl
  have hsaid : (jobControl fun _ ↦ false).ReachableVia ShellState.HasRoom
      { filled 1 with
        children := Function.update (Function.update (filled 1).children 1 (some ⟨0, true⟩)) 1 none
        phase := .prompt
        said := some (.terminated 0) } := .step (l := .advance) hended trivial rfl
  exact ⟨_, rfl, said_truthful _ _ (.terminated 0) hsaid rfl⟩

end CS537.Shell
