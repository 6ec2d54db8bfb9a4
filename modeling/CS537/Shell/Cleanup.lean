import CS537.Shell.Jobs
import Mathlib.Algebra.BigOperators.Fin
import Mathlib.Algebra.BigOperators.Group.Finset.Piecewise

/-!
# The end of the shell

`exit_cleanup` releases the jobs that are still in the table, and what the batch mode has allocated.
The batch file and the line are released in the loop over the slots.
-/

namespace CS537.Shell

/-- What is released: with `fclose` the batch file, and with `free` the line and the blocks of a job,
which are named by its slot. -/
inductive Resource where
  | argument (slot : Fin maxSimJobs) (k : ℕ)
  | argv (slot : Fin maxSimJobs)
  | job (slot : Fin maxSimJobs)
  | batchFd
  | line
  deriving DecidableEq

/-- The slot of the job to which a resource belongs. -/
def Resource.slot : Resource → Option (Fin maxSimJobs)
  | .argument slot _ | .argv slot | .job slot => some slot
  | .batchFd | .line => none

/-- The globals that `exit_cleanup` reads; `batchFd` and `line` say that the pointer is not null. -/
structure Globals where
  jobArr : Fin maxSimJobs → Option JobInfo
  batchFd : Bool
  line : Bool

namespace Globals

/-- One round of the loop of `exit_cleanup`, with the releases in their order. -/
def cleanupSlot (g : Globals) (i : Fin maxSimJobs) : Globals × List Resource :=
  match g.jobArr i with
  | none => (g, [])
  | some job =>
    ({ g with jobArr := Function.update g.jobArr i none },
      (List.range job.argv.length).map (.argument i) ++ [.argv i, .job i] ++
        (if g.batchFd then [.batchFd] else []) ++ if g.line then [.line] else [])

def cleanupSlots (g : Globals) : List (Fin maxSimJobs) → Globals × List Resource
  | [] => (g, [])
  | i :: slots =>
    let (cleaned, released) := g.cleanupSlot i
    let (final, more) := cleaned.cleanupSlots slots
    (final, released ++ more)

def exitCleanup (g : Globals) : Globals × List Resource :=
  g.cleanupSlots (List.finRange maxSimJobs)

/-- Each resource is released once. -/
structure ReleasedOnce (g : Globals) : Prop where
  batchFd : g.exitCleanup.2.count .batchFd = 1
  line : g.exitCleanup.2.count .line = 1
  argument : ∀ i job, g.jobArr i = some job → ∀ k < job.argv.length,
    g.exitCleanup.2.count (.argument i k) = 1
  argv : ∀ i, (g.jobArr i).isSome → g.exitCleanup.2.count (.argv i) = 1
  job : ∀ i, (g.jobArr i).isSome → g.exitCleanup.2.count (.job i) = 1

variable {g g' : Globals} {i j : Fin maxSimJobs} {job : JobInfo} {r : Resource}

/-! ## The loop -/

/-- A round only removes the job of its slot, also from a slot that is empty. -/
theorem cleanupSlot_fst (g : Globals) (i : Fin maxSimJobs) :
    (g.cleanupSlot i).1 = { g with jobArr := Function.update g.jobArr i none } := by
  rw [cleanupSlot]
  split
  next hjob => rw [← hjob, Function.update_eq_self]
  next => rfl

/-- What a round releases depends on its own slot and on the pointers. -/
theorem cleanupSlot_snd_congr (hjob : g'.jobArr i = g.jobArr i) (hbatch : g'.batchFd = g.batchFd)
    (hline : g'.line = g.line) : (g'.cleanupSlot i).2 = (g.cleanupSlot i).2 := by
  rw [cleanupSlot, cleanupSlot, hjob, hbatch, hline]
  cases g.jobArr i with
  | none => rfl
  | some job => rfl

theorem cleanupSlots_snd {slots : List (Fin maxSimJobs)} (hslots : slots.Nodup) :
    (g.cleanupSlots slots).2 = slots.flatMap fun i ↦ (g.cleanupSlot i).2 := by
  induction slots generalizing g with
  | nil => rfl
  | cons i slots ih =>
    obtain ⟨hi, hslots⟩ := List.nodup_cons.mp hslots
    have hlater : ∀ j ∈ slots, ((g.cleanupSlot i).1.cleanupSlot j).2 = (g.cleanupSlot j).2 := by
      intro j hj
      have hne : j ≠ i := fun heq ↦ hi (heq ▸ hj)
      rw [cleanupSlot_fst]
      exact cleanupSlot_snd_congr (Function.update_of_ne hne _ _) rfl rfl
    calc (g.cleanupSlots (i :: slots)).2
      _ = (g.cleanupSlot i).2 ++ ((g.cleanupSlot i).1.cleanupSlots slots).2 := rfl
      _ = (g.cleanupSlot i).2 ++ slots.flatMap fun j ↦ ((g.cleanupSlot i).1.cleanupSlot j).2 := by
        rw [ih hslots]
      _ = (g.cleanupSlot i).2 ++ slots.flatMap fun j ↦ (g.cleanupSlot j).2 := by
        rw [List.flatMap_congr hlater]

/-! ## What a round releases -/

theorem cleanupSlot_snd (hjob : g.jobArr i = some job) : (g.cleanupSlot i).2 =
    (List.range job.argv.length).map (.argument i) ++ [.argv i, .job i] ++
      (if g.batchFd then [.batchFd] else []) ++ if g.line then [.line] else [] := by
  rw [cleanupSlot, hjob]

theorem cleanupSlot_none (hjob : g.jobArr i = none) : (g.cleanupSlot i).2 = [] := by
  rw [cleanupSlot, hjob]

theorem mem_cleanupSlot : r ∈ (g.cleanupSlot i).2 ↔ ∃ job, g.jobArr i = some job ∧
    ((∃ k < job.argv.length, r = .argument i k) ∨ r = .argv i ∨ r = .job i ∨
      (g.batchFd = true ∧ r = .batchFd) ∨ (g.line = true ∧ r = .line)) := by
  cases hjob : g.jobArr i with
  | none => simp [cleanupSlot_none hjob]
  | some job =>
    rw [cleanupSlot_snd hjob]
    cases g.batchFd <;> cases g.line <;> simp [eq_comm]

/-- Within a round nothing is released twice. -/
theorem nodup_cleanupSlot (g : Globals) (i : Fin maxSimJobs) : (g.cleanupSlot i).2.Nodup := by
  cases hjob : g.jobArr i with
  | none =>
    rw [cleanupSlot_none hjob]
    exact List.nodup_nil
  | some job =>
    have harguments : ((List.range job.argv.length).map (Resource.argument i)).Nodup :=
      List.nodup_range.map fun _ _ heq ↦ (Resource.argument.inj heq).2
    rw [cleanupSlot_snd hjob]
    cases g.batchFd <;> cases g.line <;> simp [List.nodup_append, harguments]

/-- A resource is released once if it is released in one round only. -/
theorem count_eq_one_iff (g : Globals) (r : Resource) :
    g.exitCleanup.2.count r = 1 ↔ ∃! i, r ∈ (g.cleanupSlot i).2 := by
  have hcount : g.exitCleanup.2.count r = (Finset.univ.filter fun i ↦ r ∈ (g.cleanupSlot i).2).card :=
    calc g.exitCleanup.2.count r
      _ = ((List.finRange maxSimJobs).map fun i ↦ (g.cleanupSlot i).2.count r).sum := by
        rw [exitCleanup, cleanupSlots_snd (List.nodup_finRange _), List.count_flatMap]
        rfl
      _ = ∑ i, (g.cleanupSlot i).2.count r := (Fin.sum_univ_def _).symm
      _ = ∑ i, if r ∈ (g.cleanupSlot i).2 then 1 else 0 :=
        Finset.sum_congr rfl fun i _ ↦ (g.nodup_cleanupSlot i).count
      _ = (Finset.univ.filter fun i ↦ r ∈ (g.cleanupSlot i).2).card := (Finset.card_filter _ _).symm
  rw [hcount, Finset.card_eq_one, Finset.singleton_iff_unique_mem]
  simp only [Finset.mem_filter, Finset.mem_univ, true_and]

/-- The resources of a job are released in the round of its slot. -/
theorem slot_of_mem_cleanupSlot (hr : r ∈ (g.cleanupSlot j).2) (hslot : r.slot = some i) : j = i := by
  obtain ⟨_, -, ⟨_, -, rfl⟩ | rfl | rfl | ⟨-, rfl⟩ | ⟨-, rfl⟩⟩ := mem_cleanupSlot.mp hr
  · exact Option.some.inj hslot
  · exact Option.some.inj hslot
  · exact Option.some.inj hslot
  · exact absurd hslot nofun
  · exact absurd hslot nofun

/-- Whatever the table is, they are released once. -/
theorem count_of_slot (hr : r ∈ (g.cleanupSlot i).2) (hslot : r.slot = some i) :
    g.exitCleanup.2.count r = 1 :=
  (g.count_eq_one_iff r).mpr ⟨i, hr, fun _ hj ↦ slot_of_mem_cleanupSlot hj hslot⟩

/-- The other ones are released in the round of every job. -/
theorem count_of_shared {held : Prop} (hr : ∀ i, r ∈ (g.cleanupSlot i).2 ↔ held ∧ (g.jobArr i).isSome) :
    g.exitCleanup.2.count r = 1 ↔ held ∧ ∃! i, (g.jobArr i).isSome := by
  rw [count_eq_one_iff]
  simp only [hr]
  constructor
  · rintro ⟨i, ⟨hheld, hi⟩, hunique⟩
    exact ⟨hheld, i, hi, fun j hj ↦ hunique j ⟨hheld, hj⟩⟩
  · rintro ⟨hheld, i, hi, hunique⟩
    exact ⟨i, ⟨hheld, hi⟩, fun j hj ↦ hunique j hj.2⟩

theorem batchFd_mem_cleanupSlot :
    .batchFd ∈ (g.cleanupSlot i).2 ↔ g.batchFd = true ∧ (g.jobArr i).isSome := by
  rw [mem_cleanupSlot, Option.isSome_iff_exists]
  simp [and_comm]

theorem line_mem_cleanupSlot :
    .line ∈ (g.cleanupSlot i).2 ↔ g.line = true ∧ (g.jobArr i).isSome := by
  rw [mem_cleanupSlot, Option.isSome_iff_exists]
  simp [and_comm]

/-- Everything is released once if and only if there is one job in the table, as the batch file and the
line are released with each job. -/
theorem releasedOnce_iff (g : Globals) :
    g.ReleasedOnce ↔ g.batchFd = true ∧ g.line = true ∧ ∃! i, (g.jobArr i).isSome := by
  have hbatch := count_of_shared fun i ↦ batchFd_mem_cleanupSlot (g := g) (i := i)
  have hline := count_of_shared fun i ↦ line_mem_cleanupSlot (g := g) (i := i)
  constructor
  · intro h
    obtain ⟨hopen, hone⟩ := hbatch.mp h.batchFd
    exact ⟨hopen, (hline.mp h.line).1, hone⟩
  · rintro ⟨hopen, hread, hone⟩
    refine ⟨hbatch.mpr ⟨hopen, hone⟩, hline.mpr ⟨hread, hone⟩, ?_, ?_, ?_⟩
    · intro i job hjob k hk
      exact count_of_slot (mem_cleanupSlot.mpr ⟨job, hjob, .inl ⟨k, hk, rfl⟩⟩) rfl
    · intro i hi
      obtain ⟨job, hjob⟩ := Option.isSome_iff_exists.mp hi
      exact count_of_slot (mem_cleanupSlot.mpr ⟨job, hjob, .inr (.inl rfl)⟩) rfl
    · intro i hi
      obtain ⟨job, hjob⟩ := Option.isSome_iff_exists.mp hi
      exact count_of_slot (mem_cleanupSlot.mpr ⟨job, hjob, .inr (.inr (.inl rfl))⟩) rfl

/-- The globals at the end of a batch file of two lines `sleep 9 &`. -/
def twoJobs : Globals where
  jobArr i := if i.val < 2 then some ⟨i.val, [['s', 'l', 'e', 'e', 'p'], ['9']], i.val + 1⟩ else none
  batchFd := true
  line := true

/-- The batch file is closed twice. -/
theorem twoJobs_not_releasedOnce : ¬twoJobs.ReleasedOnce := fun h ↦
  absurd h.batchFd (by decide)

end Globals

end CS537.Shell
