import CS537.Log.Disk
import Mathlib.Algebra.BigOperators.Group.Finset.Basic
import Mathlib.Algebra.Order.BigOperators.Group.Finset

/-!
# The invariant of the log

What holds in every state of a run in which each file system call writes fewer than `MAXOPBLOCKS`
blocks, all of them outside of the log: of the buffers, of the blocks listed in memory, of the
space that the calls in progress may still need, and of the disk.
-/

open scoped BigOperators

namespace CS537.Log

open Foundation

variable {ι : Type*}

/-! ## The parts of the invariant -/

/-- The writes as pairs of block numbers and contents. -/
def contents (ws : List (LogWrite ι)) : List (ℕ × Block) := ws.map fun w ↦ (w.block, w.data)

theorem contents_append (ws vs : List (LogWrite ι)) :
    contents (ws ++ vs) = contents ws ++ contents vs :=
  List.map_append

theorem replay_contents_concat (ws : List (LogWrite ι)) (w : LogWrite ι) (base : ℕ → Block) :
    replay (contents (ws ++ [w])) base =
      Function.update (replay (contents ws) base) w.block w.data := by
  rw [contents_append]
  exact replay_concat _ _ _ _

/-- Buffers that are not dirty have the content of the disk, and only those of `pinned` are dirty. -/
structure Cached (disk : ℕ → Block) (buf : ℕ → Option Buf) (pinned : List ℕ) : Prop where
  clean : ∀ b x, buf b = some x → x.dirty = false → x.data = disk b
  dirty : ∀ b x, buf b = some x → x.dirty = true → b ∈ pinned

/-- The blocks listed in `log.lh`. -/
structure Listed (area : LogArea) (k : ℕ) (lh : List ℕ) : Prop where
  home : ∀ b ∈ lh, area.Home b
  nodup : lh.Nodup
  length_le : lh.length ≤ MAXOPBLOCKS + 2 * k

/-- A crash leaves what is listed in the header, and recovery makes of it the effect of the writes
that have been committed. -/
structure Recoverable (area : LogArea) (k : ℕ) (base disk : ℕ → Block)
    (durable : List (LogWrite ι)) : Prop where
  listed : Listed area k (readHeader (disk area.start))
  content : ∀ b, area.Home b → recovered area disk b = replay (contents durable) base b

section Writes

variable [DecidableEq ι]

/-- The blocks that a call has written. -/
def writtenBy (recent : List (LogWrite ι)) (o : ι) : Finset ℕ :=
  ((recent.filter fun w ↦ w.op = o).map LogWrite.block).toFinset

/-- The calls between `begin_op` and `end_op`, with the space reserved for what they may still
write. -/
structure Reserved (k : ℕ) (lh : List ℕ) (ops : ι → OpState) (recent : List (LogWrite ι))
    (openOps : Finset ι) : Prop where
  mem_iff : ∀ o, o ∈ openOps ↔ (ops o).Open
  room : lh.length + ∑ o ∈ openOps, (k - (writtenBy recent o).card) ≤ MAXOPBLOCKS + 2 * k
  idle : openOps = ∅ → lh = []

/-- The calls and what is recorded of them. -/
structure Recorded (area : LogArea) (k : ℕ) (ops : ι → OpState)
    (durable recent : List (LogWrite ι)) : Prop where
  logging : ∀ o b data, ops o = .logging b data →
    area.Home b ∧ (insert b (writtenBy recent o)).card ≤ k
  ended : ∀ w ∈ durable, ops w.op = .ended
  begun : ∀ w ∈ recent, ops w.op = .ended ∨ (ops w.op).Open
  apart : ∀ w ∈ durable, ∀ w' ∈ recent, w.op ≠ w'.op

end Writes

/-- The buffers of which the disk does not have the content yet. -/
def LogState.pinned (s : LogState ι) : List ℕ :=
  match s.activity with
  | .installTrans tail => s.lh.drop tail
  | _ => s.lh

/-- No transaction is in the header on the disk. -/
def Erased (area : LogArea) (disk : ℕ → Block) : Prop := readHeader (disk area.start) = []

/-- How far the process in `commit` or in `recover_from_log` is. -/
def LogState.Phase (area : LogArea) (s : LogState ι) : Prop :=
  match s.activity with
  | .none => Erased area s.disk ∧ s.committing = false ∧ ∀ b, b ∈ s.lh ↔ b ∈ s.recent.map LogWrite.block
  | .readHead => s.lh = [] ∧ s.recent = [] ∧ s.committing = false
  | .writeLog tail => Erased area s.disk ∧ s.committing = true ∧
      ∀ i < tail, ∀ b, s.lh[i]? = some b → s.disk (area.start + i + 1) = s.bread b
  | .writeHead => Erased area s.disk ∧ s.committing = true ∧
      ∀ i b, s.lh[i]? = some b → s.disk (area.start + i + 1) = s.bread b
  | .installTrans tail => readHeader (s.disk area.start) = s.lh ∧ s.recent = [] ∧
      ∀ i < tail, ∀ b, s.lh[i]? = some b → s.disk b = s.disk (area.start + i + 1)
  | .clearHead => s.lh = [] ∧ s.recent = [] ∧ ∀ w ∈ logged area s.disk, s.disk w.1 = w.2
  | .leave => Erased area s.disk ∧ s.committing = true ∧ s.lh = [] ∧ s.recent = []

/-- The kernel is not in `recover_from_log`. -/
def LogState.Up (s : LogState ι) : Prop := s.activity = .none ∨ s.committing = true

structure LogInv [DecidableEq ι] (area : LogArea) (k : ℕ) (base : ℕ → Block) (s : LogState ι) :
    Prop where
  cached : Cached s.disk s.buf s.pinned
  listed : Listed area k s.lh
  recorded : Recorded area k s.ops s.durable s.recent
  recoverable : Recoverable area k base s.disk s.durable
  phase : s.Phase area
  view : s.Up → ∀ b, area.Home b → s.bread b = replay (contents (s.durable ++ s.recent)) base b
  reserved : s.activity = .none →
    ∃ openOps, Reserved k s.lh s.ops s.recent openOps ∧ s.outstanding = openOps.card
  busy : s.activity ≠ .none → s.outstanding = 0 ∧ ∀ o, ¬(s.ops o).Open

/-! ## Buffers -/

namespace Cached

variable {disk : ℕ → Block} {buf : ℕ → Option Buf} {pinned pinned' : List ℕ} {b : ℕ} {data : Block}

theorem mono (h : Cached disk buf pinned) (hsub : ∀ b ∈ pinned, b ∈ pinned') :
    Cached disk buf pinned' where
  clean := h.clean
  dirty b x hb hx := hsub b (h.dirty b x hb hx)

theorem bread_eq {s : LogState ι} (h : Cached s.disk s.buf pinned) (hb : b ∉ pinned) :
    s.bread b = s.disk b := by
  cases hbuf : s.buf b with
  | none => rw [LogState.bread, hbuf, Option.elim_none]
  | some x =>
    rw [LogState.bread, hbuf, Option.elim_some]
    cases hdirty : x.dirty with
    | false => exact h.clean b x hbuf hdirty
    | true => exact absurd (h.dirty b x hbuf hdirty) hb

/-- `bwrite` leaves the buffer clean. -/
theorem bwrite (h : Cached disk buf pinned) (hsub : ∀ c ∈ pinned, c ≠ b → c ∈ pinned') :
    Cached (Function.update disk b data) (Function.update buf b (some ⟨data, false⟩)) pinned' where
  clean c x hc hx := by
    by_cases hcb : c = b
    · rw [hcb, Function.update_self, Option.some.injEq] at hc
      rw [hcb, Function.update_self, ← hc]
    · rw [Function.update_of_ne hcb] at hc ⊢
      exact h.clean c x hc hx
  dirty c x hc hx := by
    by_cases hcb : c = b
    · rw [hcb, Function.update_self, Option.some.injEq] at hc
      rw [← hc] at hx
      cases hx
    · rw [Function.update_of_ne hcb] at hc
      exact hsub c (h.dirty c x hc hx) hcb

/-- `log_write` marks a buffer dirty. -/
theorem mark (h : Cached disk buf pinned) (hsub : ∀ c ∈ pinned, c ∈ pinned') (hb : b ∈ pinned') :
    Cached disk (Function.update buf b (some ⟨data, true⟩)) pinned' where
  clean c x hc hx := by
    by_cases hcb : c = b
    · rw [hcb, Function.update_self, Option.some.injEq] at hc
      rw [← hc] at hx
      cases hx
    · rw [Function.update_of_ne hcb] at hc
      exact h.clean c x hc hx
  dirty c x hc hx := by
    by_cases hcb : c = b
    · rwa [hcb]
    · rw [Function.update_of_ne hcb] at hc
      exact hsub c (h.dirty c x hc hx)

theorem read (h : Cached disk buf pinned) (b : ℕ) :
    Cached disk (Function.update buf b (some ((buf b).getD ⟨disk b, false⟩))) pinned where
  clean c x hc hx := by
    by_cases hcb : c = b
    · subst hcb
      rw [Function.update_self, Option.some.injEq] at hc
      cases hbuf : buf c with
      | none =>
        rw [hbuf] at hc
        exact hc ▸ rfl
      | some y =>
        rw [hbuf] at hc
        exact h.clean c x (hbuf.trans (congrArg some hc)) hx
    · rw [Function.update_of_ne hcb] at hc
      exact h.clean c x hc hx
  dirty c x hc hx := by
    by_cases hcb : c = b
    · subst hcb
      rw [Function.update_self, Option.some.injEq] at hc
      cases hbuf : buf c with
      | none =>
        rw [hbuf] at hc
        rw [← hc] at hx
        cases hx
      | some y =>
        rw [hbuf] at hc
        exact h.dirty c x (hbuf.trans (congrArg some hc)) hx
    · rw [Function.update_of_ne hcb] at hc
      exact h.dirty c x hc hx

theorem evict (h : Cached disk buf pinned) (b : ℕ) :
    Cached disk (Function.update buf b none) pinned where
  clean c x hc hx := by
    by_cases hcb : c = b
    · rw [hcb, Function.update_self] at hc
      cases hc
    · rw [Function.update_of_ne hcb] at hc
      exact h.clean c x hc hx
  dirty c x hc hx := by
    by_cases hcb : c = b
    · rw [hcb, Function.update_self] at hc
      cases hc
    · rw [Function.update_of_ne hcb] at hc
      exact h.dirty c x hc hx

theorem empty (disk : ℕ → Block) (pinned : List ℕ) : Cached disk (fun _ ↦ none) pinned where
  clean _ _ hb := by cases hb
  dirty _ _ hb := by cases hb

end Cached

/-! ## What the parts say together -/

namespace LogInv

variable [DecidableEq ι] {area : LogArea} {k : ℕ} {base : ℕ → Block} {s t : LogState ι} {o : ι}

/-- Halting changes nothing. -/
theorem halt (h : LogInv area k base s) (e : Halt) : LogInv area k base (s.halt e) :=
  ⟨h.cached, h.listed, h.recorded, h.recoverable, h.phase, h.view, h.reserved, h.busy⟩

theorem activity_of_open (h : LogInv area k base s) (ho : (s.ops o).Open) : s.activity = .none := by
  by_contra hactivity
  exact (h.busy hactivity).2 o ho

theorem phase_none (h : LogInv area k base s) (hactivity : s.activity = .none) :
    Erased area s.disk ∧ s.committing = false ∧
      ∀ b, b ∈ s.lh ↔ b ∈ s.recent.map LogWrite.block := by
  have hphase := h.phase
  simpa only [LogState.Phase, hactivity] using hphase

omit [DecidableEq ι] in
theorem pinned_none (hactivity : s.activity = .none) : s.pinned = s.lh := by
  rw [LogState.pinned, hactivity]

/-- The calls in progress and the space they have. -/
theorem exists_openOps (h : LogInv area k base s) (ho : (s.ops o).Open) :
    ∃ openOps, Reserved k s.lh s.ops s.recent openOps ∧ s.outstanding = openOps.card ∧ o ∈ openOps := by
  obtain ⟨openOps, hreserved, hcard⟩ := h.reserved (h.activity_of_open ho)
  exact ⟨openOps, hreserved, hcard, (hreserved.mem_iff o).mpr ho⟩

end LogInv

end CS537.Log
