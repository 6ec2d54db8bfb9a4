import CS537.BufferCache.Blocks
import CS537.Log.Crash

/-!
# The buffers of the log are those of `bio.c`

A process changes the data of a buffer that it has locked, and marks it for the log or writes it
afterwards; the log's model of the cache takes the new content where it is marked or written.  Otherwise
the buffers of `bio.c` contain what the log's buffers do.  A run of the log with the accesses that
`bio.c` has made ends with the same disk, and what it reads from a buffer is what a process finds there.
-/

namespace CS537.BufferCache

open Foundation
open Log (Block Buffers BufferAccess bufferMachine LogArea LogLabel LogState EmptyLog mkfsLog zeroDisk)

variable {ι : Type*}

/-! ## Changes that the log does not see yet -/

/-- The block that a process has changed, or writes. -/
def Session.changing : Session → Option ℕ
  | .holding b true => some b
  | .writing b => some b
  | .idle | .waiting _ | .holding _ false => none

def BlockCache.Changing (a : BlockCache ι) (b : ℕ) : Prop := ∃ o, (a.sessions o).changing = some b

/-- The blocks of the cache are the log's buffers, up to these changes. -/
structure Shows (a : BlockCache ι) (u : Buffers) : Prop where
  disk : u.disk = a.disk
  buf : ∀ b, ¬a.Changing b → u.buf b = a.buf b
  cached : ∀ b, a.Changing b → a.buf b ≠ none

theorem Session.changing_of_holding {b c : ℕ} {changed : Bool} :
    (Session.holding b changed).changing = some c → c = b := by
  intro h
  cases changed with
  | true => exact (Option.some.inj h).symm
  | false => cases h

theorem Session.locked_of_changing {session : Session} {b : ℕ} (h : session.changing = some b) :
    session.locked = some b := by
  cases session with
  | holding c changed =>
    cases changed with
    | true => exact h
    | false => cases h
  | writing => exact h
  | idle | waiting => cases h

theorem not_changing_start (disk : ℕ → Block) (b : ℕ) : ¬(BlockCache.start disk : BlockCache ι).Changing b := by
  rintro ⟨o, ho⟩
  cases ho

/-- Two caches get the same entry for a block. -/
theorem update_same {f g : ℕ → Option Log.Buf} {b c : ℕ} (y : Option Log.Buf) (h : c ≠ b → f c = g c) :
    Function.update f b y c = Function.update g b y c := by
  by_cases hcb : c = b
  · rw [hcb, Function.update_self, Function.update_self]
  · rw [Function.update_of_ne hcb, Function.update_of_ne hcb, h hcb]

theorem update_ne_none {f : ℕ → Option Log.Buf} {b c : ℕ} {x : Log.Buf} (h : c ≠ b → f c ≠ none) :
    Function.update f b (some x) c ≠ none := by
  by_cases hcb : c = b
  · rw [hcb, Function.update_self]
    exact Option.some_ne_none x
  · rw [Function.update_of_ne hcb]
    exact h hcb

section Steps

variable [DecidableEq ι] {a a' : BlockCache ι} {u : Buffers} {o : ι} {session : Session} {b c : ℕ} {x : Log.Buf}
  {d : ℕ → Block}

/-- A process with one block changes nothing about the others. -/
theorem changing_setSession (hold : ∀ c, (a.sessions o).changing = some c → c = b)
    (hnew : ∀ c, session.changing = some c → c = b) (hc : c ≠ b) :
    (a.setSession o session).Changing c ↔ a.Changing c := by
  constructor
  · rintro ⟨p, hp⟩
    by_cases hpo : p = o
    · subst hpo
      simp only [BlockCache.setSession, Function.update_self] at hp
      exact absurd (hnew c hp) hc
    · exact ⟨p, by simpa only [BlockCache.setSession, Function.update_of_ne hpo] using hp⟩
  · rintro ⟨p, hp⟩
    have hpo : p ≠ o := by
      rintro rfl
      exact hc (hold c hp)
    exact ⟨p, by simpa only [BlockCache.setSession, Function.update_of_ne hpo] using hp⟩

namespace Shows

variable (h : Shows a u)
include h

/-- A process goes on without a change. -/
theorem setSession (hsame : session.changing = (a.sessions o).changing) : Shows (a.setSession o session) u := by
  have hchanging (b : ℕ) : (a.setSession o session).Changing b ↔ a.Changing b := by
    refine exists_congr fun p ↦ ?_
    by_cases hp : p = o
    · simp only [hp, BlockCache.setSession, Function.update_self, hsame]
    · simp only [BlockCache.setSession, Function.update_of_ne hp]
  exact ⟨h.disk, fun b hb ↦ h.buf b (mt (hchanging b).mpr hb), fun b hb ↦ h.cached b ((hchanging b).mp hb)⟩

/-- A process changes its block. -/
theorem alter (hold : ∀ c, (a.sessions o).changing = some c → c = b) (hnew : session.changing = some b) :
    Shows ((a.setBlock b x).setSession o session) u := by
  have hnew' (c : ℕ) (hc : session.changing = some c) : c = b := Option.some.inj (hc.symm.trans hnew)
  have hself : ((a.setBlock b x).setSession o session).Changing b :=
    ⟨o, by simp only [BlockCache.setSession, Function.update_self, hnew]⟩
  refine ⟨h.disk, fun c hc ↦ ?_, fun c hc ↦ update_ne_none fun hcb ↦ ?_⟩
  · have hcb : c ≠ b := fun heq ↦ hc (heq ▸ hself)
    rw [h.buf c fun hno ↦ hc ((changing_setSession (a := a.setBlock b x) hold hnew' hcb).mpr hno)]
    exact (Function.update_of_ne hcb _ _).symm
  · exact h.cached c ((changing_setSession (a := a.setBlock b x) hold hnew' hcb).mp hc)

/-- The log sees a change. -/
theorem settle (x : Log.Buf) (session : Session) (hold : ∀ c, (a.sessions o).changing = some c → c = b)
    (hnew : session.changing = none) (disk : ℕ → Block) : Shows { (a.setBlock b x).setSession o session with disk } { u.set b x with disk } := by
  have hnew' (c : ℕ) (hc : session.changing = some c) : c = b := by
    rw [hnew] at hc
    cases hc
  refine ⟨rfl, fun c hc ↦ update_same _ fun hcb ↦ ?_, fun c hc ↦ update_ne_none fun hcb ↦ ?_⟩
  · exact h.buf c fun hno ↦ hc ((changing_setSession (a := a.setBlock b x) hold hnew' hcb).mpr hno)
  · exact h.cached c ((changing_setSession (a := a.setBlock b x) hold hnew' hcb).mp hc)

theorem event {e : BlockEvent ι} (hs : a.event e = some a') :
    ∃ u', (bufferMachine d).run u (a.accesses (.event e)) = some u' ∧ Shows a' u' := by
  cases e with
  | request o b =>
    simp only [BlockCache.event] at hs
    split at hs
    next hsession =>
      obtain rfl := Option.some.inj hs
      exact ⟨u, rfl, h.setSession (by rw [hsession]; rfl)⟩
    next => cases hs
  | change o data =>
    simp only [BlockCache.event] at hs
    split at hs
    next b changed hsession =>
      obtain ⟨x, -, rfl⟩ := Option.map_eq_some_iff.mp hs
      exact ⟨u, rfl, h.alter (fun c hc ↦ Session.changing_of_holding (hsession ▸ hc)) rfl⟩
    next => cases hs
  | logWrite o =>
    simp only [BlockCache.event] at hs
    split at hs
    next b changed hsession =>
      obtain ⟨x, hx, rfl⟩ := Option.map_eq_some_iff.mp hs
      simp only [BlockCache.accesses, hsession, hx]
      have hsettled := h.settle ⟨x.data, true⟩ (.holding b false)
        (fun c hc ↦ Session.changing_of_holding (hsession ▸ hc)) rfl a.disk
      exact ⟨_, rfl, h.disk, hsettled.buf, hsettled.cached⟩
    next => cases hs
  | bwrite o =>
    simp only [BlockCache.event] at hs
    split at hs
    next b changed hsession =>
      obtain ⟨x, -, rfl⟩ := Option.map_eq_some_iff.mp hs
      exact ⟨u, rfl, h.alter (fun c hc ↦ Session.changing_of_holding (hsession ▸ hc)) rfl⟩
    next => cases hs
  | release o =>
    simp only [BlockCache.event] at hs
    split at hs
    next hsession =>
      obtain rfl := Option.some.inj hs
      exact ⟨u, rfl, h.setSession (by rw [hsession]; rfl)⟩
    next => cases hs
  | crash =>
    obtain rfl := Option.some.inj hs
    exact ⟨_, rfl, h.disk, fun _ _ ↦ rfl, fun b hb ↦ absurd hb (not_changing_start _ b)⟩

/-- A step of the cache does to the log's buffers what its accesses do. -/
theorem step {l : BlockLabel ι} (hs : a.step l = some a') :
    ∃ u', (bufferMachine d).run u (a.accesses l) = some u' ∧ Shows a' u' := by
  cases l with
  | event e => exact h.event hs
  | read b =>
    obtain ⟨hnone, ⟨⟩⟩ := Option.ite_none_right_eq_some.mp hs
    have hno : ¬a.Changing b := fun hchanging ↦ h.cached b hchanging hnone
    have hread : (bufferMachine d).step u (.read b) = some (u.set b ⟨a.disk b, false⟩) := by
      simp only [bufferMachine, Buffers.step, h.buf b hno, hnone, h.disk]
      rfl
    exact ⟨_, Machine.run_cons_of_step _ hread [], h.disk, fun c hc ↦ update_same _ fun _ ↦ h.buf c hc,
      fun c hc ↦ update_ne_none fun _ ↦ h.cached c hc⟩
  | evict b =>
    obtain ⟨⟨hfree, hclean⟩, ⟨⟩⟩ := Option.ite_none_right_eq_some.mp hs
    have hno : ¬a.Changing b := not_exists.mpr fun o ho ↦ hfree o (Session.locked_of_changing ho)
    have hevict : (bufferMachine d).step u (.evict b) =
        some { u with buf := Function.update u.buf b none } :=
      if_neg (by rw [h.buf b hno, hclean]; exact Bool.false_ne_true)
    refine ⟨_, Machine.run_cons_of_step _ hevict [], h.disk,
      fun c hc ↦ update_same _ fun _ ↦ h.buf c hc, fun c hc ↦ ?_⟩
    have hcb : c ≠ b := fun heq ↦ hno (heq ▸ hc)
    simp only [Function.update_of_ne hcb]
    exact h.cached c hc
  | lock o =>
    simp only [BlockCache.step] at hs
    split at hs
    next hsession =>
      obtain ⟨-, ⟨⟩⟩ := Option.ite_none_right_eq_some.mp hs
      exact ⟨u, rfl, h.setSession (by rw [hsession]; rfl)⟩
    next => cases hs
  | written o =>
    simp only [BlockCache.step] at hs
    split at hs
    next b hsession =>
      obtain ⟨x, hx, rfl⟩ := Option.map_eq_some_iff.mp hs
      simp only [BlockCache.accesses, hsession, hx]
      refine ⟨_, rfl, ?_⟩
      rw [← h.disk]
      have hold (c : ℕ) (hc : (a.sessions o).changing = some c) : c = b :=
        (Option.some.inj ((congrArg Session.changing hsession).symm.trans hc)).symm
      exact h.settle ⟨x.data, false⟩ (.holding b false) hold rfl _
    next => cases hs

end Shows

/-! ## Runs -/

omit [DecidableEq ι] in
theorem Shows.start (disk : ℕ → Block) : Shows (.start disk : BlockCache ι) (.start disk) :=
  ⟨rfl, fun _ _ ↦ rfl, fun b hb ↦ absurd hb (not_changing_start disk b)⟩

theorem Shows.run (h : Shows a u) {events : List (BlockEvent ι)} {accesses : List BufferAccess}
    (hrun : RunsTo d a events accesses a') :
    ∃ u', (bufferMachine d).run u accesses = some u' ∧ Shows a' u' := by
  obtain ⟨ms, hrun, -, rfl⟩ := hrun
  exact Machine.run_outputs (fun _ _ _ _ h hs ↦ h.step hs) h hrun

omit [DecidableEq ι] in
/-- A block that a process has and has not changed is not being changed. -/
theorem Matches.not_changing {s : Bcache ι} {i : Slot} (hm : Matches s a) (h : s.Inv)
    (huse : s.uses o = .holding i false) : ¬a.Changing (s.buf i).blockno := by
  rintro ⟨p, hp⟩
  obtain ⟨hlocked, -⟩ := h.of_holding huse
  have hsession := Session.locked_of_changing hp
  rw [hm.sessions] at hsession
  obtain ⟨j, hj, hblockno⟩ := Use.exists_locked hsession
  have hroot := h.dev_eq (Use.slot_of_locked hlocked)
  obtain rfl := h.identified.unique j i (h.dev_eq (Use.slot_of_locked hj)) hroot hblockno
  obtain rfl := h.locked_unique hlocked hj
  rw [hm.sessions, huse] at hp
  cases hp

/-- Where a run of the log makes the accesses that a run of `bio.c` makes, from the same disk, the two end
with the same disk, and a process finds in a buffer that it has, and has not changed, what the log has
there. -/
theorem log_runs_over_bcache {κ : Type*} [DecidableEq κ] {area : LogArea} {disk : EmptyLog area}
    {ks : List (LogLabel κ)} {s : LogState κ} {ls : List (BufferLabel ι)} {t : Bcache ι}
    (hlog : (area.machine disk).run (.boot disk.disk) ks = some s)
    (hrun : (bcacheMachine disk.disk).run (.boot disk.disk) ls = some t)
    (hsame : (area.machine disk).outputs (LogState.accesses area) (.boot disk.disk) ks =
      (bcacheMachine disk.disk).outputs Bcache.accesses (.boot disk.disk) ls) :
    s.disk = t.disk ∧ (t.panicked = none → ∀ o i, t.uses o = .holding i false →
      s.buf (t.buf i).blockno = some ⟨(t.buf i).data, (t.buf i).dirty⟩) := by
  obtain ⟨a, hblocks, hcached⟩ := bcache_run_refines_blocks hrun
  obtain ⟨u, hu, hshows⟩ := (Shows.start disk.disk).run hblocks
  have hbuffers := LogState.run_accesses hlog
  rw [hsame, hu] at hbuffers
  obtain rfl := Option.some.inj hbuffers
  refine ⟨hshows.disk.trans hcached.disk, fun hrunning o i huse ↦ ?_⟩
  have hm := hcached.running hrunning
  have hvalid := (hcached.inv.of_holding huse).2
  rw [← hm.buf_eq (hcached.inv.identified.valid i hvalid) hvalid]
  exact hshows.buf _ (hm.not_changing hcached.inv huse)

end Steps

/-- `recover_from_log` at the first start, with the header block in the cache. -/
def clearHeader : List (LogLabel ℕ) := [.read mkfsLog.start, .proceed, .proceed, .proceed]

/-- The same in `bio.c`: the header is read, changed and written. -/
def clearHeaderBlock : List (BufferLabel ℕ) :=
  [.bread 0 mkfsLog.start, .acquiresleep 0, .iderw 0, .change 0 (Log.writeHeader [] fun _ ↦ 0), .bwrite 0,
    .iderw 0]

/-- The header that the log has after its first start is in the buffer of the process. -/
theorem log_runs_over_bcache_clearHeader :
    ∃ (s : LogState ℕ) (t : Bcache ℕ),
      (mkfsLog.machine zeroDisk).run (.boot zeroDisk.disk) clearHeader = some s ∧
      (bcacheMachine zeroDisk.disk).run (.boot zeroDisk.disk) clearHeaderBlock = some t ∧
      s.disk = t.disk ∧ ∃ i, t.uses 0 = .holding i false ∧
        s.buf mkfsLog.start = some ⟨(t.buf i).data, false⟩ := by
  obtain ⟨s, hs⟩ : ∃ s : LogState ℕ,
      (mkfsLog.machine zeroDisk).run (.boot zeroDisk.disk) clearHeader = some s := ⟨_, rfl⟩
  obtain ⟨t, ht⟩ : ∃ t : Bcache ℕ,
      (bcacheMachine zeroDisk.disk).run (.boot zeroDisk.disk) clearHeaderBlock = some t := ⟨_, rfl⟩
  have hsame : (mkfsLog.machine zeroDisk).outputs (LogState.accesses mkfsLog) (.boot zeroDisk.disk) clearHeader =
      (bcacheMachine zeroDisk.disk).outputs Bcache.accesses (.boot zeroDisk.disk) clearHeaderBlock := rfl
  obtain ⟨hdisk, hbuf⟩ := log_runs_over_bcache hs ht hsame
  obtain rfl := Option.some.inj ht
  exact ⟨s, _, hs, rfl, hdisk, ⟨0, by decide⟩, rfl, hbuf rfl 0 _ rfl⟩

end CS537.BufferCache
