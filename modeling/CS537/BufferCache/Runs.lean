import CS537.BufferCache.Invariant
import CS537.Foundation.Recency
import Mathlib.Data.Finset.Option

/-!
# Runs of the buffer cache

Every step keeps what the buffer cache keeps.  The only panic is that of `bget` when all buffers are in use
or pinned by the log, and a buffer is recycled that was released before all the others that could have
been.
-/

namespace CS537.BufferCache

open Foundation
open Log (Block)

namespace Bcache

variable {ι : Type*} [DecidableEq ι] {s t : Bcache ι} {o : ι} {i : Slot} {l : BufferLabel ι}

/-! ## The invariant -/

theorem Inv.sleep (h : s.Inv) (huse : s.uses o = .acquiring i false) (hheld : (s.buf i).lock ≠ none) :
    (s.setUse o (.acquiring i true)).Inv := by
  have hslot : (Use.acquiring i true).slot = (s.uses o).slot := by rw [huse]; rfl
  have hself : s.setBuf i (s.buf i) = s := by rw [setBuf, Function.update_eq_self]
  have hbufs : Function.update s.buf i (s.buf i) = s.buf := Function.update_eq_self i s.buf
  have hmove := h.unlocked_move (o := o) (i := i) (u := .acquiring i true) (b := s.buf i)
    (by rw [huse]; rfl) rfl rfl (fun j hj ↦ ?_) (.inl ⟨rfl, rfl⟩) (by rw [hbufs]; exact h.identified)
    fun j ↦ ?_
  · rwa [hself] at hmove
  · cases hj
    exact hheld
  · rw [hbufs, hslot, Function.update_eq_self o fun p ↦ (s.uses p).slot]
    exact h.counted j

omit [DecidableEq ι] in
/-- What `wakeup` makes of a use. -/
theorem wakeup_cases (s : Bcache ι) (i : Slot) (p : ι) : (s.wakeup i).uses p = s.uses p ∨
    s.uses p = .acquiring i true ∧ (s.wakeup i).uses p = .acquiring i false := by
  by_cases hp : s.uses p = .acquiring i true
  · exact .inr ⟨hp, if_pos hp⟩
  · exact .inl (if_neg hp)

omit [DecidableEq ι] in
theorem Inv.wakeup (h : s.Inv) (i : Slot) : (s.wakeup i).Inv := by
  have hslots (p : ι) : ((s.wakeup i).uses p).slot = (s.uses p).slot := by
    rcases s.wakeup_cases i p with hsame | ⟨hasleep, hawake⟩
    · rw [hsame]
    · rw [hasleep, hawake]
      rfl
  have hlocks (p : ι) : ((s.wakeup i).uses p).locked = (s.uses p).locked := by
    rcases s.wakeup_cases i p with hsame | ⟨hasleep, hawake⟩
    · rw [hsame]
    · rw [hasleep, hawake]
      rfl
  refine ⟨h.ordered, fun j ↦ ?_, fun p j ↦ ?_, fun p j hp ↦ ?_, h.identified, fun p ↦ ?_⟩
  · exact (h.counted j).congr fun p ↦ by rw [hslots]
  · rw [hlocks]
    exact h.locked p j
  · rcases s.wakeup_cases i p with hsame | ⟨-, hawake⟩
    · exact h.asleep p j (hsame.symm.trans hp)
    · rw [hawake] at hp
      cases hp
  · rcases s.wakeup_cases i p with hsame | ⟨-, hawake⟩
    · rw [hsame]
      exact h.relies p
    · rw [hawake]
      trivial

omit [DecidableEq ι] in
/-- Nobody sleeps on a buffer after `wakeup`. -/
theorem wakeup_ne (s : Bcache ι) (i : Slot) (p : ι) : (s.wakeup i).uses p ≠ .acquiring i true := by
  rcases s.wakeup_cases i p with hsame | ⟨-, hawake⟩
  · intro hp
    have hasleep := hsame.symm.trans hp
    rw [show (s.wakeup i).uses p = .acquiring i false from if_pos hasleep] at hp
    cases hp
  · rw [hawake]
    exact fun heq ↦ by cases heq

theorem Inv.brelse (h : s.Inv) (huse : s.uses o = .holding i false) (hlock : (s.buf i).lock = some o) :
    (((s.setBuf i { s.buf i with lock := none }).wakeup i).setUse o (.releasing i)).Inv := by
  have hw := h.wakeup i
  have huse' : (s.wakeup i).uses o = .holding i false := by
    rw [← huse]
    exact if_neg (by rw [huse]; exact fun heq ↦ by cases heq)
  have hslot : ((s.wakeup i).uses o).slot = some i := by
    rw [huse']
    rfl
  have hlocked : ((s.wakeup i).uses o).locked = some i := by
    rw [huse']
    rfl
  have hrefcnts := update_keeps (g := s.buf) (i := i) (b := { s.buf i with lock := none }) Buf.refcnt rfl
  constructor
  · exact h.ordered
  · intro j
    change HeldBy _ j (Function.update s.buf i { s.buf i with lock := none } j).refcnt
    rw [hrefcnts, slot_setUse_same (s := (s.setBuf i _).wakeup i) (u := .releasing i) hslot.symm]
    exact hw.counted j
  · intro p j
    change (Function.update s.buf i { s.buf i with lock := none } j).lock = some p ↔
      (Function.update (s.wakeup i).uses o (.releasing i) p).locked = some j
    by_cases hp : p = o
    · rw [hp, Function.update_self]
      refine iff_of_false (fun heq ↦ ?_) fun heq ↦ by cases heq
      by_cases hj : j = i
      · rw [hj, Function.update_self] at heq
        cases heq
      · rw [Function.update_of_ne hj] at heq
        exact hj (Option.some.inj (((hw.locked o j).mp heq).symm.trans hlocked))
    · rw [Function.update_of_ne hp, ← hw.locked]
      change _ ↔ (s.buf j).lock = some p
      by_cases hj : j = i
      · rw [hj, Function.update_self, hlock]
        exact iff_of_false (fun heq ↦ by cases heq) fun heq ↦ hp (Option.some.inj heq).symm
      · rw [Function.update_of_ne hj]
  · intro p j hp
    change (Function.update s.buf i { s.buf i with lock := none } j).lock ≠ none
    change Function.update (s.wakeup i).uses o (.releasing i) p = .acquiring j true at hp
    by_cases hpo : p = o
    · rw [hpo, Function.update_self] at hp
      cases hp
    · rw [Function.update_of_ne hpo] at hp
      have hj : j ≠ i := by
        rintro rfl
        exact s.wakeup_ne j p hp
      rw [Function.update_of_ne hj]
      exact hw.asleep p j hp
  · exact h.identified.update rfl rfl (h.identified.used i) (h.identified.valid i) (h.identified.dirty i)
  · intro p
    change (Function.update (s.wakeup i).uses o (.releasing i) p).Relies
      (Function.update s.buf i { s.buf i with lock := none })
    by_cases hp : p = o
    · rw [hp, Function.update_self]
      trivial
    · rw [Function.update_of_ne hp]
      exact (hw.relies p).congr fun j _ ↦ ⟨update_keeps Buf.valid (by rfl) j, update_keeps Buf.dirty (by rfl) j⟩

theorem Inv.release (h : s.Inv) (huse : s.uses o = .releasing i) :
    ((s.setBuf i { s.buf i with refcnt := (s.buf i).refcnt - 1 }).setUse o .idle).Inv := by
  have hslot : (s.uses o).slot = some i := by
    rw [huse]
    rfl
  refine h.unlocked_move (by rw [huse]; rfl) rfl rfl (fun j hj ↦ by cases hj) (.inl ⟨rfl, rfl⟩) ?_ fun j ↦ ?_
  · exact h.identified.update rfl rfl (fun _ ↦ h.dev_eq hslot) (h.identified.valid i) (h.identified.dirty i)
  · by_cases hj : j = i
    · subst hj
      rw [Function.update_self]
      exact (h.counted j).drop hslot fun heq ↦ by cases heq
    · rw [Function.update_of_ne hj]
      refine (h.counted j).other (fun heq ↦ ?_) fun heq ↦ by cases heq
      exact hj (Option.some.inj (heq.symm.trans hslot))

/-- A buffer comes to the front of the ring. -/
theorem InOrder.moveFront {links : Links Slot} {order : List Slot} (h : InOrder links order) (i : Slot) :
    InOrder ((links.unlink i).pushFront i) (i :: order.erase i) := by
  refine ⟨h.1.moveFront (h.2 i), fun j ↦ ?_⟩
  by_cases hj : j = i
  · rw [hj]
    exact List.mem_cons_self
  · exact List.mem_cons_of_mem i ((List.mem_erase_of_ne hj).mpr (h.2 j))

/-- `iderw` is called for a locked buffer that is not up to date. -/
theorem Inv.iderwOn_eq (h : s.Inv) (huse : s.uses o = .reading i ∨ s.uses o = .writing i) :
    s.iderwOn o i = (s.transfer i).setUse o (.holding i false) := by
  have hrelies := h.relies o
  have hlock : (s.buf i).lock = some o := by
    rw [h.locked]
    rcases huse with huse | huse <;> rw [huse] <;> rfl
  have hneeded : ¬((s.buf i).valid = true ∧ (s.buf i).dirty = false) := by
    rintro ⟨hvalid, hclean⟩
    rcases huse with huse | huse
    · rw [huse] at hrelies
      rw [hrelies.1] at hvalid
      cases hvalid
    · rw [huse] at hrelies
      rw [hrelies.2] at hclean
      cases hclean
  rw [iderwOn, if_neg (not_not.mpr hlock), if_neg hneeded]

theorem Inv.transfer (h : s.Inv) (huse : s.uses o = .reading i ∨ s.uses o = .writing i) :
    ((s.transfer i).setUse o (.holding i false)).Inv := by
  have hlocked : (s.uses o).locked = some i := by
    rcases huse with huse | huse <;> rw [huse] <;> rfl
  rw [Bcache.transfer]
  split
  · have hmove := h.move (b := { s.buf i with valid := true, dirty := false }) (u := .holding i false) hlocked rfl
      rfl rfl rfl rfl (fun hdirty ↦ by cases hdirty) (by simp [Use.Relies])
    exact hmove.with_disk _
  · exact h.move hlocked rfl rfl rfl rfl rfl (fun hdirty ↦ by cases hdirty) (by simp [Use.Relies])

omit [DecidableEq ι] in
/-- A process behind `bread` has locked its buffer, which is valid. -/
theorem Inv.of_holding (h : s.Inv) {changed : Bool} (huse : s.uses o = .holding i changed) :
    (s.uses o).locked = some i ∧ (s.buf i).valid = true := by
  have hrelies := h.relies o
  rw [huse] at hrelies ⊢
  exact ⟨rfl, hrelies⟩

theorem inOrder_binit : InOrder binit (List.finRange NBUF).reverse := by
  have hempty : Ring (⟨fun _ ↦ none, fun _ ↦ none⟩ : Links Slot) [] := ⟨rfl, rfl⟩
  have hnodup : ((List.finRange NBUF).reverse ++ []).Nodup := by
    rw [List.append_nil, List.nodup_reverse]
    exact List.nodup_finRange NBUF
  have hring := hempty.pushAll hnodup
  rw [List.append_nil] at hring
  exact ⟨hring, fun i ↦ List.mem_reverse.mpr (List.mem_finRange i)⟩

omit [DecidableEq ι] in
theorem Inv.boot (disk : ℕ → Block) : (boot disk : Bcache ι).Inv where
  ordered := ⟨_, inOrder_binit⟩
  counted i := HeldBy.zero fun _ heq ↦ by cases heq
  locked o i := iff_of_false (fun heq ↦ by cases heq) fun heq ↦ by cases heq
  asleep o i heq := by cases heq
  identified := by
    constructor
    · intro i j hi
      cases hi
    all_goals
      intro i hi
      first | exact absurd rfl hi | cases hi
  relies _ := trivial

theorem Inv.step (h : s.Inv) (hs : s.step l = some t) : t.Inv := by
  cases step_cases hs with
  | hit huse hfound => exact h.hit huse (h.of_lookup hfound).1
  | recycle huse hmiss hvictim => exact h.recycle huse hmiss hvictim
  | noBuffers => exact h.panic _
  | lock huse hfree => exact h.lock huse hfree
  | sleep huse hheld => exact h.sleep huse hheld
  | iderw huse =>
    rw [h.iderwOn_eq huse]
    exact h.transfer huse
  | change huse =>
    obtain ⟨hlocked, hvalid⟩ := h.of_holding huse
    exact h.move hlocked rfl rfl rfl rfl rfl (h.identified.dirty _) (by simpa [Use.Relies] using hvalid)
  | logWrite huse =>
    obtain ⟨hlocked, hvalid⟩ := h.of_holding huse
    exact h.move hlocked rfl rfl rfl rfl rfl (fun _ ↦ hvalid) (by simpa [Use.Relies] using hvalid)
  | bwrite huse =>
    obtain ⟨hlocked, hvalid⟩ := h.of_holding huse
    exact h.move hlocked rfl rfl rfl rfl rfl (fun _ ↦ hvalid) (by simpa [Use.Relies] using hvalid)
  | bwriteUnlocked => exact h.panic _
  | brelse huse hlock => exact h.brelse huse hlock
  | brelseUnlocked => exact h.panic _
  | releaseLast huse =>
    obtain ⟨order, horder⟩ := h.ordered
    exact (h.release huse).with_links ⟨_, horder.moveFront _⟩
  | releaseOther huse => exact h.release huse
  | crash => exact .boot _

/-! ## Panics -/

/-- The only panic. -/
theorem Inv.panics (h : s.Inv) (hrunning : s.panicked = none) (hs : s.step l = some t)
    (hpanicked : t.panicked ≠ none) : ∃ o b, s.uses o = .idle ∧ l = .bread o b ∧
      s.lookup ROOTDEV b = none ∧ s.victim = none ∧ t = s.panic "bget: no buffers" := by
  cases step_cases hs with
  | noBuffers huse hmiss hnone => exact ⟨_, _, huse, rfl, hmiss, hnone, rfl⟩
  | iderw huse =>
    rw [h.iderwOn_eq huse, Bcache.transfer] at hpanicked
    split at hpanicked <;> exact absurd hrunning hpanicked
  | bwriteUnlocked huse hlock => exact absurd ((h.locked _ _).mpr (h.of_holding huse).1) hlock
  | brelseUnlocked huse hlock => exact absurd ((h.locked _ _).mpr (h.of_holding huse).1) hlock
  | crash => exact absurd rfl hpanicked
  | _ => exact absurd hrunning hpanicked

omit [DecidableEq ι] in
/-- A buffer that nobody uses. -/
theorem Inv.refcnt_eq_zero_iff (h : s.Inv) : (s.buf i).refcnt = 0 ↔ ∀ p, (s.uses p).slot ≠ some i :=
  (h.counted i).eq_zero_iff

/-- The buffers in the order in which they have become unused, the last one first. -/
def released (s : Bcache ι) (history : List Slot) : BufferLabel ι → List Slot
  | .release o =>
    match s.uses o with
    | .releasing i => if (s.buf i).refcnt - 1 = 0 then i :: history else history
    | _ => history
  | .crash => (List.finRange NBUF).reverse
  | _ => history

/-- The buffer cache with a history.  `binit` has linked the buffers one after another. -/
def historyMachine (disk : ℕ → Block) : Machine (Bcache ι × List Slot) (BufferLabel ι) where
  init s := s = (.boot disk, (List.finRange NBUF).reverse)
  step s l := (s.1.step l).map fun t ↦ (t, s.1.released s.2 l)

structure Recent (s : Bcache ι × List Slot) : Prop where
  inv : s.1.Inv
  ordered : ∃ order, InOrder s.1.links order ∧ ByRecency s.2 order

omit [DecidableEq ι] in
theorem Recent.boot (disk : ℕ → Block) :
    Recent ((.boot disk : Bcache ι), (List.finRange NBUF).reverse) where
  inv := .boot disk
  ordered := ⟨_, inOrder_binit, byRecency_self inOrder_binit.1.nodup⟩

theorem Recent.step {disk : ℕ → Block} {s t : Bcache ι × List Slot} (h : Recent s)
    (hs : (historyMachine disk).step s l = some t) : Recent t := by
  obtain ⟨u, hu, rfl⟩ := Option.map_eq_some_iff.mp hs
  refine ⟨h.inv.step hu, ?_⟩
  obtain ⟨order, horder, hrecent⟩ := h.ordered
  cases step_cases hu with
  | @releaseLast o i huse hlast =>
    refine ⟨i :: order.erase i, horder.moveFront i, ?_⟩
    simp only [released, huse, if_pos hlast]
    exact hrecent.moveFront horder.1.nodup i
  | @releaseOther o i huse hother =>
    refine ⟨order, horder, ?_⟩
    simp only [released, huse, if_neg hother]
    exact hrecent
  | iderw huse =>
    rw [h.inv.iderwOn_eq huse, Bcache.transfer]
    split <;> exact ⟨order, horder, hrecent⟩
  | crash => exact ⟨_, inOrder_binit, byRecency_self inOrder_binit.1.nodup⟩
  | _ => exact ⟨order, horder, hrecent⟩

theorem recent_of_reachable {disk : ℕ → Block} {s : Bcache ι × List Slot}
    (hs : (historyMachine disk).Reachable s) : Recent s := by
  refine hs.invariant (fun s hi ↦ ?_) fun s l t _ h _ ht ↦ h.step ht
  rw [show s = _ from hi]
  exact .boot disk

/-- A process that asks for a block which is not cached gets, unless the kernel panics, the buffer that
became unused before all the others that nobody uses and the log does not pin. -/
theorem recycles_least_recent {disk : ℕ → Block} {history : List Slot} {b : ℕ}
    (hs : (historyMachine disk).Reachable (s, history))
    (hmiss : ∀ j, ¬((s.buf j).dev = ROOTDEV ∧ (s.buf j).blockno = b)) (hstep : s.step (.bread o b) = some t)
    (hgot : t.uses o = .acquiring i false) :
    (s.buf i).refcnt = 0 ∧ (s.buf i).dirty = false ∧ (t.buf i).blockno = b ∧
      ∀ j, j ≠ i → (s.buf j).refcnt = 0 → (s.buf j).dirty = false → history.idxOf j < history.idxOf i := by
  have h := recent_of_reachable hs
  obtain ⟨order, horder, hrecent⟩ := h.ordered
  cases step_cases hstep with
  | hit _ hfound => exact absurd (h.inv.of_lookup hfound) (hmiss _)
  | noBuffers huse =>
    have hidle : s.uses o = .acquiring i false := hgot
    rw [huse] at hidle
    cases hidle
  | @recycle _ _ k _ _ hvictim =>
    have hk : k = i := by
      have huse : Function.update s.uses o (.acquiring k false) o = .acquiring i false := hgot
      rw [Function.update_self] at huse
      exact (Use.acquiring.inj huse).1
    subst hk
    obtain ⟨hunused, hclean⟩ := h.inv.of_victim hvictim
    refine ⟨hunused, hclean, ?_, fun j hj hju hjc ↦ ?_⟩
    · change (Function.update s.buf k _ k).blockno = b
      rw [Function.update_self]
    · rw [horder.victim_eq] at hvictim
      exact hrecent.of_find?_reverse hvictim (horder.2 j) (decide_eq_true ⟨hju, hjc⟩) hj

/-- A process reads block 7 and releases its buffer. -/
def readBlock : List (BufferLabel ℕ) := [.bread 0 7, .acquiresleep 0, .iderw 0, .brelse 0, .release 0]

/-- Block 8 is not read into the same buffer, but into the next one of `binit`. -/
theorem recycles_least_recent_readBlock : ∃ (s : Bcache ℕ) (history : List Slot) (t : Bcache ℕ),
    (historyMachine fun _ _ ↦ 0).run (.boot fun _ _ ↦ 0, (List.finRange NBUF).reverse) readBlock =
        some (s, history) ∧
      s.step (.bread 0 8) = some t ∧ t.uses 0 = .acquiring ⟨1, by decide⟩ false ∧
      ∀ j, j ≠ ⟨1, by decide⟩ → (s.buf j).refcnt = 0 → (s.buf j).dirty = false →
        history.idxOf j < history.idxOf ⟨1, by decide⟩ := by
  obtain ⟨s, history, t, hs, hmiss, ht, hgot⟩ : ∃ (s : Bcache ℕ) (history : List Slot) (t : Bcache ℕ),
      (historyMachine fun _ _ ↦ 0).run (.boot fun _ _ ↦ 0, (List.finRange NBUF).reverse) readBlock =
          some (s, history) ∧
        s.lookup ROOTDEV 8 = none ∧ s.step (.bread 0 8) = some t ∧
        t.uses 0 = .acquiring ⟨1, by decide⟩ false :=
    ⟨_, _, _, rfl, by decide +kernel, rfl, by decide +kernel⟩
  have hreached := Machine.Reachable.run (.init rfl) hs
  have hmiss := (recent_of_reachable hreached).inv.lookup_eq_none.mp hmiss
  exact ⟨s, history, t, hs, ht, hgot, (recycles_least_recent hreached hmiss ht hgot).2.2.2⟩

end Bcache

end CS537.BufferCache
