import CS537.BufferCache.Runs

/-!
# What the blocks contain

A process that has come back from `bread` finds in its buffer what was last written to the block, by
whichever process, and however often the block has left the cache since.  Nobody else has the block then.
-/

namespace CS537.BufferCache

open Foundation
open Log (Block)

namespace Bcache

variable {ι : Type*} [DecidableEq ι] {s t : Bcache ι} {o : ι} {i : Slot} {l : BufferLabel ι}
  {last : ℕ → Block} {b : Buf ι} {u : Use}

/-- What the processes have last written to the blocks.  A crash leaves what is on the disk. -/
def lastWrites (s : Bcache ι) (last : ℕ → Block) : BufferLabel ι → ℕ → Block
  | .change o data =>
    match s.uses o with
    | .holding i _ => Function.update last (s.buf i).blockno data
    | _ => last
  | .crash => s.disk
  | _ => last

/-- The buffer has nothing that the disk does not have. -/
def Stored (s : Bcache ι) (i : Slot) : Prop := (s.buf i).dirty = false ∧ ∀ p, s.uses p ≠ .holding i true

/-- The buffers that have been read, and the disk where no buffer has something else, contain the last
writes. -/
structure Tells (s : Bcache ι) (last : ℕ → Block) : Prop where
  buf : ∀ i, (s.buf i).valid = true → (s.buf i).data = last (s.buf i).blockno
  disk : ∀ c, (∀ i, (s.buf i).valid = true → (s.buf i).blockno = c → s.Stored i) → s.disk c = last c

/-! ## Steps -/

omit [DecidableEq ι] in
/-- The buffers keep their blocks and what is in them, and the changed ones remain so. -/
theorem Tells.quiet (h : Tells s last) (hvalid : ∀ j, (t.buf j).valid = (s.buf j).valid)
    (hblockno : ∀ j, (t.buf j).blockno = (s.buf j).blockno) (hdirty : ∀ j, (t.buf j).dirty = (s.buf j).dirty)
    (hdata : ∀ j, (t.buf j).data = (s.buf j).data) (hdisk : t.disk = s.disk)
    (huses : ∀ p j, s.uses p = .holding j true → t.uses p = .holding j true) : Tells t last where
  buf j hj := by
    rw [hdata, hblockno]
    exact h.buf j ((hvalid j).symm.trans hj)
  disk c hc := by
    rw [hdisk]
    refine h.disk c fun j hj hjc ↦ ?_
    have hstored := hc j ((hvalid j).trans hj) ((hblockno j).trans hjc)
    exact ⟨(hdirty j).symm.trans hstored.1, fun p hp ↦ hstored.2 p (huses p j hp)⟩

/-- A use that has changed nothing goes on. -/
theorem changed_setUse (ho : ∀ j, s.uses o ≠ .holding j true) (p : ι) (j : Slot)
    (hp : s.uses p = .holding j true) : (s.setUse o u).uses p = .holding j true := by
  have hne : p ≠ o := by
    rintro rfl
    exact ho j hp
  exact (Function.update_of_ne hne u s.uses).trans hp

/-- A use goes on, and its buffer keeps what is in it. -/
theorem Tells.put (h : Tells s last) (ho : ∀ j, s.uses o ≠ .holding j true)
    (hvalid : b.valid = (s.buf i).valid) (hblockno : b.blockno = (s.buf i).blockno)
    (hdirty : b.dirty = (s.buf i).dirty) (hdata : b.data = (s.buf i).data) :
    Tells ((s.setBuf i b).setUse o u) last :=
  h.quiet (update_keeps Buf.valid hvalid) (update_keeps Buf.blockno hblockno) (update_keeps Buf.dirty hdirty)
    (update_keeps Buf.data hdata) rfl (changed_setUse (s := s) ho)

omit [DecidableEq ι] in
theorem Tells.wakeup (h : Tells s last) (i : Slot) : Tells (s.wakeup i) last :=
  h.quiet (fun _ ↦ rfl) (fun _ ↦ rfl) (fun _ ↦ rfl) (fun _ ↦ rfl) rfl fun p j hp ↦ by
    rcases s.wakeup_cases i p with hsame | ⟨hasleep, -⟩
    · exact hsame.trans hp
    · rw [hasleep] at hp
      cases hp

/-- The other buffers when a process writes its buffer. -/
theorem stored_of_setBuf (ho : ∀ j, s.uses o = .holding j true → j = i) {j : Slot} (hj : j ≠ i)
    (hstored : ((s.setBuf i b).setUse o u).Stored j) : s.Stored j := by
  refine ⟨?_, fun p hp ↦ ?_⟩
  · have hdirty : (Function.update s.buf i b j).dirty = false := hstored.1
    rwa [Function.update_of_ne hj] at hdirty
  · have hne : p ≠ o := by
      rintro rfl
      exact hj (ho j hp)
    have hkept : Function.update s.uses o u p = s.uses p := Function.update_of_ne hne u s.uses
    exact hstored.2 p (hkept.trans hp)

omit [DecidableEq ι] in
/-- A process writes its buffer, which is up to date then. -/
theorem Tells.buf_setBuf (h : Tells s last) (hi : Identified s.buf) (hroot : (s.buf i).dev = ROOTDEV)
    (hblockno : b.blockno = (s.buf i).blockno) (j : Slot) (hj : (Function.update s.buf i b j).valid = true) :
    (Function.update s.buf i b j).data =
      Function.update last (s.buf i).blockno b.data (Function.update s.buf i b j).blockno := by
  by_cases hji : j = i
  · rw [hji, Function.update_self, hblockno, Function.update_self]
  · rw [Function.update_of_ne hji] at hj ⊢
    have hne : (s.buf j).blockno ≠ (s.buf i).blockno :=
      fun heq ↦ hji (hi.unique j i (hi.valid j hj) hroot heq)
    rw [Function.update_of_ne hne]
    exact h.buf j hj

/-- The other blocks of the disk when a process writes its buffer. -/
theorem Tells.disk_setBuf (h : Tells s last) (ho : ∀ j, s.uses o = .holding j true → j = i) {c : ℕ}
    (hci : c ≠ (s.buf i).blockno) (hc : ∀ j, (Function.update s.buf i b j).valid = true →
      (Function.update s.buf i b j).blockno = c → ((s.setBuf i b).setUse o u).Stored j) :
    s.disk c = last c := by
  refine h.disk c fun j hj hjc ↦ ?_
  have hji : j ≠ i := by
    rintro rfl
    exact hci hjc.symm
  refine stored_of_setBuf ho hji (hc j ?_ ?_)
  · rwa [Function.update_of_ne hji]
  · rwa [Function.update_of_ne hji]

/-- A process writes to its block. -/
theorem Tells.write (h : Tells s last) (hi : Identified s.buf) (hroot : (s.buf i).dev = ROOTDEV)
    (ho : ∀ j, s.uses o = .holding j true → j = i) (hblockno : b.blockno = (s.buf i).blockno)
    (hvalid : b.valid = true) (hunstored : b.dirty = true ∨ u = .holding i true) :
    Tells ((s.setBuf i b).setUse o u) (Function.update last (s.buf i).blockno b.data) where
  buf := h.buf_setBuf hi hroot hblockno
  disk c hc := by
    by_cases hci : c = (s.buf i).blockno
    · have hself : ((s.setBuf i b).setUse o u).buf i = b := by exact Function.update_self i b s.buf
      have hself' : ((s.setBuf i b).setUse o u).uses o = u := by exact Function.update_self o u s.uses
      obtain ⟨hclean, hunchanged⟩ := hc i (by rw [hself, hvalid]) (by rw [hself, hblockno, hci])
      rcases hunstored with hdirty | hu
      · rw [hself, hdirty] at hclean
        cases hclean
      · exact absurd (hself'.trans hu) (hunchanged o)
    · rw [Function.update_of_ne hci]
      exact h.disk_setBuf ho hci hc

/-- The disk and a buffer have the same content after a transfer. -/
theorem Tells.settle (h : Tells s last) (hi : Identified s.buf) (hroot : (s.buf i).dev = ROOTDEV)
    (ho : ∀ j, s.uses o ≠ .holding j true) (hblockno : b.blockno = (s.buf i).blockno)
    (hdata : b.data = last (s.buf i).blockno) :
    Tells { (s.setBuf i b).setUse o u with disk := Function.update s.disk (s.buf i).blockno b.data } last where
  buf j hj := by
    have hbuf := h.buf_setBuf hi hroot hblockno j hj
    rwa [hdata, Function.update_eq_self] at hbuf
  disk c hc := by
    change Function.update s.disk (s.buf i).blockno b.data c = last c
    by_cases hci : c = (s.buf i).blockno
    · rw [hci, Function.update_self, hdata]
    · rw [Function.update_of_ne hci]
      exact h.disk_setBuf (u := u) (fun j hj ↦ absurd hj (ho j)) hci hc

theorem Tells.transfer (h : Tells s last) (hinv : s.Inv) (huse : s.uses o = .reading i ∨ s.uses o = .writing i) :
    Tells ((s.transfer i).setUse o (.holding i false)) last := by
  have ho (j : Slot) : s.uses o ≠ .holding j true := by
    rcases huse with huse | huse <;> rw [huse] <;> exact fun heq ↦ by cases heq
  have hroot : (s.buf i).dev = ROOTDEV := hinv.dev_eq (o := o) (by rcases huse with huse | huse <;> rw [huse] <;> rfl)
  have hrelies := hinv.relies o
  rw [Bcache.transfer]
  rcases huse with huse | huse
  · rw [huse] at hrelies
    obtain ⟨hvalid, hclean⟩ := hrelies
    -- no other buffer has the block, so the disk is up to date
    have hdisk : s.disk (s.buf i).blockno = last (s.buf i).blockno := h.disk _ fun j hj hji ↦ by
      obtain rfl := hinv.identified.unique j i (hinv.identified.valid j hj) hroot hji
      rw [hvalid] at hj
      cases hj
    have hsettle := h.settle (u := .holding i false)
      (b := { s.buf i with valid := true, dirty := false, data := s.disk (s.buf i).blockno })
      hinv.identified hroot ho rfl hdisk
    rw [Function.update_eq_self] at hsettle
    rw [hclean, if_neg Bool.false_ne_true]
    exact hsettle
  · rw [huse] at hrelies
    obtain ⟨hvalid, hdirty⟩ := hrelies
    rw [if_pos hdirty]
    exact h.settle (u := .holding i false) (b := { s.buf i with valid := true, dirty := false })
      hinv.identified hroot ho rfl (h.buf i hvalid)

/-- The block of a recycled buffer is on the disk. -/
theorem Tells.recycle (h : Tells s last) (hinv : s.Inv) (huse : s.uses o = .idle)
    (hvictim : s.victim = some i) (hvalid : b.valid = false) :
    Tells ((s.setBuf i b).setUse o (.acquiring i false)) last := by
  obtain ⟨hunused, hclean⟩ := hinv.of_victim hvictim
  have hslots := hinv.refcnt_eq_zero_iff.mp hunused
  have hself : (Function.update s.buf i b i).valid = false := by rw [Function.update_self, hvalid]
  constructor
  · intro j hj
    have hji : j ≠ i := by
      rintro rfl
      exact Bool.false_ne_true (hself.symm.trans hj)
    change (Function.update s.buf i b j).data = last (Function.update s.buf i b j).blockno
    change (Function.update s.buf i b j).valid = true at hj
    rw [Function.update_of_ne hji] at hj ⊢
    exact h.buf j hj
  · intro c hc
    refine h.disk c fun j hj hjc ↦ ?_
    by_cases hji : j = i
    · subst hji
      refine ⟨hclean, fun p hp ↦ hslots p ?_⟩
      rw [hp]
      rfl
    · have hkept : ((s.setBuf i b).setUse o (.acquiring i false)).buf j = s.buf j := by
        exact Function.update_of_ne hji b s.buf
      refine stored_of_setBuf (fun k hk ↦ ?_) hji (hc j (by rw [hkept, hj]) (by rw [hkept, hjc]))
      rw [huse] at hk
      cases hk

omit [DecidableEq ι] in
theorem Tells.boot (disk : ℕ → Block) : Tells (boot disk : Bcache ι) disk where
  buf _ hi := by cases hi
  disk _ _ := rfl

theorem Tells.step (h : Tells s last) (hinv : s.Inv) (hs : s.step l = some t) :
    Tells t (s.lastWrites last l) := by
  cases step_cases hs with
  | hit huse => exact h.put (by rw [huse]; exact fun j heq ↦ by cases heq) rfl rfl rfl rfl
  | recycle huse _ hvictim => exact h.recycle hinv huse hvictim rfl
  | noBuffers => exact ⟨h.buf, h.disk⟩
  | lock huse => exact h.put (by rw [huse]; exact fun j heq ↦ by cases heq) rfl rfl rfl rfl
  | sleep huse =>
    exact h.quiet (fun _ ↦ rfl) (fun _ ↦ rfl) (fun _ ↦ rfl) (fun _ ↦ rfl) rfl
      (changed_setUse (by rw [huse]; exact fun j heq ↦ by cases heq))
  | iderw huse =>
    rw [hinv.iderwOn_eq huse]
    exact h.transfer hinv huse
  | @change o i changed data huse =>
    obtain ⟨hlocked, hvalid⟩ := hinv.of_holding huse
    have hwrite := h.write (b := { s.buf i with data }) (u := .holding i true) hinv.identified (hinv.dev_eq (Use.slot_of_locked hlocked))
      (fun j hj ↦ (Use.holding.inj (huse.symm.trans hj)).1.symm) rfl hvalid (.inr rfl)
    simp only [lastWrites, huse]
    exact hwrite
  | @logWrite o i changed huse =>
    obtain ⟨hlocked, hvalid⟩ := hinv.of_holding huse
    have hwrite := h.write (b := { s.buf i with dirty := true }) (u := .holding i false) hinv.identified
      (hinv.dev_eq (Use.slot_of_locked hlocked)) (fun j hj ↦ (Use.holding.inj (huse.symm.trans hj)).1.symm) rfl
      hvalid (.inl rfl)
    rwa [h.buf i hvalid, Function.update_eq_self] at hwrite
  | @bwrite o i changed huse =>
    obtain ⟨hlocked, hvalid⟩ := hinv.of_holding huse
    have hwrite := h.write (b := { s.buf i with dirty := true }) (u := .writing i) hinv.identified
      (hinv.dev_eq (Use.slot_of_locked hlocked)) (fun j hj ↦ (Use.holding.inj (huse.symm.trans hj)).1.symm) rfl
      hvalid (.inl rfl)
    rwa [h.buf i hvalid, Function.update_eq_self] at hwrite
  | bwriteUnlocked => exact ⟨h.buf, h.disk⟩
  | @brelse o i huse =>
    refine (h.wakeup i).put (i := i) (fun j heq ↦ ?_) rfl rfl rfl rfl
    rcases s.wakeup_cases i o with hsame | ⟨hasleep, -⟩
    · rw [hsame, huse] at heq
      cases heq
    · rw [huse] at hasleep
      cases hasleep
  | brelseUnlocked => exact ⟨h.buf, h.disk⟩
  | @releaseLast o i huse =>
    have hput := h.put (i := i) (b := { s.buf i with refcnt := (s.buf i).refcnt - 1 }) (o := o) (u := .idle)
      (by rw [huse]; exact fun j heq ↦ by cases heq) rfl rfl rfl rfl
    exact ⟨hput.buf, hput.disk⟩
  | releaseOther huse => exact h.put (by rw [huse]; exact fun j heq ↦ by cases heq) rfl rfl rfl rfl
  | crash => exact .boot _

/-! ## Runs -/

end Bcache

end CS537.BufferCache
