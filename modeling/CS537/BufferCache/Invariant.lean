import CS537.BufferCache.Model
import CS537.Foundation.Holders
import Mathlib.Data.Fintype.Card

/-!
# What the buffer cache keeps

All buffers are on the ring, `refcnt` counts the uses of a buffer, its lock belongs to the use that is
between `acquiresleep` and `releasesleep`, and no two buffers have the same block.
-/

namespace CS537.BufferCache

open Foundation
open Log (Block)

/-- The buffer of a use. -/
def Use.slot : Use → Option Slot
  | .idle => none
  | .acquiring i _ => some i
  | .reading i => some i
  | .holding i _ => some i
  | .writing i => some i
  | .releasing i => some i

/-- The buffer that a use has locked. -/
def Use.locked : Use → Option Slot
  | .reading i => some i
  | .holding i _ => some i
  | .writing i => some i
  | .idle | .acquiring _ _ | .releasing _ => none

variable {ι : Type*}

/-- What a use relies on of the flags of its buffer. -/
def Use.Relies (buf : Slot → Buf ι) : Use → Prop
  | .reading i => (buf i).valid = false ∧ (buf i).dirty = false
  | .holding i _ => (buf i).valid = true
  | .writing i => (buf i).valid = true ∧ (buf i).dirty = true
  | .idle | .acquiring _ _ | .releasing _ => True

theorem Use.slot_of_locked {u : Use} {i : Slot} (h : u.locked = some i) : u.slot = some i := by
  cases u <;> first | exact h | cases h

/-- A use relies on the buffer that it has locked. -/
theorem Use.Relies.congr {u : Use} {buf buf' : Slot → Buf ι} (h : u.Relies buf)
    (hsame : ∀ i, u.locked = some i → (buf' i).valid = (buf i).valid ∧ (buf' i).dirty = (buf i).dirty) :
    u.Relies buf' := by
  cases u with
  | idle => trivial
  | acquiring i asleep => trivial
  | reading i => exact ⟨(hsame i rfl).1.trans h.1, (hsame i rfl).2.trans h.2⟩
  | holding i changed => exact (hsame i rfl).1.trans h
  | writing i => exact ⟨(hsame i rfl).1.trans h.1, (hsame i rfl).2.trans h.2⟩
  | releasing i => trivial

namespace Bcache

/-- All buffers are on the ring, in this order. -/
def InOrder (links : Links Slot) (order : List Slot) : Prop := Ring links order ∧ ∀ i, i ∈ order

/-- The buffers have different blocks of the disk.  The other ones have none yet. -/
structure Identified (buf : Slot → Buf ι) : Prop where
  unique : ∀ i j, (buf i).dev = ROOTDEV → (buf j).dev = ROOTDEV → (buf i).blockno = (buf j).blockno → i = j
  used : ∀ i, (buf i).refcnt ≠ 0 → (buf i).dev = ROOTDEV
  valid : ∀ i, (buf i).valid = true → (buf i).dev = ROOTDEV
  dirty : ∀ i, (buf i).dirty = true → (buf i).valid = true

structure Inv (s : Bcache ι) : Prop where
  ordered : ∃ order, InOrder s.links order
  counted : ∀ i, HeldBy (fun o ↦ (s.uses o).slot) i (s.buf i).refcnt
  locked : ∀ o i, (s.buf i).lock = some o ↔ (s.uses o).locked = some i
  asleep : ∀ o i, s.uses o = .acquiring i true → (s.buf i).lock ≠ none
  identified : Identified s.buf
  relies : ∀ o, (s.uses o).Relies s.buf

section Loops

variable {s : Bcache ι} {order : List Slot} {dev blockno : ℕ} {i : Slot}

theorem InOrder.length_lt (h : InOrder s.links order) : order.length < NBUF + 1 := by
  have hlength := List.Nodup.length_le_card h.1.nodup
  rw [Fintype.card_fin] at hlength
  exact Nat.lt_succ_of_le hlength

theorem InOrder.lookup_eq (h : InOrder s.links order) : s.lookup dev blockno =
    order.find? fun i ↦ decide ((s.buf i).dev = dev ∧ (s.buf i).blockno = blockno) :=
  h.1.forward.search_eq _ h.length_lt

theorem InOrder.victim_eq (h : InOrder s.links order) : s.victim =
    order.reverse.find? fun i ↦ decide ((s.buf i).refcnt = 0 ∧ (s.buf i).dirty = false) :=
  h.1.backward.search_eq _ (by rw [List.length_reverse]; exact h.length_lt)

theorem Inv.of_lookup (h : s.Inv) (hfound : s.lookup dev blockno = some i) :
    (s.buf i).dev = dev ∧ (s.buf i).blockno = blockno := by
  obtain ⟨order, horder⟩ := h.ordered
  rw [horder.lookup_eq] at hfound
  have hhas := List.find?_some hfound
  exact of_decide_eq_true hhas

theorem Inv.lookup_eq_none (h : s.Inv) : s.lookup dev blockno = none ↔
    ∀ i, ¬((s.buf i).dev = dev ∧ (s.buf i).blockno = blockno) := by
  obtain ⟨order, horder⟩ := h.ordered
  rw [horder.lookup_eq, List.find?_eq_none]
  refine ⟨fun hnone i ↦ ?_, fun hnone i _ ↦ ?_⟩
  · exact mt decide_eq_true (hnone i (horder.2 i))
  · exact mt of_decide_eq_true (hnone i)

theorem Inv.of_victim (h : s.Inv) (hvictim : s.victim = some i) :
    (s.buf i).refcnt = 0 ∧ (s.buf i).dirty = false := by
  obtain ⟨order, horder⟩ := h.ordered
  rw [horder.victim_eq] at hvictim
  have hunused := List.find?_some hvictim
  exact of_decide_eq_true hunused

end Loops

/-! ## Steps -/

section Steps

variable {s t : Bcache ι} {o : ι} {i : Slot} {u : Use} {b : Buf ι} {l : BufferLabel ι}

theorem Inv.refcnt_pos (h : s.Inv) (ho : (s.uses o).slot = some i) : 0 < (s.buf i).refcnt :=
  (h.counted i).pos ho

theorem Inv.dev_eq (h : s.Inv) (ho : (s.uses o).slot = some i) : (s.buf i).dev = ROOTDEV :=
  h.identified.used i (h.refcnt_pos ho).ne'

/-- Two uses do not lock the same buffer. -/
theorem Inv.locked_unique (h : s.Inv) {p : ι} (ho : (s.uses o).locked = some i)
    (hp : (s.uses p).locked = some i) : p = o :=
  Option.some.inj (((h.locked p i).mpr hp).symm.trans ((h.locked o i).mpr ho))

theorem Inv.with_disk (h : s.Inv) (disk : ℕ → Block) : Inv { s with disk } :=
  ⟨h.ordered, h.counted, h.locked, h.asleep, h.identified, h.relies⟩

theorem Inv.panic (h : s.Inv) (msg : String) : (s.panic msg).Inv :=
  ⟨h.ordered, h.counted, h.locked, h.asleep, h.identified, h.relies⟩

/-- A buffer keeps its block. -/
theorem Identified.update {buf : Slot → Buf ι} (h : Identified buf) (hdev : b.dev = (buf i).dev)
    (hblockno : b.blockno = (buf i).blockno) (hused : b.refcnt ≠ 0 → b.dev = ROOTDEV)
    (hvalid : b.valid = true → b.dev = ROOTDEV) (hdirty : b.dirty = true → b.valid = true) :
    Identified (Function.update buf i b) := by
  have hdevs := update_keeps Buf.dev hdev
  have hblocknos := update_keeps Buf.blockno hblockno
  constructor
  · intro j k hj hk hjk
    rw [hdevs] at hj hk
    rw [hblocknos, hblocknos] at hjk
    exact h.unique j k hj hk hjk
  all_goals
    intro j hj
    by_cases hji : j = i
    · subst hji
      rw [Function.update_self] at hj ⊢
      first | exact hused hj | exact hvalid hj | exact hdirty hj
    · rw [Function.update_of_ne hji] at hj ⊢
      first | exact h.used j hj | exact h.valid j hj | exact h.dirty j hj

variable [DecidableEq ι]

theorem slot_setUse (s : Bcache ι) (o : ι) (u : Use) :
    (fun p ↦ ((s.setUse o u).uses p).slot) = Function.update (fun p ↦ (s.uses p).slot) o u.slot :=
  funext fun p ↦ Function.apply_update (fun _ ↦ Use.slot) s.uses o u p

theorem slot_setUse_same (h : u.slot = (s.uses o).slot) :
    (fun p ↦ ((s.setUse o u).uses p).slot) = fun p ↦ (s.uses p).slot := by
  rw [slot_setUse, h]
  exact Function.update_eq_self o fun p ↦ (s.uses p).slot

/-- The process that has locked a buffer changes it. -/
theorem Inv.move (h : s.Inv) (ho : (s.uses o).locked = some i) (hu : u.locked = some i)
    (hlock : b.lock = (s.buf i).lock) (hrefcnt : b.refcnt = (s.buf i).refcnt) (hdev : b.dev = (s.buf i).dev)
    (hblockno : b.blockno = (s.buf i).blockno) (hdirty : b.dirty = true → b.valid = true)
    (hrelies : u.Relies (Function.update s.buf i b)) : ((s.setBuf i b).setUse o u).Inv := by
  have hslot := Use.slot_of_locked ho
  have hroot : b.dev = ROOTDEV := hdev.trans (h.dev_eq hslot)
  have hlocks := update_keeps Buf.lock hlock
  have hrefcnts := update_keeps Buf.refcnt hrefcnt
  constructor
  · exact h.ordered
  · intro j
    change HeldBy _ j (Function.update s.buf i b j).refcnt
    rw [slot_setUse_same (s := s.setBuf i b) ((Use.slot_of_locked hu).trans hslot.symm), hrefcnts]
    exact h.counted j
  · intro p j
    change (Function.update s.buf i b j).lock = some p ↔ (Function.update s.uses o u p).locked = some j
    rw [hlocks, h.locked]
    by_cases hp : p = o
    · rw [hp, Function.update_self, hu, ho]
    · rw [Function.update_of_ne hp]
  · intro p j hp
    change (Function.update s.buf i b j).lock ≠ none
    rw [hlocks]
    by_cases hpo : p = o
    · have huse : Function.update s.uses o u p = u := by rw [hpo, Function.update_self]
      have hasleep : u = .acquiring j true := huse.symm.trans hp
      rw [hasleep] at hu
      cases hu
    · have huse : Function.update s.uses o u p = s.uses p := Function.update_of_ne hpo u s.uses
      exact h.asleep p j (huse.symm.trans hp)
  · exact h.identified.update hdev hblockno (fun _ ↦ hroot) (fun _ ↦ hroot) hdirty
  · intro p
    change (Function.update s.uses o u p).Relies (Function.update s.buf i b)
    by_cases hp : p = o
    · rwa [hp, Function.update_self]
    · rw [Function.update_of_ne hp]
      refine (h.relies p).congr fun j hj ↦ ?_
      have hne : j ≠ i := by
        rintro rfl
        exact hp (h.locked_unique ho hj)
      rw [Function.update_of_ne hne]
      exact ⟨rfl, rfl⟩

/-- A process without a lock takes a buffer, or waits for it, or gives it back. -/
theorem Inv.unlocked_move (h : s.Inv) (ho : (s.uses o).locked = none) (hu : u.locked = none)
    (hlock : b.lock = (s.buf i).lock) (hasleep : ∀ j, u = .acquiring j true → (s.buf j).lock ≠ none)
    (hflags : b.valid = (s.buf i).valid ∧ b.dirty = (s.buf i).dirty ∨ ∀ p, (s.uses p).locked ≠ some i)
    (hidentified : Identified (Function.update s.buf i b))
    (hcounted : ∀ j, HeldBy (Function.update (fun p ↦ (s.uses p).slot) o u.slot) j
      (Function.update s.buf i b j).refcnt) : ((s.setBuf i b).setUse o u).Inv := by
  have hlocks := update_keeps Buf.lock hlock
  constructor
  · exact h.ordered
  · intro j
    change HeldBy _ j (Function.update s.buf i b j).refcnt
    rw [slot_setUse]
    exact hcounted j
  · intro p j
    change (Function.update s.buf i b j).lock = some p ↔ (Function.update s.uses o u p).locked = some j
    rw [hlocks, h.locked]
    by_cases hp : p = o
    · rw [hp, Function.update_self, hu, ho]
    · rw [Function.update_of_ne hp]
  · intro p j hp
    change (Function.update s.buf i b j).lock ≠ none
    rw [hlocks]
    change Function.update s.uses o u p = .acquiring j true at hp
    by_cases hpo : p = o
    · rw [hpo, Function.update_self] at hp
      exact hasleep j hp
    · rw [Function.update_of_ne hpo] at hp
      exact h.asleep p j hp
  · exact hidentified
  · intro p
    change (Function.update s.uses o u p).Relies (Function.update s.buf i b)
    by_cases hp : p = o
    · rw [hp, Function.update_self]
      cases u <;> trivial
    · rw [Function.update_of_ne hp]
      refine (h.relies p).congr fun j hj ↦ ?_
      by_cases hji : j = i
      · rw [hji, Function.update_self]
        rw [hji] at hj
        exact hflags.resolve_right fun hnone ↦ hnone p hj
      · rw [Function.update_of_ne hji]
        exact ⟨rfl, rfl⟩

omit [DecidableEq ι] in
/-- The links change. -/
theorem Inv.with_links (h : s.Inv) {links : Links Slot} (hordered : ∃ order, InOrder links order) :
    Inv { s with links } :=
  ⟨hordered, h.counted, h.locked, h.asleep, h.identified, h.relies⟩

theorem Inv.hit (h : s.Inv) (huse : s.uses o = .idle) (hdev : (s.buf i).dev = ROOTDEV) :
    ((s.setBuf i { s.buf i with refcnt := (s.buf i).refcnt + 1 }).setUse o (.acquiring i false)).Inv := by
  have hslot : (s.uses o).slot ≠ some i := by
    rw [huse]
    exact fun heq ↦ by cases heq
  refine h.unlocked_move (by rw [huse]; rfl) rfl rfl (fun j hj ↦ by cases hj) (.inl ⟨rfl, rfl⟩) ?_ fun j ↦ ?_
  · exact h.identified.update rfl rfl (fun _ ↦ hdev) (h.identified.valid i) (h.identified.dirty i)
  · by_cases hj : j = i
    · subst hj
      rw [Function.update_self]
      exact (h.counted j).take hslot
    · rw [Function.update_of_ne hj]
      refine (h.counted j).other ?_ fun heq ↦ hj (Option.some.inj heq).symm
      rw [huse]
      exact fun heq ↦ by cases heq

theorem Inv.recycle (h : s.Inv) {blockno : ℕ} (huse : s.uses o = .idle)
    (hmiss : s.lookup ROOTDEV blockno = none) (hvictim : s.victim = some i) :
    ((s.setBuf i { s.buf i with dev := ROOTDEV, blockno, valid := false, dirty := false, refcnt := 1 }).setUse
      o (.acquiring i false)).Inv := by
  obtain ⟨hunused, hclean⟩ := h.of_victim hvictim
  have hnone := h.lookup_eq_none.mp hmiss
  have hslots := (h.counted i).eq_zero_iff.mp hunused
  refine h.unlocked_move (by rw [huse]; rfl) rfl rfl (fun j hj ↦ by cases hj)
    (.inr fun p hp ↦ hslots p (Use.slot_of_locked hp)) ⟨fun j k hj hk hjk ↦ ?_, fun j hj ↦ ?_, fun j hj ↦ ?_,
      fun j hj ↦ ?_⟩ fun j ↦ ?_
  · by_cases hji : j = i
    · by_cases hki : k = i
      · rw [hji, hki]
      · rw [Function.update_of_ne hki] at hk hjk
        rw [hji, Function.update_self] at hjk
        exact absurd ⟨hk, hjk.symm⟩ (hnone k)
    · rw [Function.update_of_ne hji] at hj hjk
      by_cases hki : k = i
      · rw [hki, Function.update_self] at hjk
        exact absurd ⟨hj, hjk⟩ (hnone j)
      · rw [Function.update_of_ne hki] at hk hjk
        exact h.identified.unique j k hj hk hjk
  · by_cases hji : j = i
    · rw [hji, Function.update_self]
    · rw [Function.update_of_ne hji] at hj ⊢
      exact h.identified.used j hj
  · by_cases hji : j = i
    · rw [hji, Function.update_self]
    · rw [Function.update_of_ne hji] at hj ⊢
      exact h.identified.valid j hj
  · by_cases hji : j = i
    · rw [hji, Function.update_self] at hj
      cases hj
    · rw [Function.update_of_ne hji] at hj ⊢
      exact h.identified.dirty j hj
  · by_cases hji : j = i
    · subst hji
      rw [Function.update_self]
      have htaken := (HeldBy.zero hslots).take (hslots o)
      exact htaken
    · rw [Function.update_of_ne hji]
      refine (h.counted j).other ?_ fun heq ↦ hji (Option.some.inj heq).symm
      rw [huse]
      exact fun heq ↦ by cases heq

theorem Inv.lock (h : s.Inv) (huse : s.uses o = .acquiring i false) (hfree : (s.buf i).lock = none) :
    ((s.setBuf i { s.buf i with lock := some o }).setUse o (s.afterBget i)).Inv := by
  have hlocked : (s.afterBget i).locked = some i := by
    rw [afterBget]
    split <;> rfl
  have hslot : (s.uses o).slot = some i := by
    rw [huse]
    rfl
  have hnone (p : ι) (hp : (s.uses p).locked = some i) : False := by
    have hlock := (h.locked p i).mpr hp
    rw [hfree] at hlock
    cases hlock
  have hrefcnts := update_keeps (g := s.buf) (i := i) (b := { s.buf i with lock := some o }) Buf.refcnt rfl
  constructor
  · exact h.ordered
  · intro j
    change HeldBy _ j (Function.update s.buf i { s.buf i with lock := some o } j).refcnt
    rw [hrefcnts, slot_setUse_same (s := s.setBuf i _) ((Use.slot_of_locked hlocked).trans hslot.symm)]
    exact h.counted j
  · intro p j
    change (Function.update s.buf i { s.buf i with lock := some o } j).lock = some p ↔
      (Function.update s.uses o (s.afterBget i) p).locked = some j
    by_cases hj : j = i
    · rw [hj, Function.update_self]
      by_cases hp : p = o
      · rw [hp, Function.update_self]
        exact iff_of_true rfl hlocked
      · rw [Function.update_of_ne hp]
        exact iff_of_false (fun heq ↦ hp (Option.some.inj heq).symm) (hnone p)
    · rw [Function.update_of_ne hj, h.locked]
      by_cases hp : p = o
      · rw [hp, Function.update_self, hlocked, huse]
        exact iff_of_false (fun heq ↦ by cases heq) fun heq ↦ hj (Option.some.inj heq).symm
      · rw [Function.update_of_ne hp]
  · intro p j hp
    change (Function.update s.buf i { s.buf i with lock := some o } j).lock ≠ none
    change Function.update s.uses o (s.afterBget i) p = .acquiring j true at hp
    by_cases hj : j = i
    · rw [hj, Function.update_self]
      exact fun heq ↦ by cases heq
    · rw [Function.update_of_ne hj]
      by_cases hpo : p = o
      · rw [hpo, Function.update_self] at hp
        rw [hp] at hlocked
        cases hlocked
      · rw [Function.update_of_ne hpo] at hp
        exact h.asleep p j hp
  · exact h.identified.update rfl rfl (h.identified.used i) (h.identified.valid i) (h.identified.dirty i)
  · intro p
    change (Function.update s.uses o (s.afterBget i) p).Relies
      (Function.update s.buf i { s.buf i with lock := some o })
    by_cases hp : p = o
    · rw [hp, Function.update_self, afterBget]
      cases hvalid : (s.buf i).valid with
      | true =>
        change (Function.update s.buf i { s.buf i with lock := some o } i).valid = true
        rw [Function.update_self, hvalid]
      | false =>
        have hclean : (s.buf i).dirty = false := by
          by_contra hdirty
          have hvalid' := h.identified.dirty i (Bool.of_not_eq_false hdirty)
          rw [hvalid] at hvalid'
          cases hvalid'
        change (Function.update s.buf i { s.buf i with lock := some o } i).valid = false ∧
          (Function.update s.buf i { s.buf i with lock := some o } i).dirty = false
        rw [Function.update_self]
        exact ⟨hvalid, hclean⟩
    · rw [Function.update_of_ne hp]
      refine (h.relies p).congr fun j hj ↦ ?_
      have hji : j ≠ i := by
        rintro rfl
        exact hnone p hj
      rw [Function.update_of_ne hji]
      exact ⟨rfl, rfl⟩

end Steps

end Bcache

end CS537.BufferCache
