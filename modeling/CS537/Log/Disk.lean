import CS537.Log.Model

/-!
# What a crash leaves

The content that `recover_from_log` makes of a disk.  It is determined by the header block: as long
as the header is empty, writes to the log do not matter, and as soon as it lists the blocks of a
transaction, writes to their places do not matter.
-/

namespace CS537.Log

open Foundation
open Mkfs (byteOf uintAt uintAt_of_bytes)

/-! ## The header block -/

section Header

variable {lh : List ℕ} {hb : Block}

theorem uintAt_writeHeader_zero (hlength : lh.length < 2 ^ 32) :
    uintAt (writeHeader lh hb) 0 = lh.length := by
  refine uintAt_of_bytes hlength fun j hj ↦ ?_
  rw [Nat.zero_add, writeHeader, if_pos hj]

theorem uintAt_writeHeader {i : ℕ} (hi : i < lh.length) (hblock : lh[i] < 2 ^ 32) :
    uintAt (writeHeader lh hb) (4 * (i + 1)) = lh[i] := by
  refine uintAt_of_bytes hblock fun j hj ↦ ?_
  have hfirst : ¬4 * (i + 1) + j < 4 := by omega
  have hlast : 4 * (i + 1) + j < 4 * (lh.length + 1) := by omega
  have hdiv : (4 * (i + 1) + j) / 4 - 1 = i := by omega
  have hmod : (4 * (i + 1) + j) % 4 = j := by omega
  rw [writeHeader, if_neg hfirst, if_pos hlast, hdiv, hmod,
    List.getD_eq_getElem?_getD, List.getElem?_eq_getElem hi, Option.getD_some]

/-- The header is read as it was written. -/
theorem readHeader_writeHeader (hlength : lh.length < 2 ^ 32) (hblocks : ∀ b ∈ lh, b < 2 ^ 32) :
    readHeader (writeHeader lh hb) = lh := by
  rw [readHeader, uintAt_writeHeader_zero hlength]
  refine List.ext_getElem (by simp) fun i hi hi' ↦ ?_
  rw [List.getElem_map, List.getElem_range]
  exact uintAt_writeHeader hi' (hblocks _ (List.getElem_mem hi'))

theorem readHeader_writeHeader_nil : readHeader (writeHeader [] hb) = [] :=
  readHeader_writeHeader (by decide) (List.forall_mem_nil _)

end Header

/-! ## Recovery -/

variable (area : LogArea)

/-- The blocks that a disk has in its log, with their contents. -/
def logged (d : ℕ → Block) : List (ℕ × Block) :=
  (readHeader (d area.start)).zipIdx.map fun p ↦ (p.1, d (area.start + p.2 + 1))

/-- The blocks after `install_trans`. -/
def recovered (d : ℕ → Block) : ℕ → Block := replay (logged area d) d

variable {area} {d : ℕ → Block} {lh : List ℕ} {b c : ℕ} {data : Block}

theorem LogArea.Home.ne_start (hb : area.Home b) : b ≠ area.start := by
  rintro rfl
  have hsize := area.enough
  simp only [LOGSIZE, MAXOPBLOCKS] at hsize
  rcases hb.2 with h | h <;> omega

/-- The places of the log, where there are not too many. -/
theorem LogArea.Home.ne_slot (hb : area.Home b) {i : ℕ} (hi : i + 1 < LOGSIZE) :
    b ≠ area.start + i + 1 := by
  rintro rfl
  have hsize := area.enough
  rcases hb.2 with h | h <;> omega

theorem mem_logged {w : ℕ × Block} : w ∈ logged area d ↔
    ∃ i, (readHeader (d area.start))[i]? = some w.1 ∧ w.2 = d (area.start + i + 1) := by
  simp only [logged, List.mem_map]
  constructor
  · rintro ⟨⟨b, i⟩, hmem, rfl⟩
    exact ⟨i, List.mem_zipIdx_iff_getElem?.mp hmem, rfl⟩
  · rintro ⟨i, hi, hw⟩
    exact ⟨(w.1, i), List.mem_zipIdx_iff_getElem?.mpr hi, by rw [← hw]⟩

theorem map_fst_logged (d : ℕ → Block) : (logged area d).map Prod.fst = readHeader (d area.start) := by
  rw [logged, List.map_map]
  exact List.zipIdx_map_fst 0 _

theorem logged_of_empty (h : readHeader (d area.start) = []) : logged area d = [] := by
  rw [logged, h]
  rfl

theorem recovered_of_empty (h : readHeader (d area.start) = []) : recovered area d = d := by
  rw [recovered, logged_of_empty h]
  rfl

theorem recovered_of_getElem? (hnodup : (readHeader (d area.start)).Nodup) {i : ℕ}
    (hi : (readHeader (d area.start))[i]? = some b) :
    recovered area d b = d (area.start + i + 1) := by
  rw [← map_fst_logged] at hnodup
  exact replay_of_mem hnodup (mem_logged.mpr ⟨i, hi, rfl⟩) d

theorem recovered_of_notMem (hb : b ∉ readHeader (d area.start)) : recovered area d b = d b := by
  rw [← map_fst_logged] at hb
  exact replay_of_notMem hb d

/-- A place of the log is written while the header is empty. -/
theorem recovered_update_slot (hempty : readHeader (d area.start) = []) {i : ℕ}
    (hi : i + 1 < LOGSIZE) (hb : area.Home b) :
    recovered area (Function.update d (area.start + i + 1) data) b = recovered area d b := by
  have hstart : area.start ≠ area.start + i + 1 := by omega
  have hempty' : readHeader (Function.update d (area.start + i + 1) data area.start) = [] := by
    rw [Function.update_of_ne hstart, hempty]
  rw [recovered_of_empty hempty', recovered_of_empty hempty, Function.update_of_ne (hb.ne_slot hi)]

/-- A block is written to its place while the header lists it. -/
theorem recovered_update_home (hb : b ∈ readHeader (d area.start)) (hhome : area.Home b)
    (hlength : (readHeader (d area.start)).length < LOGSIZE) :
    recovered area (Function.update d b data) = recovered area d := by
  have hstart : Function.update d b data area.start = d area.start :=
    Function.update_of_ne hhome.ne_start.symm _ _
  have hlogged : logged area (Function.update d b data) = logged area d := by
    rw [logged, logged, hstart]
    refine List.map_congr_left fun p hp ↦ ?_
    have hlt : p.2 < (readHeader (d area.start)).length := by
      have hget : (readHeader (d area.start))[p.2]? = some p.1 := List.mem_zipIdx_iff_getElem?.mp hp
      exact (List.getElem?_eq_some_iff.mp hget).1
    rw [Function.update_of_ne (hhome.ne_slot (by omega)).symm]
  rw [recovered, recovered, hlogged]
  exact replay_update_of_mem (by rwa [map_fst_logged]) data d

/-- The header is written when the log is complete. -/
theorem recovered_update_header {view : ℕ → Block} {hb : Block} (hlength : lh.length < LOGSIZE)
    (hhome : ∀ c ∈ lh, area.Home c) (hnodup : lh.Nodup)
    (hslots : ∀ i c, lh[i]? = some c → d (area.start + i + 1) = view c)
    (hothers : ∀ c, c ∉ lh → area.Home c → d c = view c) (hb' : area.Home b) :
    recovered area (Function.update d area.start (writeHeader lh hb)) b = view b := by
  have hbound : LOGSIZE < 2 ^ 32 := by decide
  have hheader : readHeader (Function.update d area.start (writeHeader lh hb) area.start) = lh := by
    rw [Function.update_self]
    exact readHeader_writeHeader (by omega) fun c hc ↦ (hhome c hc).1
  by_cases hmem : b ∈ lh
  · obtain ⟨i, hi⟩ := List.mem_iff_getElem?.mp hmem
    have hslot : area.start + i + 1 ≠ area.start := by omega
    rw [recovered_of_getElem? (by rwa [hheader]) (by rwa [hheader]), Function.update_of_ne hslot]
    exact hslots i b hi
  · rw [recovered_of_notMem (by rwa [hheader]), Function.update_of_ne hb'.ne_start]
    exact hothers b hmem hb'

/-- The header is erased when all blocks are in their places. -/
theorem recovered_update_erased {hb : Block} (hinstalled : ∀ w ∈ logged area d, d w.1 = w.2)
    (hb' : area.Home b) :
    recovered area (Function.update d area.start (writeHeader [] hb)) b = recovered area d b := by
  have hempty : readHeader (Function.update d area.start (writeHeader [] hb) area.start) = [] := by
    rw [Function.update_self]
    exact readHeader_writeHeader_nil
  rw [recovered_of_empty hempty, Function.update_of_ne hb'.ne_start, recovered,
    replay_eq_self hinstalled]

end CS537.Log
