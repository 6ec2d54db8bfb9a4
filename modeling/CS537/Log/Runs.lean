import CS537.Log.Invariant

/-!
# Runs of the log

Each step keeps the invariant, the one that writes the header included: it makes the writes since
the last commit durable, all at once.
-/

open scoped BigOperators

namespace CS537.Log

open Foundation

variable {ι : Type*} [DecidableEq ι] {area : LogArea} {k : ℕ} {base : ℕ → Block}

/-! ## The calls in progress -/

section Calls

variable {lh : List ℕ} {ops : ι → OpState} {durable recent : List (LogWrite ι)} {openOps : Finset ι}
  {o p : ι} {state : OpState} {b : ℕ} {data : Block}

theorem mem_writtenBy {c : ℕ} : c ∈ writtenBy recent o ↔ ∃ w ∈ recent, w.op = o ∧ w.block = c := by
  simp [writtenBy, and_assoc]

theorem writtenBy_append_self :
    writtenBy (recent ++ [⟨o, b, data⟩]) o = insert b (writtenBy recent o) := by
  ext c
  simp only [mem_writtenBy, Finset.mem_insert, List.mem_append, List.mem_singleton]
  constructor
  · rintro ⟨w, hw | rfl, hop, hblock⟩
    · exact Or.inr ⟨w, hw, hop, hblock⟩
    · exact Or.inl hblock.symm
  · rintro (rfl | ⟨w, hw, hop, hblock⟩)
    · exact ⟨_, Or.inr rfl, rfl, rfl⟩
    · exact ⟨w, Or.inl hw, hop, hblock⟩

theorem writtenBy_append_of_ne (hp : p ≠ o) :
    writtenBy (recent ++ [⟨o, b, data⟩]) p = writtenBy recent p := by
  ext c
  simp only [mem_writtenBy, List.mem_append, List.mem_singleton]
  constructor
  · rintro ⟨w, hw | rfl, hop, hblock⟩
    · exact ⟨w, hw, hop, hblock⟩
    · exact absurd hop.symm hp
  · rintro ⟨w, hw, hop, hblock⟩
    exact ⟨w, Or.inl hw, hop, hblock⟩

/-- A call goes on, or comes to its end. -/
theorem Recorded.setOp (h : Recorded area k ops durable recent) (hold : ops o ≠ .ended)
    (hnew : state = .ended ∨ state.Open)
    (hlogging : ∀ b data, state = .logging b data →
      area.Home b ∧ (insert b (writtenBy recent o)).card ≤ k) :
    Recorded area k (Function.update ops o state) durable recent where
  logging p b data hp := by
    by_cases hpo : p = o
    · rw [hpo, Function.update_self] at hp
      rw [hpo]
      exact hlogging b data hp
    · rw [Function.update_of_ne hpo] at hp
      exact h.logging p b data hp
  ended w hw := by
    have hne : w.op ≠ o := fun he ↦ hold (he ▸ h.ended w hw)
    rw [Function.update_of_ne hne]
    exact h.ended w hw
  begun w hw := by
    by_cases hwo : w.op = o
    · rwa [hwo, Function.update_self]
    · rw [Function.update_of_ne hwo]
      exact h.begun w hw
  apart := h.apart

/-- A call of `log_write` is recorded. -/
theorem Recorded.append (h : Recorded area k ops durable recent) (ho : ops o = .active) :
    Recorded area k ops durable (recent ++ [⟨o, b, data⟩]) where
  logging p c data' hp := by
    have hpo : p ≠ o := by
      rintro rfl
      rw [ho] at hp
      cases hp
    rw [writtenBy_append_of_ne hpo]
    exact h.logging p c data' hp
  ended := h.ended
  begun w hw := by
    rcases List.mem_append.mp hw with hw | hw
    · exact h.begun w hw
    · rw [List.mem_singleton.mp hw, ho]
      exact Or.inr trivial
  apart w hw w' hw' := by
    rcases List.mem_append.mp hw' with hw' | hw'
    · exact h.apart w hw w' hw'
    · rw [List.mem_singleton.mp hw']
      intro hop
      have hended := h.ended w hw
      rw [hop, ho] at hended
      cases hended

/-- The transaction of all calls that have ended is committed. -/
theorem Recorded.commit (h : Recorded area k ops durable recent) (hnone : ∀ o, ¬(ops o).Open) :
    Recorded area k ops (durable ++ recent) [] where
  logging p b data hp := by
    refine absurd ?_ (hnone p)
    rw [hp]
    trivial
  ended w hw := by
    rcases List.mem_append.mp hw with hw | hw
    · exact h.ended w hw
    · exact (h.begun w hw).resolve_right (hnone w.op)
  begun := List.forall_mem_nil _
  apart _ _ := List.forall_mem_nil _

theorem Reserved.congr (h : Reserved k lh ops recent openOps)
    (hopen : ∀ o, (ops o).Open ↔ (Function.update ops p state o).Open) :
    Reserved k lh (Function.update ops p state) recent openOps :=
  ⟨fun o ↦ (h.mem_iff o).trans (hopen o), h.room, h.idle⟩

theorem open_update_iff (hold : (ops p).Open) (hnew : state.Open) (o : ι) :
    (ops o).Open ↔ (Function.update ops p state o).Open := by
  by_cases hop : o = p
  · rw [hop, Function.update_self]
    exact iff_of_true hold hnew
  · rw [Function.update_of_ne hop]

/-- The space that a new call may need. -/
theorem Reserved.begin (h : Reserved k lh ops recent openOps) (hk : k ≤ MAXOPBLOCKS)
    (ho : ¬(ops o).Open) (hspace : lh.length + (openOps.card + 1) * MAXOPBLOCKS ≤ LOGSIZE) :
    Reserved k lh (Function.update ops o .active) recent (insert o openOps) where
  mem_iff p := by
    rw [Finset.mem_insert]
    by_cases hpo : p = o
    · rw [hpo, Function.update_self]
      exact iff_of_true (Or.inl rfl) trivial
    · rw [Function.update_of_ne hpo, or_iff_right hpo]
      exact h.mem_iff p
  room := by
    have hnotMem : o ∉ openOps := fun hmem ↦ ho ((h.mem_iff o).mp hmem)
    have hsum : ∑ p ∈ openOps, (k - (writtenBy recent p).card) ≤ openOps.card * k :=
      Finset.sum_le_card_nsmul _ _ _ fun p _ ↦ Nat.sub_le k _
    rw [Finset.sum_insert hnotMem]
    simp only [LOGSIZE, MAXOPBLOCKS] at hspace hk ⊢
    have hfew : openOps.card = 0 ∨ openOps.card = 1 ∨ openOps.card = 2 := by omega
    -- without a call in progress the log is empty; with two of them nothing has been written
    rcases hfew with hcard | hcard | hcard
    · rw [hcard] at hsum
      rw [h.idle (Finset.card_eq_zero.mp hcard), List.length_nil]
      omega
    · rw [hcard] at hsum hspace
      omega
    · rw [hcard] at hsum hspace
      omega
  idle hempty := absurd hempty (Finset.insert_ne_empty o openOps)

/-- A block that is written takes no more space than the call has reserved. -/
theorem sum_reserved_append (data : Block) (ho : o ∈ openOps) (hle : (insert b (writtenBy recent o)).card ≤ k) :
    ∑ p ∈ openOps, (k - (writtenBy (recent ++ [⟨o, b, data⟩]) p).card) +
        (insert b (writtenBy recent o)).card =
      ∑ p ∈ openOps, (k - (writtenBy recent p).card) + (writtenBy recent o).card := by
  have hrest : ∑ p ∈ openOps.erase o, (k - (writtenBy (recent ++ [⟨o, b, data⟩]) p).card) =
      ∑ p ∈ openOps.erase o, (k - (writtenBy recent p).card) := by
    refine Finset.sum_congr rfl fun p hp ↦ ?_
    rw [writtenBy_append_of_ne (Finset.ne_of_mem_erase hp)]
  have hmono : (writtenBy recent o).card ≤ (insert b (writtenBy recent o)).card :=
    Finset.card_le_card (Finset.subset_insert _ _)
  rw [← Finset.add_sum_erase _ _ ho, ← Finset.add_sum_erase openOps _ ho, hrest,
    writtenBy_append_self]
  omega

/-- A block that is listed already. -/
theorem Reserved.absorb (h : Reserved k lh ops recent openOps) (ho : o ∈ openOps)
    (hle : (insert b (writtenBy recent o)).card ≤ k) :
    Reserved k lh ops (recent ++ [⟨o, b, data⟩]) openOps where
  mem_iff := h.mem_iff
  room := by
    have hsum := sum_reserved_append data ho hle
    have hmono : (writtenBy recent o).card ≤ (insert b (writtenBy recent o)).card :=
      Finset.card_le_card (Finset.subset_insert _ _)
    have hroom := h.room
    omega
  idle := h.idle

/-- A block that has to be listed. -/
theorem Reserved.append (h : Reserved k lh ops recent openOps) (ho : o ∈ openOps)
    (hnew : b ∉ writtenBy recent o) (hle : (insert b (writtenBy recent o)).card ≤ k) :
    Reserved k (lh ++ [b]) ops (recent ++ [⟨o, b, data⟩]) openOps where
  mem_iff := h.mem_iff
  room := by
    have hsum := sum_reserved_append data ho hle
    rw [Finset.card_insert_of_notMem hnew] at hsum
    have hroom := h.room
    rw [List.length_append, List.length_singleton]
    omega
  idle hempty := absurd (hempty ▸ ho) (Finset.notMem_empty o)

/-- A call that ends gives its space back. -/
theorem Reserved.endOp (h : Reserved k lh ops recent openOps) (hmore : openOps.erase o ≠ ∅) :
    Reserved k lh (Function.update ops o .ended) recent (openOps.erase o) where
  mem_iff p := by
    rw [Finset.mem_erase]
    by_cases hpo : p = o
    · rw [hpo, Function.update_self]
      exact iff_of_false (fun hmem ↦ hmem.1 rfl) id
    · rw [Function.update_of_ne hpo, and_iff_right hpo]
      exact h.mem_iff p
  room := by
    have hsum : ∑ p ∈ openOps.erase o, (k - (writtenBy recent p).card) ≤
        ∑ p ∈ openOps, (k - (writtenBy recent p).card) :=
      Finset.sum_le_sum_of_subset (Finset.erase_subset o openOps)
    have hroom := h.room
    omega
  idle hempty := absurd hempty hmore

theorem Reserved.none (hlh : lh = []) (hnone : ∀ o, ¬(ops o).Open) : Reserved k lh ops recent ∅ where
  mem_iff o := iff_of_false (Finset.notMem_empty o) (hnone o)
  room := by
    rw [hlh, List.length_nil, Finset.sum_empty]
    exact Nat.zero_le _
  idle _ := hlh

end Calls

/-! ## Steps of the calls -/

namespace LogInv

variable {s : LogState ι} {o : ι} {b : ℕ} {data : Block}

theorem beginOp (h : LogInv area k base s) (hk : k ≤ MAXOPBLOCKS) (hop : s.ops o = .idle)
    (hactivity : s.activity = .none)
    (hspace : s.lh.length + (s.outstanding + 1) * MAXOPBLOCKS ≤ LOGSIZE) :
    LogInv area k base { s.setOp o .active with outstanding := s.outstanding + 1 } where
  cached := h.cached
  listed := h.listed
  recorded := by
    refine h.recorded.setOp (by simp [hop]) (Or.inr OpState.open_active) fun b data he ↦ ?_
    cases he
  recoverable := h.recoverable
  phase := h.phase
  view := h.view
  reserved _ := by
    obtain ⟨openOps, hreserved, hcard⟩ := h.reserved hactivity
    have ho : ¬(s.ops o).Open := by
      rw [hop]
      exact id
    rw [hcard] at hspace
    refine ⟨insert o openOps, hreserved.begin hk ho hspace, ?_⟩
    rw [Finset.card_insert_of_notMem (mt (hreserved.mem_iff o).mp ho), ← hcard]
  busy hbusy := absurd hactivity hbusy

theorem checkWrite (h : LogInv area k base s) (hop : s.ops o = .active)
    (hfits : area.Home b ∧ (insert b (writtenBy s.recent o)).card ≤ k) :
    LogInv area k base (s.setOp o (.logging b data)) where
  cached := h.cached
  listed := h.listed
  recorded := by
    refine h.recorded.setOp (by simp [hop]) (Or.inr (OpState.open_logging b data)) fun c data' he ↦ ?_
    cases he
    exact hfits
  recoverable := h.recoverable
  phase := h.phase
  view := h.view
  reserved hactivity := by
    have ho : (s.ops o).Open := hop ▸ OpState.open_active
    obtain ⟨openOps, hreserved, hcard⟩ := h.reserved hactivity
    exact ⟨openOps, hreserved.congr (open_update_iff ho (OpState.open_logging b data)), hcard⟩
  busy hbusy :=
    absurd (hop ▸ OpState.open_active) ((h.busy hbusy).2 o)

/-- The buffer of a block that is logged, and all others. -/
theorem view_append (h : LogInv area k base s) (hactivity : s.activity = .none) {c : ℕ}
    (hc : area.Home c) :
    ((Function.update s.buf b (some ⟨data, true⟩)) c).elim (s.disk c) Buf.data =
      replay (contents (s.durable ++ (s.recent ++ [⟨o, b, data⟩]))) base c := by
  rw [← List.append_assoc, replay_contents_concat]
  by_cases hcb : c = b
  · rw [hcb, Function.update_self, Function.update_self, Option.elim_some]
  · rw [Function.update_of_ne hcb, Function.update_of_ne hcb]
    exact h.view (Or.inl hactivity) c hc

theorem absorb (h : LogInv area k base s) (hop : s.ops o = .logging b data) (hmem : b ∈ s.lh) :
    LogInv area k base { s.setOp o .active with
      buf := Function.update s.buf b (some ⟨data, true⟩)
      recent := s.recent ++ [⟨o, b, data⟩] } := by
  have ho : (s.ops o).Open := hop ▸ OpState.open_logging b data
  have hactivity := h.activity_of_open ho
  have hpinned := pinned_none hactivity
  obtain ⟨herased, hcommitting, hblocks⟩ := h.phase_none hactivity
  obtain ⟨openOps, hreserved, hcard, hopen⟩ := h.exists_openOps ho
  obtain ⟨hhome, hle⟩ := h.recorded.logging o b data hop
  refine
    { cached := ?_
      listed := h.listed
      recorded := ?_
      recoverable := h.recoverable
      phase := ?_
      view := fun _ c hc ↦ h.view_append hactivity hc
      reserved := fun _ ↦ ⟨openOps, ?_, hcard⟩
      busy := fun hbusy ↦ absurd hactivity hbusy }
  · change Cached s.disk _ s.pinned
    rw [hpinned]
    exact (hpinned ▸ h.cached).mark (fun c hc ↦ hc) hmem
  · refine (h.recorded.setOp (by simp [hop]) (Or.inr OpState.open_active) fun c data' he ↦ ?_).append
      (Function.update_self o _ _)
    cases he
  · simp only [LogState.Phase, LogState.setOp, hactivity]
    refine ⟨herased, hcommitting, fun c ↦ ?_⟩
    rw [List.map_append, List.mem_append, ← hblocks c, List.map_singleton, List.mem_singleton]
    exact ⟨Or.inl, fun hc ↦ hc.elim id fun he ↦ he ▸ hmem⟩
  · exact (hreserved.congr (open_update_iff ho OpState.open_active)).absorb hopen hle

theorem append (h : LogInv area k base s) (hop : s.ops o = .logging b data) (hmem : b ∉ s.lh) :
    LogInv area k base { s.setOp o .active with
      buf := Function.update s.buf b (some ⟨data, true⟩)
      recent := s.recent ++ [⟨o, b, data⟩]
      lh := s.lh ++ [b] } := by
  have ho : (s.ops o).Open := hop ▸ OpState.open_logging b data
  have hactivity := h.activity_of_open ho
  have hpinned := pinned_none hactivity
  obtain ⟨herased, hcommitting, hblocks⟩ := h.phase_none hactivity
  obtain ⟨openOps, hreserved, hcard, hopen⟩ := h.exists_openOps ho
  obtain ⟨hhome, hle⟩ := h.recorded.logging o b data hop
  have hnew : b ∉ writtenBy s.recent o := by
    intro hb
    obtain ⟨w, hw, -, rfl⟩ := mem_writtenBy.mp hb
    exact hmem ((hblocks w.block).mpr (List.mem_map_of_mem hw))
  have hreserved' : Reserved k (s.lh ++ [b]) (s.setOp o .active).ops (s.recent ++ [⟨o, b, data⟩]) openOps :=
    (hreserved.congr (open_update_iff ho OpState.open_active)).append hopen hnew hle
  refine
    { cached := ?_
      listed := ?_
      recorded := ?_
      recoverable := h.recoverable
      phase := ?_
      view := fun _ c hc ↦ h.view_append hactivity hc
      reserved := fun _ ↦ ⟨openOps, hreserved', hcard⟩
      busy := fun hbusy ↦ absurd hactivity hbusy }
  · simp only [LogState.pinned, LogState.setOp, hactivity]
    exact (hpinned ▸ h.cached).mark (fun c hc ↦ List.mem_append_left _ hc)
      (List.mem_append_right _ (List.mem_singleton_self b))
  · refine ⟨?_, ?_, ?_⟩
    · intro c hc
      rcases List.mem_append.mp hc with hc | hc
      · exact h.listed.home c hc
      · rwa [List.mem_singleton.mp hc]
    · exact h.listed.nodup.append (List.nodup_singleton b) (by simpa using hmem)
    · exact (Nat.le_add_right _ _).trans hreserved'.room
  · refine (h.recorded.setOp (by simp [hop]) (Or.inr OpState.open_active) fun c data' he ↦ ?_).append
      (Function.update_self o _ _)
    cases he
  · simp only [LogState.Phase, LogState.setOp, hactivity]
    refine ⟨herased, hcommitting, fun c ↦ ?_⟩
    rw [List.map_append, List.mem_append, List.mem_append, ← hblocks c, List.map_singleton]

theorem endOther (h : LogInv area k base s) (hop : s.ops o = .active)
    (hother : s.outstanding - 1 ≠ 0) :
    LogInv area k base { s.setOp o .ended with outstanding := s.outstanding - 1 } where
  cached := h.cached
  listed := h.listed
  recorded := by
    refine h.recorded.setOp (by simp [hop]) (Or.inl rfl) fun c data' he ↦ ?_
    cases he
  recoverable := h.recoverable
  phase := h.phase
  view := h.view
  reserved _ := by
    have ho : (s.ops o).Open := hop ▸ OpState.open_active
    obtain ⟨openOps, hreserved, hcard, hopen⟩ := h.exists_openOps ho
    have herase : (openOps.erase o).card = s.outstanding - 1 := by
      rw [Finset.card_erase_of_mem hopen, hcard]
    refine ⟨openOps.erase o, hreserved.endOp fun hempty ↦ hother ?_, herase.symm⟩
    rw [← herase, hempty, Finset.card_empty]
  busy hbusy :=
    absurd (hop ▸ OpState.open_active) ((h.busy hbusy).2 o)

theorem endLast (h : LogInv area k base s) (hop : s.ops o = .active)
    (hlast : s.outstanding - 1 = 0) :
    LogInv area k base { s.setOp o .ended with
      outstanding := s.outstanding - 1
      committing := true
      activity := if 0 < s.lh.length then .writeLog 0 else .leave } := by
  have ho : (s.ops o).Open := hop ▸ OpState.open_active
  have hactivity := h.activity_of_open ho
  have hpinned := pinned_none hactivity
  obtain ⟨herased, hcommitting, hblocks⟩ := h.phase_none hactivity
  obtain ⟨openOps, hreserved, hcard, hopen⟩ := h.exists_openOps ho
  have honly : openOps.erase o = ∅ := by
    rw [← Finset.card_eq_zero, Finset.card_erase_of_mem hopen, ← hcard, hlast]
  refine
    { cached := ?_
      listed := h.listed
      recorded := ?_
      recoverable := h.recoverable
      phase := ?_
      view := fun _ c hc ↦ h.view (Or.inl hactivity) c hc
      reserved := fun hnone ↦ ?_
      busy := fun _ ↦ ⟨hlast, fun p hp ↦ ?_⟩ }
  · have hsame : LogState.pinned { s.setOp o .ended with
        outstanding := s.outstanding - 1
        committing := true
        activity := if 0 < s.lh.length then .writeLog 0 else .leave } = s.lh := by
      unfold LogState.pinned
      by_cases hlh : 0 < s.lh.length
      · simp only [if_pos hlh, LogState.setOp]
      · simp only [if_neg hlh, LogState.setOp]
    rw [hsame]
    exact hpinned ▸ h.cached
  · refine h.recorded.setOp (by simp [hop]) (Or.inl rfl) fun c data' he ↦ ?_
    cases he
  · by_cases hlh : 0 < s.lh.length
    · simp only [LogState.Phase, LogState.setOp, if_pos hlh]
      exact ⟨herased, trivial, fun i hi ↦ absurd hi (Nat.not_lt_zero i)⟩
    · have hnil : s.lh = [] := List.length_eq_zero_iff.mp (Nat.eq_zero_of_not_pos hlh)
      have hrecent : s.recent = [] := by
        rw [← List.map_eq_nil_iff (f := LogWrite.block), List.eq_nil_iff_forall_not_mem]
        intro c hc
        rw [← hblocks c, hnil] at hc
        exact absurd hc List.not_mem_nil
      simp only [LogState.Phase, LogState.setOp, if_neg hlh]
      exact ⟨herased, trivial, hnil, hrecent⟩
  · by_cases hlh : 0 < s.lh.length
    · simp only [if_pos hlh] at hnone
      cases hnone
    · simp only [if_neg hlh] at hnone
      cases hnone
  · by_cases hpo : p = o
    · simp only [LogState.setOp, hpo, Function.update_self] at hp
      exact hp
    · simp only [LogState.setOp, Function.update_of_ne hpo] at hp
      have hmem : p ∈ openOps.erase o := Finset.mem_erase.mpr ⟨hpo, (hreserved.mem_iff p).mpr hp⟩
      rw [honly] at hmem
      exact Finset.notMem_empty p hmem

/-! ## Steps of `commit` and of `recover_from_log` -/

section Proceed

variable {tail : ℕ}

omit [DecidableEq ι] in
theorem bread_bwrite_self : (s.bwrite b data).bread b = data := by
  simp only [LogState.bread, LogState.bwrite, Function.update_self, Option.elim_some]

omit [DecidableEq ι] in
theorem bread_bwrite_of_ne {c : ℕ} (hc : c ≠ b) : (s.bwrite b data).bread c = s.bread c := by
  simp only [LogState.bread, LogState.bwrite, Function.update_of_ne hc]

omit [DecidableEq ι] in
theorem subset_pinned (s : LogState ι) : ∀ b ∈ s.pinned, b ∈ s.lh := by
  intro b hb
  unfold LogState.pinned at hb
  split at hb
  · exact List.mem_of_mem_drop hb
  · exact hb

/-- Blocks of the log are not dirty. -/
theorem bread_of_not_home (h : LogInv area k base s) (hb : ¬area.Home b) : s.bread b = s.disk b :=
  h.cached.bread_eq fun hmem ↦ hb (h.listed.home b (subset_pinned s b hmem))

theorem not_home_start : ¬area.Home area.start := fun hhome ↦ hhome.ne_start rfl

theorem not_home_slot {i : ℕ} (hi : i + 1 < LOGSIZE) : ¬area.Home (area.start + i + 1) :=
  fun hhome ↦ hhome.ne_slot hi rfl

/-- Every place that is used lies in the log. -/
theorem slot_lt (h : LogInv area k base s) (hk : k < MAXOPBLOCKS) {i : ℕ}
    (hi : s.lh[i]? = some b) : i + 1 < LOGSIZE := by
  have hlt : i < s.lh.length := (List.getElem?_eq_some_iff.mp hi).1
  have hlength := h.listed.length_le
  simp only [MAXOPBLOCKS, LOGSIZE] at hk hlength ⊢
  omega

theorem lt_logsize {lh : List ℕ} (h : Listed area k lh) (hk : k < MAXOPBLOCKS) : lh.length < LOGSIZE := by
  have hlength := h.length_le
  simp only [MAXOPBLOCKS, LOGSIZE] at hk hlength ⊢
  omega

theorem readHead (h : LogInv area k base s) (hactivity : s.activity = .readHead) :
    LogInv area k base
      { s with lh := readHeader (s.bread area.start), activity := .installTrans 0 } := by
  have hphase := h.phase
  simp only [LogState.Phase, hactivity] at hphase
  obtain ⟨hlh, hrecent, hcommitting⟩ := hphase
  have hbusy := h.busy (by simp [hactivity])
  have hheader : s.bread area.start = s.disk area.start := h.bread_of_not_home not_home_start
  have hpinned : s.pinned = [] := by rw [LogState.pinned, hactivity, hlh]
  rw [hheader]
  refine
    { cached := (hpinned ▸ h.cached).mono (List.forall_mem_nil _)
      listed := h.recoverable.listed
      recorded := h.recorded
      recoverable := h.recoverable
      phase := ⟨rfl, hrecent, fun i hi ↦ absurd hi (Nat.not_lt_zero i)⟩
      view := fun hup ↦ ?_
      reserved := fun hnone ↦ by cases hnone
      busy := fun _ ↦ hbusy }
  rcases hup with hnone | hcommitting'
  · cases hnone
  · exact absurd (hcommitting.symm.trans hcommitting') Bool.false_ne_true

theorem writeLog (h : LogInv area k base s) (hk : k < MAXOPBLOCKS)
    (hactivity : s.activity = .writeLog tail) (hb : s.lh[tail]? = some b) :
    LogInv area k base
      ((s.bwrite (area.start + tail + 1) (s.bread b)).setActivity (.writeLog (tail + 1))) := by
  have hphase := h.phase
  simp only [LogState.Phase, hactivity] at hphase
  obtain ⟨herased, hcommitting, hslots⟩ := hphase
  have hbusy := h.busy (by simp [hactivity])
  have htail := h.slot_lt hk hb
  have hpinned : s.pinned = s.lh := by rw [LogState.pinned, hactivity]
  have hstart : area.start ≠ area.start + tail + 1 := by omega
  have hview {c : ℕ} (hc : area.Home c) :
      (s.bwrite (area.start + tail + 1) (s.bread b)).bread c = s.bread c :=
    bread_bwrite_of_ne (hc.ne_slot htail)
  refine
    { cached := (hpinned ▸ h.cached).bwrite fun c hc _ ↦ hc
      listed := h.listed
      recorded := h.recorded
      recoverable := ⟨?_, fun c hc ↦ ?_⟩
      phase := ⟨?_, hcommitting, fun i hi c hc ↦ ?_⟩
      view := fun _ c hc ↦ (hview hc).trans (h.view (Or.inr hcommitting) c hc)
      reserved := fun hnone ↦ by cases hnone
      busy := fun _ ↦ hbusy }
  · change Listed area k (readHeader (Function.update s.disk _ _ _))
    rw [Function.update_of_ne hstart]
    exact h.recoverable.listed
  · exact (recovered_update_slot herased htail hc).trans (h.recoverable.content c hc)
  · change readHeader (Function.update s.disk _ _ _) = []
    rw [Function.update_of_ne hstart]
    exact herased
  · change Function.update s.disk _ _ _ = (s.bwrite _ _).bread c
    rw [hview (h.listed.home c (List.mem_of_getElem? hc))]
    rcases Nat.lt_succ_iff_lt_or_eq.mp hi with hlt | rfl
    · have hslot : area.start + i + 1 ≠ area.start + tail + 1 := by omega
      rw [Function.update_of_ne hslot]
      exact hslots i hlt c hc
    · obtain rfl := Option.some.inj (hb.symm.trans hc)
      exact Function.update_self _ _ _

theorem logWritten (h : LogInv area k base s) (hactivity : s.activity = .writeLog tail)
    (hend : s.lh.length ≤ tail) : LogInv area k base (s.setActivity .writeHead) := by
  have hphase := h.phase
  simp only [LogState.Phase, hactivity] at hphase
  obtain ⟨herased, hcommitting, hslots⟩ := hphase
  have hpinned : s.pinned = s.lh := by rw [LogState.pinned, hactivity]
  refine
    { cached := (hpinned ▸ h.cached : Cached s.disk s.buf s.lh)
      listed := h.listed
      recorded := h.recorded
      recoverable := h.recoverable
      phase := ⟨herased, hcommitting, fun i c hc ↦ ?_⟩
      view := fun _ ↦ h.view (Or.inr hcommitting)
      reserved := fun hnone ↦ by cases hnone
      busy := fun _ ↦ h.busy (by simp [hactivity]) }
  have hi : i < s.lh.length := (List.getElem?_eq_some_iff.mp hc).1
  exact hslots i (by omega) c hc

/-- The commit. -/
theorem writeHead (h : LogInv area k base s) (hk : k < MAXOPBLOCKS)
    (hactivity : s.activity = .writeHead) :
    LogInv area k base
      { (s.bwrite area.start (writeHeader s.lh (s.bread area.start))).setActivity (.installTrans 0) with
        durable := s.durable ++ s.recent
        recent := [] } := by
  have hphase := h.phase
  simp only [LogState.Phase, hactivity] at hphase
  obtain ⟨herased, hcommitting, hslots⟩ := hphase
  have hbusy := h.busy (by simp [hactivity])
  have hpinned : s.pinned = s.lh := by rw [LogState.pinned, hactivity]
  have hlength : s.lh.length < LOGSIZE := lt_logsize h.listed hk
  have hbound : LOGSIZE < 2 ^ 32 := by decide
  have hheader : readHeader (Function.update s.disk area.start
      (writeHeader s.lh (s.bread area.start)) area.start) = s.lh := by
    rw [Function.update_self]
    exact readHeader_writeHeader (by omega) fun c hc ↦ (h.listed.home c hc).1
  have hcached : Cached (Function.update s.disk area.start (writeHeader s.lh (s.bread area.start)))
      (Function.update s.buf area.start (some ⟨writeHeader s.lh (s.bread area.start), false⟩))
      (s.lh.drop 0) :=
    (hpinned ▸ h.cached).bwrite fun c hc _ ↦ hc
  have hview := h.view (Or.inr hcommitting)
  have hothers : ∀ c, c ∉ s.lh → area.Home c → s.disk c = s.bread c :=
    fun c hc _ ↦ (h.cached.bread_eq (hpinned ▸ hc)).symm
  refine
    { cached := hcached
      listed := h.listed
      recorded := h.recorded.commit hbusy.2
      recoverable := ⟨?_, fun c hc ↦ ?_⟩
      phase := ⟨hheader, rfl, fun i hi ↦ absurd hi (Nat.not_lt_zero i)⟩
      view := fun _ c hc ↦ ?_
      reserved := fun hnone ↦ by cases hnone
      busy := fun _ ↦ hbusy }
  · simp only [LogState.setActivity, LogState.bwrite, hheader]
    exact h.listed
  · exact (recovered_update_header hlength h.listed.home h.listed.nodup hslots hothers hc).trans
      (hview c hc)
  · change (s.bwrite _ _).bread c = _
    rw [bread_bwrite_of_ne hc.ne_start, List.append_nil]
    exact hview c hc

theorem install (h : LogInv area k base s) (hk : k < MAXOPBLOCKS)
    (hactivity : s.activity = .installTrans tail) (hb : s.lh[tail]? = some b) :
    LogInv area k base
      ((s.bwrite b (s.bread (area.start + tail + 1))).setActivity (.installTrans (tail + 1))) := by
  have hphase := h.phase
  simp only [LogState.Phase, hactivity] at hphase
  obtain ⟨hheader, hrecent, hinstalled⟩ := hphase
  have hbusy := h.busy (by simp [hactivity])
  have hlength : s.lh.length < LOGSIZE := lt_logsize h.listed hk
  obtain ⟨htail, hget⟩ := List.getElem?_eq_some_iff.mp hb
  have hhome : area.Home b := h.listed.home b (List.mem_of_getElem? hb)
  have hpinned : s.pinned = s.lh.drop tail := by rw [LogState.pinned, hactivity]
  have hdrop : s.lh.drop tail = b :: s.lh.drop (tail + 1) := by
    rw [← hget]
    exact List.drop_eq_getElem_cons htail
  have hslot : s.bread (area.start + tail + 1) = s.disk (area.start + tail + 1) :=
    h.bread_of_not_home (not_home_slot (h.slot_lt hk hb))
  have hcached : Cached (Function.update s.disk b (s.bread (area.start + tail + 1)))
      (Function.update s.buf b (some ⟨s.bread (area.start + tail + 1), false⟩))
      (s.lh.drop (tail + 1)) := by
    refine (hpinned ▸ h.cached).bwrite fun c hc hcb ↦ ?_
    rw [hdrop] at hc
    exact (List.mem_cons.mp hc).resolve_left hcb
  have hrecovered : recovered area (Function.update s.disk b (s.bread (area.start + tail + 1))) =
      recovered area s.disk := by
    refine recovered_update_home ?_ hhome (by rwa [hheader])
    rw [hheader]
    exact List.mem_of_getElem? hb
  refine
    { cached := hcached
      listed := h.listed
      recorded := h.recorded
      recoverable := ⟨?_, fun c hc ↦ ?_⟩
      phase := ⟨?_, hrecent, fun i hi c hc ↦ ?_⟩
      view := fun hup c hc ↦ ?_
      reserved := fun hnone ↦ by cases hnone
      busy := fun _ ↦ hbusy }
  · change Listed area k (readHeader (Function.update s.disk _ _ _))
    rw [Function.update_of_ne hhome.ne_start.symm]
    exact h.recoverable.listed
  · change recovered area (Function.update s.disk b _) c = _
    rw [hrecovered]
    exact h.recoverable.content c hc
  · change readHeader (Function.update s.disk _ _ _) = s.lh
    rw [Function.update_of_ne hhome.ne_start.symm]
    exact hheader
  · have hislot : area.start + i + 1 ≠ b := (hhome.ne_slot (h.slot_lt hk hc)).symm
    change Function.update s.disk b _ c = Function.update s.disk b _ _
    rw [Function.update_of_ne hislot]
    rcases Nat.lt_succ_iff_lt_or_eq.mp hi with hlt | rfl
    · have hcb : c ≠ b := by
        rintro rfl
        exact hlt.ne ((List.getElem?_inj (hlt.trans htail) h.listed.nodup).mp (hc.trans hb.symm))
      rw [Function.update_of_ne hcb]
      exact hinstalled i hlt c hc
    · obtain rfl := Option.some.inj (hb.symm.trans hc)
      rw [Function.update_self, hslot]
  · have hcommitting : s.committing = true := hup.resolve_left fun hnone ↦ by cases hnone
    change (s.bwrite _ _).bread c = _
    by_cases hcb : c = b
    · subst hcb
      rw [bread_bwrite_self, hslot, ← recovered_of_getElem? (d := s.disk)
        (by rw [hheader]; exact h.listed.nodup) (by rw [hheader]; exact hb)]
      change _ = replay (contents (s.durable ++ s.recent)) base c
      rw [hrecent, List.append_nil]
      exact h.recoverable.content c hc
    · rw [bread_bwrite_of_ne hcb]
      exact h.view (Or.inr hcommitting) c hc

theorem installed (h : LogInv area k base s) (hactivity : s.activity = .installTrans tail)
    (hend : s.lh.length ≤ tail) :
    LogInv area k base { s.setActivity .clearHead with lh := [] } := by
  have hphase := h.phase
  simp only [LogState.Phase, hactivity] at hphase
  obtain ⟨hheader, hrecent, hinstalled⟩ := hphase
  have hpinned : s.pinned = [] := by
    rw [LogState.pinned, hactivity]
    exact List.drop_eq_nil_of_le hend
  refine
    { cached := (hpinned ▸ h.cached : Cached s.disk s.buf [])
      listed := ⟨List.forall_mem_nil _, List.nodup_nil, Nat.zero_le _⟩
      recorded := h.recorded
      recoverable := h.recoverable
      phase := ⟨rfl, hrecent, fun w hw ↦ ?_⟩
      view := fun hup ↦ h.view (Or.inr (hup.resolve_left fun hnone ↦ by cases hnone))
      reserved := fun hnone ↦ by cases hnone
      busy := fun _ ↦ h.busy (by simp [hactivity]) }
  obtain ⟨i, hi, hw⟩ := mem_logged.mp hw
  change readHeader (s.disk area.start) = _ at hheader
  rw [hw]
  rw [show (s.setActivity .clearHead).disk = s.disk from rfl, hheader] at hi
  exact hinstalled i ((List.getElem?_eq_some_iff.mp hi).1.trans_le hend) w.1 hi

theorem clearHead (h : LogInv area k base s) (hactivity : s.activity = .clearHead) :
    LogInv area k base ((s.bwrite area.start (writeHeader s.lh (s.bread area.start))).setActivity
      (if s.committing then .leave else .none)) := by
  have hphase := h.phase
  simp only [LogState.Phase, hactivity] at hphase
  obtain ⟨hlh, hrecent, hinstalled⟩ := hphase
  have hbusy := h.busy (by simp [hactivity])
  have hpinned : s.pinned = [] := by rw [LogState.pinned, hactivity, hlh]
  rw [hlh]
  have hdisk {c : ℕ} (hc : area.Home c) : Function.update s.disk area.start
      (writeHeader [] (s.bread area.start)) c = s.disk c := Function.update_of_ne hc.ne_start _ _
  have herased : Erased area (Function.update s.disk area.start
      (writeHeader [] (s.bread area.start))) := by
    rw [Erased, Function.update_self]
    exact readHeader_writeHeader_nil
  have hview {c : ℕ} (hc : area.Home c) :
      (s.bwrite area.start (writeHeader [] (s.bread area.start))).bread c = s.bread c :=
    bread_bwrite_of_ne hc.ne_start
  have hcontent {c : ℕ} (hc : area.Home c) :
      recovered area (Function.update s.disk area.start (writeHeader [] (s.bread area.start))) c =
        replay (contents s.durable) base c :=
    (recovered_update_erased hinstalled hc).trans (h.recoverable.content c hc)
  have hlisted : Listed area k [] := ⟨List.forall_mem_nil _, List.nodup_nil, Nat.zero_le _⟩
  have hrecoverable : Recoverable area k base
      (Function.update s.disk area.start (writeHeader [] (s.bread area.start))) s.durable := by
    refine ⟨?_, fun c hc ↦ hcontent hc⟩
    rw [show readHeader _ = [] from herased]
    exact hlisted
  have hcached : Cached (Function.update s.disk area.start (writeHeader [] (s.bread area.start)))
      (Function.update s.buf area.start (some ⟨writeHeader [] (s.bread area.start), false⟩)) s.lh :=
    (hpinned ▸ h.cached).bwrite (List.forall_mem_nil _)
  cases hcommitting : s.committing with
  | true =>
    exact
      { cached := hcached
        listed := hlh ▸ hlisted
        recorded := h.recorded
        recoverable := hrecoverable
        phase := ⟨herased, hcommitting, hlh, hrecent⟩
        view := fun _ c hc ↦ (hview hc).trans (h.view (Or.inr hcommitting) c hc)
        reserved := fun hnone ↦ by cases hnone
        busy := fun _ ↦ hbusy }
  | false =>
    refine
      { cached := hcached
        listed := hlh ▸ hlisted
        recorded := h.recorded
        recoverable := hrecoverable
        phase := ⟨herased, hcommitting, fun c ↦ ?_⟩
        view := fun _ c hc ↦ ?_
        reserved := fun _ ↦ ⟨∅, .none hlh hbusy.2, hbusy.1⟩
        busy := fun hnone ↦ absurd rfl hnone }
    · change c ∈ s.lh ↔ c ∈ s.recent.map LogWrite.block
      rw [hlh, hrecent, List.map_nil]
    · change (s.bwrite _ _).bread c = replay (contents (s.durable ++ s.recent)) base c
      rw [hview hc, hrecent, List.append_nil, ← hcontent hc, recovered_of_empty herased, hdisk hc]
      exact h.cached.bread_eq (by rw [hpinned]; exact List.not_mem_nil)

theorem leave (h : LogInv area k base s) (hactivity : s.activity = .leave) :
    LogInv area k base { s.setActivity .none with committing := false } := by
  have hphase := h.phase
  simp only [LogState.Phase, hactivity] at hphase
  obtain ⟨herased, hcommitting, hlh, hrecent⟩ := hphase
  have hbusy := h.busy (by simp [hactivity])
  have hpinned : s.pinned = s.lh := by rw [LogState.pinned, hactivity]
  refine
    { cached := (hpinned ▸ h.cached : Cached s.disk s.buf s.lh)
      listed := h.listed
      recorded := h.recorded
      recoverable := h.recoverable
      phase := ⟨herased, rfl, fun c ↦ ?_⟩
      view := fun _ ↦ h.view (Or.inr hcommitting)
      reserved := fun _ ↦ ⟨∅, .none hlh hbusy.2, hbusy.1⟩
      busy := fun hnone ↦ absurd rfl hnone }
  change c ∈ s.lh ↔ c ∈ s.recent.map LogWrite.block
  rw [hlh, hrecent, List.map_nil]

end Proceed

/-! ## Buffers that come and go, and crashes -/

/-- What is cached does not matter for the content. -/
theorem congr_buf {buf : ℕ → Option Buf} (h : LogInv area k base s)
    (hcached : Cached s.disk buf s.pinned)
    (hbread : ∀ b, LogState.bread { s with buf := buf } b = s.bread b) :
    LogInv area k base { s with buf := buf } where
  cached := hcached
  listed := h.listed
  recorded := h.recorded
  recoverable := h.recoverable
  phase := by
    have hphase := h.phase
    unfold LogState.Phase at hphase ⊢
    simp only [hbread]
    exact hphase
  view hup b hb := (hbread b).trans (h.view hup b hb)
  reserved := h.reserved
  busy := h.busy

theorem read (h : LogInv area k base s) (b : ℕ) : LogInv area k base
    { s with buf := Function.update s.buf b (some ((s.buf b).getD ⟨s.disk b, false⟩)) } := by
  refine h.congr_buf (h.cached.read b) fun c ↦ ?_
  by_cases hcb : c = b
  · subst hcb
    cases hbuf : s.buf c <;> simp [LogState.bread, hbuf]
  · simp only [LogState.bread, Function.update_of_ne hcb]

theorem evict (h : LogInv area k base s) (hclean : (s.buf b).any Buf.dirty = false) :
    LogInv area k base { s with buf := Function.update s.buf b none } := by
  refine h.congr_buf (h.cached.evict b) fun c ↦ ?_
  by_cases hcb : c = b
  · subst hcb
    cases hbuf : s.buf c with
    | none => simp [LogState.bread, hbuf]
    | some x =>
      rw [hbuf, Option.any_some] at hclean
      simp [LogState.bread, hbuf, h.cached.clean c x hbuf hclean]
  · simp only [LogState.bread, Function.update_of_ne hcb]

theorem crash (h : LogInv area k base s) : LogInv area k base s.crash where
  cached := .empty _ _
  listed := ⟨List.forall_mem_nil _, List.nodup_nil, Nat.zero_le _⟩
  recorded :=
    { logging := fun o b data ho ↦ by
        simp only [LogState.crash] at ho
        cases hop : s.ops o <;> simp [hop] at ho
      ended := fun w hw ↦ by
        simp only [LogState.crash, h.recorded.ended w hw]
      begun := List.forall_mem_nil _
      apart := fun _ _ ↦ List.forall_mem_nil _ }
  recoverable := h.recoverable
  phase := ⟨rfl, rfl, rfl⟩
  view hup := by
    rcases hup with hnone | hcommitting
    · cases hnone
    · cases hcommitting
  reserved hnone := by cases hnone
  busy _ := by
    refine ⟨rfl, fun o ho ↦ ?_⟩
    simp only [LogState.crash] at ho
    cases hop : s.ops o <;> simp [hop, OpState.Open] at ho

/-! ## Runs -/

theorem boot (d : EmptyLog area) : LogInv area k d.disk (LogState.boot d.disk : LogState ι) where
  cached := .empty _ _
  listed := ⟨List.forall_mem_nil _, List.nodup_nil, Nat.zero_le _⟩
  recorded :=
    { logging := fun o b data ho ↦ by cases ho
      ended := List.forall_mem_nil _
      begun := List.forall_mem_nil _
      apart := fun _ _ ↦ List.forall_mem_nil _ }
  recoverable := by
    refine ⟨?_, fun b _ ↦ ?_⟩
    · rw [LogState.boot, d.empty]
      exact ⟨List.forall_mem_nil _, List.nodup_nil, Nat.zero_le _⟩
    · exact congrFun (recovered_of_empty d.empty) b
  phase := ⟨rfl, rfl, rfl⟩
  view hup := by
    rcases hup with hnone | hcommitting
    · cases hnone
    · cases hcommitting
  reserved hnone := by cases hnone
  busy _ := ⟨rfl, fun _ ho ↦ ho⟩

end LogInv

/-- A file system call writes to at most `k` blocks, which are outside of the log. -/
def LogArea.Fits (area : LogArea) (k : ℕ) (s : LogState ι) : LogLabel ι → Prop
  | .checkWrite o b _ => area.Home b ∧ (insert b (writtenBy s.recent o)).card ≤ k
  | _ => True

theorem LogInv.step {s t : LogState ι} {l : LogLabel ι} (h : LogInv area k base s)
    (hk : k < MAXOPBLOCKS) (hfits : area.Fits k s l) (hs : s.step area l = some t) :
    LogInv area k base t := by
  cases LogState.step_cases hs with
  | beginOp hop hactivity _ hspace => exact h.beginOp hk.le hop hactivity hspace
  | tooBig => exact h.halt _
  | outside => exact h.halt _
  | checkWrite hop => exact h.checkWrite hop hfits
  | absorb hop hmem => exact h.absorb hop hmem
  | overrun => exact h.halt _
  | append hop hmem => exact h.append hop hmem
  | endTwice => exact h.halt _
  | endLast hop _ hlast => exact h.endLast hop hlast
  | endOther hop _ hother => exact h.endOther hop hother
  | read => exact h.read _
  | evict hclean => exact h.evict hclean
  | readHead hactivity => exact h.readHead hactivity
  | writeLog hactivity hb => exact h.writeLog hk hactivity hb
  | logWritten hactivity hend => exact h.logWritten hactivity hend
  | writeHead hactivity => exact h.writeHead hk hactivity
  | install hactivity hb => exact h.install hk hactivity hb
  | installed hactivity hend => exact h.installed hactivity hend
  | clearHead hactivity => exact h.clearHead hactivity
  | leave hactivity => exact h.leave hactivity
  | crash => exact h.crash

theorem logInv_of_reachable {d : EmptyLog area} {s : LogState ι} (hk : k < MAXOPBLOCKS)
    (hs : (area.machine d).ReachableVia (area.Fits k) s) : LogInv area k d.disk s := by
  refine hs.invariant (fun s hi ↦ ?_) fun s l t _ h hfits ht ↦ h.step hk hfits ht
  rw [show s = .boot d.disk from hi]
  exact .boot d

end CS537.Log
