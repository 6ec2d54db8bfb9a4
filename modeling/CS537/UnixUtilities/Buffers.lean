import CS537.Foundation.LineBuffers
import CS537.UnixUtilities.RoundTrip

/-!
# The line buffers of my-diff

The calls of `getline` in `main` of `my-diff.c`, in their order.  Both files are read with the same
`read_len`, whereas each has a buffer of its own.  What is printed and whether two lines differ has no
effect on the calls.  They end where `remove_newline` accesses a byte outside of its string and where
the number of a line is too large.
-/

namespace CS537.UnixUtilities

open Foundation

/-- The variables `lineA` and `lineB`, as the sizes of what they point to, and `read_len`. -/
structure Memory where
  lineA : Option ℕ
  lineB : Option ℕ
  readLen : ℕ

/-- The calls of the loop over the rest of the longer file, from the line that has been read. -/
def restCalls (grow : Growth newline) (buffer : Option ℕ) (readLen : ℕ) (line fp : List UInt8) :
    List Call :=
  if (removeNewline (.ofBytes line)).isSome then
    ⟨buffer, readLen⟩ ::
      if _h : (getline newline fp).1 = [] then []
      else
        restCalls grow (some (grow.sizes buffer readLen fp).1) (grow.sizes buffer readLen fp).2
          (getline newline fp).1 (getline newline fp).2
  else []
termination_by fp.length
decreasing_by exact length_rest_lt (getline_append fp) _h

variable (growA growB : Growth newline)

/-- The calls behind the loop over both files. -/
def tailCalls (memory : Memory) (lineA fpA lineB fpB : List UInt8) : List Call :=
  if readReturn lineA = -1 ∧ readReturn lineB ≠ -1 then
    restCalls growB memory.lineB memory.readLen lineB fpB
  else if readReturn lineA ≠ -1 ∧ readReturn lineB = -1 then
    restCalls growA memory.lineA memory.readLen lineA fpA
  else []

/-- The variables behind the two calls of a round. -/
def Memory.afterRound (memory : Memory) (fpA fpB : List UInt8) : Memory :=
  let sizesA := growA.sizes memory.lineA memory.readLen fpA
  let sizesB := growB.sizes memory.lineB sizesA.2 fpB
  ⟨some sizesA.1, some sizesB.1, sizesB.2⟩

/-- The calls of the loop over both files, from the variables before a round. -/
def compareCalls (memory : Memory) (lineno : ℕ) (fpA fpB : List UInt8) : List Call :=
  if lineno < intMax then
    let lineA := (getline newline fpA).1
    let restA := (getline newline fpA).2
    let lineB := (getline newline fpB).1
    let restB := (getline newline fpB).2
    let after := memory.afterRound growA growB fpA fpB
    ⟨memory.lineA, memory.readLen⟩ ::
      ⟨memory.lineB, (growA.sizes memory.lineA memory.readLen fpA).2⟩ ::
        if _h : readReturn lineA = -1 ∨ readReturn lineB = -1 then
          tailCalls growA growB after lineA restA lineB restB
        else if (removeNewline (.ofBytes lineA)).isSome ∧ (removeNewline (.ofBytes lineB)).isSome then
          compareCalls after (lineno + 1) restA restB
        else []
  else []
termination_by fpA.length
decreasing_by exact length_rest_lt (getline_append fpA) (ne_nil_of_readReturn (not_or.mp _h).1)

/-- The calls for two files. -/
def myDiffCalls (fpA fpB : List UInt8) : List Call :=
  compareCalls growA growB ⟨none, none, 0⟩ 0 fpA fpB

/-! ## One round -/

/-- Another round follows these lines. -/
def Goes (lineA lineB : List UInt8) : Prop :=
  (readReturn lineA ≠ -1 ∧ readReturn lineB ≠ -1) ∧
    (removeNewline (.ofBytes lineA)).isSome ∧ (removeNewline (.ofBytes lineB)).isSome

/-- The rest of the first file is read behind these lines. -/
def Remains (lineA lineB : List UInt8) : Prop :=
  (readReturn lineA ≠ -1 ∧ readReturn lineB = -1) ∧ (removeNewline (.ofBytes lineA)).isSome

variable {growA growB} {grow : Growth newline} {buffer : Option ℕ} {readLen lineno a b : ℕ}
  {line fp lineA fpA lineB fpB fileA fileB : List UInt8} {memory : Memory}

/-- Only the first of the calls in the loop over one file can be wrong. -/
theorem restCalls_iff : (∀ call ∈ restCalls grow buffer readLen line fp, call.TrueCapacity) ↔
    ((removeNewline (.ofBytes line)).isSome → Call.TrueCapacity ⟨buffer, readLen⟩) := by
  fun_induction restCalls grow buffer readLen line fp with
  | case1 buffer readLen line fp hline ih =>
    rw [List.forall_mem_cons, forall_prop_of_true hline, and_iff_left_iff_imp]
    intro hcall
    split
    next => exact List.forall_mem_nil _
    next hend => exact (ih hend).mpr fun _ ↦ Call.trueCapacity_some.mpr (grow.sizes_le hcall)
  | case2 buffer readLen line fp hline =>
    exact iff_of_true (List.forall_mem_nil _) fun h ↦ absurd h hline

/-- Behind the loop over both files, the recorded size is that of the second buffer. -/
theorem tailCalls_iff {c d n : ℕ} (hn : n ≤ d) :
    (∀ call ∈ tailCalls growA growB ⟨some c, some d, n⟩ lineA fpA lineB fpB, call.TrueCapacity) ↔
      (Remains lineA lineB → n ≤ c) := by
  rw [tailCalls]
  split
  next hB =>
    rw [restCalls_iff]
    exact iff_of_true (fun _ ↦ Call.trueCapacity_some.mpr hn) fun h ↦ absurd hB.1 h.1.1
  next =>
    split
    next hA =>
      rw [restCalls_iff, Call.trueCapacity_some]
      exact ⟨fun h hremains ↦ h hremains.2, fun h hline ↦ h ⟨hA, hline⟩⟩
    next hA => exact iff_of_true (List.forall_mem_nil _) fun h ↦ absurd h.1 hA

theorem compareCalls_overflow (hlineno : ¬lineno < intMax) :
    compareCalls growA growB memory lineno fpA fpB = [] := by
  rw [compareCalls, if_neg hlineno]

/-- What the calls from a round on need. -/
theorem compareCalls_iff (hlineno : lineno < intMax) :
    (∀ call ∈ compareCalls growA growB memory lineno fpA fpB, call.TrueCapacity) ↔
      Call.TrueCapacity ⟨memory.lineA, memory.readLen⟩ ∧
      Call.TrueCapacity ⟨memory.lineB, (growA.sizes memory.lineA memory.readLen fpA).2⟩ ∧
      (Remains (getline newline fpA).1 (getline newline fpB).1 →
        Call.TrueCapacity ⟨(memory.afterRound growA growB fpA fpB).lineA,
          (memory.afterRound growA growB fpA fpB).readLen⟩) ∧
      (Goes (getline newline fpA).1 (getline newline fpB).1 →
        ∀ call ∈ compareCalls growA growB (memory.afterRound growA growB fpA fpB) (lineno + 1)
          (getline newline fpA).2 (getline newline fpB).2, call.TrueCapacity) := by
  rw [compareCalls, if_pos hlineno, List.forall_mem_cons, List.forall_mem_cons]
  refine and_congr_right fun _ ↦ and_congr_right fun hcallB ↦ ?_
  split
  next hend =>
    rw [Memory.afterRound, tailCalls_iff (growB.sizes_le hcallB), Call.trueCapacity_some]
    exact (and_iff_left fun hgoes ↦ absurd hend (not_or.mpr hgoes.1)).symm
  next hread =>
    have hremains : ¬Remains (getline newline fpA).1 (getline newline fpB).1 :=
      fun h ↦ hread (Or.inr h.1.2)
    split
    next hgoes => simp [hremains, Goes, not_or.mp hread, hgoes]
    next hgoes => simp [hremains, Goes, hgoes]

/-! ## The rounds of a run -/

/-- The loop over both files comes to the lines `k`, counted from 0. -/
def Reaches (fileA fileB : List UInt8) (k : ℕ) : Prop :=
  k < intMax ∧ ∀ j < k, Goes (lineAt newline fileA j) (lineAt newline fileB j)

variable (growA growB fileA fileB)

/-- The size of the buffer that is allocated for the first file. -/
def sizeA : ℕ := growA.allocated 0 fileA

/-- The size of the buffer behind each line of the second file, as long as that of the first one
remains. -/
def sizeB (k : ℕ) : ℕ := growB.sizeAfter (sizeA growA fileA) fileB k

/-- The variables before each round, as long as the buffer of the first file remains. -/
def memoryAt : ℕ → Memory
  | 0 => ⟨none, none, 0⟩
  | k + 1 =>
    ⟨some (sizeA growA fileA), some (sizeB growA growB fileA fileB k), sizeB growA growB fileA fileB k⟩

/-- What the calls of a round need: the line of the first file fits into the buffer of the second. -/
def Fits : ℕ → Prop
  | 0 => True
  | k + 1 => sizeB growA growB fileA fileB k ≤ sizeA growA fileA ∧
    (lineAt newline fileA (k + 1)).length < sizeB growA growB fileA fileB k

variable {growA growB fileA fileB}

theorem fits_iff (k : ℕ) : Fits growA growB fileA fileB k ↔
    Call.TrueCapacity ⟨(memoryAt growA growB fileA fileB k).lineA,
      (memoryAt growA growB fileA fileB k).readLen⟩ ∧
    Call.TrueCapacity ⟨(memoryAt growA growB fileA fileB k).lineB,
      (growA.sizes (memoryAt growA growB fileA fileB k).lineA
        (memoryAt growA growB fileA fileB k).readLen (restAfter newline fileA k)).2⟩ := by
  cases k with
  | zero => exact iff_of_true trivial ⟨Call.trueCapacity_none _, Call.trueCapacity_none _⟩
  | succ k =>
    simp only [memoryAt, Call.trueCapacity_some, Growth.sizes_snd_le_iff]
    rfl

theorem afterRound_memoryAt {k : ℕ} (hfits : Fits growA growB fileA fileB k) :
    (memoryAt growA growB fileA fileB k).afterRound growA growB (restAfter newline fileA k)
      (restAfter newline fileB k) = memoryAt growA growB fileA fileB (k + 1) := by
  cases k with
  | zero => rfl
  | succ k =>
    simp only [memoryAt, Memory.afterRound, growA.sizes_of_lt hfits.2, growB.sizes_fst_eq]
    rfl

/-- The calls from a round on. -/
def callsFrom (growA growB : Growth newline) (fileA fileB : List UInt8) (k : ℕ) : List Call :=
  compareCalls growA growB (memoryAt growA growB fileA fileB k) k (restAfter newline fileA k)
    (restAfter newline fileB k)

theorem callsFrom_iff (k : ℕ) :
    (∀ call ∈ callsFrom growA growB fileA fileB k, call.TrueCapacity) ↔
      (k < intMax → Fits growA growB fileA fileB k ∧
        (Remains (lineAt newline fileA k) (lineAt newline fileB k) →
          sizeB growA growB fileA fileB k ≤ sizeA growA fileA)) ∧
      (k < intMax ∧ Goes (lineAt newline fileA k) (lineAt newline fileB k) →
        ∀ call ∈ callsFrom growA growB fileA fileB (k + 1), call.TrueCapacity) := by
  by_cases hk : k < intMax
  · simp only [hk, forall_true_left, true_and]
    rw [callsFrom, compareCalls_iff hk, ← and_assoc, ← fits_iff, and_assoc]
    refine and_congr_right fun hfits ↦ ?_
    rw [afterRound_memoryAt hfits]
    exact and_congr_left' (imp_congr_right fun _ ↦ Call.trueCapacity_some)
  · rw [callsFrom, compareCalls_overflow hk]
    simp [hk]

theorem reaches_iff {k : ℕ} : Reaches fileA fileB k ↔ k < intMax ∧
    ∀ j < k, j < intMax ∧ Goes (lineAt newline fileA j) (lineAt newline fileB j) :=
  and_congr_right fun hk ↦
    ⟨fun h j hj ↦ ⟨hj.trans hk, h j hj⟩, fun h j hj ↦ (h j hj).2⟩

/-- What an output needs of a round. -/
theorem compareFiles_round {out : List UInt8} {lastDiff : ℤ}
    (h : compareFiles lineno lastDiff fpA fpB = some out) :
    (lineno < intMax ∧
      (readReturn (getline newline fpA).1 = -1 ∨ readReturn (getline newline fpB).1 = -1)) ∨
    ((lineno < intMax ∧ Goes (getline newline fpA).1 (getline newline fpB).1) ∧
      ∃ lastDiff' more, compareFiles (lineno + 1) lastDiff' (getline newline fpA).2
        (getline newline fpB).2 = some more) := by
  rw [compareFiles] at h
  split at h
  next hlineno =>
    dsimp only at h
    split at h
    next hend => exact Or.inl ⟨hlineno, hend⟩
    next hread =>
      obtain ⟨strippedA, hA, h⟩ := Option.bind_eq_some_iff.mp h
      obtain ⟨strippedB, hB, h⟩ := Option.bind_eq_some_iff.mp h
      have hgoes : Goes (getline newline fpA).1 (getline newline fpB).1 :=
        ⟨not_or.mp hread, Option.isSome_of_eq_some hA, Option.isSome_of_eq_some hB⟩
      refine Or.inr ⟨⟨hlineno, hgoes⟩, ?_⟩
      split at h
      · obtain ⟨removed, -, h⟩ := Option.bind_eq_some_iff.mp h
        obtain ⟨added, -, h⟩ := Option.bind_eq_some_iff.mp h
        obtain ⟨more, hmore, -⟩ := Option.bind_eq_some_iff.mp h
        exact ⟨_, more, hmore⟩
      · exact ⟨_, out, h⟩
  next => cases h

/-- A run with an output reaches the end of one of the files. -/
theorem exists_reaches_of_myDiff {out : List UInt8} (h : myDiff fileA fileB = some out) :
    ∃ k, Reaches fileA fileB k ∧
      (readReturn (lineAt newline fileA k) = -1 ∨ readReturn (lineAt newline fileB k) = -1) := by
  obtain ⟨k, hgoes, hk, hend⟩ := exists_last_round
    (Q := fun k ↦ ∃ lastDiff out, compareFiles k lastDiff (restAfter newline fileA k)
      (restAfter newline fileB k) = some out)
    (fun k ⟨_, _, hk⟩ ↦ compareFiles_round hk) (fun k hk ↦ hk.1) ⟨-1, out, h⟩
  exact ⟨k, reaches_iff.mpr ⟨hk, hgoes⟩, hend⟩

/-- The buffers of the two files have sizes between which `read_len` makes no difference. -/
structure SizesAgree (growA growB : Growth newline) (fileA fileB : List UInt8) : Prop where
  rounds : ∀ k, Reaches fileA fileB (k + 1) →
    sizeB growA growB fileA fileB k ≤ sizeA growA fileA ∧
      (lineAt newline fileA (k + 1)).length < sizeB growA growB fileA fileB k
  rest : ∀ k, Reaches fileA fileB k → Remains (lineAt newline fileA k) (lineAt newline fileB k) →
    sizeB growA growB fileA fileB k ≤ sizeA growA fileA

/-- The calls of a round and those behind the last one. -/
theorem sizesAgree_iff : SizesAgree growA growB fileA fileB ↔
    ∀ k, Reaches fileA fileB k → Fits growA growB fileA fileB k ∧
      (Remains (lineAt newline fileA k) (lineAt newline fileB k) →
        sizeB growA growB fileA fileB k ≤ sizeA growA fileA) := by
  constructor
  · intro h k hk
    refine ⟨?_, h.rest k hk⟩
    cases k with
    | zero => trivial
    | succ k => exact h.rounds k hk
  · exact fun h ↦ ⟨fun k hk ↦ (h (k + 1) hk).1, fun k hk ↦ (h k hk).2⟩

theorem forall_callsFrom_iff : (∀ call ∈ callsFrom growA growB fileA fileB 0, call.TrueCapacity) ↔
    ∀ k, Reaches fileA fileB k → Fits growA growB fileA fileB k ∧
      (Remains (lineAt newline fileA k) (lineAt newline fileB k) →
        sizeB growA growB fileA fileB k ≤ sizeA growA fileA) := by
  rw [iff_forall_reached (P := fun k ↦ ∀ call ∈ callsFrom growA growB fileA fileB k, call.TrueCapacity)
    callsFrom_iff fun _ h ↦ h.1]
  refine forall_congr' fun k ↦ ?_
  rw [reaches_iff, and_imp]
  exact ⟨fun h hk hgo ↦ h hgo hk, fun h hgo hk ↦ h hk hgo⟩

/-- At every call the stored size is not larger than the buffer if and only if the sizes agree. -/
theorem myDiffCalls_iff (growA growB : Growth newline) (fileA fileB : List UInt8) :
    (∀ call ∈ myDiffCalls growA growB fileA fileB, call.TrueCapacity) ↔
      SizesAgree growA growB fileA fileB :=
  forall_callsFrom_iff.trans sizesAgree_iff.symm

/-! ## Buffers that differ -/

/-- A larger buffer for the first line of the second file is enough for a wrong size in the next
round. -/
theorem not_forall_callsFrom (hround : Reaches fileA fileB 1)
    (hsize : sizeA growA fileA < growB.allocated (sizeA growA fileA) fileB) :
    ¬∀ call ∈ callsFrom growA growB fileA fileB 0, call.TrueCapacity := by
  intro h
  have hfits : Fits growA growB fileA fileB 1 := (forall_callsFrom_iff.mp h 1 hround).1
  exact Nat.not_le.mpr hsize hfits.1

/-- Sizes of an implementation that begins with 120 bytes and doubles what is stored. -/
def doubling : Growth newline where
  allocated _ fp :=
    if (getline newline fp).1.length < 120 then 120 else max 240 ((getline newline fp).1.length + 1)
  reallocated n fp := max (2 * n) ((getline newline fp).1.length + 1)
  allocated_gt n fp := by split <;> omega
  reallocated_gt n fp := by omega

/-- A line with `a`, and one of 126 bytes. -/
def shortFirst : List UInt8 := [97, newline] ++ List.replicate 125 97 ++ [newline]

/-- A line of 131 bytes, and one with `b`. -/
def longFirst : List UInt8 := List.replicate 130 98 ++ [newline] ++ [98, newline]

/-! ## Files of text -/

/-- A file without null characters, and not too long for numbers of type `int`. -/
structure Ordinary (file : List UInt8) : Prop where
  noNul : 0 ∉ file
  small : file.length < intMax

namespace Ordinary

variable {file : List UInt8} {k : ℕ}

theorem short_lineAt (h : Ordinary file) (k : ℕ) : Short (lineAt newline file k) :=
  (length_lineAt_le k).trans h.small.le

theorem rawLine_lineAt (h : Ordinary file) (hk : lineAt newline file k ≠ []) :
    RawLine (lineAt newline file k) :=
  rawLine_getline (notMem_restAfter h.noNul k) (mt getline_eq_nil_iff.mpr hk)

theorem readReturn_iff (h : Ordinary file) :
    readReturn (lineAt newline file k) = -1 ↔ (lines newline file).length ≤ k := by
  rw [← lineAt_eq_nil_iff]
  refine ⟨fun hread ↦ of_not_not fun hk ↦ ?_, fun hk ↦ if_pos hk⟩
  rw [(h.rawLine_lineAt hk).readReturn_eq, toInt_of_le (h.short_lineAt k)] at hread
  omega

theorem isSome_removeNewline (h : Ordinary file) (hk : ¬(lines newline file).length ≤ k) :
    (removeNewline (.ofBytes (lineAt newline file k))).isSome := by
  have hne : lineAt newline file k ≠ [] := mt lineAt_eq_nil_iff.mp hk
  obtain ⟨s, hs, -⟩ := (h.rawLine_lineAt hne).removeNewline_some ((h.short_lineAt k).held hne)
  exact Option.isSome_of_eq_some hs

end Ordinary

/-- The rounds go on as long as both files have a line. -/
theorem goes_iff {k : ℕ} (hA : Ordinary fileA) (hB : Ordinary fileB) :
    Goes (lineAt newline fileA k) (lineAt newline fileB k) ↔
      k < (lines newline fileA).length ∧ k < (lines newline fileB).length := by
  rw [Goes, ne_eq, ne_eq, hA.readReturn_iff, hB.readReturn_iff, Nat.not_le, Nat.not_le,
    and_iff_left_iff_imp]
  exact fun h ↦ ⟨hA.isSome_removeNewline (Nat.not_le.mpr h.1),
    hB.isSome_removeNewline (Nat.not_le.mpr h.2)⟩

theorem remains_iff {k : ℕ} (hA : Ordinary fileA) (hB : Ordinary fileB) :
    Remains (lineAt newline fileA k) (lineAt newline fileB k) ↔
      k < (lines newline fileA).length ∧ (lines newline fileB).length ≤ k := by
  rw [Remains, ne_eq, hA.readReturn_iff, hB.readReturn_iff, Nat.not_le, and_iff_left_iff_imp]
  exact fun h ↦ hA.isSome_removeNewline (Nat.not_le.mpr h.1)

theorem reaches_iff_of_ordinary {k : ℕ} (hA : Ordinary fileA) (hB : Ordinary fileB) :
    Reaches fileA fileB k ↔
      k ≤ (lines newline fileA).length ∧ k ≤ (lines newline fileB).length := by
  simp only [Reaches, goes_iff hA hB]
  constructor
  · rintro ⟨-, h⟩
    constructor <;> refine le_of_forall_lt fun j hj ↦ ?_
    · exact (h j hj).1
    · exact (h j hj).2
  · rintro ⟨hkA, hkB⟩
    have hk : k < intMax := hkA.trans_lt ((length_lines_le fileA).trans_lt hA.small)
    exact ⟨hk, fun j hj ↦ ⟨hj.trans_le hkA, hj.trans_le hkB⟩⟩

/-- For files of text, as long as both have lines, the sizes are compared, and those of the second one
once more if the first one has more lines. -/
theorem sizesAgree_iff_of_ordinary (hA : Ordinary fileA) (hB : Ordinary fileB) :
    SizesAgree growA growB fileA fileB ↔
      (∀ k < (lines newline fileA).length, k < (lines newline fileB).length →
        sizeB growA growB fileA fileB k ≤ sizeA growA fileA ∧
          (lineAt newline fileA (k + 1)).length < sizeB growA growB fileA fileB k) ∧
      ((lines newline fileB).length < (lines newline fileA).length →
        sizeB growA growB fileA fileB (lines newline fileB).length ≤ sizeA growA fileA) := by
  constructor
  · intro h
    refine ⟨fun k hkA hkB ↦ h.rounds k ((reaches_iff_of_ordinary hA hB).mpr ⟨hkA, hkB⟩), fun hlt ↦ ?_⟩
    exact h.rest _ ((reaches_iff_of_ordinary hA hB).mpr ⟨hlt.le, le_rfl⟩)
      ((remains_iff hA hB).mpr ⟨hlt, le_rfl⟩)
  · rintro ⟨hrounds, hrest⟩
    constructor
    · intro k hk
      obtain ⟨hkA, hkB⟩ := (reaches_iff_of_ordinary hA hB).mp hk
      exact hrounds k hkA hkB
    · intro k hk hremains
      obtain ⟨hkA, hkB⟩ := (remains_iff hA hB).mp hremains
      obtain rfl := Nat.le_antisymm ((reaches_iff_of_ordinary hA hB).mp hk).2 hkB
      exact hrest hkA

/-- Lines that fit into the buffers that are allocated for the first ones. -/
theorem sizesAgree_of_fit (hsize : growB.allocated (sizeA growA fileA) fileB ≤ sizeA growA fileA)
    (hfitA : ∀ k, (lineAt newline fileA k).length < growB.allocated (sizeA growA fileA) fileB)
    (hfitB : ∀ k, (lineAt newline fileB k).length < growB.allocated (sizeA growA fileA) fileB) :
    SizesAgree growA growB fileA fileB := by
  have hB (k : ℕ) : sizeB growA growB fileA fileB k = growB.allocated (sizeA growA fileA) fileB :=
    Growth.sizeAfter_of_fit hfitB k
  constructor
  · intro k _
    rw [hB]
    exact ⟨hsize, hfitA (k + 1)⟩
  · intro k _ _
    rw [hB]
    exact hsize

/-- The buffer of `shortFirst` has 120 bytes when 240 are passed for it. -/
theorem myDiffCalls_shortFirst_longFirst :
    ¬∀ call ∈ myDiffCalls doubling doubling shortFirst longFirst, call.TrueCapacity := by
  have hlengthA : shortFirst.length = 128 := by simp [shortFirst]
  have hlengthB : longFirst.length = 133 := by simp [longFirst]
  have hA : Ordinary shortFirst := ⟨by decide, by unfold intMax; omega⟩
  have hB : Ordinary longFirst := ⟨by decide, by unfold intMax; omega⟩
  have hlineA : (getline newline shortFirst).1.length = 2 := by
    have ha : newline ∉ ([97] : List UInt8) := by decide
    exact congrArg (fun read ↦ read.1.length) (getline_line ha)
  have hlineB : (getline newline longFirst).1.length = 131 := by
    have hb : newline ∉ List.replicate 130 98 :=
      fun h ↦ absurd (List.eq_of_mem_replicate h) (by decide)
    rw [longFirst, List.append_assoc, List.singleton_append, getline_line hb, List.length_append,
      List.length_replicate]
    rfl
  change ¬∀ call ∈ callsFrom doubling doubling shortFirst longFirst 0, call.TrueCapacity
  refine not_forall_callsFrom ((reaches_iff_of_ordinary hA hB).mpr ⟨?_, ?_⟩) ?_
  · exact List.length_pos_iff.mpr (mt lines_eq_nil_iff.mp (List.cons_ne_nil _ _))
  · exact List.length_pos_iff.mpr (mt lines_eq_nil_iff.mp (List.cons_ne_nil _ _))
  · simp only [sizeA, doubling, hlineA, hlineB]
    decide

end CS537.UnixUtilities
