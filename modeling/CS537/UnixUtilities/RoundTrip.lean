import CS537.UnixUtilities.Patch

/-!
# The output is a patch

Applied to the lines of the first file, the output of `my-diff` gives those of the second one, as long
as the numbers and lengths fit into an `int`.
-/

namespace CS537.UnixUtilities

open Foundation

/-- The length of the line is a value of type `int`. -/
def Short (line : List UInt8) : Prop := line.length ≤ intMax

/-- `remove_newline` finds a byte to look at. -/
def Held (line : List UInt8) : Prop := 0 < toInt line.length

/-- `printf` can count the line with its mark and its newline. -/
def Printable (line : List UInt8) : Prop := (chomp newline line).length + 3 ≤ intMax

instance (line : List UInt8) : Decidable (Short line) := Nat.decLe _ _
instance (line : List UInt8) : Decidable (Held line) := Int.decLt _ _
instance (line : List UInt8) : Decidable (Printable line) := Nat.decLe _ _

/-- Lines at the same place of the files that are found to be equal, or that can be printed. -/
def Comparable (a b : List UInt8) : Prop :=
  (Held a ∧ a = b) ∨ (Short a ∧ Short b ∧ chomp newline a = chomp newline b) ∨
    (Printable a ∧ Printable b)

/-- The lines of two files behind the first `lineno` ones can be compared.  Lines of a length that is -1
as an `int` are taken for the ends of the files. -/
def Legible : ℕ → List (List UInt8) → List (List UInt8) → Prop
  | lineno, [], linesB => lineno < intMax ∧ ∀ line ∈ linesB, Printable line
  | lineno, linesA, [] => lineno < intMax ∧ ∀ line ∈ linesA, Printable line
  | lineno, a :: linesA, b :: linesB =>
    lineno < intMax ∧
      if toInt a.length = -1 ∧ toInt b.length = -1 then
        (a :: linesA).map (chomp newline) = (b :: linesB).map (chomp newline)
      else Comparable a b ∧ Legible (lineno + 1) linesA linesB

/-- The lines of a file without their newlines. -/
def fileLines (file : List UInt8) : List (List UInt8) := (lines newline file).map (chomp newline)

/-- The output makes the second file out of the first one, and it is empty if they have the same
lines. -/
structure FaithfulPatch (fileA fileB : List UInt8) : Prop where
  patch : (myDiff fileA fileB).bind (patchLines 1 (fileLines fileA)) = some (fileLines fileB)
  empty : myDiff fileA fileB = some [] ↔ fileLines fileA = fileLines fileB

/-- A line as `getline` returns it. -/
structure RawLine (line : List UInt8) : Prop where
  ne_nil : line ≠ []
  noNul : 0 ∉ line
  noNewline : newline ∉ line.dropLast

variable {line a b fp fpA fpB : List UInt8} {mark : UInt8} {n lineno : ℕ} {lastDiff : ℤ}

/-! ## Lengths -/

theorem toInt_of_le (hn : n ≤ intMax) : toInt n = n := by
  unfold intMax at hn
  unfold toInt
  rw [Int.bmod_def]
  omega

theorem toInt_bounds (hn : intMax < n) : toInt n < n - 1 := by
  unfold intMax at hn
  unfold toInt
  rw [Int.bmod_def]
  omega

theorem Short.held (hshort : Short line) (hne : line ≠ []) : Held line := by
  rw [Held, toInt_of_le hshort]
  exact Int.natCast_pos.mpr (List.length_pos_iff.mpr hne)

theorem length_le_length_chomp (line : List UInt8) :
    line.length ≤ (chomp newline line).length + 1 := by
  rw [chomp]
  split
  · rw [List.length_dropLast]
    omega
  · exact Nat.le_succ _

theorem Printable.short (h : Printable line) : Short line := by
  rw [Printable] at h
  have hlength := length_le_length_chomp line
  exact Nat.le_trans hlength (Nat.le_trans (by omega) h)

/-! ## The lines that are read -/

theorem rawLine_getline (hfp : 0 ∉ fp) (hne : fp ≠ []) : RawLine (getline newline fp).1 where
  ne_nil := getline_ne_nil hne
  noNul := (notMem_getline hfp).1
  noNewline := notMem_dropLast_getline fp

theorem RawLine.bytes_ofBytes (hline : RawLine line) : (CString.ofBytes line).bytes = line :=
  List.takeWhile_eq_self_iff.mpr fun _ hc ↦ decide_eq_true fun heq ↦ hline.noNul (heq ▸ hc)

theorem RawLine.readReturn_eq (hline : RawLine line) : readReturn line = toInt line.length :=
  if_neg hline.ne_nil

/-- What `remove_newline` leaves of a line. -/
def keptBytes (line : List UInt8) : List UInt8 := if Short line then chomp newline line else line

theorem keptBytes_printable : (keptBytes line).length + 3 ≤ intMax ↔ Printable line := by
  rw [keptBytes]
  split
  next => exact Iff.rfl
  next hlong =>
    refine iff_of_false (fun h ↦ hlong ?_) (mt Printable.short hlong)
    exact Nat.le_trans (Nat.le_add_right _ 3) h

theorem RawLine.removeNewline_none (hline : RawLine line) (hheld : ¬Held line) :
    removeNewline (.ofBytes line) = none := by
  simp only [removeNewline, hline.bytes_ofBytes]
  exact if_neg hheld

theorem RawLine.removeNewline_some (ha : RawLine a) (hheld : Held a) :
    ∃ s, removeNewline (.ofBytes a) = some s ∧ s.bytes = keptBytes a := by
  have hlength : a.length = a.dropLast.length + 1 := by
    rw [List.length_dropLast]
    exact (Nat.succ_pred_eq_of_pos (List.length_pos_iff.mpr ha.ne_nil)).symm
  have hpos : 0 < toInt a.length := hheld
  simp only [removeNewline, ha.bytes_ofBytes, if_pos hpos, keptBytes]
  by_cases hshort : Short a
  · have hindex : (toInt a.length - 1).toNat = a.length - 1 := by
      rw [toInt_of_le hshort]
      omega
    simp only [if_pos hshort, hindex, ← List.getLast?_eq_getElem?, chomp, List.dropLast_eq_take]
    split
    · exact ⟨_, rfl, rfl⟩
    · exact ⟨_, rfl, ha.bytes_ofBytes⟩
  · have hindex : (toInt a.length - 1).toNat < a.dropLast.length := by
      have hbounds := toInt_bounds (Nat.not_le.mp hshort)
      unfold Held at hheld
      omega
    have hbyte : a[(toInt a.length - 1).toNat]? ≠ some newline := by
      intro h
      refine ha.noNewline (List.mem_of_getElem? (i := (toInt a.length - 1).toNat) ?_)
      rw [List.dropLast_eq_take, List.getElem?_take_of_lt, h]
      rwa [List.length_dropLast] at hindex
    rw [if_neg hshort, if_neg hbyte]
    exact ⟨_, rfl, ha.bytes_ofBytes⟩

/-! ## What is printed -/

theorem printLine_eq (mark : UInt8) {s : CString} (hs : s.bytes = keptBytes line) :
    printLine mark s =
      if Printable line then some (mark :: blank :: chomp newline line ++ [newline]) else none := by
  have hcount : (mark :: blank :: s.bytes ++ [newline]).length ≤ intMax ↔ Printable line := by
    rw [← keptBytes_printable, hs, List.length_append]
    exact Iff.rfl
  unfold printLine
  by_cases hprint : Printable line
  · rw [if_pos (hcount.mpr hprint), if_pos hprint, hs, keptBytes, if_pos hprint.short]
  · rw [if_neg (mt hcount.mp hprint), if_neg hprint]

/-- One round of the loop over the rest of a file. -/
theorem printRest_step (hline : RawLine line) : printRest mark line fp =
    if Printable line then
      if (getline newline fp).1 = [] then some (mark :: blank :: chomp newline line ++ [newline])
      else (printRest mark (getline newline fp).1 (getline newline fp).2).map
        (mark :: blank :: chomp newline line ++ [newline] ++ ·)
    else none := by
  rw [printRest]
  by_cases hheld : Held line
  · obtain ⟨s, hremove, hs⟩ := hline.removeNewline_some hheld
    rw [hremove, Option.bind_eq_bind, Option.bind_some, printLine_eq mark hs]
    split
    next =>
      rw [Option.bind_eq_bind, Option.bind_some]
      split
      next => rfl
      next => rw [Option.map_eq_bind]; rfl
    next => rfl
  · rw [if_neg fun h : Printable line ↦ hheld (h.short.held hline.ne_nil),
      hline.removeNewline_none hheld]
    rfl

/-- The loop prints the lines that are left if all of them can be printed. -/
theorem printRest_eq (hline : RawLine line) (hfp : 0 ∉ fp) : printRest mark line fp =
    if ∀ l ∈ line :: lines newline fp, Printable l then
      some (markedLines mark ((line :: lines newline fp).map (chomp newline)))
    else none := by
  induction hmore : lines newline fp generalizing line fp with
  | nil =>
    rw [lines_eq_nil_iff.mp hmore, printRest_step hline, markedLines]
    simp [getline]
  | cons next more ih =>
    obtain ⟨hnext, hrest⟩ := getline_of_lines hmore
    have hraw := rawLine_getline hfp (ne_nil_of_lines hmore)
    rw [printRest_step hline, if_neg hraw.ne_nil,
      ih hraw (notMem_getline hfp).2 hrest, hnext]
    by_cases hprint : Printable line
    · rw [if_pos hprint]
      by_cases hall : ∀ l ∈ next :: more, Printable l
      · rw [if_pos hall, if_pos (List.forall_mem_cons.mpr ⟨hprint, hall⟩)]
        rfl
      · rw [if_neg hall, if_neg fun h ↦ hall (List.forall_mem_cons.mp h).2]
        rfl
    · rw [if_neg hprint, if_neg fun h ↦ hprint (List.forall_mem_cons.mp h).1]

/-- One round of the loop over both files, if none of them seems to be at its end. -/
theorem compareFiles_step (hlineno : lineno < intMax) (hA : (getline newline fpA).1 = a)
    (hB : (getline newline fpB).1 = b) (ha : RawLine a) (hb : RawLine b)
    (hread : ¬(readReturn a = -1 ∨ readReturn b = -1)) :
    compareFiles lineno lastDiff fpA fpB =
      if Held a ∧ Held b then
        if keptBytes a = keptBytes b then
          compareFiles (lineno + 1) lastDiff (getline newline fpA).2 (getline newline fpB).2
        else if Printable a ∧ Printable b then
          (compareFiles (lineno + 1) (lineno + 1 : ℕ) (getline newline fpA).2
            (getline newline fpB).2).map fun more ↦ printLineno lastDiff (lineno + 1) ++
              (removedMark :: blank :: chomp newline a ++
                newline :: (addedMark :: blank :: chomp newline b ++ newline :: more))
        else none
      else none := by
  rw [compareFiles, if_pos hlineno]
  simp only [hA, hB, dif_neg hread]
  by_cases hheldA : Held a
  · obtain ⟨s, hs, hsa⟩ := ha.removeNewline_some hheldA
    by_cases hheldB : Held b
    · obtain ⟨t, ht, htb⟩ := hb.removeNewline_some hheldB
      have hequal : strcmp s t ≠ 0 ↔ ¬keptBytes a = keptBytes b := by
        rw [ne_eq, strcmp_eq_zero_iff, ← hsa, ← htb]
        exact not_congr ⟨congrArg _, CString.ext⟩
      rw [if_pos ⟨hheldA, hheldB⟩, hs, ht]
      simp only [Option.bind_eq_bind, Option.bind_some, hequal, printLine_eq _ hsa, printLine_eq _ htb]
      by_cases hkept : keptBytes a = keptBytes b
      · simp only [hkept, not_true_eq_false, if_false, if_true]
      · by_cases hprintA : Printable a
        · by_cases hprintB : Printable b
          · simp [hkept, hprintA, hprintB, Option.map_eq_bind]
          · simp [hkept, hprintA, hprintB]
        · simp [hkept, hprintA]
    · rw [if_neg fun h ↦ hheldB h.2, hs, hb.removeNewline_none hheldB]
      rfl
  · rw [if_neg fun h ↦ hheldA h.1, ha.removeNewline_none hheldA]
    rfl

/-! ## Lines that are compared -/

theorem keptBytes_of_short (h : Short line) : keptBytes line = chomp newline line := if_pos h

theorem length_chomp_le (line : List UInt8) : (chomp newline line).length ≤ line.length := by
  rw [chomp]
  split
  · exact (List.dropLast_sublist line).length_le
  · exact le_rfl

theorem keptBytes_ne (ha : Short a) (hb : ¬Short b) : keptBytes a ≠ keptBytes b := by
  rw [keptBytes_of_short ha, keptBytes, if_neg hb]
  intro heq
  refine hb ?_
  calc b.length
    _ = (chomp newline a).length := congrArg List.length heq.symm
    _ ≤ a.length := length_chomp_le a
    _ ≤ intMax := ha

theorem keptBytes_eq_iff : keptBytes a = keptBytes b ↔
    a = b ∨ (Short a ∧ Short b ∧ chomp newline a = chomp newline b) := by
  by_cases ha : Short a
  · by_cases hb : Short b
    · rw [keptBytes_of_short ha, keptBytes_of_short hb, and_iff_right ha, and_iff_right hb]
      exact ⟨.inr, fun h ↦ h.elim (congrArg _) id⟩
    · exact iff_of_false (keptBytes_ne ha hb)
        fun h ↦ h.elim (fun heq ↦ hb (heq ▸ ha)) fun h ↦ hb h.2.1
  · by_cases hb : Short b
    · exact iff_of_false (keptBytes_ne hb ha).symm
        fun h ↦ h.elim (fun heq ↦ ha (heq ▸ hb)) fun h ↦ ha h.1
    · rw [keptBytes, keptBytes, if_neg ha, if_neg hb]
      exact ⟨.inl, fun h ↦ h.elim id fun h ↦ absurd h.1 ha⟩

theorem chomp_eq_of_keptBytes_eq (h : keptBytes a = keptBytes b) :
    chomp newline a = chomp newline b :=
  (keptBytes_eq_iff.mp h).elim (congrArg _) fun h ↦ h.2.2

theorem comparable_iff (ha : RawLine a) (hb : RawLine b) : Comparable a b ↔
    (Held a ∧ Held b) ∧ (keptBytes a = keptBytes b ∨ (Printable a ∧ Printable b)) := by
  rw [keptBytes_eq_iff, Comparable]
  constructor
  · rintro (⟨hheld, rfl⟩ | ⟨hshortA, hshortB, hequal⟩ | hprint)
    · exact ⟨⟨hheld, hheld⟩, .inl (.inl rfl)⟩
    · exact ⟨⟨hshortA.held ha.ne_nil, hshortB.held hb.ne_nil⟩, .inl (.inr ⟨hshortA, hshortB, hequal⟩)⟩
    · exact ⟨⟨hprint.1.short.held ha.ne_nil, hprint.2.short.held hb.ne_nil⟩, .inr hprint⟩
  · rintro ⟨hheld, (heq | hshort) | hprint⟩
    · exact .inl ⟨hheld.1, heq⟩
    · exact .inr (.inl hshort)
    · exact .inr (.inr hprint)

/-! ## The position -/

section Position

variable {pos : ℕ} {common linesA linesB : List (List UInt8)} {out : Option (List UInt8)}

/-- If no number is printed, the position of the patch is that of the line. -/
theorem patchLines_lineno (hpos : pos + common.length = n) (hnear : lastDiff + 1 = n → common = [])
    (text : List UInt8) : patchLines pos (common ++ linesA) (printLineno lastDiff n ++ text) =
      (patchLines n linesA text).map (common ++ ·) := by
  rw [printLineno]
  split
  next =>
    rw [List.append_assoc]
    exact patchLines_position hpos text
  next hlast =>
    obtain rfl := hnear (not_not.mp hlast)
    obtain rfl : pos = n := hpos
    rw [List.nil_append, List.nil_append]
    cases patchLines pos linesA text with
    | none => rfl
    | some result => rfl

theorem map_append_eq_iff {result : Option (List (List UInt8))} :
    result.map (common ++ ·) = some (common ++ linesB) ↔ result = some linesB := by
  cases result with
  | none => exact iff_of_false nofun nofun
  | some result => simp

theorem bind_lineno_iff (hpos : pos + common.length = n) (hnear : lastDiff + 1 = n → common = []) :
    (out.map (printLineno lastDiff n ++ ·)).bind (patchLines pos (common ++ linesA)) =
        some (common ++ linesB) ↔
      out.bind (patchLines n linesA) = some linesB := by
  cases out with
  | none => exact iff_of_false nofun nofun
  | some text =>
    rw [Option.map_some, Option.bind_some, Option.bind_some, patchLines_lineno hpos hnear,
      map_append_eq_iff]

/-! ## The ends of the files -/

theorem RawLine.newline_notMem (hline : RawLine line) (fp : List UInt8) :
    ∀ l ∈ (line :: lines newline fp).map (chomp newline), newline ∉ l := by
  intro l hl
  obtain ⟨raw, hraw, rfl⟩ := List.mem_map.mp hl
  refine notMem_chomp ?_
  rcases List.mem_cons.mp hraw with rfl | hraw
  · exact hline.noNewline
  · exact notMem_dropLast_of_mem_lines hraw

theorem bind_added_iff (hline : RawLine line) (hfp : 0 ∉ fp) :
    (printRest addedMark line fp).bind (patchLines n []) = some (chomp newline line :: fileLines fp) ↔
      ∀ l ∈ line :: lines newline fp, Printable l := by
  rw [printRest_eq hline hfp]
  split
  next hall =>
    rw [Option.bind_some, patchLines_added (hline.newline_notMem fp)]
    exact iff_of_true rfl hall
  next hall => exact iff_of_false nofun hall

/-- Nothing can be added in front of a line of the first file. -/
theorem bind_added_cons_ne (hline : RawLine line) (hfp : 0 ∉ fp) {result : List (List UInt8)} :
    (printRest addedMark line fp).bind (patchLines n (a :: linesA)) ≠ some result := by
  rw [printRest_eq hline hfp]
  split
  next =>
    have hne : (line :: lines newline fp).map (chomp newline) ≠ [] := List.cons_ne_nil _ _
    rw [Option.bind_some, patchLines_added_cons hne (hline.newline_notMem fp)]
    exact nofun
  next => exact nofun

theorem bind_removed_iff (hline : RawLine line) (hfp : 0 ∉ fp) :
    (printRest removedMark line fp).bind (patchLines n (chomp newline line :: fileLines fp)) =
        some linesB ↔
      linesB = [] ∧ ∀ l ∈ line :: lines newline fp, Printable l := by
  rw [printRest_eq hline hfp]
  split
  next hall =>
    rw [Option.bind_some, fileLines, ← List.map_cons, patchLines_removed (hline.newline_notMem fp), Option.some.injEq,
      eq_comm, and_iff_left hall]
  next hall => exact iff_of_false nofun fun h ↦ hall h.2

/-! ## The loop -/

theorem compareFiles_end (hlineno : lineno < intMax)
    (hread : readReturn (getline newline fpA).1 = -1 ∨ readReturn (getline newline fpB).1 = -1) :
    compareFiles lineno lastDiff fpA fpB =
      printTails lastDiff (lineno + 1) (getline newline fpA).1 (getline newline fpA).2
        (getline newline fpB).1 (getline newline fpB).2 := by
  rw [compareFiles, if_pos hlineno]
  exact dif_pos hread

theorem compareFiles_overflow (hlineno : ¬lineno < intMax) :
    compareFiles lineno lastDiff fpA fpB = none := by
  rw [compareFiles, if_neg hlineno]

theorem printTails_added (ha : readReturn a = -1) (hb : readReturn b ≠ -1) :
    printTails lastDiff n a fpA b fpB =
      (printRest addedMark b fpB).map (printLineno lastDiff n ++ ·) :=
  if_pos ⟨ha, hb⟩

theorem printTails_removed (ha : readReturn a ≠ -1) (hb : readReturn b = -1) :
    printTails lastDiff n a fpA b fpB =
      (printRest removedMark a fpA).map (printLineno lastDiff n ++ ·) := by
  rw [printTails, if_neg fun h ↦ ha h.1, if_pos ⟨ha, hb⟩]

theorem printTails_nil (ha : readReturn a = -1) (hb : readReturn b = -1) :
    printTails lastDiff n a fpA b fpB = some [] := by
  rw [printTails, if_neg fun h ↦ h.2 hb, if_neg fun h ↦ h.1 ha]

theorem Held.readReturn_ne (h : Held line) (hline : RawLine line) : readReturn line ≠ -1 := by
  rw [hline.readReturn_eq]
  unfold Held at h
  omega

theorem bind_nil_iff : (some ([] : List UInt8)).bind (patchLines pos (common ++ linesA)) =
    some (common ++ linesB) ↔ linesA = linesB := by
  rw [Option.bind_some, patchLines_nil, Option.some.injEq, List.append_cancel_left_eq]

/-- What both files satisfy when the loop comes to the lines from `lineno` on. -/
structure Aligned (lineno : ℕ) (lastDiff : ℤ) (pos : ℕ) (common : List (List UInt8)) : Prop where
  last : lastDiff ≤ lineno
  pos : pos + common.length = lineno + 1
  near : lastDiff = lineno → common = []

theorem Aligned.near_succ (h : Aligned lineno lastDiff pos common) :
    lastDiff + 1 = (lineno + 1 : ℕ) → common = [] := fun hlast ↦ h.near (by omega)

theorem fileLines_nil : fileLines [] = [] := by
  rw [fileLines, lines_nil]
  rfl

theorem fileLines_of_ne_nil (hfp : fp ≠ []) : fileLines fp =
    chomp newline (getline newline fp).1 :: fileLines (getline newline fp).2 := by
  rw [fileLines, lines_of_ne_nil hfp]
  rfl

theorem readReturn_getline_nil : readReturn (getline newline []).1 = -1 := if_pos rfl

/-- The first file is at its end. -/
theorem patch_iff_of_endA (hlineno : lineno < intMax) (hB : 0 ∉ fpB)
    (h : Aligned lineno lastDiff pos common) :
    (compareFiles lineno lastDiff [] fpB).bind (patchLines pos (common ++ fileLines [])) =
        some (common ++ fileLines fpB) ↔ ∀ line ∈ lines newline fpB, Printable line := by
  rw [compareFiles_end hlineno (.inl readReturn_getline_nil), fileLines_nil]
  by_cases hnil : fpB = []
  · rw [hnil, printTails_nil readReturn_getline_nil readReturn_getline_nil, bind_nil_iff, fileLines_nil,
      lines_nil]
    exact iff_of_true rfl fun _ hl ↦ absurd hl List.not_mem_nil
  · have hraw := rawLine_getline hB hnil
    rw [fileLines_of_ne_nil hnil, lines_of_ne_nil hnil]
    by_cases hread : readReturn (getline newline fpB).1 = -1
    · rw [printTails_nil readReturn_getline_nil hread, bind_nil_iff]
      refine iff_of_false (List.cons_ne_nil _ _).symm fun hall ↦ ?_
      have hprint : Printable (getline newline fpB).1 := hall _ List.mem_cons_self
      exact (hprint.short.held hraw.ne_nil).readReturn_ne hraw hread
    · rw [printTails_added readReturn_getline_nil hread, bind_lineno_iff h.pos h.near_succ,
        bind_added_iff hraw (notMem_getline hB).2]

/-- The second file is at its end. -/
theorem patch_iff_of_endB (hlineno : lineno < intMax) (hA : 0 ∉ fpA)
    (h : Aligned lineno lastDiff pos common) :
    (compareFiles lineno lastDiff fpA []).bind (patchLines pos (common ++ fileLines fpA)) =
        some (common ++ fileLines []) ↔ ∀ line ∈ lines newline fpA, Printable line := by
  rw [compareFiles_end hlineno (.inr readReturn_getline_nil), fileLines_nil]
  by_cases hnil : fpA = []
  · rw [hnil, printTails_nil readReturn_getline_nil readReturn_getline_nil, bind_nil_iff, fileLines_nil,
      lines_nil]
    exact iff_of_true rfl fun _ hl ↦ absurd hl List.not_mem_nil
  · have hraw := rawLine_getline hA hnil
    rw [fileLines_of_ne_nil hnil, lines_of_ne_nil hnil]
    by_cases hread : readReturn (getline newline fpA).1 = -1
    · rw [printTails_nil hread readReturn_getline_nil, bind_nil_iff]
      refine iff_of_false (List.cons_ne_nil _ _) fun hall ↦ ?_
      have hprint : Printable (getline newline fpA).1 := hall _ List.mem_cons_self
      exact (hprint.short.held hraw.ne_nil).readReturn_ne hraw hread
    · rw [printTails_removed hread readReturn_getline_nil, bind_lineno_iff h.pos h.near_succ,
        bind_removed_iff hraw (notMem_getline hA).2, and_iff_right rfl]

/-- One of the files seems to be at its end, but it is not. -/
theorem not_patch_of_wrapped (hlineno : lineno < intMax) (hA : 0 ∉ fpA) (hB : 0 ∉ fpB)
    (hneA : fpA ≠ []) (hneB : fpB ≠ []) (h : Aligned lineno lastDiff pos common)
    (hread : Xor (readReturn (getline newline fpA).1 = -1) (readReturn (getline newline fpB).1 = -1)) :
    (compareFiles lineno lastDiff fpA fpB).bind (patchLines pos (common ++ fileLines fpA)) ≠
        some (common ++ fileLines fpB) := by
  have hrawA := rawLine_getline hA hneA
  have hrawB := rawLine_getline hB hneB
  rw [fileLines_of_ne_nil hneA, fileLines_of_ne_nil hneB]
  rcases hread with ⟨hreadA, hreadB⟩ | ⟨hreadB, hreadA⟩
  · rw [compareFiles_end hlineno (.inl hreadA), printTails_added hreadA hreadB, ne_eq,
      bind_lineno_iff h.pos h.near_succ]
    exact bind_added_cons_ne hrawB (notMem_getline hB).2
  · rw [compareFiles_end hlineno (.inr hreadB), printTails_removed hreadA hreadB, ne_eq,
      bind_lineno_iff h.pos h.near_succ, bind_removed_iff hrawA (notMem_getline hA).2]
    exact fun h ↦ List.cons_ne_nil _ _ h.1

theorem bind_replaced_iff (hpos : pos + common.length = n) (hnear : lastDiff + 1 = n → common = [])
    (ha : newline ∉ a) (hb : newline ∉ b) :
    (out.map fun more ↦ printLineno lastDiff n ++ (removedMark :: blank :: a ++
        newline :: (addedMark :: blank :: b ++ newline :: more))).bind
          (patchLines pos (common ++ a :: linesA)) = some (common ++ b :: linesB) ↔
      out.bind (patchLines (n + 1) linesA) = some linesB := by
  cases out with
  | none => exact iff_of_false nofun nofun
  | some text =>
    rw [Option.map_some, Option.bind_some, Option.bind_some, patchLines_lineno hpos hnear,
      map_append_eq_iff, patchLines_replaced ha hb]
    exact (map_append_eq_iff : Option.map ([b] ++ ·) _ = some ([b] ++ linesB) ↔ _)

theorem Legible.lineno_lt {rawA rawB : List (List UInt8)} (h : Legible lineno rawA rawB) :
    lineno < intMax := by
  cases rawA with
  | nil => exact h.1
  | cons a rawA =>
    cases rawB with
    | nil => exact h.1
    | cons b rawB => exact h.1

/-- The lines are equal. -/
theorem Aligned.equal (h : Aligned lineno lastDiff pos common) (line : List UInt8) :
    Aligned (lineno + 1) lastDiff pos (common ++ [line]) where
  last := Int.le_trans h.last (by omega)
  pos := by
    rw [List.length_append, List.length_singleton, ← Nat.add_assoc, h.pos]
  near hlast := absurd h.last (by omega)

/-- The lines are different. -/
theorem Aligned.differ (lineno : ℕ) : Aligned lineno lineno (lineno + 1) [] where
  last := le_rfl
  pos := rfl
  near _ := rfl

/-- A round with a line of each file, in which neither of them seems to be at its end. -/
theorem patch_iff_of_pair {rest : Prop} (hlineno : lineno < intMax) (hA : 0 ∉ fpA) (hB : 0 ∉ fpB)
    (hneA : fpA ≠ []) (hneB : fpB ≠ []) (h : Aligned lineno lastDiff pos common)
    (hread : ¬(readReturn (getline newline fpA).1 = -1 ∨ readReturn (getline newline fpB).1 = -1))
    (hrest : ∀ lastDiff pos common, Aligned (lineno + 1) lastDiff pos common →
      ((compareFiles (lineno + 1) lastDiff (getline newline fpA).2 (getline newline fpB).2).bind
          (patchLines pos (common ++ fileLines (getline newline fpA).2)) =
        some (common ++ fileLines (getline newline fpB).2) ↔ rest)) :
    (compareFiles lineno lastDiff fpA fpB).bind (patchLines pos (common ++ fileLines fpA)) =
        some (common ++ fileLines fpB) ↔
      Comparable (getline newline fpA).1 (getline newline fpB).1 ∧ rest := by
  have hrawA := rawLine_getline hA hneA
  have hrawB := rawLine_getline hB hneB
  rw [compareFiles_step hlineno rfl rfl hrawA hrawB hread, comparable_iff hrawA hrawB,
    fileLines_of_ne_nil hneA, fileLines_of_ne_nil hneB]
  split
  next hheld =>
    rw [and_iff_right hheld]
    split
    next hkept =>
      rw [and_iff_right (.inl hkept), ← chomp_eq_of_keptBytes_eq hkept, List.append_cons,
        List.append_cons common _ (fileLines (getline newline fpB).2)]
      exact hrest _ _ _ (h.equal _)
    next hkept =>
      rw [or_iff_right hkept]
      split
      next hprint =>
        rw [and_iff_right hprint, bind_replaced_iff h.pos h.near_succ (notMem_chomp hrawA.noNewline)
          (notMem_chomp hrawB.noNewline)]
        exact hrest _ _ _ (.differ _)
      next hprint => exact iff_of_false nofun fun h ↦ hprint h.1
  next hheld => exact iff_of_false nofun fun h ↦ hheld h.1.1

theorem patch_iff_legible (hA : 0 ∉ fpA) (hB : 0 ∉ fpB) (h : Aligned lineno lastDiff pos common) :
    (compareFiles lineno lastDiff fpA fpB).bind (patchLines pos (common ++ fileLines fpA)) =
        some (common ++ fileLines fpB) ↔
      Legible lineno (lines newline fpA) (lines newline fpB) := by
  induction hlinesA : lines newline fpA generalizing fpA fpB lineno lastDiff pos common with
  | nil =>
    by_cases hlineno : lineno < intMax
    · rw [lines_eq_nil_iff.mp hlinesA, Legible, and_iff_right hlineno]
      exact patch_iff_of_endA hlineno hB h
    · rw [compareFiles_overflow hlineno]
      exact iff_of_false nofun fun hlegible ↦ hlineno hlegible.lineno_lt
  | cons a rawA ih =>
    by_cases hlineno : lineno < intMax
    · cases hlinesB : lines newline fpB with
      | nil =>
        rw [lines_eq_nil_iff.mp hlinesB, ← hlinesA, patch_iff_of_endB hlineno hA h, hlinesA, Legible,
          and_iff_right hlineno]
        exact List.cons_ne_nil a rawA
      | cons b rawB =>
        obtain ⟨rfl, hrestA⟩ := getline_of_lines hlinesA
        obtain ⟨rfl, hrestB⟩ := getline_of_lines hlinesB
        have hneA := ne_nil_of_lines hlinesA
        have hneB := ne_nil_of_lines hlinesB
        have hrawA := rawLine_getline hA hneA
        have hrawB := rawLine_getline hB hneB
        rw [Legible, and_iff_right hlineno, ← hrawA.readReturn_eq, ← hrawB.readReturn_eq]
        by_cases hreadA : readReturn (getline newline fpA).1 = -1
        · by_cases hreadB : readReturn (getline newline fpB).1 = -1
          · rw [if_pos ⟨hreadA, hreadB⟩, compareFiles_end hlineno (.inl hreadA),
              printTails_nil hreadA hreadB, bind_nil_iff, fileLines, fileLines, hlinesA, hlinesB]
          · rw [if_neg fun hread ↦ hreadB hread.2, comparable_iff hrawA hrawB]
            exact iff_of_false
              (not_patch_of_wrapped hlineno hA hB hneA hneB h (.inl ⟨hreadA, hreadB⟩))
              fun hpair ↦ hpair.1.1.1.readReturn_ne hrawA hreadA
        · by_cases hreadB : readReturn (getline newline fpB).1 = -1
          · rw [if_neg fun hread ↦ hreadA hread.1, comparable_iff hrawA hrawB]
            exact iff_of_false
              (not_patch_of_wrapped hlineno hA hB hneA hneB h (.inr ⟨hreadB, hreadA⟩))
              fun hpair ↦ hpair.1.1.2.readReturn_ne hrawB hreadB
          · rw [if_neg fun hread ↦ hreadA hread.1]
            refine patch_iff_of_pair hlineno hA hB hneA hneB h (not_or.mpr ⟨hreadA, hreadB⟩) ?_
            intro lastDiff pos common hnext
            rw [← hrestB]
            exact ih (notMem_getline hA).2 (notMem_getline hB).2 hnext hrestA
    · rw [compareFiles_overflow hlineno]
      exact iff_of_false nofun fun hlegible ↦ hlineno hlegible.lineno_lt

end Position

/-! ## Usual files -/

/-- If all lines can be printed, only their number counts. -/
theorem legible_iff_of_printable {rawA rawB : List (List UInt8)} (hA : ∀ l ∈ rawA, Printable l)
    (hB : ∀ l ∈ rawB, Printable l) :
    Legible lineno rawA rawB ↔ lineno + min rawA.length rawB.length < intMax := by
  induction rawA generalizing lineno rawB with
  | nil =>
    rw [Legible, and_iff_left hB, List.length_nil, Nat.zero_min, Nat.add_zero]
  | cons a rawA ih =>
    cases rawB with
    | nil =>
      rw [Legible, and_iff_left hA, List.length_nil, Nat.min_zero, Nat.add_zero]
      exact List.cons_ne_nil a rawA
    | cons b rawB =>
      obtain ⟨ha, hA⟩ := List.forall_mem_cons.mp hA
      obtain ⟨hb, hB⟩ := List.forall_mem_cons.mp hB
      have hread : ¬(toInt a.length = -1 ∧ toInt b.length = -1) := by
        rw [toInt_of_le ha.short]
        omega
      have hcomparable : Comparable a b := .inr (.inr ⟨ha, hb⟩)
      rw [Legible, if_neg hread, and_iff_right hcomparable, ih hA hB, List.length_cons,
        List.length_cons]
      omega

/-! ## The output -/

/-- Nothing is printed for files of the same lines. -/
theorem compareFiles_of_same (hA : 0 ∉ fpA) (hB : 0 ∉ fpB)
    (hlegible : Legible lineno (lines newline fpA) (lines newline fpB))
    (hsame : fileLines fpA = fileLines fpB) : compareFiles lineno lastDiff fpA fpB = some [] := by
  have hlineno := hlegible.lineno_lt
  induction hlinesA : lines newline fpA generalizing fpA fpB lineno with
  | nil =>
    have hnilB : lines newline fpB = [] := by
      rw [fileLines, hlinesA, List.map_nil] at hsame
      exact List.map_eq_nil_iff.mp hsame.symm
    rw [lines_eq_nil_iff.mp hlinesA, lines_eq_nil_iff.mp hnilB,
      compareFiles_end hlineno (.inl readReturn_getline_nil)]
    exact printTails_nil readReturn_getline_nil readReturn_getline_nil
  | cons a rawA ih =>
    cases hlinesB : lines newline fpB with
    | nil =>
      rw [fileLines, hlinesA, fileLines, hlinesB] at hsame
      exact absurd hsame (List.cons_ne_nil _ _)
    | cons b rawB =>
      rw [fileLines, hlinesA, fileLines, hlinesB, List.map_cons, List.map_cons, List.cons.injEq] at hsame
      rw [hlinesA, hlinesB, Legible] at hlegible
      obtain ⟨rfl, hrestA⟩ := getline_of_lines hlinesA
      obtain ⟨rfl, hrestB⟩ := getline_of_lines hlinesB
      have hrawA := rawLine_getline hA (ne_nil_of_lines hlinesA)
      have hrawB := rawLine_getline hB (ne_nil_of_lines hlinesB)
      have hpair := hlegible.2
      split at hpair
      next hread =>
        rw [← hrawA.readReturn_eq, ← hrawB.readReturn_eq] at hread
        rw [compareFiles_end hlineno (.inl hread.1), printTails_nil hread.1 hread.2]
      next =>
        obtain ⟨hheld, hkept⟩ := (comparable_iff hrawA hrawB).mp hpair.1
        have hequal : keptBytes (getline newline fpA).1 = keptBytes (getline newline fpB).1 := by
          rcases hkept with hkept | hprint
          · exact hkept
          · rw [keptBytes_of_short hprint.1.short, keptBytes_of_short hprint.2.short, hsame.1]
        rw [compareFiles_step hlineno rfl rfl hrawA hrawB
          (not_or.mpr ⟨hheld.1.readReturn_ne hrawA, hheld.2.readReturn_ne hrawB⟩), if_pos hheld,
          if_pos hequal]
        refine ih (notMem_getline hA).2 (notMem_getline hB).2 ?_ ?_ hpair.2.lineno_lt hrestA
        · rw [hrestA, hrestB]
          exact hpair.2
        · rw [fileLines, fileLines, hrestA, hrestB]
          exact hsame.2

/-- For files without null characters the output is a faithful patch if and only if the numbers and
lengths fit. -/
theorem faithfulPatch_iff {fileA fileB : List UInt8} (hA : 0 ∉ fileA) (hB : 0 ∉ fileB) :
    FaithfulPatch fileA fileB ↔ Legible 0 (lines newline fileA) (lines newline fileB) := by
  have hstart : Aligned 0 (-1) 1 [] := ⟨by decide, rfl, fun _ ↦ rfl⟩
  have hpatch := patch_iff_legible hA hB hstart
  constructor
  · exact fun h ↦ hpatch.mp h.patch
  · intro hlegible
    have hfaithful := hpatch.mpr hlegible
    refine ⟨hfaithful, fun hempty ↦ ?_, compareFiles_of_same hA hB hlegible⟩
    rw [← myDiff, hempty, Option.bind_some, List.nil_append, patchLines_nil] at hfaithful
    exact Option.some.inj hfaithful

/-- The file with the line `a`, and the one with the line `b`. -/
theorem faithfulPatch_a_b : FaithfulPatch [97, 10] [98, 10] := by
  have hlines (c : UInt8) (hc : newline ∉ [c]) : lines newline [c, 10] = [[c, 10]] := by
    have hline := lines_line hc []
    rwa [lines_nil] at hline
  have hprint (c : UInt8) : Printable [c, 10] := by
    have hchomp : chomp newline [c, 10] = [c] := chomp_concat [c]
    unfold Printable intMax
    rw [hchomp, List.length_singleton]
    decide
  refine (faithfulPatch_iff (by decide) (by decide)).mpr ?_
  rw [hlines 97 (by decide), hlines 98 (by decide), legible_iff_of_printable]
  · unfold intMax
    decide
  · exact List.forall_mem_singleton.mpr (hprint 97)
  · exact List.forall_mem_singleton.mpr (hprint 98)

theorem not_faithfulPatch_of_long {file : List UInt8} (hnul : 0 ∉ file) (hline : newline ∉ file)
    (hlong : intMax < file.length) : ¬FaithfulPatch file [] := by
  intro h
  have hstart : Aligned 0 (-1) 1 [] := ⟨by decide, rfl, fun _ ↦ rfl⟩
  have hlineno : 0 < intMax := by
    unfold intMax
    decide
  have hne : file ≠ [] := List.ne_nil_of_length_pos (Nat.zero_lt_of_lt hlong)
  have hprint := (patch_iff_of_endB hlineno hnul hstart).mp h.patch
  rw [lines_of_ne_nil hne, getline_last hline] at hprint
  exact Nat.not_le.mpr hlong (hprint file List.mem_cons_self).short

/-- One line of `2 ^ 31` bytes. -/
def hugeFile : List UInt8 := List.replicate (2 ^ 31) 97

/-- `remove_newline` accesses a byte in front of the line. -/
theorem hugeFile_not_faithfulPatch : 0 ∉ hugeFile ∧ ¬FaithfulPatch hugeFile [] := by
  have hnul : 0 ∉ hugeFile := fun h ↦ absurd (List.eq_of_mem_replicate h) (by decide)
  have hline : newline ∉ hugeFile := fun h ↦ absurd (List.eq_of_mem_replicate h) (by decide)
  refine ⟨hnul, not_faithfulPatch_of_long hnul hline ?_⟩
  rw [hugeFile, List.length_replicate]
  unfold intMax
  omega

end CS537.UnixUtilities
