import CS537.Storage.Runs
import CS537.Foundation.Clients
import Mathlib.Data.Finset.Card

/-!
# Reads and writes of open files

`filewrite` of `file.c` writes a file in chunks, each in a transaction of its own, and moves the offset
of the open file along.  A chunk is small enough for a transaction, and a write beyond the greatest size
of a file leaves the chunks written that fit.  The calls in `file.c` on pipes are those of `pipe.c`.
-/

namespace CS537.Storage

open Foundation
open FileSystem (Inum InodeType Inode FsState Fault)
open FsCheck (BSIZE NDIRECT BPB)
open Log (MAXOPBLOCKS)
open Mkfs (Dinode MAXFILE NINODES)

/-- The number of bytes in a transaction. -/
def maxChunk : ℕ := (MAXOPBLOCKS - 1 - 1 - 2) / 2 * 512

/-- What `readi` returns. -/
def Answer.read : Answer → Option (List UInt8)
  | .bytes r => r
  | _ => none

/-- What `writei` returns. -/
def Answer.written : Answer → Option ℕ
  | .count r => r
  | _ => none

/-- `fileread` of an inode, with the new offset. -/
def fileread (ip : Inum) (n off : ℕ) : Client Call Answer (Option (List UInt8) × ℕ) := do
  let _ ← Client.ask (.ilock ip)
  let answer ← Client.ask (.readi ip off n)
  let _ ← Client.ask (.iunlock ip)
  return (answer.read, off + answer.read.elim 0 List.length)

/-- One pass of the loop of `filewrite`. -/
def filewriteChunk (ip : Inum) (src : List UInt8) (off : ℕ) : Client Call Answer (Option ℕ) := do
  let _ ← Client.ask (.ilock ip)
  let answer ← Client.ask (.writei ip src off)
  let _ ← Client.ask (.iunlock ip)
  return answer.written

/-- The loop of `filewrite`, with the number of bytes that it has written and the new offset.  It stops
with a panic when `writei` returns another number than asked for. -/
def filewriteLoop (ip : Inum) (src : List UInt8) (off : ℕ) : Client Call Answer (ℕ × ℕ) :=
  if _h : src ≠ [] then do
    let n1 := min src.length maxChunk
    match ← filewriteChunk ip (src.take n1) off with
    | none => return (0, off)
    | some r =>
      if r ≠ n1 then .stop
      else
        let rest ← filewriteLoop ip (src.drop n1) (off + r)
        return (rest.1 + r, rest.2)
  else return (0, off)
termination_by src.length
decreasing_by
  have hlength : 0 < src.length := List.length_pos_iff.mpr _h
  have hmax : maxChunk = 1536 := rfl
  rw [List.length_drop]
  omega

/-- `filewrite` to an inode, with the new offset; `none` stands for -1. -/
def filewrite (ip : Inum) (src : List UInt8) (off : ℕ) : Client Call Answer (Option ℕ × ℕ) := do
  let r ← filewriteLoop ip src off
  return (if r.1 = src.length then some src.length else none, r.2)

variable {sb : SuperBlock} {s t : Cache} {fs ft : FsState} {ls : List (Call × Answer)} {v w : Volume}
  {c : ℕ → List UInt8} {i : Inum} {l src : List UInt8} {j off n : ℕ}

/-! ## The size of a transaction -/

theorem maxChunk_eq : maxChunk = 1536 := rfl

/-- The blocks of the bytes that are written. -/
def dataBlocks (w : Volume) (d : Dinode) (off : ℕ) : Finset ℕ :=
  (Finset.range 4).image fun k ↦ w.address d (off / BSIZE + k)

/-- The blocks of the bitmap for the blocks of the data that have been allocated. -/
def bitmapBlocks (sb : SuperBlock) (w : Volume) (d : Dinode) (off : ℕ) : Finset ℕ :=
  (Finset.range 3).image fun k ↦ sb.bblock (w.address d ((off + (BSIZE - 1)) / BSIZE + k))

/-- The blocks that a write of a chunk logs. -/
def chunkBlocks (sb : SuperBlock) (w : Volume) (d : Dinode) (j off : ℕ) : Finset ℕ :=
  insert (sb.iblock j) (insert (w.address d MAXFILE) (insert (sb.bblock (w.address d MAXFILE))
    (dataBlocks w d off ∪ bitmapBlocks sb w d off)))

section Logged

variable (h : Consistent sb v c) (hw : Written sb v c j off src w) (hoff : off ≤ (c j).length)
  (hlen : src.length ≤ maxChunk)

include h hoff hlen in
/-- Only the blocks behind the old content are allocated. -/
theorem Written.mem_chunkBlocks {b : ℕ} (hb : WrittenTo sb v (v.dinode sb j) off src.length w (w.dinode sb j) b) :
    b ∈ chunkBlocks sb w (w.dinode sb j) j off := by
  have hBSIZE : BSIZE = 512 := rfl
  rw [maxChunk_eq] at hlen
  simp only [chunkBlocks, dataBlocks, bitmapBlocks, Finset.mem_insert, Finset.mem_union, Finset.mem_image,
    Finset.mem_range]
  cases hb with
  | @data m hm hne =>
    rw [hBSIZE] at hm ⊢
    exact .inr (.inr (.inr (.inl ⟨m - off / 512, by omega, by rw [Nat.add_sub_cancel' (by omega)]⟩)))
  | indirect hne => exact .inr (.inl rfl)
  | @bitmap m hnew hm hne =>
    rcases hm with hm | rfl
    · have hnewer : off ≤ m * BSIZE := by
        by_contra hlt
        have hinside : m * BSIZE < (c j).length := (Nat.lt_of_not_le hlt).trans_le hoff
        have hm' : m < MAXFILE := Nat.lt_of_mul_lt_mul_right (hinside.trans_le (h.contents.length_le j))
        exact (h.contents.data j m hm').mpr hinside hnew
      rw [hBSIZE] at hm hnewer ⊢
      exact .inr (.inr (.inr (.inr ⟨m - (off + (512 - 1)) / 512, by omega,
        by rw [Nat.add_sub_cancel' (by omega)]⟩)))
    · exact .inr (.inr (.inl rfl))

omit h hoff hlen in
include hw in
/-- The bitmap has one block only. -/
theorem Written.bblock_address (hsize : sb.size ≤ BPB) (k : ℕ) :
    sb.bblock (w.address (w.dinode sb j) k) = sb.bmapstart := by
  have hlt : w.address (w.dinode sb j) k < BPB := by
    by_cases hzero : w.address (w.dinode sb j) k = 0
    · rw [hzero]
      decide
    · exact (hw.consistent.contents.mapped.lt_size hzero).trans_le hsize
  rw [SuperBlock.bblock, Nat.div_eq_of_lt hlt, Nat.zero_add]

theorem card_dataBlocks_le (w : Volume) (d : Dinode) (off : ℕ) : (dataBlocks w d off).card ≤ 4 :=
  Finset.card_image_le.trans (Finset.card_range 4).le

theorem card_bitmapBlocks_le (sb : SuperBlock) (w : Volume) (d : Dinode) (off : ℕ) :
    (bitmapBlocks sb w d off).card ≤ 3 :=
  Finset.card_image_le.trans (Finset.card_range 3).le

theorem card_insert_three_le (a b c : ℕ) (s : Finset ℕ) :
    (insert a (insert b (insert c s))).card ≤ s.card + 3 :=
  calc (insert a (insert b (insert c s))).card
    _ ≤ (insert b (insert c s)).card + 1 := Finset.card_insert_le _ _
    _ ≤ (insert c s).card + 1 + 1 := Nat.add_le_add_right (Finset.card_insert_le _ _) 1
    _ ≤ s.card + 1 + 1 + 1 := Nat.add_le_add_right (Finset.card_insert_le _ _) 2

include h hw hoff hlen in
/-- A chunk logs ten blocks at most, and seven where the bitmap has one block only. -/
theorem Written.card_logged : ∃ l, w.logged = v.logged ++ l ∧ l.toFinset.card ≤ MAXOPBLOCKS ∧
    (sb.size ≤ BPB → l.toFinset.card ≤ 7) := by
  obtain ⟨l, hl, hmem⟩ := hw.logged
  have hsubset : l.toFinset ⊆ chunkBlocks sb w (w.dinode sb j) j off := by
    intro b hb
    rcases hmem b (List.mem_toFinset.mp hb) with rfl | hb
    · exact Finset.mem_insert_self _ _
    · exact Written.mem_chunkBlocks h hoff hlen hb
  have hdata := card_dataBlocks_le w (w.dinode sb j) off
  have hbitmap := card_bitmapBlocks_le sb w (w.dinode sb j) off
  refine ⟨l, hl, ?_, fun hsize ↦ ?_⟩
  · calc l.toFinset.card
      _ ≤ (chunkBlocks sb w (w.dinode sb j) j off).card := Finset.card_le_card hsubset
      _ ≤ (dataBlocks w (w.dinode sb j) off ∪ bitmapBlocks sb w (w.dinode sb j) off).card + 3 :=
        card_insert_three_le _ _ _ _
      _ ≤ MAXOPBLOCKS := by
        have hunion := Finset.card_union_le (dataBlocks w (w.dinode sb j) off)
          (bitmapBlocks sb w (w.dinode sb j) off)
        have hMAXOPBLOCKS : MAXOPBLOCKS = 10 := rfl
        omega
  · have hone : chunkBlocks sb w (w.dinode sb j) j off ⊆ insert (sb.iblock j) (insert
        (w.address (w.dinode sb j) MAXFILE) (insert sb.bmapstart (dataBlocks w (w.dinode sb j) off))) := by
      intro b hb
      simp only [chunkBlocks, bitmapBlocks, hw.bblock_address hsize, Finset.mem_insert, Finset.mem_union,
        Finset.mem_image] at hb ⊢
      rcases hb with hb | hb | hb | hb | ⟨k, -, hb⟩
      · exact .inl hb
      · exact .inr (.inl hb)
      · exact .inr (.inr (.inl hb))
      · exact .inr (.inr (.inr hb))
      · exact .inr (.inr (.inl hb.symm))
    calc l.toFinset.card
      _ ≤ _ := Finset.card_le_card (hsubset.trans hone)
      _ ≤ (dataBlocks w (w.dinode sb j) off).card + 3 := card_insert_three_le _ _ _ _
      _ ≤ 7 := by omega

end Logged

/-! ## The loop over the files -/

/-- The content of file `i` has changed. -/
structure FileWritten (fs : FsState) (i : Inum) (content : List UInt8) (ft : FsState) : Prop where
  content : (ft.inode i).content = content
  type : (ft.inode i).type = (fs.inode i).type
  nlink : (ft.inode i).nlink = (fs.inode i).nlink
  others : ∀ j, j ≠ i → ft.inode j = fs.inode j
  refs : ft.refs = fs.refs
  locks : ft.locks = fs.locks

theorem FileWritten.refl (fs : FsState) (i : Inum) : FileWritten fs i (fs.inode i).content fs :=
  ⟨rfl, rfl, rfl, fun _ _ ↦ rfl, rfl, rfl⟩

theorem FileWritten.trans {fu : FsState} {l' : List UInt8} (h : FileWritten fs i l ft)
    (h' : FileWritten ft i l' fu) : FileWritten fs i l' fu where
  content := h'.content
  type := h'.type.trans h.type
  nlink := h'.nlink.trans h.nlink
  others j hj := (h'.others j hj).trans (h.others j hj)
  refs := h'.refs.trans h.refs
  locks := h'.locks.trans h.locks

/-- A file that is open and not locked. -/
structure Open (fs : FsState) (i : Inum) : Prop where
  ref : i ∈ fs.refs
  unlocked : i ∉ fs.locks
  used : (fs.inode i).type ≠ .free
  noDevice : (fs.inode i).type ≠ .dev

theorem FileWritten.open (h : FileWritten fs i l ft) (hopen : Open fs i) : Open ft i where
  ref := h.refs ▸ hopen.ref
  unlocked := h.locks ▸ hopen.unlocked
  used := h.type ▸ hopen.used
  noDevice := h.type ▸ hopen.noDevice

/-- The client returns on the files. -/
def ReturnsOn {β : Type} (ninodes : ℕ) (m : Client Call Answer β) (fs : FsState) (b : β) (ft : FsState) : Prop :=
  m.Returns (fun fs call ↦ call.Allowed ninodes fs.refs fs.locks fun i ↦ typeCode (fs.inode i).type)
    (fun call ↦ call.onFiles ninodes) fs b ft

section

variable {β γ : Type} {ninodes : ℕ} {fu : FsState} {call : Call} {answer : Answer} {b : β} {b' : γ}
  {m : Client Call Answer β} {f : β → Client Call Answer γ}

theorem ReturnsOn.ask
    (hcall : call.Allowed ninodes fs.refs fs.locks fun i ↦ typeCode (fs.inode i).type)
    (hrun : call.onFiles ninodes fs = .ok (answer, ft)) : ReturnsOn ninodes (.ask call) fs answer ft :=
  Client.Returns.ask hcall hrun

theorem ReturnsOn.bind (hm : ReturnsOn ninodes m fs b ft) (hf : ReturnsOn ninodes (f b) ft b' fu) :
    ReturnsOn ninodes (m >>= f) fs b' fu :=
  Client.Returns.bind hm hf

theorem ReturnsOn.pure (b : β) (fs : FsState) : ReturnsOn ninodes (Pure.pure b) fs b fs :=
  Client.Returns.pure

end

/-- What the call of `writei` in a pass of the loop does. -/
theorem writei_files (fs : FsState) (i : Inum) (src : List UInt8) (off : ℕ) :
    ∃ ft, FileSystem.writei i src off fs =
        .ok (if Writable (fs.inode i).size off src.length then some src.length else none, ft) ∧
      FileWritten fs i (if Writable (fs.inode i).size off src.length then
        overwrite (fs.inode i).content off src else (fs.inode i).content) ft := by
  have hsame := FileWritten.refl fs i
  by_cases hoff : (fs.inode i).size < off ∨ (off + src.length) % 2 ^ 32 < off
  · rw [if_neg fun hw : Writable _ _ _ ↦ hw.1 hoff, if_neg fun hw : Writable _ _ _ ↦ hw.1 hoff]
    exact ⟨fs, dif_pos hoff, hsame⟩
  · by_cases hmax : FileSystem.MAXFILE * FileSystem.BSIZE < off + src.length
    · have hno : ¬Writable (fs.inode i).size off src.length := fun hw ↦ absurd hw.2 (Nat.not_le.mpr hmax)
      rw [if_neg hno, if_neg hno]
      exact ⟨fs, (dif_neg hoff).trans (dif_pos hmax), hsame⟩
    · have hw : Writable (fs.inode i).size off src.length := ⟨hoff, Nat.le_of_not_lt hmax⟩
      rw [if_pos hw, if_pos hw]
      refine ⟨_, (dif_neg hoff).trans (dif_neg hmax), ?_, ?_, ?_, fun j hj ↦ ?_, rfl, rfl⟩
      · exact congrArg Inode.content (Function.update_self i _ fs.inode)
      · exact (congrArg Inode.type (Function.update_self i _ fs.inode)).trans rfl
      · exact (congrArg Inode.nlink (Function.update_self i _ fs.inode)).trans rfl
      · exact Function.update_of_ne hj _ _

theorem typeCode_dev {type : InodeType} : typeCode type = typeCode .dev ↔ type = .dev := by
  cases type <;> decide

/-- A call between `ilock` and `iunlock`. -/
theorem locked_returns (ninodes : ℕ) (call : Call) {answer : Answer} (h : Open fs i)
    (hcall : ∀ fl : FsState, i ∈ fl.locks → typeCode (fl.inode i).type ≠ typeCode .dev →
      call.Allowed ninodes fl.refs fl.locks fun i ↦ typeCode (fl.inode i).type)
    (hrun : ∀ fl : FsState, fl.inode = fs.inode → ∃ fw, call.onFiles ninodes fl = .ok (answer, fw) ∧
      FileWritten fl i l fw) :
    ∃ ft, ReturnsOn ninodes (do
        let _ ← Client.ask (.ilock i)
        let answer ← Client.ask call
        let _ ← Client.ask (.iunlock i)
        return answer) fs answer ft ∧ FileWritten fs i l ft := by
  obtain ⟨fl, hfl⟩ : ∃ fl : FsState, fl = { fs with
      locks := insert i fs.locks
      valid := Function.update fs.valid i true } := ⟨_, rfl⟩
  have href : ¬fs.ref i < 1 := Nat.not_lt.mpr (Multiset.count_pos.mpr h.ref)
  have hlock : FileSystem.ilock (some i) fs = .ok (i, fl) := by
    rw [hfl]
    exact (if_neg href).trans ((if_neg h.unlocked).trans (if_neg fun hfree ↦ h.used hfree.2))
  have hinode : fl.inode = fs.inode := by rw [hfl]
  obtain ⟨fw, hcallrun, hwritten⟩ := hrun fl hinode
  have hlocks : fw.locks = insert i fs.locks := by rw [hwritten.locks, hfl]
  have hrefs : fw.refs = fs.refs := by rw [hwritten.refs, hfl]
  have hunlock : FileSystem.iunlock i fw = .ok ((), { fw with locks := fw.locks.erase i }) := by
    refine if_neg (not_or.mpr ⟨not_not.mpr (hlocks ▸ Finset.mem_insert_self _ _), ?_⟩)
    rwa [FsState.ref, hrefs]
  have hdev : typeCode (fl.inode i).type ≠ typeCode .dev := by
    rw [hinode, ne_eq, typeCode_dev]
    exact h.noDevice
  have hheld : i ∈ fl.locks := hfl ▸ Finset.mem_insert_self _ _
  refine ⟨{ fw with locks := fw.locks.erase i }, ?_, ?_⟩
  · have hfirst : ReturnsOn ninodes (.ask (.ilock i)) fs .done fl := .ask h.ref (bind_of_ok hlock)
    have hsecond : ReturnsOn ninodes (.ask call) fl answer fw := .ask (hcall fl hheld hdev) hcallrun
    have hthird : ReturnsOn ninodes (.ask (.iunlock i)) fw .done { fw with locks := fw.locks.erase i } :=
      .ask (hrefs ▸ h.ref) (bind_of_ok hunlock)
    exact hfirst.bind (hsecond.bind (hthird.bind (.pure _ _)))
  · refine ⟨hwritten.content, ?_, ?_, ?_, hrefs, ?_⟩
    · exact hwritten.type.trans (by rw [hinode])
    · exact hwritten.nlink.trans (by rw [hinode])
    · exact fun j hj ↦ (hwritten.others j hj).trans (by rw [hinode])
    · rw [hlocks, Finset.erase_insert h.unlocked]

theorem filewriteChunk_returns (ninodes : ℕ) (h : Open fs i) (src : List UInt8) (off : ℕ) :
    ∃ ft, ReturnsOn ninodes (filewriteChunk i src off) fs
        (if Writable (fs.inode i).size off src.length then some src.length else none) ft ∧
      FileWritten fs i (if Writable (fs.inode i).size off src.length then
        overwrite (fs.inode i).content off src else (fs.inode i).content) ft := by
  obtain ⟨ft, hreturns, hwritten⟩ := locked_returns ninodes (.writei i src off) h
    (fun _ hheld hdev ↦ ⟨hheld, hdev⟩) fun fl hinode ↦ by
      obtain ⟨fw, hwrite, hfw⟩ := writei_files fl i src off
      rw [hinode] at hwrite hfw
      exact ⟨fw, bind_of_ok hwrite, hfw⟩
  exact ⟨ft, hreturns.bind (.pure _ _), hwritten⟩

theorem fileread_returns (ninodes : ℕ) (h : Open fs i) (n off : ℕ) :
    ∃ ft, ReturnsOn ninodes (fileread i n off) fs (FileSystem.readi (fs.inode i) off n,
        off + (FileSystem.readi (fs.inode i) off n).elim 0 List.length) ft ∧
      FileWritten fs i (fs.inode i).content ft := by
  have hread (fl : FsState) (hinode : fl.inode = fs.inode) : ∃ fr, (Call.readi i off n).onFiles ninodes fl =
      .ok (.bytes (FileSystem.readi (fs.inode i) off n), fr) ∧ FileWritten fl i (fs.inode i).content fr := by
    rw [← hinode]
    exact ⟨fl, rfl, .refl fl i⟩
  obtain ⟨ft, hreturns, hsame⟩ := locked_returns ninodes (.readi i off n) h
    (fun _ hheld hdev ↦ ⟨hheld, hdev⟩) hread
  exact ⟨ft, hreturns.bind (.pure _ _), hsame⟩

/-! ## `filewrite` -/

/-- The number of bytes that `filewrite` writes. -/
def transferred (size off n : ℕ) : ℕ :=
  if size < off then 0
  else if off + n ≤ MAXFILE * BSIZE then n
  else maxChunk * ((MAXFILE * BSIZE - off) / maxChunk)

theorem writable_iff {size : ℕ} (hsize : size ≤ MAXFILE * BSIZE) :
    Writable size off n ↔ off ≤ size ∧ off + n ≤ MAXFILE * BSIZE := by
  have hmax : MAXFILE * BSIZE = 71680 := rfl
  rw [Writable]
  rw [hmax] at hsize ⊢
  omega

theorem transferred_zero {size : ℕ} (hsize : size ≤ MAXFILE * BSIZE) (off : ℕ) : transferred size off 0 = 0 := by
  rw [transferred]
  split_ifs <;> omega

theorem transferred_le (size off n : ℕ) : transferred size off n ≤ n := by
  have hmax : MAXFILE * BSIZE = 71680 := rfl
  rw [transferred]
  rw [hmax, maxChunk_eq]
  split_ifs <;> omega

/-- The first chunk and the rest. -/
theorem transferred_chunk {size : ℕ} (hsize : size ≤ MAXFILE * BSIZE)
    (hw : Writable size off (min n maxChunk)) : transferred size off n =
      transferred (max size (off + min n maxChunk)) (off + min n maxChunk) (n - min n maxChunk) +
        min n maxChunk := by
  have hmax : MAXFILE * BSIZE = 71680 := rfl
  rw [writable_iff hsize] at hw
  rw [transferred, transferred]
  rw [hmax, maxChunk_eq] at hw ⊢
  split_ifs <;> omega

theorem transferred_refused {size : ℕ} (hsize : size ≤ MAXFILE * BSIZE) (hn : 0 < n)
    (hw : ¬Writable size off (min n maxChunk)) : transferred size off n = 0 := by
  have hmax : MAXFILE * BSIZE = 71680 := rfl
  rw [writable_iff hsize] at hw
  rw [transferred]
  rw [hmax, maxChunk_eq] at hw ⊢
  split_ifs <;> omega

theorem filewriteLoop_nil (i : Inum) (off : ℕ) : filewriteLoop i [] off = pure (0, off) := by
  rw [filewriteLoop, dif_neg fun hne ↦ hne rfl]

theorem filewriteLoop_of_ne_nil (i : Inum) (hsrc : src ≠ []) (off : ℕ) : filewriteLoop i src off = (do
    match ← filewriteChunk i (src.take (min src.length maxChunk)) off with
    | none => return (0, off)
    | some r =>
      if r ≠ min src.length maxChunk then .stop
      else
        let rest ← filewriteLoop i (src.drop (min src.length maxChunk)) (off + r)
        return (rest.1 + r, rest.2)) := by
  rw [filewriteLoop, dif_pos hsrc]

theorem overwrite_nil (l : List UInt8) (off : ℕ) : overwrite l off [] = l := by
  rw [overwrite, List.append_nil, List.length_nil, Nat.add_zero, List.take_append_drop]

/-- A chunk and the bytes that follow it. -/
theorem overwrite_chunk {l : List UInt8} (hoff : off ≤ l.length) {m : ℕ} (hm : n + m ≤ src.length) :
    overwrite (overwrite l off (src.take m)) (off + m) ((src.drop m).take n) =
      overwrite l off (src.take (n + m)) := by
  have hlength : m ≤ (src.take (n + m)).length := by
    rw [List.length_take]
    omega
  have htwo := overwrite_overwrite hoff m hlength
  rwa [List.take_take, Nat.min_eq_left (Nat.le_add_left m n), List.drop_take, Nat.add_sub_cancel] at htwo

/-- The loop writes the chunks that fit, one after the other. -/
theorem filewriteLoop_returns (ninodes : ℕ) (h : Open fs i) (src : List UInt8) (off : ℕ) :
    ∃ ft, ReturnsOn ninodes (filewriteLoop i src off) fs
        (transferred (fs.inode i).size off src.length, off + transferred (fs.inode i).size off src.length) ft ∧
      FileWritten fs i (overwrite (fs.inode i).content off
        (src.take (transferred (fs.inode i).size off src.length))) ft := by
  induction hn : src.length using Nat.strong_induction_on generalizing src off fs with
  | h n ih =>
    subst hn
    have hsize : (fs.inode i).size ≤ MAXFILE * BSIZE := (fs.inode i).size_le
    by_cases hsrc : src = []
    · subst hsrc
      rw [filewriteLoop_nil, List.length_nil, transferred_zero hsize]
      refine ⟨fs, .pure _ _, ?_, rfl, rfl, fun _ _ ↦ rfl, rfl, rfl⟩
      rw [List.take_nil, overwrite_nil]
    · obtain ⟨n1, hn1⟩ : ∃ n1, n1 = min src.length maxChunk := ⟨_, rfl⟩
      have hpos : 0 < src.length := List.length_pos_iff.mpr hsrc
      have hlen : (src.take n1).length = n1 := by
        rw [List.length_take, hn1]
        exact Nat.min_eq_left (Nat.min_le_left _ _)
      obtain ⟨fc, hchunk, hwritten⟩ := filewriteChunk_returns ninodes h (src.take n1) off
      rw [hlen] at hchunk hwritten
      rw [filewriteLoop_of_ne_nil i hsrc, ← hn1]
      by_cases hw : Writable (fs.inode i).size off n1
      · rw [if_pos hw] at hchunk hwritten
        have hoff : off ≤ (fs.inode i).size := ((writable_iff hsize).mp hw).1
        have hdrop : (src.drop n1).length = src.length - n1 := List.length_drop
        have hless : (src.drop n1).length < src.length := by
          rw [hdrop, hn1, maxChunk_eq]
          omega
        obtain ⟨ft, hrest, hlast⟩ := ih _ hless (hwritten.open h) (src.drop n1) (off + n1) rfl
        have hsize' : (fc.inode i).size = max (fs.inode i).size (off + n1) := by
          rw [Inode.size, hwritten.content, length_overwrite hoff, hlen]
          rfl
        have hsum := transferred_chunk hsize (hn1 ▸ hw)
        rw [← hn1, ← hsize', ← hdrop] at hsum
        refine ⟨ft, hchunk.bind ?_, ?_⟩
        · change ReturnsOn ninodes (if n1 ≠ n1 then .stop else do
            let rest ← filewriteLoop i (src.drop n1) (off + n1)
            return (rest.1 + n1, rest.2)) fc _ ft
          have hoffset : off + (transferred (fc.inode i).size (off + n1) (src.drop n1).length + n1) =
              off + n1 + transferred (fc.inode i).size (off + n1) (src.drop n1).length := by omega
          rw [if_neg (not_not.mpr rfl), hsum, hoffset]
          exact hrest.bind (.pure _ _)
        · have hle := transferred_le (fc.inode i).size (off + n1) (src.drop n1).length
          have hm : transferred (fc.inode i).size (off + n1) (src.drop n1).length + n1 ≤ src.length := by
            omega
          rw [hwritten.content, overwrite_chunk hoff hm, ← hsum] at hlast
          exact hwritten.trans hlast
      · rw [if_neg hw] at hchunk hwritten
        rw [transferred_refused hsize hpos (hn1 ▸ hw)]
        refine ⟨fc, hchunk.bind (.pure _ _), ?_⟩
        rwa [List.take_zero, overwrite_nil]

/-- What `filewrite` of an open file returns on a disk with enough room, and the offset then. -/
def filewriteResult (size off n : ℕ) : Option ℕ × ℕ :=
  (if transferred size off n = n then some n else none, off + transferred size off n)

theorem filewrite_returns (ninodes : ℕ) (h : Open fs i) (src : List UInt8) (off : ℕ) :
    ∃ ft, ReturnsOn ninodes (filewrite i src off) fs (filewriteResult (fs.inode i).size off src.length) ft ∧
      FileWritten fs i (overwrite (fs.inode i).content off
        (src.take (transferred (fs.inode i).size off src.length))) ft := by
  obtain ⟨ft, hloop, hwritten⟩ := filewriteLoop_returns ninodes h src off
  refine ⟨ft, hloop.bind ?_, hwritten⟩
  rw [filewriteResult]
  by_cases hall : transferred (fs.inode i).size off src.length = src.length
  · rw [if_pos hall]
    exact .pure _ _
  · rw [if_neg hall]
    exact .pure _ _

/-! ## Open files on the blocks -/

theorem Represents.open (h : Represents sb t ft) (href : i ∈ t.refs) (hlock : i ∉ t.locks)
    (htype : (t.volume.dinode sb i).type ≠ typeCode .free ∧ (t.volume.dinode sb i).type ≠ typeCode .dev) :
    Open ft i := by
  rw [h.files.type] at htype
  refine ⟨h.refs ▸ href, h.locks ▸ hlock, fun hfree ↦ htype.1 (by rw [hfree]), fun hdev ↦ ?_⟩
  exact htype.2 (by rw [hdev])

/-- In every state that is reached, a write of a chunk fits into a transaction. -/
theorem chunk_fits_transaction (hl : sb.Laid) (hninodes : sb.ninodes ≤ 65536) (h : Represents sb s fs)
    (hrun : (blockMachine sb).run s ls = some t) (hlock : i ∈ t.locks) (hlen : src.length ≤ maxChunk)
    (hwrite : writei sb i src off t.volume = .ok (some n, v)) :
    ∃ l, v.logged = t.volume.logged ++ l ∧ l.toFinset.card ≤ MAXOPBLOCKS ∧
      (sb.size ≤ BPB → l.toFinset.card ≤ 7) := by
  obtain ⟨ft, -, hrep⟩ := h.run hl hninodes hrun
  have hconsistent := hrep.files.consistent
  have hvalid := hrep.valid_of_locked (hrep.locks ▸ hlock)
  have hends := (hconsistent.writei_ends hl hvalid off src).1 _ _ hwrite
  by_cases hw : Writable (contents ft.inode i).length off src.length
  · obtain ⟨-, hwritten⟩ := (if_pos hw).mp hends
    have hsize : (contents ft.inode i).length ≤ MAXFILE * BSIZE := hconsistent.contents.length_le i
    exact hwritten.card_logged hconsistent ((writable_iff hsize).mp hw).1 hlen
  · obtain ⟨hnone, -⟩ := (if_neg hw).mp hends
    cases hnone

/-- A byte at the beginning of a file that has a block there. -/
theorem writei_byte (sb : SuperBlock) {i : ℕ} {v : Volume} (x : UInt8) (hsize : 0 < (v.icache i).size)
    (hblock : (v.icache i).addrs 0 ≠ 0) :
    ∃ w, writei sb i [x] 0 v = .ok (some 1, w) ∧ w.logged = v.logged ++ [(v.icache i).addrs 0] := by
  have hrange : ¬((v.icache i).size < 0 ∨ (0 + [x].length) % 2 ^ 32 < 0) := by
    rintro (h | h) <;> exact absurd h (Nat.not_lt_zero _)
  have hmax : ¬MAXFILE * BSIZE < 0 + [x].length := Nat.not_lt.mpr (by rw [List.length_singleton]; decide)
  have hext : ¬(0 < [x].length ∧ (v.icache i).size < 0 + [x].length) := fun h ↦
    Nat.lt_irrefl _ (Nat.lt_of_lt_of_le h.2 hsize)
  have hbmap : bmap sb i 0 v = .ok ((v.icache i).addrs 0, v) := by
    rw [bmap, if_pos (by decide), addrFor]
    refine (bind_of_ok (a := v.icache i) (t := v) rfl).trans ?_
    rw [if_neg hblock]
    rfl
  obtain ⟨w, hw⟩ : ∃ w, w = v.write ((v.icache i).addrs 0)
    (Mkfs.bcopy [x] 0 1 (v.block ((v.icache i).addrs 0))) := ⟨_, rfl⟩
  have hloop : writeLoop sb i 0 [x] v = .ok ((), w) := by
    rw [writeLoop, dif_pos (List.cons_ne_nil x [])]
    refine (bind_of_ok hbmap).trans ?_
    refine (bind_of_ok (a := ()) (t := w) (by rw [hw]; rfl)).trans ?_
    rw [writeLoop, dif_neg fun hne ↦ hne rfl]
    rfl
  refine ⟨w, ?_, by rw [hw]; rfl⟩
  rw [writei]
  refine (bind_of_ok (a := v.icache i) (t := v) rfl).trans ?_
  rw [if_neg hrange, if_neg hmax]
  refine (bind_of_ok hloop).trans ?_
  rw [if_neg hext]
  rfl

/-- A byte of the root directory is written. -/
theorem chunk_fits_transaction_byte : ∃ (t : Cache) (w : Volume) (l : List ℕ), 1 ∈ t.locks ∧
    writei layout (1 : Inum) [65] 0 t.volume = .ok (some 1, w) ∧ w.logged = t.volume.logged ++ l ∧ l ≠ [] ∧
      l.toFinset.card ≤ MAXOPBLOCKS ∧ (layout.size ≤ BPB → l.toFinset.card ≤ 7) := by
  obtain ⟨img, hmkfs⟩ := exists_oneFile
  obtain ⟨fs, hfiles, hboot⟩ := represents_boot (by decide) (by decide) hmkfs
  obtain ⟨-, t, hrun, hlock, hdinode⟩ := exists_rootLock (by decide) (by decide) hmkfs
  obtain ⟨ft, -, hrep⟩ := hboot.run laid_layout (by decide) hrun
  have hcached := hrep.files.consistent.cached (1 : Inum) (hrep.valid_of_locked (hrep.locks ▸ hlock))
  have hsize : 0 < (t.volume.icache (1 : Inum)).size := by
    have hroot : ((Volume.ofImage img).dinode layout (1 : Inum)).size = _ :=
      hboot.files.consistent.size (1 : Inum)
    rw [hcached.1, hdinode, hroot, contents_val, hfiles.content, formatted, if_pos (by decide),
      length_rootContent]
    exact Nat.mul_pos (Nat.succ_pos _) (by decide)
  have hblock : (t.volume.icache (1 : Inum)).addrs 0 ≠ 0 := by
    rw [hcached.1] at hsize ⊢
    have hdata := (hrep.files.consistent.exact.data (1 : Inum) 0 (by decide)).mpr
    rw [Nat.zero_mul] at hdata
    exact hdata hsize
  obtain ⟨w, hw, hlogged⟩ := writei_byte layout 65 hsize hblock
  obtain ⟨l, hl, hcard, hseven⟩ :=
    chunk_fits_transaction laid_layout (by decide) hboot hrun hlock (by decide) hw
  refine ⟨t, w, l, hlock, hw, hl, fun hnil ↦ ?_, hcard, hseven⟩
  rw [hnil, hlogged, List.append_cancel_left_eq] at hl
  exact List.cons_ne_nil _ _ hl

/-- In every state that is reached, `filewrite` writes the chunks that fit and returns -1 if these are
not all bytes; it fails on a disk without blocks left only. -/
theorem filewrite_transfers (hl : sb.Laid) (hninodes : sb.ninodes ≤ 65536) (h : Represents sb s fs)
    (hrun : (blockMachine sb).run s ls = some t) (href : i ∈ t.refs) (hlock : i ∉ t.locks)
    (htype : (t.volume.dinode sb i).type ≠ typeCode .free ∧ (t.volume.dinode sb i).type ≠ typeCode .dev)
    (src : List UInt8) (off : ℕ) : ∃ ft, (fileMachine sb).run fs ls = some ft ∧
      Ends ((filewrite i src off).run (fun call ↦ call.onBlocks sb) (.panic "short filewrite")) t
        (fun r u ↦ r = filewriteResult (ft.inode i).size off src.length ∧ ∃ fu, Represents sb u fu ∧
          FileWritten ft i (overwrite (ft.inode i).content off
            (src.take (transferred (ft.inode i).size off src.length))) fu) OutOfBlocks := by
  obtain ⟨ft, hft, hrep⟩ := h.run hl hninodes hrun
  obtain ⟨fu, hreturns, hwritten⟩ := filewrite_returns sb.ninodes (hrep.open href hlock htype) src off
  have hends : Ends ((filewrite i src off).run (fun call ↦ call.onBlocks sb) (.panic "short filewrite")) t
      (fun r u ↦ r = filewriteResult (ft.inode i).size off src.length ∧ Represents sb u fu)
      fun e ↦ ∃ call, WriteOutOfBlocks call e :=
    Client.Returns.matches (fun _ _ _ hR hcall ↦ hR.call_matches hl hninodes hcall) hrep hreturns
  exact ⟨ft, hft, hends.weaken (fun r u ⟨hr, hR⟩ ↦ ⟨hr, fu, hR, hwritten⟩) fun _ ⟨_, he⟩ ↦ he.1⟩

/-- A byte is written to the beginning of the root directory. -/
theorem filewrite_transfers_byte : ∃ img : FsCheck.Image,
    Mkfs.mkfs [⟨[97], [104, 105]⟩] = .ok img ∧
      Ends ((filewrite 1 [65] 0).run (fun call ↦ call.onBlocks layout) (.panic "short filewrite"))
        (rootRef img) (fun r _ ↦ r = (some 1, 1)) OutOfBlocks := by
  obtain ⟨img, hmkfs⟩ := exists_oneFile
  obtain ⟨fs, -, hboot⟩ := represents_boot (by decide) (by decide) hmkfs
  obtain ⟨htype, -⟩ := exists_rootLock (by decide) (by decide) hmkfs
  obtain ⟨_, -, hends⟩ := filewrite_transfers laid_layout (by decide) hboot (rootRef_run img)
    (Multiset.mem_singleton_self 1) (Finset.notMem_empty 1) (by rw [htype]; decide) [65] 0
  refine ⟨img, hmkfs, hends.imp fun r _ ⟨hr, _⟩ ↦ ?_⟩
  have hone (size : ℕ) : transferred size 0 1 = 1 := by
    rw [transferred, if_neg (Nat.not_lt_zero _), if_pos (by decide)]
  rw [hr, filewriteResult, List.length_singleton, hone, if_pos rfl]

/-- `filewrite`, and `fileread` of the same place. -/
def writeThenRead (ip : Inum) (src : List UInt8) (off : ℕ) :
    Client Call Answer (Option ℕ × Option (List UInt8)) := do
  let r ← filewrite ip src off
  let q ← fileread ip src.length off
  return (r.1, q.1)

theorem drop_take_overwrite {l : List UInt8} (hoff : off ≤ l.length) :
    ((overwrite l off src).drop off).take src.length = src := by
  have htake : (l.take off).length = off := List.length_take_of_le hoff
  rw [overwrite, List.append_assoc, List.drop_append_of_le_length htake.ge, List.drop_of_length_le htake.le,
    List.nil_append, List.take_left]

theorem writeThenRead_returns (ninodes : ℕ) (h : Open fs i) (hoff : off ≤ (fs.inode i).size)
    (hmax : off + src.length ≤ MAXFILE * BSIZE) :
    ∃ ft, ReturnsOn ninodes (writeThenRead i src off) fs (some src.length, some src) ft := by
  have hall : transferred (fs.inode i).size off src.length = src.length := by
    rw [transferred, if_neg (Nat.not_lt.mpr hoff), if_pos hmax]
  obtain ⟨fw, hwrite, hwritten⟩ := filewrite_returns ninodes h src off
  rw [filewriteResult, hall, if_pos rfl] at hwrite
  rw [hall, List.take_length] at hwritten
  obtain ⟨ft, hread, -⟩ := fileread_returns ninodes (hwritten.open h) src.length off
  have hsize : (fw.inode i).size = max (fs.inode i).size (off + src.length) := by
    rw [Inode.size, hwritten.content, length_overwrite hoff]
    rfl
  have hlength : src.length < 2 ^ 31 := (Nat.le_add_left _ _).trans_lt (hmax.trans_lt (by decide))
  have hbytes : FileSystem.readi (fw.inode i) off src.length = some src := by
    rw [FileSystem.readi_of_le (by rw [hsize]; exact hoff.trans (Nat.le_max_left _ _)) hlength,
      hwritten.content, drop_take_overwrite hoff]
  rw [hbytes] at hread
  exact ⟨ft, hwrite.bind (hread.bind (.pure _ _))⟩

/-- In every state that is reached, the bytes that are written are read back, unless there are no
blocks left. -/
theorem written_is_read (hl : sb.Laid) (hninodes : sb.ninodes ≤ 65536) (h : Represents sb s fs)
    (hrun : (blockMachine sb).run s ls = some t) (href : i ∈ t.refs) (hlock : i ∉ t.locks)
    (htype : (t.volume.dinode sb i).type ≠ typeCode .free ∧ (t.volume.dinode sb i).type ≠ typeCode .dev)
    (hoff : off ≤ (t.volume.dinode sb i).size) (hmax : off + src.length ≤ MAXFILE * BSIZE) :
    Ends ((writeThenRead i src off).run (fun call ↦ call.onBlocks sb) (.panic "short filewrite")) t
      (fun r _ ↦ r = (some src.length, some src)) OutOfBlocks := by
  obtain ⟨ft, -, hrep⟩ := h.run hl hninodes hrun
  rw [hrep.files.consistent.size, contents_val] at hoff
  obtain ⟨fu, hreturns⟩ := writeThenRead_returns sb.ninodes (hrep.open href hlock htype) hoff hmax
  have hends : Ends ((writeThenRead i src off).run (fun call ↦ call.onBlocks sb) (.panic "short filewrite")) t
      (fun r u ↦ r = (some src.length, some src) ∧ Represents sb u fu)
      fun e ↦ ∃ call, WriteOutOfBlocks call e :=
    Client.Returns.matches (fun _ _ _ hR hcall ↦ hR.call_matches hl hninodes hcall) hrep hreturns
  exact hends.weaken (fun _ _ hr ↦ hr.1) fun _ ⟨_, he⟩ ↦ he.1

theorem written_is_read_byte : ∃ img : FsCheck.Image, Mkfs.mkfs [⟨[97], [104, 105]⟩] = .ok img ∧
    Ends ((writeThenRead 1 [65] 0).run (fun call ↦ call.onBlocks layout) (.panic "short filewrite"))
      (rootRef img) (fun r _ ↦ r = (some 1, some [65])) OutOfBlocks := by
  obtain ⟨img, hmkfs⟩ := exists_oneFile
  obtain ⟨fs, -, hboot⟩ := represents_boot (by decide) (by decide) hmkfs
  obtain ⟨htype, -⟩ := exists_rootLock (by decide) (by decide) hmkfs
  exact ⟨img, hmkfs, written_is_read laid_layout (by decide) hboot (rootRef_run img)
    (Multiset.mem_singleton_self 1) (Finset.notMem_empty 1) (by rw [htype]; decide) (Nat.zero_le _) (by decide)⟩

end CS537.Storage
