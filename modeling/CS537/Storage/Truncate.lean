import CS537.Storage.Inodes

/-!
# Truncating inodes

`itrunc` gives all blocks of an inode back: the direct ones, the entries of the indirect block and the
indirect block itself, which are the slots of the inode in their order.  It does not fail, as each block
in a slot is marked and in no other slot.
-/

namespace CS537.Storage

open Foundation Log
open FsCheck (BSIZE NDIRECT NINDIRECT IPB BPB sizeofDinode sizeofInt)
open Mkfs (Dinode byteOf uintAt MAXFILE bcopy BSIZE_pos MAXFILE_eq)

variable {sb : SuperBlock} {s t u : Volume} {ino ino' : ℕ → Dinode} {c : ℕ → List UInt8}
  {i j k m b n off : ℕ} {src : List UInt8}

/-- The blocks in the slots below `k` of inode `i` have been given back. -/
structure Cleared (sb : SuperBlock) (s : Volume) (ino : ℕ → Dinode) (i k : ℕ) (t : Volume) : Prop where
  owned : Owned (fun v : ℕ × ℕ ↦ if v.1 = i ∧ v.2 < k then 0 else s.address (ino v.1) v.2)
    (t.Marked sb) sb.nmeta sb.size
  blocks : ∀ b, b < sb.bmapstart ∨ sb.nmeta ≤ b → t.block b = s.block b
  valid : t.valid = s.valid
  logged : LoggedIn s t fun b ↦ ∃ c < sb.size, b = sb.bblock c

theorem LoggedIn.refl (s : Volume) (P : ℕ → Prop) : LoggedIn s s P :=
  ⟨[], (List.append_nil _).symm, fun b hb ↦ (by cases hb)⟩

theorem LoggedIn.write {P : ℕ → Prop} (h : LoggedIn s t P) (hb : P b) (data : Block) :
    LoggedIn s (t.write b data) P := by
  obtain ⟨l, hl, hP⟩ := h
  refine ⟨l ++ [b], ?_, fun d hd ↦ ?_⟩
  · rw [← List.append_assoc, ← hl]
    rfl
  · rcases List.mem_append.mp hd with hd | hd
    · exact hP d hd
    · rw [List.mem_singleton.mp hd]
      exact hb

theorem Mapped.cleared_zero (h : Mapped sb s ino) (i : ℕ) : Cleared sb s ino i 0 s where
  owned := h.congr (fun _ ↦ if_neg fun hv ↦ Nat.not_lt_zero _ hv.2) fun _ _ ↦ Iff.rfl
  blocks _ _ := rfl
  valid := rfl
  logged := .refl s _

namespace Cleared

/-- The inodes in memory do not matter. -/
theorem setInode (h : Cleared sb s ino i k t) (j : ℕ) (d : Dinode) : Cleared sb s ino i k (t.setInode j d) :=
  ⟨h.owned, h.blocks, h.valid, h.logged⟩

/-- The next slot is empty. -/
theorem skip (h : Cleared sb s ino i k t) (hzero : s.address (ino i) k = 0) : Cleared sb s ino i (k + 1) t := by
  refine ⟨h.owned.congr (fun v ↦ ?_) fun _ _ ↦ Iff.rfl, h.blocks, h.valid, h.logged⟩
  by_cases hlast : v.1 = i ∧ v.2 = k
  · rw [if_pos ⟨hlast.1, by omega⟩, if_neg (by omega), hlast.1, hlast.2, hzero]
  · by_cases hbefore : v.1 = i ∧ v.2 < k
    · rw [if_pos hbefore, if_pos ⟨hbefore.1, by omega⟩]
    · rw [if_neg hbefore, if_neg (by omega)]

/-- The block in the next slot is given back. -/
theorem free (h : Cleared sb s ino i k t) (hne : s.address (ino i) k ≠ 0) :
    bfree sb (s.address (ino i) k) t = .ok ((), t.freed sb (s.address (ino i) k)) ∧
      Cleared sb s ino i (k + 1) (t.freed sb (s.address (ino i) k)) := by
  have howned := h.owned
  obtain ⟨number, hdef⟩ : ∃ number : ℕ × ℕ → ℕ,
      number = fun v ↦ if v.1 = i ∧ v.2 < k then 0 else s.address (ino v.1) v.2 := ⟨_, rfl⟩
  have hnumber : number (i, k) = s.address (ino i) k := by
    rw [hdef]
    exact if_neg fun hlt ↦ Nat.lt_irrefl k hlt.2
  rw [← hdef] at howned
  rw [← hnumber] at hne ⊢
  have hlast := (howned.range _ hne).2
  refine ⟨bfree_run (howned.marked_number hne), ?_, fun b hb ↦ ?_, h.valid, ?_⟩
  · have hmarked (c : ℕ) (_ : c < sb.size) : (t.freed sb (number (i, k))).Marked sb c ↔
        t.Marked sb c ∧ c ≠ number (i, k) := Volume.marked_freed
    have hrelease := howned.release hne hmarked
    refine hrelease.congr (fun v ↦ ?_) fun _ _ ↦ Iff.rfl
    by_cases hv : v = (i, k)
    · rw [hv, Function.update_self, if_pos ⟨rfl, Nat.lt_succ_self k⟩]
    · rw [Function.update_of_ne hv, hdef]
      have hiff : v.1 = i ∧ v.2 < k + 1 ↔ v.1 = i ∧ v.2 < k := by
        refine and_congr_right fun hi ↦ ⟨fun hlt ↦ ?_, fun hlt ↦ by omega⟩
        have hvk : v.2 ≠ k := fun heq ↦ hv (Prod.ext hi heq)
        omega
      simp only [hiff]
  · have hbitmap : b ≠ sb.bblock (number (i, k)) := by
      have hlow := sb.bblock_ge (number (i, k))
      have hhigh := sb.bblock_lt hlast
      omega
    rw [Volume.block_freed_of_ne hbitmap, h.blocks b hb]
  · exact h.logged.write ⟨_, hlast, rfl⟩ _

end Cleared

/-! ## The loops -/

/-- The inode without its first addresses. -/
def clearedTo (d : Dinode) (k : ℕ) : Dinode := { d with addrs := fun m ↦ if m < k then 0 else d.addrs m }

theorem clearedTo_zero (d : Dinode) : clearedTo d 0 = d := rfl

theorem addrs_clearedTo_of_lt (d : Dinode) (hm : m < k) : (clearedTo d k).addrs m = 0 := if_pos hm

theorem addrs_clearedTo_of_le (d : Dinode) (hm : k ≤ m) : (clearedTo d k).addrs m = d.addrs m :=
  if_neg (Nat.not_lt.mpr hm)

theorem setAddr_clearedTo (d : Dinode) (k : ℕ) : (clearedTo d k).setAddr k 0 = clearedTo d (k + 1) := by
  refine congrArg (fun addrs ↦ { d with addrs }) (funext fun m ↦ ?_)
  by_cases hm : m = k
  · rw [hm, Function.update_self, if_pos (Nat.lt_succ_self k)]
  · rw [Function.update_of_ne hm]
    have hiff : m < k ↔ m < k + 1 := by omega
    simp only [clearedTo, hiff]

theorem clearedTo_succ {d : Dinode} (hzero : d.addrs k = 0) : clearedTo d (k + 1) = clearedTo d k := by
  have hself : (clearedTo d k).addrs k = 0 := (addrs_clearedTo_of_le d le_rfl).trans hzero
  rw [← setAddr_clearedTo, Dinode.setAddr, ← hself, Function.update_eq_self]

/-- A loop from `k` to `n` has come to its end. -/
theorem range'_nil (hk : k ≤ n) (h : [] = List.range' k (n - k)) : k = n := by
  have hlength := congrArg List.length h
  rw [List.length_nil, List.length_range'] at hlength
  omega

/-- A loop from `k` to `n` takes its next step. -/
theorem range'_cons {x : ℕ} {xs : List ℕ} (hk : k ≤ n) (h : x :: xs = List.range' k (n - k)) :
    x = k ∧ x < n ∧ xs = List.range' (x + 1) (n - (x + 1)) := by
  obtain ⟨r, hr⟩ : ∃ r, n - k = r + 1 := by
    cases hrest : n - k with
    | zero =>
      rw [hrest] at h
      cases h
    | succ r => exact ⟨r, rfl⟩
  rw [hr, List.range'_succ] at h
  obtain ⟨rfl, rfl⟩ := List.cons.inj h
  have hrest : n - (x + 1) = r := by omega
  exact ⟨rfl, by omega, by rw [hrest]⟩

theorem freeDirect_ends (h : Mapped sb s ino) (hip : s.icache i = ino i) :
    Ends (freeDirect sb i) s (fun _ t ↦ Cleared sb s ino i NDIRECT t ∧
      t.icache = Function.update s.icache i (clearedTo (ino i) NDIRECT)) fun _ ↦ False := by
  have hloop := Ends.forM (E := fun _ ↦ False) (g := fun k ↦ (do
      let addr := (← ip i).addrs k
      if addr ≠ 0 then
        bfree sb addr
        setIp i (·.setAddr k 0) : Kernel Unit))
    (I := fun xs t ↦ ∃ k ≤ NDIRECT, xs = List.range' k (NDIRECT - k) ∧ Cleared sb s ino i k t ∧
      t.icache = Function.update s.icache i (clearedTo (ino i) k)) ?_ (List.range NDIRECT) (s := s) ?_
  · refine hloop.imp fun _ t ⟨k, hk, hxs, hcleared, hicache⟩ ↦ ?_
    obtain rfl := range'_nil hk hxs
    exact ⟨hcleared, hicache⟩
  · intro x xs t ⟨k, hk, hxs, hcleared, hicache⟩
    obtain ⟨rfl, hlt, rfl⟩ := range'_cons hk hxs
    have haddr : (t.icache i).addrs x = s.address (ino i) x := by
      rw [hicache, Function.update_self, Volume.address_direct _ _ hlt, addrs_clearedTo_of_le _ le_rfl]
    refine .after (a := t.icache i) (t := t) rfl ?_
    simp only [haddr]
    by_cases hzero : s.address (ino i) x = 0
    · rw [if_neg (not_not.mpr hzero)]
      refine .pure ⟨x + 1, hlt, rfl, hcleared.skip hzero, ?_⟩
      rw [Volume.address_direct _ _ hlt] at hzero
      rw [hicache, clearedTo_succ hzero]
    · rw [if_pos hzero]
      obtain ⟨hrun, hnext⟩ := hcleared.free hzero
      refine .after hrun (.of_ok rfl ⟨x + 1, hlt, rfl, hnext.setInode i _, ?_⟩)
      change Function.update t.icache i ((t.icache i).setAddr x 0) = _
      rw [hicache, Function.update_self, Function.update_idem, setAddr_clearedTo]
  · exact ⟨0, Nat.zero_le _, List.range_eq_range', h.cleared_zero i,
      by rw [clearedTo_zero, ← hip, Function.update_eq_self]⟩

/-- The entries of the indirect block. -/
theorem freeEntries_ends (hindirect : (ino i).addrs NDIRECT ≠ 0) (ht : Cleared sb s ino i NDIRECT t) :
    Ends (freeEntries sb (s.block ((ino i).addrs NDIRECT))) t (fun _ u ↦ Cleared sb s ino i MAXFILE u ∧
      u.icache = t.icache) fun _ ↦ False := by
  have hentry (x : ℕ) (hx : x < NINDIRECT) : s.address (ino i) (NDIRECT + x) =
      uintAt (s.block ((ino i).addrs NDIRECT)) (sizeofInt * x) := by
    rw [Volume.address_entry _ _ (Nat.le_add_right _ _) (Nat.add_lt_add_left hx _), if_neg hindirect,
      Nat.add_sub_cancel_left]
    rfl
  have hloop := Ends.forM (E := fun _ ↦ False) (g := fun x ↦ (do
      if uintAt (s.block ((ino i).addrs NDIRECT)) (sizeofInt * x) ≠ 0 then
        bfree sb (uintAt (s.block ((ino i).addrs NDIRECT)) (sizeofInt * x)) : Kernel Unit))
    (I := fun xs u ↦ ∃ x ≤ NINDIRECT, xs = List.range' x (NINDIRECT - x) ∧
      Cleared sb s ino i (NDIRECT + x) u ∧ u.icache = t.icache) ?_ (List.range NINDIRECT) (s := t) ?_
  · refine hloop.imp fun _ u ⟨x, hx, hxs, hcleared, hicache⟩ ↦ ?_
    obtain rfl := range'_nil hx hxs
    exact ⟨hcleared, hicache⟩
  · intro x xs u ⟨y, hy, hxs, hcleared, hicache⟩
    obtain ⟨rfl, hlt, rfl⟩ := range'_cons hy hxs
    rw [← hentry x hlt]
    by_cases hzero : s.address (ino i) (NDIRECT + x) = 0
    · rw [if_neg (not_not.mpr hzero)]
      exact .pure ⟨x + 1, hlt, rfl, hcleared.skip hzero, hicache⟩
    · rw [if_pos hzero]
      obtain ⟨hrun, hnext⟩ := hcleared.free hzero
      exact .of_ok hrun ⟨x + 1, hlt, rfl, hnext, hicache⟩
  · exact ⟨0, Nat.zero_le _, List.range_eq_range', ht, rfl⟩

/-! ## `itrunc` -/

theorem Cleared.skip_to (h : Cleared sb s ino i k t) (hk : k ≤ n)
    (hzero : ∀ m, k ≤ m → m < n → s.address (ino i) m = 0) : Cleared sb s ino i n t := by
  induction n, hk using Nat.le_induction with
  | base => exact h
  | succ n hk ih =>
    have hbefore := ih fun m hm hlt ↦ hzero m hm (Nat.lt_succ_of_lt hlt)
    exact hbefore.skip (hzero n hk (Nat.lt_succ_self n))

/-- An inode without addresses. -/
theorem Volume.address_none {d : Dinode} (hd : ∀ m ≤ NDIRECT, d.addrs m = 0) (s : Volume) (m : ℕ) :
    s.address d m = 0 := by
  by_cases hm : m < NDIRECT
  · rw [Volume.address_direct _ _ hm, hd m hm.le]
  · simp only [Volume.address, if_neg hm, hd NDIRECT le_rfl, if_pos, ite_self]

/-- All slots of the inode have been cleared. -/
theorem Cleared.contents (h : Contents sb s ino c) (ht : Cleared sb s ino i (MAXFILE + 1) t) {d : Dinode}
    (hd : ∀ m ≤ NDIRECT, d.addrs m = 0) :
    Contents sb t (Function.update ino i d) (Function.update c i []) := by
  have haddress (j m : ℕ) : t.address (Function.update ino i d j) m =
      if j = i then 0 else s.address (ino j) m := by
    by_cases hj : j = i
    · rw [hj, Function.update_self, if_pos rfl, Volume.address_none hd]
    · rw [Function.update_of_ne hj, if_neg hj]
      refine Volume.address_congr (fun hne ↦ ht.blocks _ (.inr ?_)) m
      rw [← s.address_indirect] at hne ⊢
      exact h.mapped.nmeta_le hne
  refine ⟨ht.owned.congr (fun v ↦ ?_) fun _ _ ↦ Iff.rfl, fun j m hm ↦ ?_, fun j ↦ ?_, fun j p hp ↦ ?_,
    fun j ↦ ?_⟩
  · rw [haddress]
    by_cases hv : v.1 = i
    · rw [if_pos hv]
      by_cases hlt : v.2 < MAXFILE + 1
      · rw [if_pos ⟨hv, hlt⟩]
      · rw [if_neg fun hboth ↦ hlt hboth.2, Volume.address_behind _ _ (Nat.le_of_not_lt hlt)]
    · rw [if_neg hv, if_neg fun hboth ↦ hv hboth.1]
  · rw [haddress]
    by_cases hj : j = i
    · rw [if_pos hj, hj, Function.update_self]
      exact iff_of_false (not_not.mpr rfl) (Nat.not_lt_zero _)
    · rw [if_neg hj, Function.update_of_ne hj]
      exact h.data j m hm
  · rw [haddress]
    by_cases hj : j = i
    · rw [if_pos hj, hj, Function.update_self]
      exact iff_of_false (not_not.mpr rfl) (Nat.not_lt_zero _)
    · rw [if_neg hj, Function.update_of_ne hj]
      exact h.indirect j
  · rw [Volume.byteAt, haddress]
    by_cases hj : j = i
    · rw [if_pos hj, if_pos rfl, hj, Function.update_self]
      rfl
    · rw [if_neg hj, Function.update_of_ne hj, ← h.byte j p hp, Volume.byteAt]
      by_cases hzero : s.address (ino j) (p / BSIZE) = 0
      · rw [if_pos hzero, if_pos hzero]
      · rw [if_neg hzero, if_neg hzero, ht.blocks _ (.inr (h.mapped.nmeta_le hzero))]
  · by_cases hj : j = i
    · rw [hj, Function.update_self]
      exact Nat.zero_le _
    · rw [Function.update_of_ne hj]
      exact h.length_le j

theorem setIp_run (i : ℕ) (f : Dinode → Dinode) (s : Volume) :
    setIp i f s = .ok ((), s.setInode i (f (s.icache i))) := rfl

/-- Up to `iupdate`, `itrunc` clears all slots of the inode. -/
theorem itrunc_clears (h : Mapped sb s ino) (hip : s.icache i = ino i) :
    Ends (itrunc sb i) s (fun _ t ↦ ∃ u, Cleared sb s ino i (MAXFILE + 1) u ∧
      u.icache = Function.update s.icache i ((clearedTo (ino i) (NDIRECT + 1)).setSize 0) ∧
      t = u.updated sb i) fun _ ↦ False := by
  refine (freeDirect_ends h hip).bind fun _ t hdirect ↦ ?_
  obtain ⟨hcleared, hicache⟩ := hdirect
  have haddr : (t.icache i).addrs NDIRECT = (ino i).addrs NDIRECT := by
    rw [hicache, Function.update_self, addrs_clearedTo_of_le _ le_rfl]
  refine .after (a := t.icache i) (t := t) rfl ?_
  simp only [haddr]
  by_cases hzero : (ino i).addrs NDIRECT = 0
  · rw [if_neg (not_not.mpr hzero)]
    have hend : Cleared sb s ino i (MAXFILE + 1) t := by
      refine hcleared.skip_to (by decide) fun m hm hlt ↦ ?_
      simp only [Volume.address, if_neg (Nat.not_lt.mpr hm), hzero, if_pos, ite_self]
    refine .after (setIp_run i _ _) (.of_ok (iupdate_run sb i _) ⟨_, hend.setInode i _, ?_, rfl⟩)
    change Function.update t.icache i ((t.icache i).setSize 0) = _
    rw [hicache, Function.update_self, Function.update_idem, clearedTo_succ hzero]
  · have hindirect : s.address (ino i) MAXFILE = (ino i).addrs NDIRECT := s.address_indirect _
    have hblock : t.block ((ino i).addrs NDIRECT) = s.block ((ino i).addrs NDIRECT) := by
      rw [← hindirect] at hzero ⊢
      exact hcleared.blocks _ (.inr (h.nmeta_le hzero))
    rw [if_pos hzero]
    refine .after (a := t.block ((ino i).addrs NDIRECT)) (t := t) rfl ?_
    rw [hblock]
    refine (freeEntries_ends hzero hcleared).bind fun _ u hfreed ↦ ?_
    obtain ⟨hentries, hicache'⟩ := hfreed
    obtain ⟨hrun, hend⟩ := hentries.free (hindirect ▸ hzero)
    rw [hindirect] at hrun hend
    refine .after hrun (.after (setIp_run i _ _) (.after (setIp_run i _ _) (.of_ok (iupdate_run sb i _)
      ⟨_, (hend.setInode i _).setInode i _, ?_, rfl⟩)))
    change Function.update (Function.update u.icache i ((u.icache i).setAddr NDIRECT 0)) i
      ((Function.update u.icache i ((u.icache i).setAddr NDIRECT 0) i).setSize 0) = _
    rw [hicache', hicache, Function.update_self, Function.update_self, Function.update_idem,
      Function.update_idem, setAddr_clearedTo]

/-- An inode that `itrunc` has truncated. -/
def truncated (d : Dinode) : Dinode := (clearedTo d (NDIRECT + 1)).setSize 0

theorem addrs_truncated (d : Dinode) : ∀ m ≤ NDIRECT, (truncated d).addrs m = 0 :=
  fun _ hm ↦ addrs_clearedTo_of_lt d (Nat.lt_succ_of_le hm)

theorem fits_truncated {d : Dinode} (hd : d.Fits) : (truncated d).Fits where
  type := hd.type
  major := hd.major
  minor := hd.minor
  nlink := hd.nlink
  size := Nat.two_pow_pos 32
  addrs m := by
    by_cases hm : m ≤ NDIRECT
    · rw [addrs_truncated d m hm]
      exact Nat.two_pow_pos 32
    · exact (addrs_clearedTo_of_le d (Nat.lt_of_not_le hm)).trans_lt (hd.addrs m)
  tail m hm := (addrs_clearedTo_of_le d hm).trans (hd.tail m hm)

/-- The blocks that a call writes which gives blocks back. -/
def FreedIn (sb : SuperBlock) (i b : ℕ) : Prop := b = sb.iblock i ∨ ∃ c < sb.size, b = sb.bblock c

theorem LoggedIn.trans {P : ℕ → Prop} (h : LoggedIn s t P) (h' : LoggedIn t u P) : LoggedIn s u P := by
  obtain ⟨l, hl, hP⟩ := h
  obtain ⟨l', hl', hP'⟩ := h'
  refine ⟨l ++ l', by rw [hl', hl, List.append_assoc], fun b hb ↦ ?_⟩
  exact (List.mem_append.mp hb).elim (hP b) (hP' b)

theorem LoggedIn.mono {P Q : ℕ → Prop} (h : LoggedIn s t P) (hPQ : ∀ b, P b → Q b) : LoggedIn s t Q := by
  obtain ⟨l, hl, hP⟩ := h
  exact ⟨l, hl, fun b hb ↦ hPQ b (hP b hb)⟩

section

variable (h : Consistent sb s c) (hl : sb.Laid) (hv : s.valid i = true)
include h hl hv

theorem Consistent.itrunc_ends : Ends (itrunc sb i) s (fun _ t ↦
    Replaced sb s c i (truncated (s.dinode sb i)) [] t ∧ t.valid = s.valid ∧
      (∀ j, j ≠ i → t.icache j = s.icache j) ∧ LoggedIn s t (FreedIn sb i)) fun _ ↦ False := by
  obtain ⟨hip, htype⟩ := h.cached i hv
  have hi := h.lt_ninodes hv
  refine (itrunc_clears h.contents.mapped hip).imp fun _ t ⟨u, hcleared, hicache, ht⟩ ↦ ?_
  have hself : u.icache i = truncated (s.dinode sb i) := by
    rw [hicache, Function.update_self]
    rfl
  have hothers (j : ℕ) (hj : j ≠ i) : u.icache j = s.icache j := by
    rw [hicache, Function.update_of_ne hj]
  have hcontents := hcleared.contents h.contents (addrs_truncated (s.dinode sb i))
  have hput := h.put hl hi hcontents (fun b hb ↦ hcleared.blocks b (.inl hb))
    (fits_truncated (fits_dinode sb s i)) rfl rfl (fun _ ↦ rfl) (fun _ ↦ ⟨hself, htype⟩)
    fun j hj hvalid ↦ ⟨hcleared.valid ▸ hvalid, hothers j hj⟩
  rw [Volume.updated, hself] at ht
  subst ht
  exact ⟨hput, hcleared.valid, hothers, (hcleared.logged.mono fun b hb ↦ .inr hb).write (.inl rfl) _⟩

end

end CS537.Storage
