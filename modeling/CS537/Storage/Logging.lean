import CS537.Storage.Refinement

/-!
# What the calls log

A call changes no block that it has not given to `log_write`, and the blocks that it gives to
`log_write` are blocks of inodes, of the bitmap or of data.  So the blocks before the inodes, which the
log has for itself, do not matter to the files.
-/

namespace CS537.Storage

open Foundation Log
open FileSystem (Inum FsState)
open FsCheck (BSIZE NDIRECT NINDIRECT BPB)
open Mkfs (Dinode MAXFILE)

/-! ## The blocks that have changed -/

/-- The blocks that are different in `t` have been logged since `s`. -/
def Logs (s t : Volume) : Prop :=
  ∃ l, t.logged = s.logged ++ l ∧ ∀ b, b ∉ l → t.block b = s.block b

variable {sb : SuperBlock} {s t u : Volume}

namespace Logs

theorem of_eq (hblock : t.block = s.block) (hlogged : t.logged = s.logged) : Logs s t :=
  ⟨[], by rw [hlogged, List.append_nil], fun b _ ↦ by rw [hblock]⟩

theorem refl (s : Volume) : Logs s s := of_eq rfl rfl

theorem trans (h : Logs s t) (h' : Logs t u) : Logs s u := by
  obtain ⟨l, hl, hblock⟩ := h
  obtain ⟨l', hl', hblock'⟩ := h'
  refine ⟨l ++ l', by rw [hl', hl, List.append_assoc], fun b hb ↦ ?_⟩
  rw [List.mem_append, not_or] at hb
  rw [hblock' b hb.2, hblock b hb.1]

theorem write (s : Volume) (b : ℕ) (data : Block) : Logs s (s.write b data) :=
  ⟨[b], rfl, fun _ hc ↦ s.write_of_ne data fun heq ↦ hc (heq ▸ List.mem_singleton_self _)⟩

end Logs

instance isPreorder_logs : IsPreorder Volume Logs where
  refl := .refl
  trans _ _ _ := .trans

/-! ## Every function logs what it changes -/

theorem leads_bread (b : ℕ) : Leads Logs (bread b) :=
  .look fun s : Volume ↦ s.block b

theorem leads_ip (i : ℕ) : Leads Logs (ip i) :=
  .look fun s : Volume ↦ s.icache i

theorem leads_setIp (i : ℕ) (f : Dinode → Dinode) : Leads Logs (setIp i f) :=
  .change fun _ ↦ .of_eq rfl rfl

theorem leads_logWrite (b : ℕ) (f : Block → Block) : Leads Logs (logWrite b f) :=
  .change fun s ↦ .write s b (f (s.block b))

theorem leads_ballocFrom (n b : ℕ) : Leads Logs (ballocFrom sb n b) := by
  induction n generalizing b with
  | zero => exact .throw _
  | succ n ih =>
    refine (leads_bread _).bind fun data ↦ ?_
    cases scanBits sb data b BPB 0 with
    | none => exact ih _
    | some bi => exact (leads_logWrite _ _).bind fun _ ↦ (leads_logWrite _ _).bind fun _ ↦ .pure _

theorem leads_balloc : Leads Logs (balloc sb) := leads_ballocFrom _ _

theorem leads_bfree (b : ℕ) : Leads Logs (bfree sb b) := by
  refine (leads_bread _).bind fun data ↦ ?_
  dsimp only
  split
  · exact .throw _
  · exact leads_logWrite _ _

theorem leads_iallocFrom (type n inum : ℕ) : Leads Logs (iallocFrom sb type n inum) := by
  induction n generalizing inum with
  | zero => exact .throw _
  | succ n ih =>
    refine (leads_bread _).bind fun data ↦ ?_
    split
    · exact (leads_logWrite _ _).bind fun _ ↦ .pure _
    · exact ih _

theorem leads_iupdate (i : ℕ) : Leads Logs (iupdate sb i) :=
  (leads_ip i).bind fun _ ↦ leads_logWrite _ _

theorem leads_setFields (i major minor nlink : ℕ) : Leads Logs (setFields sb i major minor nlink) :=
  (leads_setIp i _).bind fun _ ↦ leads_iupdate i

theorem leads_ilock (i : ℕ) : Leads Logs (ilock sb i) := by
  refine (Leads.look id).bind fun s ↦ ?_
  dsimp only
  split
  · refine (leads_bread _).bind fun data ↦ ?_
    refine Leads.bind ?_ fun _ ↦ ?_
    · exact .change fun _ ↦ .of_eq rfl rfl
    split
    · exact .throw _
    · exact .pure _
  · exact .pure _

theorem leads_addrFor (i k : ℕ) : Leads Logs (addrFor sb i k) := by
  refine (leads_ip i).bind fun d ↦ ?_
  dsimp only
  split
  · exact leads_balloc.bind fun _ ↦ (leads_setIp i _).bind fun _ ↦ .pure _
  · exact .pure _

theorem leads_bmap (i bn : ℕ) : Leads Logs (bmap sb i bn) := by
  rw [bmap]
  split
  · exact leads_addrFor i bn
  split
  · refine (leads_addrFor i NDIRECT).bind fun indirect ↦ (leads_bread indirect).bind fun a ↦ ?_
    split
    · exact leads_balloc.bind fun _ ↦ (leads_logWrite _ _).bind fun _ ↦ .pure _
    · exact .pure _
  · exact .throw _

theorem leads_itrunc (i : ℕ) : Leads Logs (itrunc sb i) := by
  have hdirect : Leads Logs (freeDirect sb i) := .forM (fun k ↦ (leads_ip i).bind fun d ↦ by
    dsimp only
    split
    · exact (leads_bfree _).bind fun _ ↦ leads_setIp i _
    · exact .pure _) _
  have hentries (a : Block) : Leads Logs (freeEntries sb a) := .forM (fun j ↦ by
    split
    · exact leads_bfree _
    · exact .pure _) _
  have hend : Leads Logs (do setIp i (·.setSize 0); iupdate sb i) :=
    (leads_setIp i _).bind fun _ ↦ leads_iupdate i
  refine hdirect.bind fun _ ↦ (leads_ip i).bind fun d ↦ ?_
  dsimp only
  split
  · exact (leads_bread _).bind fun a ↦ (hentries a).bind fun _ ↦ (leads_bfree _).bind fun _ ↦
      (leads_setIp i _).bind fun _ ↦ hend
  · exact hend

theorem leads_freeInode (i : ℕ) : Leads Logs (freeInode sb i) :=
  (leads_itrunc i).bind fun _ ↦ (leads_setIp i _).bind fun _ ↦ (leads_iupdate i).bind fun _ ↦
    .change fun _ ↦ .of_eq rfl rfl

theorem leads_readLoop (i n : ℕ) (off : ℕ) : Leads Logs (readLoop sb i off n) := by
  induction n using Nat.strongRecOn generalizing off with
  | ind n ih =>
    rw [readLoop]
    split
    case isTrue hn =>
      have hlt : n - chunk off n < n := Nat.sub_lt hn (chunk_pos off hn)
      exact (leads_bmap i _).bind fun b ↦ (leads_bread b).bind fun data ↦ (ih _ hlt _).bind fun _ ↦ .pure _
    case isFalse => exact .pure _

theorem leads_readi (i off n : ℕ) : Leads Logs (readi sb i off n) := by
  refine (leads_ip i).bind fun d ↦ ?_
  dsimp only
  split
  · exact .pure _
  · exact (leads_readLoop i _ off).bind fun _ ↦ .pure _

theorem leads_writeLoop (i n : ℕ) (off : ℕ) (src : List UInt8) (hn : src.length = n) :
    Leads Logs (writeLoop sb i off src) := by
  induction n using Nat.strongRecOn generalizing off src with
  | ind n ih =>
    rw [writeLoop]
    split
    case isTrue hsrc =>
      have hpos : 0 < src.length := List.length_pos_iff.mpr hsrc
      have hlt : (src.drop (chunk off src.length)).length < n := by
        rw [List.length_drop, ← hn]
        exact Nat.sub_lt hpos (chunk_pos off hpos)
      exact (leads_bmap i _).bind fun b ↦ (leads_logWrite b _).bind fun _ ↦ ih _ hlt _ _ rfl
    case isFalse => exact .pure _

theorem leads_writei (i : ℕ) (src : List UInt8) (off : ℕ) : Leads Logs (writei sb i src off) := by
  refine (leads_ip i).bind fun d ↦ ?_
  dsimp only
  split
  · exact .pure _
  split
  · exact .pure _
  · refine (leads_writeLoop i _ off src rfl).bind fun _ ↦ ?_
    split
    · exact (leads_setIp i _).bind fun _ ↦ (leads_iupdate i).bind fun _ ↦ .pure _
    · exact .pure _

/-! ## The calls -/

instance isPreorder_cacheLogs : IsPreorder Cache (InvImage Logs Cache.volume) where
  refl s := Logs.refl s.volume
  trans _ _ _ := Logs.trans

theorem leads_onVolume {α : Type} {m : Kernel α} (h : Leads Logs m) :
    Leads (InvImage Logs Cache.volume) (Cache.onVolume m) := by
  intro s a t hrun
  cases hm : m s.volume with
  | error e =>
    rw [Cache.onVolume, hm] at hrun
    cases hrun
  | ok r =>
    rw [onVolume_of_ok hm] at hrun
    obtain ⟨-, rfl⟩ := Prod.mk.inj (Except.ok.inj hrun)
    exact h s.volume r.1 r.2 hm

theorem leads_iget (inum : Inum) : Leads (InvImage Logs Cache.volume) (Cache.iget inum) := by
  intro s a t hrun
  rw [Cache.iget] at hrun
  split_ifs at hrun
  · obtain ⟨-, rfl⟩ := Prod.mk.inj (Except.ok.inj hrun)
    exact .refl s.volume
  · obtain ⟨-, rfl⟩ := Prod.mk.inj (Except.ok.inj hrun)
    exact .of_eq rfl rfl

theorem Call.leads (call : Call) : Leads (InvImage Logs Cache.volume) (call.onBlocks sb) := by
  cases call with
  | iget inum => exact (leads_iget inum).bind fun _ ↦ .pure _
  | idup ip =>
    refine Leads.bind ?_ fun _ ↦ .pure _
    intro s a t hrun
    obtain ⟨-, rfl⟩ := Prod.mk.inj (Except.ok.inj hrun)
    exact .refl s.volume
  | ilock ip =>
    refine Leads.bind ((Leads.look id).bind fun s ↦ ?_) fun _ ↦ .pure _
    split
    · exact .throw _
    split
    · exact .throw _
    · exact (leads_onVolume (leads_ilock ip)).bind fun _ ↦ .change fun s ↦ .refl s.volume
  | iunlock ip =>
    refine Leads.bind ?_ fun _ ↦ .pure _
    intro s a t hrun
    rw [Cache.iunlock] at hrun
    split_ifs at hrun
    obtain ⟨-, rfl⟩ := Prod.mk.inj (Except.ok.inj hrun)
    exact .refl s.volume
  | iput ip =>
    refine Leads.bind ((Leads.look id).bind fun s ↦ ?_) fun _ ↦ .pure _
    split
    · exact .throw _
    split
    · exact (leads_onVolume (leads_freeInode ip)).bind fun _ ↦ .change fun s ↦ .refl s.volume
    · exact .change fun s ↦ .refl s.volume
  | ialloc type =>
    exact ((leads_onVolume (leads_iallocFrom _ _ _)).bind fun _ ↦ leads_iget _).bind fun _ ↦ .pure _
  | setFields ip major minor nlink =>
    exact (leads_onVolume (leads_setFields ip major minor nlink)).bind fun _ ↦ .pure _
  | readi ip off n => exact (leads_onVolume (leads_readi ip off n)).bind fun _ ↦ .pure _
  | writei ip src off => exact (leads_onVolume (leads_writei ip src off)).bind fun _ ↦ .pure _

/-- A call that may write is made between `begin_op` and `end_op`. -/
def Call.InTransaction : Call → Prop
  | .iput _ | .ialloc _ | .setFields _ _ _ _ | .writei _ _ _ => True
  | .iget _ | .idup _ | .ilock _ | .iunlock _ | .readi _ _ _ => False

instance decidableInTransaction (call : Call) : Decidable call.InTransaction :=
  match call with
  | .iput _ | .ialloc _ | .setFields _ _ _ _ | .writei _ _ _ => inferInstanceAs (Decidable True)
  | .iget _ | .idup _ | .ilock _ | .iunlock _ | .readi _ _ _ => inferInstanceAs (Decidable False)

/-! ## Which blocks are logged -/

/-- A block of the inodes, of the bitmap or of the data. -/
def SuperBlock.Managed (sb : SuperBlock) (b : ℕ) : Prop := sb.inodestart ≤ b ∧ b < sb.size

section

variable {c : ℕ → List UInt8} {ino : ℕ → Dinode} {fs : FsState} {call : Call} {i k b : ℕ}

theorem SuperBlock.Laid.inodestart_le (hl : sb.Laid) : sb.inodestart ≤ sb.bmapstart :=
  (Nat.le_add_right _ _).trans hl.inodes

theorem SuperBlock.Laid.managed_iblock (hl : sb.Laid) (hi : i < sb.ninodes) : sb.Managed (sb.iblock i) :=
  ⟨Nat.le_add_left _ _, (hl.iblock_lt hi).trans_le (sb.bmapstart_le.trans hl.nmeta)⟩

theorem SuperBlock.Laid.managed_bblock (hl : sb.Laid) (hb : b < sb.size) : sb.Managed (sb.bblock b) :=
  ⟨hl.inodestart_le.trans (sb.bblock_ge b), (sb.bblock_lt hb).trans_le hl.nmeta⟩

theorem Mapped.managed (h : Mapped sb s ino) (hl : sb.Laid) (hne : s.address (ino i) k ≠ 0) :
    sb.Managed (s.address (ino i) k) :=
  ⟨(hl.inodestart_le.trans sb.bmapstart_le).trans (h.nmeta_le hne), h.lt_size hne⟩

theorem LoggedIn.of_eq {P : ℕ → Prop} (h : t.logged = s.logged) : LoggedIn s t P :=
  ⟨[], by rw [h, List.append_nil], List.forall_mem_nil _⟩

theorem LoggedIn.concat {P : ℕ → Prop} (h : t.logged = s.logged ++ [b]) (hb : P b) : LoggedIn s t P :=
  ⟨[b], h, fun _ hc ↦ List.mem_singleton.mp hc ▸ hb⟩

theorem FreedIn.managed (hl : sb.Laid) (hi : i < sb.ninodes) (h : FreedIn sb i b) : sb.Managed b := by
  rcases h with rfl | ⟨c, hc, rfl⟩
  · exact hl.managed_iblock hi
  · exact hl.managed_bblock hc

theorem WrittenTo.managed {off n : ℕ} (hl : sb.Laid) (h : Mapped sb t ino)
    (hb : WrittenTo sb s (s.dinode sb i) off n t (ino i) b) : sb.Managed b := by
  cases hb with
  | data _ hne => exact h.managed hl hne
  | indirect hne => exact h.managed hl hne
  | bitmap _ _ hne => exact hl.managed_bblock (h.lt_size hne)

theorem onVolume_logged {α : Type} {m : Kernel α} {s : Cache} {P : ℕ → Prop} {E : Stop → Prop}
    (h : Ends m s.volume (fun _ v ↦ LoggedIn s.volume v P) E) :
    Ends (Cache.onVolume m) s (fun _ t ↦ LoggedIn s.volume t.volume P) fun _ ↦ True := by
  refine (onVolume_ends h).weaken (fun _ t ht ↦ ?_) fun _ _ ↦ trivial
  obtain ⟨v, hv, rfl⟩ := ht
  exact hv

theorem iget_logged (inum : Inum) (s : Cache) :
    Ends (Cache.iget inum) s (fun _ t ↦ t.volume.logged = s.volume.logged) fun _ ↦ True := by
  refine ⟨fun a t hrun ↦ ?_, fun _ _ ↦ trivial⟩
  rw [Cache.iget] at hrun
  split_ifs at hrun
  · obtain ⟨-, rfl⟩ := Prod.mk.inj (Except.ok.inj hrun)
    rfl
  · obtain ⟨-, rfl⟩ := Prod.mk.inj (Except.ok.inj hrun)
    rfl

/-- A call logs blocks of the inodes, of the bitmap and of the data only, and only in a transaction. -/
theorem Represents.logged_ends {s : Cache} (h : Represents sb s fs) (hl : sb.Laid)
    (hcall : call.Allowed sb.ninodes fs.refs fs.locks fun i ↦ typeCode (fs.inode i).type) :
    Ends (call.onBlocks sb) s
      (fun _ t ↦ LoggedIn s.volume t.volume fun b ↦ call.InTransaction ∧ sb.Managed b) fun _ ↦ True := by
  have hconsistent := h.files.consistent
  cases call with
  | iget inum => exact (iget_logged inum s).bind fun _ _ ht ↦ .pure (.of_eq ht)
  | idup ip => exact .of_ok (a := .inode ip) (t := { s with refs := ip ::ₘ s.refs }) rfl (.of_eq rfl)
  | ilock ip =>
    have hexists := h.exists_of_ref ip (Multiset.count_pos.mpr hcall)
    have hilock : Ends (ilock sb ip) s.volume
        (fun _ v ↦ LoggedIn s.volume v fun b ↦ (Call.ilock ip).InTransaction ∧ sb.Managed b) _ :=
      (ilock_ends hconsistent hexists).imp fun _ _ hv ↦ .of_eq hv.2.2.2.2
    refine Ends.bind (.after (a := s) (t := s) rfl ?_) fun _ _ ht ↦ .pure ht
    split
    · exact .throw trivial
    split
    · exact .throw trivial
    · exact (onVolume_logged hilock).bind fun _ t ht ↦ .of_ok rfl ht
  | iunlock ip =>
    refine Ends.bind (Q := fun _ t ↦ LoggedIn s.volume t.volume
      fun b ↦ (Call.iunlock ip).InTransaction ∧ sb.Managed b) ?_ fun _ _ ht ↦ .pure ht
    by_cases hno : ip ∉ s.locks ∨ s.ref ip < 1
    · exact .of_error (if_pos hno) trivial
    · exact .of_ok (if_neg hno) (.of_eq rfl)
  | iput ip =>
    refine Ends.bind (Q := fun _ t ↦ LoggedIn s.volume t.volume
      fun b ↦ (Call.iput ip).InTransaction ∧ sb.Managed b)
      (.after (a := s) (t := s) rfl ?_) fun _ _ ht ↦ .pure ht
    split
    · exact .throw trivial
    split
    case isTrue hfree =>
      have hexists := hconsistent.lt_ninodes hfree.1
      have hfreed : Ends (freeInode sb ip) s.volume
          (fun _ v ↦ LoggedIn s.volume v fun b ↦ (Call.iput ip).InTransaction ∧ sb.Managed b) _ :=
        (freeInode_ends hconsistent hl hfree.1).imp fun _ _ hv ↦
          hv.2.2.mono fun _ hb ↦ ⟨trivial, hb.managed hl hexists⟩
      exact (onVolume_logged hfreed).bind fun _ t ht ↦ .of_ok rfl ht
    · exact .of_ok rfl (.of_eq rfl)
  | ialloc type =>
    have hialloc : Ends (ialloc sb (typeCode type)) s.volume
        (fun _ v ↦ LoggedIn s.volume v fun b ↦ (Call.ialloc type).InTransaction ∧ sb.Managed b) _ :=
      (ialloc_ends hconsistent hl (typeCode_lt type)).imp fun _ _ hv ↦
        .concat hv.1.logged ⟨trivial, hl.managed_iblock hv.1.lt⟩
    refine Ends.bind ((onVolume_logged hialloc).bind fun i t ht ↦ (iget_logged _ t).imp fun _ u hu ↦ ?_)
      fun _ _ ht ↦ .pure ht
    obtain ⟨l, hlogged, hmem⟩ := ht
    exact ⟨l, hu.trans hlogged, hmem⟩
  | setFields ip major minor nlink =>
    obtain ⟨hlock, hmajor, hminor, hnlink⟩ := hcall
    have hvalid := h.valid_of_locked hlock
    obtain ⟨v, hrun, -, -, hlogged⟩ := setFields_run hconsistent hl hvalid hmajor hminor hnlink
    have hset : Ends (setFields sb ip major minor nlink) s.volume (fun _ v ↦ LoggedIn s.volume v fun b ↦
        (Call.setFields ip major minor nlink).InTransaction ∧ sb.Managed b) fun _ ↦ False :=
      .of_ok hrun (.concat hlogged ⟨trivial, hl.managed_iblock (hconsistent.lt_ninodes hvalid)⟩)
    exact (onVolume_logged hset).bind fun _ _ ht ↦ .pure ht
  | readi ip off n =>
    have hip := (hconsistent.cached ip (h.valid_of_locked hcall.1)).1
    have hread : Ends (readi sb ip off n) s.volume (fun _ v ↦ LoggedIn s.volume v fun b ↦
        (Call.readi ip off n).InTransaction ∧ sb.Managed b) fun _ ↦ False :=
      .of_ok (hconsistent.contents.readi_run hip (hconsistent.size ip) off n) (.of_eq rfl)
    exact (onVolume_logged hread).bind fun _ _ ht ↦ .pure ht
  | writei ip src off =>
    have hvalid := h.valid_of_locked hcall.1
    have hwrite : Ends (writei sb ip src off) s.volume (fun _ v ↦ LoggedIn s.volume v fun b ↦
        (Call.writei ip src off).InTransaction ∧ sb.Managed b) OutOfBlocks := by
      refine (hconsistent.writei_ends hl hvalid off src).imp fun _ v hv ↦ ?_
      split at hv
      · refine hv.2.logged.mono fun b hb ↦ ⟨trivial, hb.elim (fun hb ↦ ?_) fun hb ↦ ?_⟩
        · exact hb ▸ hl.managed_iblock (hconsistent.lt_ninodes hvalid)
        · exact hb.managed hl hv.2.consistent.contents.mapped
      · exact .of_eq (hv.2 ▸ rfl)
    exact (onVolume_logged hwrite).bind fun _ _ ht ↦ .pure ht

/-! ## The blocks that the files are in -/

/-- The inodes on the disk are in the managed blocks. -/
theorem dinode_congr_managed (hl : sb.Laid) (hblocks : ∀ b, sb.Managed b → t.block b = s.block b) :
    t.dinode sb = s.dinode sb := by
  funext i
  rw [Volume.dinode, Volume.dinode]
  by_cases hi : i < sb.ninodes
  · rw [if_pos hi, if_pos hi, hblocks _ (hl.managed_iblock hi)]
  · rw [if_neg hi, if_neg hi]

/-- Blocks that are not managed do not matter, nor do inodes in memory that are not valid. -/
theorem Consistent.congr (h : Consistent sb s c) (hl : sb.Laid)
    (hblocks : ∀ b, sb.Managed b → t.block b = s.block b)
    (hvalid : ∀ j, t.valid j = true → s.valid j = true ∧ t.icache j = s.icache j) : Consistent sb t c := by
  have hdinode := dinode_congr_managed hl hblocks
  refine ⟨?_, fun j ↦ ?_, fun j hj ↦ ?_, fun j hj ↦ ?_⟩
  · rw [hdinode]
    refine h.contents.transfer (fun b hb hlt ↦ hblocks b ⟨hl.inodestart_le.trans hb, ?_⟩) fun _ ↦ rfl
    exact hlt.elim (fun hlt ↦ hlt.trans_le hl.nmeta) id
  · rw [hdinode, h.size]
  · exact h.free j (by rwa [hdinode] at hj)
  · rw [hdinode, (hvalid j hj).2]
    exact h.cached j (hvalid j hj).1

theorem Files.congr {inode : Inum → FileSystem.Inode} (h : Files sb s inode) (hl : sb.Laid)
    (hblocks : ∀ b, sb.Managed b → t.block b = s.block b)
    (hvalid : ∀ j, t.valid j = true → s.valid j = true ∧ t.icache j = s.icache j) : Files sb t inode where
  consistent := h.consistent.congr hl hblocks hvalid
  type i := by rw [dinode_congr_managed hl hblocks, h.type]
  nlink i := by rw [dinode_congr_managed hl hblocks, h.nlink]

/-- The inode cache over the same managed blocks. -/
theorem Represents.congr {s t : Cache} (h : Represents sb s fs) (hl : sb.Laid)
    (hblocks : ∀ b, sb.Managed b → t.volume.block b = s.volume.block b)
    (hicache : t.volume.icache = s.volume.icache) (hvalid : t.volume.valid = s.volume.valid)
    (hrefs : t.refs = s.refs) (hlocks : t.locks = s.locks) : Represents sb t fs where
  files := h.files.congr hl hblocks fun j hj ↦ ⟨hvalid ▸ hj, congrFun hicache j⟩
  valid i := by rw [hvalid, h.valid]
  refs := hrefs.trans h.refs
  locks := hlocks.trans h.locks
  exists_of_ref := h.exists_of_ref
  of_locked := h.of_locked

end

end CS537.Storage
