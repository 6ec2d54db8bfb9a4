import CS537.FileSystem.Inodes
import CS537.Foundation.CString
import Mathlib.Data.List.Range

/-!
# Directories

A directory is a file of 16-byte entries.  `dirlookup` reads them one after the other and stops at
the first one that is in use and has the name; it panics when the content ends within an entry that
it has to read.  The names in entries are at most 14 bytes long and not always terminated.
-/

namespace CS537.FileSystem

open Foundation

def DIRSIZ : ℕ := 14

/-- `sizeof(struct dirent)` -/
def sizeofDirent : ℕ := 2 + DIRSIZ

structure Dirent where
  inum : Inum
  name : List UInt8
  deriving DecidableEq

/-- The entry that 16 bytes encode, the inode number in little-endian order. -/
def Dirent.ofBytes (bytes : List UInt8) : Dirent where
  inum := Fin.ofNat 65536 ((bytes.headD 0).toNat + 256 * (bytes.tail.headD 0).toNat)
  name := bytes.drop 2

/-- The kernel's `strncmp`; behind its end a string reads as NUL. -/
def strncmp (p q : List UInt8) : ℕ → ℤ
  | 0 => 0
  | n + 1 =>
    if p.headD 0 ≠ 0 ∧ p.headD 0 = q.headD 0 then strncmp p.tail q.tail n
    else (p.headD 0).toNat - (q.headD 0).toNat

def namecmp (s t : List UInt8) : ℤ := strncmp s t DIRSIZ

/-- The loop of `dirlookup` from `off` on, of which at most the given number of iterations are
left: the inode number and the offset of the entry found. -/
def dirlookupLoop (dp : Inode) (name : List UInt8) : ℕ → ℕ → Except Fault (Option (Inum × ℕ))
  | 0, _ => .ok none
  | n + 1, off =>
    if off < dp.size then
      match readi dp off sizeofDirent with
      | none => .error (.panic "dirlookup read")
      | some bytes =>
        if bytes.length ≠ sizeofDirent then .error (.panic "dirlookup read")
        else
          let de := Dirent.ofBytes bytes
          if de.inum = 0 then dirlookupLoop dp name n (off + sizeofDirent)
          else if namecmp name de.name = 0 then .ok (some (de.inum, off))
          else dirlookupLoop dp name n (off + sizeofDirent)
    else .ok none

/-- Looks a name up in a directory; the entry found is returned with its offset. -/
def dirlookup (dp : Inum) (name : List UInt8) : Kernel (Option (Inum × ℕ)) := fun s ↦
  let ip := s.inode dp
  if ip.type ≠ .dir then .error (.panic "dirlookup not DIR")
  else
    match dirlookupLoop ip name (ip.size / sizeofDirent + 1) 0 with
    | .error e => .error e
    | .ok none => .ok (none, s)
    | .ok (some (inum, off)) =>
      (do
        let ip ← iget inum
        return some (ip, off) : Kernel (Option (Inum × ℕ))) s

/-- A lookup that returns has changed nothing, or it has taken a reference. -/
theorem dirlookup_cases {dp : Inum} {name : List UInt8} {found : Option (Inum × ℕ)} {s t : FsState}
    (hrun : dirlookup dp name s = .ok (found, t)) :
    (found = none ∧ t = s) ∨ ∃ inum i off, found = some (i, off) ∧ iget inum s = .ok (i, t) := by
  simp only [dirlookup] at hrun
  split at hrun
  · simp at hrun
  · split at hrun
    · simp at hrun
    · obtain ⟨rfl, rfl⟩ := Prod.mk.inj (Except.ok.inj hrun)
      exact .inl ⟨rfl, rfl⟩
    next inum off _ =>
      obtain ⟨i, u, hget, hret⟩ := exists_of_bind_ok hrun
      obtain ⟨rfl, rfl⟩ := Prod.mk.inj (Except.ok.inj hret)
      exact .inr ⟨inum, i, off, rfl, hget⟩

/-! ## Names -/

theorem strncmp_eq_zero_iff (p q : List UInt8) (n : ℕ) :
    strncmp p q n = 0 ↔ CString.ofBytes (p.take n) = CString.ofBytes (q.take n) := by
  rw [CString.ext_iff]
  simp only [CString.ofBytes]
  induction n generalizing p q with
  | zero => simp [strncmp]
  | succ n ih =>
    have hzero : ∀ b : UInt8, b.toNat = 0 ↔ b = 0 := fun b ↦ UInt8.toNat_inj (b := 0)
    cases p with
    | nil =>
      cases q with
      | nil => simp [strncmp]
      | cons b q => by_cases hb : b = 0 <;> simp [strncmp, hb, hzero]
    | cons a p =>
      cases q with
      | nil => by_cases ha : a = 0 <;> simp [strncmp, ha, hzero]
      | cons b q =>
        by_cases ha : a = 0
        · subst ha
          by_cases hb : b = 0 <;> simp [strncmp, hb, hzero]
        · by_cases hab : a = b
          · subst hab
            simpa [strncmp, ha] using ih p q
          · have hne : ¬(a.toNat : ℤ) - b.toNat = 0 := by
              have hnat : a.toNat ≠ b.toNat := fun heq ↦ hab (UInt8.toNat_inj.mp heq)
              omega
            by_cases hb : b = 0 <;> simp [strncmp, ha, hab, hb, hne, hzero]

/-- The name that the bytes of a directory entry or of a path element stand for. -/
def nameOf (bytes : List UInt8) : CString := CString.ofBytes (bytes.take DIRSIZ)

theorem namecmp_eq_zero_iff (s t : List UInt8) : namecmp s t = 0 ↔ nameOf s = nameOf t :=
  strncmp_eq_zero_iff s t DIRSIZ

@[simp]
theorem nameOf_take (bytes : List UInt8) : nameOf (bytes.take DIRSIZ) = nameOf bytes := by
  simp [nameOf, List.take_take]

/-! ## The entries of a directory -/

namespace Inode

variable (dp : Inode)

/-- The entry at an offset. -/
def direntAt (off : ℕ) : Dirent := .ofBytes ((dp.content.drop off).take sizeofDirent)

/-- The given number of entries from the `k`-th on, with their offsets. -/
def direntsFrom (k count : ℕ) : List (ℕ × Dirent) :=
  (List.range' k count).map fun i ↦ (i * sizeofDirent, dp.direntAt (i * sizeofDirent))

/-- The entries of a directory; what is left behind the last whole entry is none. -/
def dirents : List (ℕ × Dirent) := dp.direntsFrom 0 (dp.size / sizeofDirent)

/-- The first entry in use that has the name. -/
def findIn (entries : List (ℕ × Dirent)) (name : CString) : Option (ℕ × Dirent) :=
  entries.find? fun e ↦ e.2.inum ≠ 0 ∧ nameOf e.2.name = name

/-- The inode number that a directory has for a name. -/
def lookup (name : CString) : Option Inum := (findIn dp.dirents name).map (·.2.inum)

/-- The directory consists of whole entries. -/
def Whole : Prop := sizeofDirent ∣ dp.size

instance : Decidable dp.Whole := inferInstanceAs (Decidable (_ ∣ _))

variable {dp}

theorem exists_of_lookup {name : CString} {i : Inum} (h : dp.lookup name = some i) :
    ∃ e ∈ dp.dirents, e.2.inum = i ∧ nameOf e.2.name = name := by
  obtain ⟨e, he, rfl⟩ := Option.map_eq_some_iff.mp h
  have hmatch := List.find?_some he
  simp only [decide_eq_true_eq] at hmatch
  exact ⟨e, List.mem_of_find?_eq_some he, rfl, hmatch.2⟩

/-- An entry before the end is read as a whole. -/
theorem length_entry {k : ℕ} (hk : k < dp.size / sizeofDirent) : k * sizeofDirent < dp.size ∧
    ((dp.content.drop (k * sizeofDirent)).take sizeofDirent).length = sizeofDirent := by
  have hsizeof : sizeofDirent = 16 := rfl
  simp only [hsizeof, Inode.size, List.length_take, List.length_drop] at hk ⊢
  omega

theorem dirlookupLoop_eq (name : List UInt8) {n m k : ℕ} (hm : k + m = dp.size / sizeofDirent)
    (hn : m < n) :
    dirlookupLoop dp name n (k * sizeofDirent) =
      match findIn (dp.direntsFrom k m) (nameOf name) with
      | some e => .ok (some (e.2.inum, e.1))
      | none => if dp.Whole then .ok none else .error (.panic "dirlookup read") := by
  have hsizeof : sizeofDirent = 16 := rfl
  induction m generalizing n k with
  | zero =>
    obtain ⟨n, rfl⟩ : ∃ n', n = n' + 1 := Nat.exists_eq_succ_of_ne_zero (by omega)
    by_cases hwhole : dp.Whole
    · have hend : ¬k * sizeofDirent < dp.size := by
        simp only [Whole, hsizeof] at hwhole hm ⊢
        omega
      simp [dirlookupLoop, direntsFrom, findIn, hend, hwhole]
    · have hoff : k * sizeofDirent < dp.size := by
        simp only [Whole, hsizeof] at hwhole hm ⊢
        omega
      have hshort : ((dp.content.drop (k * sizeofDirent)).take sizeofDirent).length ≠
          sizeofDirent := by
        simp only [hsizeof, Inode.size, List.length_take, List.length_drop] at hm ⊢
        omega
      rw [dirlookupLoop, if_pos hoff, readi_of_le hoff.le (by decide)]
      simp only [if_pos hshort]
      simp [direntsFrom, findIn, hwhole]
  | succ m ih =>
    obtain ⟨n, rfl⟩ : ∃ n', n = n' + 1 := Nat.exists_eq_succ_of_ne_zero (by omega)
    obtain ⟨hoff, hlong⟩ := dp.length_entry (k := k) (by omega)
    have hnext := ih (n := n) (k := k + 1) (by omega) (by omega)
    rw [Nat.add_mul, Nat.one_mul] at hnext
    have hentry : Dirent.ofBytes ((dp.content.drop (k * sizeofDirent)).take sizeofDirent) =
        dp.direntAt (k * sizeofDirent) := rfl
    have hfrom : dp.direntsFrom k (m + 1) =
        (k * sizeofDirent, dp.direntAt (k * sizeofDirent)) :: dp.direntsFrom (k + 1) m := by
      simp [direntsFrom, List.range'_succ]
    rw [dirlookupLoop, if_pos hoff, readi_of_le hoff.le (by decide)]
    simp only [if_neg (not_not.mpr hlong), hentry, hfrom, findIn, List.find?_cons, hnext]
    by_cases hfree : (dp.direntAt (k * sizeofDirent)).inum = 0
    · simp [hfree]
    · by_cases hname : namecmp name (dp.direntAt (k * sizeofDirent)).name = 0
      · have hsame := (namecmp_eq_zero_iff _ _).mp hname
        simp [hfree, hname, hsame]
      · have hsame : ¬nameOf (dp.direntAt (k * sizeofDirent)).name = nameOf name :=
          fun h ↦ hname ((namecmp_eq_zero_iff _ _).mpr h.symm)
        simp [hfree, hname, hsame]

end Inode

theorem dirlookup_eq {dp : Inum} {s : FsState} (name : List UInt8)
    (hdir : (s.inode dp).type = .dir) :
    dirlookup dp name s =
      match Inode.findIn (s.inode dp).dirents (nameOf name) with
      | some e => (do
          let ip ← iget e.2.inum
          return some (ip, e.1) : Kernel (Option (Inum × ℕ))) s
      | none => if (s.inode dp).Whole then .ok (none, s) else .error (.panic "dirlookup read") := by
  have hloop : dirlookupLoop (s.inode dp) name ((s.inode dp).size / sizeofDirent + 1)
      (0 * sizeofDirent) = _ :=
    Inode.dirlookupLoop_eq name (Nat.zero_add _) (Nat.lt_succ_self _)
  rw [Nat.zero_mul] at hloop
  simp only [dirlookup, hdir, ne_eq, not_true_eq_false, if_false, hloop, Inode.dirents]
  cases Inode.findIn ((s.inode dp).direntsFrom 0 ((s.inode dp).size / sizeofDirent)) (nameOf name)
    with
  | some e => rfl
  | none => by_cases hwhole : (s.inode dp).Whole <;> simp [hwhole]

end CS537.FileSystem
