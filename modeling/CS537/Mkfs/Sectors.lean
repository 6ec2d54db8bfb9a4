import CS537.Mkfs.Program
import CS537.Foundation.Allocation

/-!
# Sectors and what they hold

Integers and inodes are read back as they were written, and a write leaves everything outside of its
sector as it was.
-/

namespace CS537.Mkfs

open Foundation
open FsCheck (BSIZE NDIRECT NINDIRECT IPB sizeofDinode sizeofDirent sizeofInt ROOTINO)

/-! ## Integers -/

section Integers

variable {buf buf' : ℕ → UInt8} {off x : ℕ}

theorem toNat_byteOf (x j : ℕ) : (byteOf x j).toNat = x / 256 ^ j % 256 := by
  rw [byteOf, UInt8.toNat_ofNat']

theorem ushortAt_of_bytes (hx : x < 2 ^ 16) (h₀ : buf off = byteOf x 0)
    (h₁ : buf (off + 1) = byteOf x 1) : ushortAt buf off = x := by
  simp only [ushortAt, h₀, h₁, toNat_byteOf]
  omega

theorem uintAt_of_bytes (hx : x < 2 ^ 32) (h : ∀ j < 4, buf (off + j) = byteOf x j) :
    uintAt buf off = x := by
  have h₀ := h 0 (by decide)
  rw [Nat.add_zero] at h₀
  simp only [uintAt, h₀, h 1 (by decide), h 2 (by decide), h 3 (by decide), toNat_byteOf]
  omega

theorem uintAt_lt (buf : ℕ → UInt8) (off : ℕ) : uintAt buf off < 2 ^ 32 := by
  have h₀ := (buf off).toNat_lt
  have h₁ := (buf (off + 1)).toNat_lt
  have h₂ := (buf (off + 2)).toNat_lt
  have h₃ := (buf (off + 3)).toNat_lt
  rw [uintAt]
  omega

theorem ushortAt_lt (buf : ℕ → UInt8) (off : ℕ) : ushortAt buf off < 2 ^ 16 := by
  have h₀ := (buf off).toNat_lt
  have h₁ := (buf (off + 1)).toNat_lt
  rw [ushortAt]
  omega

theorem ushortAt_congr (h : ∀ j < 2, buf (off + j) = buf' (off + j)) :
    ushortAt buf off = ushortAt buf' off := by
  have h₀ := h 0 (by decide)
  rw [Nat.add_zero] at h₀
  rw [ushortAt, ushortAt, h₀, h 1 (by decide)]

theorem uintAt_congr (h : ∀ j < 4, buf (off + j) = buf' (off + j)) :
    uintAt buf off = uintAt buf' off := by
  have h₀ := h 0 (by decide)
  rw [Nat.add_zero] at h₀
  rw [uintAt, uintAt, h₀, h 1 (by decide), h 2 (by decide), h 3 (by decide)]

theorem uintAt_zero (h : ∀ j < 4, buf (off + j) = 0) : uintAt buf off = 0 :=
  uintAt_of_bytes (by decide) fun j hj ↦ by
    rw [h j hj, byteOf, Nat.zero_div]
    rfl

theorem uintAt_shift (buf : ℕ → UInt8) (a off : ℕ) :
    uintAt (fun i ↦ buf (a + i)) off = uintAt buf (a + off) :=
  rfl

end Integers

/-! ## Inodes -/

namespace Dinode

variable {d : Dinode} {buf buf' : ℕ → UInt8} {off : ℕ}

/-- The fields fit into their places. -/
structure Fits (d : Dinode) : Prop where
  type : d.type < 2 ^ 16
  major : d.major < 2 ^ 16
  minor : d.minor < 2 ^ 16
  nlink : d.nlink < 2 ^ 16
  size : d.size < 2 ^ 32
  addrs : ∀ k, d.addrs k < 2 ^ 32
  tail : ∀ k, NDIRECT < k → d.addrs k = 0

theorem byte_size (d : Dinode) {j : ℕ} (hj : j < 4) : d.byte (8 + j) = byteOf d.size j := by
  have h₁ : ¬8 + j < 2 := by omega
  have h₂ : ¬8 + j < 4 := by omega
  have h₃ : ¬8 + j < 6 := by omega
  have h₄ : ¬8 + j < 8 := by omega
  have h₅ : 8 + j < 12 := by omega
  rw [byte, if_neg h₁, if_neg h₂, if_neg h₃, if_neg h₄, if_pos h₅, Nat.add_sub_cancel_left]

theorem byte_addr (d : Dinode) (k : ℕ) {j : ℕ} (hj : j < 4) :
    d.byte (12 + sizeofInt * k + j) = byteOf (d.addrs k) j := by
  rw [sizeofInt]
  have h₁ : ¬12 + 4 * k + j < 2 := by omega
  have h₂ : ¬12 + 4 * k + j < 4 := by omega
  have h₃ : ¬12 + 4 * k + j < 6 := by omega
  have h₄ : ¬12 + 4 * k + j < 8 := by omega
  have h₅ : ¬12 + 4 * k + j < 12 := by omega
  have hdiv : (12 + 4 * k + j - 12) / 4 = k := by omega
  have hmod : (12 + 4 * k + j - 12) % 4 = j := by omega
  rw [byte, if_neg h₁, if_neg h₂, if_neg h₃, if_neg h₄, if_neg h₅, sizeofInt, hdiv, hmod]

theorem ofBytes_of_bytes (hd : d.Fits) (h : ∀ i < sizeofDinode, buf (off + i) = d.byte i) :
    ofBytes buf off = d := by
  rw [sizeofDinode] at h
  ext k
  case type => exact ushortAt_of_bytes hd.type (h 0 (by decide)) (h 1 (by decide))
  case major => exact ushortAt_of_bytes hd.major (h 2 (by decide)) (h 3 (by decide))
  case minor => exact ushortAt_of_bytes hd.minor (h 4 (by decide)) (h 5 (by decide))
  case nlink => exact ushortAt_of_bytes hd.nlink (h 6 (by decide)) (h 7 (by decide))
  case size =>
    refine uintAt_of_bytes hd.size fun j hj ↦ ?_
    rw [Nat.add_assoc, h _ (by omega), byte_size d hj]
  case addrs =>
    by_cases hk : k ≤ NDIRECT
    · simp only [ofBytes, if_pos hk]
      rw [NDIRECT] at hk
      refine uintAt_of_bytes (hd.addrs k) fun j hj ↦ ?_
      rw [← byte_addr d k hj, Nat.add_assoc off, Nat.add_assoc, sizeofInt]
      exact h _ (by omega)
    · simp only [ofBytes, if_neg hk]
      exact (hd.tail k (by omega)).symm

theorem ofBytes_congr (h : ∀ i < sizeofDinode, buf (off + i) = buf' (off + i)) :
    ofBytes buf off = ofBytes buf' off := by
  rw [sizeofDinode] at h
  have hshort (a : ℕ) (ha : a + 2 ≤ 64) : ushortAt buf (off + a) = ushortAt buf' (off + a) := by
    refine ushortAt_congr fun j hj ↦ ?_
    rw [Nat.add_assoc]
    exact h _ (by omega)
  have hint (a : ℕ) (ha : a + 4 ≤ 64) : uintAt buf (off + a) = uintAt buf' (off + a) := by
    refine uintAt_congr fun j hj ↦ ?_
    rw [Nat.add_assoc]
    exact h _ (by omega)
  ext k
  case type => exact hshort 0 (by decide)
  case major => exact hshort 2 (by decide)
  case minor => exact hshort 4 (by decide)
  case nlink => exact hshort 6 (by decide)
  case size => exact hint 8 (by decide)
  case addrs =>
    by_cases hk : k ≤ NDIRECT
    · simp only [ofBytes, if_pos hk]
      rw [NDIRECT] at hk
      rw [Nat.add_assoc, sizeofInt]
      exact hint _ (by omega)
    · simp only [ofBytes, if_neg hk]

theorem fits_ofBytes (buf : ℕ → UInt8) (off : ℕ) : (ofBytes buf off).Fits where
  type := ushortAt_lt buf off
  major := ushortAt_lt buf _
  minor := ushortAt_lt buf _
  nlink := ushortAt_lt buf _
  size := uintAt_lt buf _
  addrs k := by
    simp only [ofBytes]
    split
    · exact uintAt_lt buf _
    · decide
  tail k hk := if_neg (Nat.not_le.mpr hk)

@[simp]
theorem addrs_setAddr_self (d : Dinode) (k x : ℕ) : (d.setAddr k x).addrs k = x := by
  simp only [setAddr, Function.update_self]

theorem addrs_setAddr_of_ne (d : Dinode) {k m : ℕ} (hm : m ≠ k) (x : ℕ) :
    (d.setAddr k x).addrs m = d.addrs m := by
  simp only [setAddr, Function.update_of_ne hm]

end Dinode

/-! ## Sectors -/

namespace State

variable (s : State)

/-- Sector `b` is written. -/
def setSector (b : ℕ) (buf : Sector) : State :=
  { s with bytes := fun p ↦ if b * BSIZE ≤ p ∧ p < b * BSIZE + BSIZE then buf (p - b * BSIZE)
      else s.bytes p }

/-- The length that the image has once all sectors are written. -/
def Whole : Prop := s.length = FSSIZE * BSIZE

variable {s} {b : ℕ}

theorem setSector_inside (buf : Sector) {r : ℕ} (hr : r < BSIZE) :
    (s.setSector b buf).bytes (b * BSIZE + r) = buf r := by
  have hinside : b * BSIZE ≤ b * BSIZE + r ∧ b * BSIZE + r < b * BSIZE + BSIZE := by omega
  simp only [setSector, if_pos hinside, Nat.add_sub_cancel_left]

theorem setSector_outside (buf : Sector) {p : ℕ} (hp : p < b * BSIZE ∨ b * BSIZE + BSIZE ≤ p) :
    (s.setSector b buf).bytes p = s.bytes p := by
  have houtside : ¬(b * BSIZE ≤ p ∧ p < b * BSIZE + BSIZE) := by omega
  simp only [setSector, if_neg houtside]

/-- Another sector. -/
theorem setSector_of_ne (buf : Sector) {c r : ℕ} (hc : c ≠ b) (hr : r < BSIZE) :
    (s.setSector b buf).bytes (c * BSIZE + r) = s.bytes (c * BSIZE + r) := by
  refine setSector_outside buf ?_
  rw [BSIZE] at *
  omega

end State

section Runs

variable {s : State} {b : ℕ}

theorem wsect_run (buf : Sector) (hs : s.Whole) (hb : b < FSSIZE) :
    wsect b buf s = .ok ((), s.setSector b buf) := by
  have hlength : max s.length (b * BSIZE + BSIZE) = s.length := by
    rw [State.Whole, FSSIZE, FsCheck.BSIZE] at *
    omega
  have hrun : wsect b buf s = .ok ((), { s.setSector b buf with
      length := max s.length (b * BSIZE + BSIZE) }) := rfl
  rw [hrun, hlength]
  rfl

theorem rsect_run (hs : s.Whole) (hb : b < FSSIZE) :
    rsect b s = .ok (fun i ↦ s.bytes (b * BSIZE + i), s) := by
  have hinside : b * BSIZE + BSIZE ≤ s.length := by
    rw [State.Whole, FSSIZE, FsCheck.BSIZE] at *
    omega
  change (if b * BSIZE + BSIZE ≤ s.length then _ else _ : Formatter Sector) s = _
  rw [if_pos hinside]
  rfl

theorem rsect_fails (hs : s.Whole) (hb : FSSIZE ≤ b) : rsect b s = .error .exit := by
  have houtside : ¬b * BSIZE + BSIZE ≤ s.length := by
    rw [State.Whole, FSSIZE, FsCheck.BSIZE] at *
    omega
  change (if b * BSIZE + BSIZE ≤ s.length then _ else _ : Formatter Sector) s = _
  rw [if_neg houtside]
  rfl

end Runs

/-! ## Inodes in the image -/

/-- The number of inodes for which there is room. -/
def slots : ℕ := ninodeblocks * IPB

def inodeOffset (i : ℕ) : ℕ := inodestart * BSIZE + sizeofDinode * i

namespace State

/-- The inode in the image. -/
def inode (s : State) (i : ℕ) : Dinode := .ofBytes s.bytes (inodeOffset i)

def setInode (s : State) (i : ℕ) (d : Dinode) : State :=
  { s with bytes := fun p ↦ if inodeOffset i ≤ p ∧ p < inodeOffset i + sizeofDinode then
      d.byte (p - inodeOffset i) else s.bytes p }

variable {s : State} {i j : ℕ} {d : Dinode}

theorem inode_setInode_self (hd : d.Fits) : (s.setInode i d).inode i = d := by
  refine Dinode.ofBytes_of_bytes hd fun k hk ↦ ?_
  have hinside : inodeOffset i ≤ inodeOffset i + k ∧
      inodeOffset i + k < inodeOffset i + sizeofDinode := by omega
  simp only [setInode, if_pos hinside, Nat.add_sub_cancel_left]

theorem setInode_outside {p : ℕ} (hp : p < inodeOffset i ∨ inodeOffset i + sizeofDinode ≤ p) :
    (s.setInode i d).bytes p = s.bytes p := by
  have houtside : ¬(inodeOffset i ≤ p ∧ p < inodeOffset i + sizeofDinode) := by omega
  simp only [setInode, if_neg houtside]

theorem inode_setInode_of_ne (hj : j ≠ i) : (s.setInode i d).inode j = s.inode j := by
  refine Dinode.ofBytes_congr fun k hk ↦ setInode_outside ?_
  rw [inodeOffset, inodeOffset, sizeofDinode] at *
  omega

/-- A sector behind the inodes. -/
theorem inode_setSector {b : ℕ} (buf : Sector) (hi : i < slots) (hb : bmapstart ≤ b) :
    (s.setSector b buf).inode i = s.inode i := by
  refine Dinode.ofBytes_congr fun k hk ↦ setSector_outside buf (.inl ?_)
  have hslots : slots = 208 := rfl
  have hbmap : bmapstart = 58 := rfl
  have hstart : inodestart = 32 := rfl
  rw [inodeOffset, sizeofDinode, FsCheck.BSIZE] at *
  omega

end State

section Runs

variable {s : State} {i : ℕ}

theorem iblock_offset (i : ℕ) :
    iblock i * BSIZE + i % IPB * sizeofDinode = inodeOffset i := by
  have hIPB : IPB = 8 := rfl
  rw [iblock, inodeOffset, hIPB, FsCheck.BSIZE, sizeofDinode]
  omega

theorem iblock_lt (hi : i < slots) : iblock i < FSSIZE := by
  have hslots : slots = 208 := rfl
  have hIPB : IPB = 8 := rfl
  have hstart : inodestart = 32 := rfl
  rw [iblock, hIPB, FSSIZE]
  omega

theorem rinode_run (hs : s.Whole) (hi : i < slots) : rinode i s = .ok (s.inode i, s) := by
  have hinode : Dinode.ofBytes (fun k ↦ s.bytes (iblock i * BSIZE + k)) (i % IPB * sizeofDinode) =
      s.inode i := by
    rw [State.inode, ← iblock_offset]
    simp only [Dinode.ofBytes, ushortAt, uintAt, Nat.add_assoc]
  rw [rinode, bind_of_ok (rsect_run hs (iblock_lt hi)), hinode]
  rfl

theorem winode_run (hs : s.Whole) (hi : i < slots) (d : Dinode) :
    winode i d s = .ok ((), s.setInode i d) := by
  have hblock := iblock_offset i
  have hstate : s.setSector (iblock i) (fun k ↦ if i % IPB * sizeofDinode ≤ k ∧
      k < i % IPB * sizeofDinode + sizeofDinode then d.byte (k - i % IPB * sizeofDinode)
      else s.bytes (iblock i * BSIZE + k)) = s.setInode i d := by
    have hIPB : IPB = 8 := rfl
    rw [hIPB, FsCheck.BSIZE, sizeofDinode] at hblock
    have hslot : i % 8 * 64 + 64 ≤ 512 := by omega
    refine congrArg (fun bytes ↦ { s with bytes }) (funext fun p ↦ ?_)
    rw [hIPB, FsCheck.BSIZE, sizeofDinode]
    by_cases hp : inodeOffset i ≤ p ∧ p < inodeOffset i + 64
    · have hsector : iblock i * 512 ≤ p ∧ p < iblock i * 512 + 512 := by omega
      have hinside : i % 8 * 64 ≤ p - iblock i * 512 ∧ p - iblock i * 512 < i % 8 * 64 + 64 := by
        omega
      have hindex : p - iblock i * 512 - i % 8 * 64 = p - inodeOffset i := by omega
      simp only [if_pos hsector, if_pos hinside, if_pos hp, hindex]
    · rw [if_neg hp]
      by_cases hsector : iblock i * 512 ≤ p ∧ p < iblock i * 512 + 512
      · have houtside : ¬(i % 8 * 64 ≤ p - iblock i * 512 ∧
            p - iblock i * 512 < i % 8 * 64 + 64) := by omega
        have hindex : iblock i * 512 + (p - iblock i * 512) = p := by omega
        simp only [if_pos hsector, if_neg houtside, hindex]
      · rw [if_neg hsector]
  rw [winode, bind_of_ok (rsect_run hs (iblock_lt hi)), wsect_run _ hs (iblock_lt hi), hstate]

end Runs

end CS537.Mkfs
