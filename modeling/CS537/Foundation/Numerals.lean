import CS537.Foundation.CString
import Mathlib.Data.Nat.Digits.Lemmas

/-!
# Numerals

`strtoul` reads a number from the beginning of a C string; the base is taken from the prefix of the
numeral, as with a base argument of zero.  It reads the decimal numeral of a number below `2 ^ 64` as
that number.  `strcmp` compares two decimal numerals from their first digits on.
-/

namespace CS537.Foundation

/-! ## Reading numbers -/

def isspace (c : UInt8) : Bool := decide (c = 32 ∨ (9 ≤ c ∧ c ≤ 13))

/-- The value of a letter or a decimal digit. -/
def digitValue (c : UInt8) : Option ℕ :=
  if 48 ≤ c ∧ c ≤ 57 then some (c.toNat - 48)
  else if 65 ≤ c ∧ c ≤ 90 then some (c.toNat - 55)
  else if 97 ≤ c ∧ c ≤ 122 then some (c.toNat - 87)
  else none

/-- The number at the beginning of a string, behind digits with the value `acc`. -/
def readDigits (base acc : ℕ) : List UInt8 → ℕ
  | [] => acc
  | c :: s =>
    match (digitValue c).filter (· < base) with
    | some d => readDigits base (base * acc + d) s
    | none => acc

/-- Whether there is a minus sign, and what is behind the sign. -/
def readSign (s : List UInt8) : Bool × List UInt8 :=
  if s.head? = some 45 then (true, s.tail)
  else if s.head? = some 43 then (false, s.tail)
  else (false, s)

/-- The base, and what is behind its prefix; the zero of an octal numeral is also a digit. -/
def readBase (s : List UInt8) : ℕ × List UInt8 :=
  if s.head? = some 48 then
    if s.tail.head? = some 120 ∨ s.tail.head? = some 88 then (16, s.tail.tail) else (8, s)
  else (10, s)

/-- The C library's `strtoul` with base zero. -/
def strtoul (s : CString) : ℕ :=
  let (negative, s) := readSign (s.bytes.dropWhile isspace)
  let (base, s) := readBase s
  let value := readDigits base 0 s
  if 2 ^ 64 ≤ value then 2 ^ 64 - 1
  else if negative then (2 ^ 64 - value) % 2 ^ 64
  else value

/-! ## Decimal numerals -/

/-- The decimal digits of a number, from the first to the last. -/
def decimal (n : ℕ) : List ℕ := if n = 0 then [0] else (Nat.digits 10 n).reverse

/-- The number that decimal digits stand for. -/
def ofDecimal (ds : List ℕ) : ℕ := Nat.ofDigits 10 ds.reverse

def digitByte (d : ℕ) : UInt8 := UInt8.ofNat (48 + d)

theorem toNat_digitByte {d : ℕ} (hd : d < 10) : (digitByte d).toNat = 48 + d := by
  rw [digitByte, UInt8.toNat_ofNat']
  omega

theorem lt_of_mem_decimal {n d : ℕ} (hd : d ∈ decimal n) : d < 10 := by
  rw [decimal] at hd
  split at hd
  · rw [List.mem_singleton.mp hd]
    decide
  · exact Nat.digits_lt_base (by decide) (List.mem_reverse.mp hd)

/-- The numeral as `printf` writes it. -/
def numeral (n : ℕ) : CString where
  bytes := (decimal n).map digitByte
  noNul h := by
    obtain ⟨d, hd, hzero⟩ := List.mem_map.mp h
    have hbyte := toNat_digitByte (lt_of_mem_decimal hd)
    rw [hzero, UInt8.toNat_zero] at hbyte
    omega

theorem decimal_ne_nil (n : ℕ) : decimal n ≠ [] := by
  rw [decimal]
  split
  · exact List.cons_ne_nil 0 []
  · next hn => exact mt List.reverse_eq_nil_iff.mp (Nat.digits_ne_nil_iff_ne_zero.mpr hn)

theorem numeral_ne_nil (n : ℕ) : (numeral n).bytes ≠ [] :=
  mt List.map_eq_nil_iff.mp (decimal_ne_nil n)

theorem ofDecimal_decimal (n : ℕ) : ofDecimal (decimal n) = n := by
  rw [ofDecimal, decimal]
  split
  · next hn => rw [hn]; rfl
  · rw [List.reverse_reverse, Nat.ofDigits_digits]

theorem ofDecimal_cons (d : ℕ) (ds : List ℕ) :
    ofDecimal (d :: ds) = d * 10 ^ ds.length + ofDecimal ds := by
  rw [ofDecimal, List.reverse_cons, Nat.ofDigits_append, List.length_reverse, Nat.ofDigits_singleton,
    ofDecimal]
  ring

theorem ofDecimal_lt {ds : List ℕ} (h : ∀ d ∈ ds, d < 10) : ofDecimal ds < 10 ^ ds.length := by
  rw [ofDecimal, ← List.length_reverse]
  exact Nat.ofDigits_lt_base_pow_length (by decide) fun d hd ↦ h d (List.mem_reverse.mp hd)

theorem length_decimal_mono {m n : ℕ} (h : m ≤ n) : (decimal m).length ≤ (decimal n).length := by
  by_cases hm : m = 0
  · rw [hm]
    exact List.length_pos_iff.mpr (decimal_ne_nil n)
  · rw [decimal, decimal, if_neg hm, if_neg (by omega), List.length_reverse, List.length_reverse]
    exact Nat.le_length_digits_le 10 m n h

/-- A numeral of several digits does not begin with zero. -/
theorem head_decimal_ne_zero {n : ℕ} (hn : n ≠ 0) : (decimal n).head? ≠ some 0 := by
  have hne : Nat.digits 10 n ≠ [] := Nat.digits_ne_nil_iff_ne_zero.mpr hn
  rw [decimal, if_neg hn, List.head?_reverse, List.getLast?_eq_some_getLast hne, ne_eq,
    Option.some.injEq]
  exact Nat.getLast_digit_ne_zero 10 hn

/-! ## Reading numerals -/

theorem digitByte_bounds {d : ℕ} (hd : d < 10) : 48 ≤ digitByte d ∧ digitByte d ≤ 57 := by
  rw [UInt8.le_iff_toNat_le, UInt8.le_iff_toNat_le, toNat_digitByte hd]
  exact ⟨Nat.le_add_right 48 d, Nat.add_le_add_left (Nat.le_of_lt_succ hd) 48⟩

theorem digit_of_mem_numeral {n : ℕ} {c : UInt8} (hc : c ∈ (numeral n).bytes) :
    48 ≤ c ∧ c ≤ 57 := by
  obtain ⟨d, hd, rfl⟩ := List.mem_map.mp hc
  exact digitByte_bounds (lt_of_mem_decimal hd)

theorem digitValue_digitByte {d : ℕ} (hd : d < 10) : digitValue (digitByte d) = some d := by
  rw [digitValue, if_pos (digitByte_bounds hd), toNat_digitByte hd, Nat.add_sub_cancel_left]

/-- Digits are read up to a character that is none. -/
theorem readDigits_append {ds : List ℕ} (hds : ∀ d ∈ ds, d < 10) (rest : List UInt8)
    (hrest : ∀ c ∈ rest.head?, digitValue c = none) (acc : ℕ) :
    readDigits 10 acc (ds.map digitByte ++ rest) = acc * 10 ^ ds.length + ofDecimal ds := by
  induction ds generalizing acc with
  | nil =>
    have hzero : ofDecimal [] = 0 := rfl
    rw [List.map_nil, List.nil_append, List.length_nil, pow_zero, mul_one, hzero, add_zero]
    cases rest with
    | nil => rfl
    | cons c rest => rw [readDigits, hrest c rfl, Option.filter_none]
  | cons d ds ih =>
    obtain ⟨hd, hds⟩ := List.forall_mem_cons.mp hds
    rw [List.map_cons, List.cons_append, readDigits, digitValue_digitByte hd,
      Option.filter_some_pos (by simpa using hd)]
    simp only
    rw [ih hds, ofDecimal_cons, List.length_cons]
    ring

theorem digitByte_ne {d : ℕ} (hd : d < 10) {c : UInt8} (hc : c.toNat < 48 ∨ 57 < c.toNat) :
    digitByte d ≠ c := by
  rintro rfl
  have hbyte := toNat_digitByte hd
  omega

theorem readSign_digit {d : ℕ} (hd : d < 10) (s : List UInt8) :
    readSign (digitByte d :: s) = (false, digitByte d :: s) := by
  have hminus := digitByte_ne hd (c := 45) (.inl (by decide))
  have hplus := digitByte_ne hd (c := 43) (.inl (by decide))
  simp only [readSign, List.head?_cons, Option.some.injEq, hminus, hplus, if_false]

theorem not_isspace_digit {d : ℕ} (hd : d < 10) : isspace (digitByte d) = false := by
  have hbyte := toNat_digitByte hd
  have hblank := digitByte_ne hd (c := 32) (.inl (by decide))
  have hcontrol : ¬digitByte d ≤ 13 := by
    rw [UInt8.le_iff_toNat_le, hbyte]
    exact Nat.not_le.mpr (Nat.lt_of_lt_of_le (by decide) (Nat.le_add_right 48 d))
  simp only [isspace, hblank, hcontrol, and_false, or_false, decide_false]

theorem strtoul_numeral {n : ℕ} (hn : n < 2 ^ 64) : strtoul (numeral n) = n := by
  by_cases hzero : n = 0
  · rw [hzero]
    decide
  · obtain ⟨d, ds, hds⟩ := List.exists_cons_of_ne_nil (decimal_ne_nil n)
    have hlt : ∀ e ∈ d :: ds, e < 10 := fun e he ↦ lt_of_mem_decimal (hds ▸ he)
    have hd : d < 10 := hlt d List.mem_cons_self
    have hbytes : (numeral n).bytes = digitByte d :: ds.map digitByte :=
      congrArg (List.map digitByte) hds
    have hhead : digitByte d ≠ 48 := by
      have hne := head_decimal_ne_zero hzero
      rw [hds, List.head?_cons, ne_eq, Option.some.injEq] at hne
      rw [ne_eq, ← UInt8.toNat_inj, toNat_digitByte hd]
      exact fun h ↦ hne (Nat.add_left_cancel h)
    have hvalue := readDigits_append hlt [] (fun _ h ↦ nomatch h) 0
    rw [List.append_nil, List.map_cons, ← hds, ofDecimal_decimal, zero_mul, zero_add] at hvalue
    have hskip : (numeral n).bytes.dropWhile isspace = digitByte d :: ds.map digitByte := by
      rw [hbytes, List.dropWhile_cons_of_neg (by rw [not_isspace_digit hd]; exact Bool.false_ne_true)]
    have hbase : readBase (digitByte d :: ds.map digitByte) =
        (10, digitByte d :: ds.map digitByte) := by
      simp only [readBase, List.head?_cons, Option.some.injEq, hhead, if_false]
    simp only [strtoul, hskip, readSign_digit hd, hbase, hvalue, Nat.not_le.mpr hn,
      Bool.false_eq_true, if_false]

/-! ## Comparing numerals -/

/-- A numeral that is not longer comes first if the other one begins with its digits or with those of
a greater number. -/
theorem strcmpBytes_digits {ds es : List ℕ} (hds : ∀ d ∈ ds, d < 10) (hes : ∀ e ∈ es, e < 10)
    (hlength : ds.length ≤ es.length) :
    strcmpBytes (ds.map digitByte) (es.map digitByte) ≤ 0 ↔
      ofDecimal ds * 10 ^ (es.length - ds.length) ≤ ofDecimal es := by
  induction ds generalizing es with
  | nil =>
    have hzero : ofDecimal [] = 0 := rfl
    rw [hzero, zero_mul, iff_true_right (Nat.zero_le _)]
    cases es with
    | nil => exact le_rfl
    | cons e es => exact Int.neg_nonpos_of_nonneg (Int.natCast_nonneg _)
  | cons d ds ih =>
    obtain ⟨e, es, rfl⟩ : ∃ e es', es = e :: es' :=
      List.exists_cons_of_length_pos (Nat.lt_of_lt_of_le (Nat.succ_pos _) hlength)
    obtain ⟨hd, hds⟩ := List.forall_mem_cons.mp hds
    obtain ⟨he, hes⟩ := List.forall_mem_cons.mp hes
    rw [List.length_cons, List.length_cons] at *
    have hshort : ds.length ≤ es.length := Nat.le_of_succ_le_succ hlength
    have hpow : 10 ^ ds.length * 10 ^ (es.length - ds.length) = 10 ^ es.length := by
      rw [← pow_add, Nat.add_sub_cancel' hshort]
    have hscaled : ofDecimal (d :: ds) * 10 ^ (es.length - ds.length) =
        d * 10 ^ es.length + ofDecimal ds * 10 ^ (es.length - ds.length) := by
      rw [ofDecimal_cons, add_mul, mul_assoc, hpow]
    have hrest : ofDecimal ds * 10 ^ (es.length - ds.length) < 10 ^ es.length := by
      rw [← hpow]
      exact Nat.mul_lt_mul_of_pos_right (ofDecimal_lt hds) (by positivity)
    have hother := ofDecimal_lt hes
    rw [Nat.add_sub_add_right, hscaled, ofDecimal_cons, List.map_cons, List.map_cons, strcmpBytes]
    by_cases hde : d = e
    · rw [hde, if_pos rfl, ih hds hes hshort]
      exact (Nat.add_le_add_iff_left).symm
    · have hbyte : digitByte d ≠ digitByte e := fun h ↦ hde (by
        have htoNat := congrArg UInt8.toNat h
        rw [toNat_digitByte hd, toNat_digitByte he] at htoNat
        exact Nat.add_left_cancel htoNat)
      rw [if_neg hbyte, toNat_digitByte hd, toNat_digitByte he]
      rcases Nat.lt_or_gt_of_ne hde with hlt | hgt
      · have hnext : (d + 1) * 10 ^ es.length ≤ e * 10 ^ es.length := Nat.mul_le_mul_right _ hlt
        rw [add_mul, one_mul] at hnext
        exact iff_of_true (by omega) (by omega)
      · have hnext : (e + 1) * 10 ^ es.length ≤ d * 10 ^ es.length := Nat.mul_le_mul_right _ hgt
        rw [add_mul, one_mul] at hnext
        exact iff_of_false (by omega) (by omega)

theorem readDigits_numeral (n : ℕ) : readDigits 10 0 (numeral n).bytes = n := by
  have hread := readDigits_append (fun d hd ↦ lt_of_mem_decimal (n := n) hd) []
    (fun _ h ↦ nomatch h) 0
  rwa [List.append_nil, ofDecimal_decimal, zero_mul, zero_add] at hread

theorem numeral_injective : Function.Injective numeral := by
  intro m n h
  rw [← readDigits_numeral m, h, readDigits_numeral]

/-- The numeral of a smaller number comes first unless the first digits of the greater one stand for
less. -/
theorem strcmp_numeral_neg_iff {m n : ℕ} (h : m < n) : strcmp (numeral m) (numeral n) < 0 ↔
    m * 10 ^ ((decimal n).length - (decimal m).length) ≤ n := by
  have hne : strcmp (numeral m) (numeral n) ≠ 0 := fun heq ↦
    Nat.ne_of_lt h (numeral_injective (strcmp_eq_zero_iff.mp heq))
  have hdigits := strcmpBytes_digits (fun d hd ↦ lt_of_mem_decimal (n := m) hd)
    (fun d hd ↦ lt_of_mem_decimal (n := n) hd) (length_decimal_mono (Nat.le_of_lt h))
  rw [ofDecimal_decimal, ofDecimal_decimal] at hdigits
  calc
    strcmp (numeral m) (numeral n) < 0 ↔ strcmp (numeral m) (numeral n) ≤ 0 := by omega
    _ ↔ m * 10 ^ ((decimal n).length - (decimal m).length) ≤ n := hdigits

end CS537.Foundation
