import Mathlib.Data.Nat.Digits.Lemmas
import Mathlib.Tactic.Common

/-! Byte strings and decimal numerals.

    `decimal n` is the numeral of `n` without leading zeros and `padded w n` the numeral filled up
    with zeros to `w` digits; `value` reads any digit string back. Reading undoes both ways of
    printing (`value_decimal`, `value_padded`). A digit string without its leading zeros is the
    numeral of its value (`dropWhile_zeros`), and a string of `w` digits the padded numeral
    (`padded_value`), so fixed-width numerals and numbers below `10 ^ w` are the same thing. -/

namespace Schemes

abbrev Byte := UInt8

abbrev Bytes := List Byte

/-- The byte of an ASCII character. -/
def byte (c : Char) : Byte := c.toNat.toUInt8

/-- The bytes of an ASCII text. -/
def ascii (s : String) : Bytes := s.toList.map byte

def isDigit (b : Byte) : Bool := byte '0' ≤ b && b ≤ byte '9'

def digitByte (d : ℕ) : Byte := (48 + d).toUInt8

def digitValue (b : Byte) : ℕ := b.toNat - 48

/-- The number a digit string denotes, most significant digit first. -/
def value (ds : Bytes) : ℕ := Nat.ofDigits 10 (ds.map digitValue).reverse

/-- The numeral of `n`, without leading zeros. -/
def decimal (n : ℕ) : Bytes :=
  if n = 0 then [byte '0'] else ((Nat.digits 10 n).map digitByte).reverse

/-- The numeral of `n`, filled with zeros on the left to at least `w` digits. -/
def padded (w n : ℕ) : Bytes := List.leftpad w (byte '0') (decimal n)

theorem isDigit_iff {b : Byte} : isDigit b = true ↔ 48 ≤ b.toNat ∧ b.toNat ≤ 57 := by
  simp only [isDigit, Bool.and_eq_true, decide_eq_true_eq, UInt8.le_iff_toNat_le]
  exact Iff.rfl

theorem digitByte_toNat {d : ℕ} (hd : d < 10) : (digitByte d).toNat = 48 + d := by
  simp only [digitByte, Nat.toUInt8, UInt8.toNat_ofNat']
  omega

theorem isDigit_digitByte {d : ℕ} (hd : d < 10) : isDigit (digitByte d) = true := by
  rw [isDigit_iff, digitByte_toNat hd]; omega

theorem digitValue_digitByte {d : ℕ} (hd : d < 10) : digitValue (digitByte d) = d := by
  rw [digitValue, digitByte_toNat hd]; omega

theorem digitValue_lt {b : Byte} (hb : isDigit b = true) : digitValue b < 10 := by
  rw [isDigit_iff] at hb; rw [digitValue]; omega

theorem digitValue_inj {a b : Byte} (ha : isDigit a = true) (hb : isDigit b = true)
    (h : digitValue a = digitValue b) : a = b := by
  rw [isDigit_iff] at ha hb
  simp only [digitValue] at h
  exact UInt8.toNat_inj.mp (by omega)

/-- Reading the printed digits of `n` gives the digits of `n`. -/
theorem map_digits (n : ℕ) :
    ((Nat.digits 10 n).map digitByte).map digitValue = Nat.digits 10 n := by
  rw [List.map_map]
  refine (List.map_congr_left fun d hd => ?_).trans (List.map_id _)
  exact digitValue_digitByte (Nat.digits_lt_base (by decide) hd)

theorem value_decimal (n : ℕ) : value (decimal n) = n := by
  rw [value, decimal]
  split
  · next h => rw [h]; rfl
  · rw [List.map_reverse, List.reverse_reverse, map_digits, Nat.ofDigits_digits]

theorem isDigit_decimal {n : ℕ} : ∀ b ∈ decimal n, isDigit b = true := by
  intro b hb
  rw [decimal] at hb
  split at hb
  · rw [List.mem_singleton] at hb; subst hb; rfl
  · rw [List.mem_reverse, List.mem_map] at hb
    obtain ⟨d, hd, rfl⟩ := hb
    exact isDigit_digitByte (Nat.digits_lt_base (by decide) hd)

theorem decimal_ne_nil (n : ℕ) : decimal n ≠ [] := by
  rw [decimal]
  split
  · exact List.cons_ne_nil _ _
  · next h => simpa [Nat.digits_eq_nil_iff_eq_zero] using h

/-- `n < 10 ^ w` exactly when the numeral has at most `w` digits, `w` positive. -/
theorem length_decimal_le {n w : ℕ} (hw : 0 < w) : (decimal n).length ≤ w ↔ n < 10 ^ w := by
  rw [decimal]
  split
  · next h => subst h; simp; omega
  · rw [List.length_reverse, List.length_map]
    exact Nat.digits_length_le_iff (by decide) n

theorem value_lt {ds : Bytes} (h : ∀ b ∈ ds, isDigit b = true) : value ds < 10 ^ ds.length := by
  have hlt := Nat.ofDigits_lt_base_pow_length (b := 10) (l := (ds.map digitValue).reverse)
    (by decide) (by
      intro d hd
      rw [List.mem_reverse, List.mem_map] at hd
      obtain ⟨b, hb, rfl⟩ := hd
      exact digitValue_lt (h b hb))
  simpa [value] using hlt

/-- Two digit strings of one length that denote the same number are equal. -/
theorem value_inj {as bs : Bytes} (ha : ∀ b ∈ as, isDigit b = true)
    (hb : ∀ b ∈ bs, isDigit b = true) (hlen : as.length = bs.length) (h : value as = value bs) :
    as = bs := by
  have hrev : (as.map digitValue).reverse = (bs.map digitValue).reverse := by
    refine Nat.ofDigits_inj_of_len_eq (b := 10) (by decide) (by simpa using hlen) ?_ ?_ h
    · intro d hd
      rw [List.mem_reverse, List.mem_map] at hd
      obtain ⟨b, hm, rfl⟩ := hd
      exact digitValue_lt (ha b hm)
    · intro d hd
      rw [List.mem_reverse, List.mem_map] at hd
      obtain ⟨b, hm, rfl⟩ := hd
      exact digitValue_lt (hb b hm)
  clear h
  have hmap : as.map digitValue = bs.map digitValue := List.reverse_injective hrev
  induction as generalizing bs with
  | nil => exact (List.length_eq_zero_iff.mp hlen.symm).symm
  | cons a as ih =>
    cases bs with
    | nil => simp at hlen
    | cons b bs =>
      simp only [List.map_cons, List.cons.injEq] at hmap
      have hab := digitValue_inj (ha a List.mem_cons_self) (hb b List.mem_cons_self) hmap.1
      have htail := ih (fun c hc => ha c (List.mem_cons_of_mem _ hc))
        (fun c hc => hb c (List.mem_cons_of_mem _ hc)) (by simpa using hlen)
        (by rw [hmap.2]) hmap.2
      rw [hab, htail]

/-! ### Leading zeros -/

/-- The numeral of a digit string's value, if the string does not start with a zero. -/
theorem decimal_value {ds : Bytes} (h : ∀ b ∈ ds, isDigit b = true) (hne : ds ≠ [])
    (hhead : ds.head? ≠ some (byte '0')) : decimal (value ds) = ds := by
  obtain ⟨d, r, rfl⟩ := List.exists_cons_of_ne_nil hne
  have hd : digitValue d ≠ 0 := fun h0 =>
    hhead (congrArg some (digitValue_inj (h d List.mem_cons_self) (by decide) h0))
  have hlast : ∀ hl : ((d :: r).map digitValue).reverse ≠ [],
      ((d :: r).map digitValue).reverse.getLast hl ≠ 0 := by
    intro hl
    simpa using hd
  have hdigits : Nat.digits 10 (value (d :: r)) = ((d :: r).map digitValue).reverse := by
    refine Nat.digits_ofDigits 10 (by decide) _ ?_ hlast
    intro v hv
    rw [List.mem_reverse, List.mem_map] at hv
    obtain ⟨b, hb, rfl⟩ := hv
    exact digitValue_lt (h b hb)
  have hpos : value (d :: r) ≠ 0 := fun h0 => by
    rw [h0, Nat.digits_zero] at hdigits
    simp at hdigits
  have hback : ∀ b ∈ d :: r, digitByte (digitValue b) = b := by
    intro b hb
    have hlt := digitValue_lt (h b hb)
    exact digitValue_inj (isDigit_digitByte hlt) (h b hb) (digitValue_digitByte hlt)
  rw [decimal, if_neg hpos, hdigits, List.map_reverse, List.reverse_reverse, List.map_map]
  exact (List.map_congr_left hback).trans (List.map_id _)

/-- Without its leading zeros a digit string is the numeral of its value. -/
theorem dropWhile_zeros {ds : Bytes} (h : ∀ b ∈ ds, isDigit b = true) (hpos : 0 < value ds) :
    ds.dropWhile (· == byte '0') = decimal (value ds) := by
  induction ds with
  | nil => exact absurd hpos (by decide)
  | cons d r ih =>
    by_cases hd : d = byte '0'
    · subst hd
      have hvalue : value (byte '0' :: r) = value r := by
        have hzero : digitValue (byte '0') = 0 := by decide
        rw [value, List.map_cons, List.reverse_cons, hzero, Nat.ofDigits_append]
        simp [value]
      rw [hvalue] at hpos ⊢
      rw [List.dropWhile_cons_of_pos (by simp)]
      exact ih (fun b hb => h b (List.mem_cons_of_mem _ hb)) hpos
    · rw [List.dropWhile_cons_of_neg (by simpa using hd)]
      exact (decimal_value h (List.cons_ne_nil _ _) (by simpa using hd)).symm

/-! ### Fixed width -/

theorem isDigit_padded {w n : ℕ} : ∀ b ∈ padded w n, isDigit b = true := by
  intro b hb
  simp only [padded, List.leftpad, List.mem_append, List.mem_replicate] at hb
  rcases hb with ⟨_, rfl⟩ | hb
  · rfl
  · exact isDigit_decimal b hb

theorem length_padded {w n : ℕ} (hw : 0 < w) (hn : n < 10 ^ w) : (padded w n).length = w := by
  have := (length_decimal_le hw).mpr hn
  simp only [padded, List.leftpad, List.length_append, List.length_replicate]
  omega

theorem value_padded (w n : ℕ) : value (padded w n) = n := by
  rw [padded, List.leftpad]
  generalize w - (decimal n).length = k
  have hzero : digitValue (byte '0') = 0 := by decide
  rw [value, List.map_append, List.reverse_append, List.map_replicate, List.reverse_replicate,
    hzero, Nat.ofDigits_append_replicate_zero]
  exact value_decimal n

/-- A string of `w` digits is the padded numeral of its value. -/
theorem padded_value {w : ℕ} (hw : 0 < w) {ds : Bytes} (h : ∀ b ∈ ds, isDigit b = true)
    (hlen : ds.length = w) : padded w (value ds) = ds := by
  have hlt : value ds < 10 ^ w := hlen ▸ value_lt h
  exact value_inj isDigit_padded h ((length_padded hw hlt).trans hlen.symm) (value_padded w _)

end Schemes
