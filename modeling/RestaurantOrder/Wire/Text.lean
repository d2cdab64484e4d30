import RestaurantOrder.Model.Message
import RestaurantOrder.Schemes.Split
import Mathlib.Data.List.TakeWhile

/-! The text helpers of the encoding: `Util::split`, `std::to_string` and `std::stoi`, and
    `parse_positive_int` of wire.cpp.

    `split` is a loop over a moving position; `split_eq` identifies it with `List.splitOn`, so no
    `substr` in it throws. `stoi` reads blanks, an optional sign and digits as `strtol` does, and
    `parsePositiveInt_iff` says which texts `parse_positive_int` accepts: blanks, an optional plus
    sign and a digit string that denotes a number from 1 to 2^31 - 1. -/

namespace Restaurant
open Schemes

/-! ### `std::string` and `Util::split` -/

/-- `find(sep, pos)`: the first index from `pos` on that holds `sep`; none stands for `npos`. -/
def find (s : Bytes) (sep : Byte) (pos : ℕ) : Option ℕ :=
  ((s.drop pos).findIdx? (· == sep)).map (pos + ·)

/-- `substr(pos, count)`; without a count, up to the end. -/
def substr (s : Bytes) (pos : ℕ) (count : Option ℕ) : Cpp Bytes :=
  if s.length < pos then raise (.std (ascii "basic_string::substr"))
  else match count with
    | some n => .ok ((s.drop pos).take n)
    | none => .ok (s.drop pos)

theorem find_bounds {s : Bytes} {sep : Byte} {pos n : ℕ} (h : find s sep pos = some n) :
    pos ≤ n ∧ n < s.length := by
  obtain ⟨i, hi, rfl⟩ := Option.map_eq_some_iff.mp h
  have hlt := (List.findIdx?_eq_some_iff_getElem.mp hi).1
  rw [List.length_drop] at hlt
  omega

namespace Util

/-- The loop of `split` at position `pos` with the tokens `v` so far. -/
def splitLoop (s : Bytes) (sep : Byte) (pos : ℕ) (v : List Bytes) : Cpp (List Bytes) :=
  match _h : find s sep pos with
  | none => do
    let tok ← substr s pos none
    return v ++ [tok]
  | some sepPos => do
    let tok ← substr s pos (some (sepPos - pos))
    splitLoop s sep (sepPos + 1) (v ++ [tok])
termination_by s.length - pos
decreasing_by have := find_bounds _h; omega

def split (s : Bytes) (sep : Byte) : Cpp (List Bytes) := splitLoop s sep 0 []

theorem splitLoop_eq (s : Bytes) (sep : Byte) (pos : ℕ) (v : List Bytes) (hpos : pos ≤ s.length) :
    splitLoop s sep pos v = .ok (v ++ (s.drop pos).splitOn sep) := by
  have hfirst := splitOn_of_find sep (s.drop pos)
  rw [splitLoop]
  split
  · next h =>
    rw [find, Option.map_eq_none_iff] at h
    rw [h] at hfirst
    rw [hfirst, substr, if_neg (by omega)]
    rfl
  · next n h =>
    have hb := find_bounds h
    obtain ⟨i, hi, rfl⟩ := Option.map_eq_some_iff.mp h
    rw [hi] at hfirst
    rw [hfirst.2, substr, if_neg (by omega)]
    simp only [ok_bind]
    rw [splitLoop_eq s sep (pos + i + 1) _ (by omega), List.drop_drop, Nat.add_sub_cancel_left,
      List.append_assoc, Nat.add_assoc]
    rfl
termination_by s.length - pos

/-- The loop finds the tokens of the string. -/
theorem split_eq (s : Bytes) (sep : Byte) : split s sep = .ok (s.splitOn sep) :=
  splitLoop_eq s sep 0 [] (Nat.zero_le _)

end Util

/-! ### Integers -/

/-- `std::to_string`. -/
def toStr (n : Int32) : Bytes :=
  if n.toInt < 0 then byte '-' :: decimal n.toInt.natAbs else decimal n.toInt.natAbs

def isSpace (b : Byte) : Bool := b == 32 || (9 ≤ b && b ≤ 13)

/-- The optional sign of an integer text: whether it is a minus, and what follows it. -/
def sign : Bytes → Bool × Bytes
  | 43 :: s => (false, s)
  | 45 :: s => (true, s)
  | s => (false, s)

/-- `std::stoi(str, &pos, 10)`: the number and the index behind it. -/
def stoi (str : Bytes) : Cpp (Int32 × ℕ) :=
  let (neg, s) := sign (str.dropWhile isSpace)
  let digits := s.takeWhile isDigit
  if digits.isEmpty then raise (.std (ascii "stoi"))
  else
    let n : ℤ := if neg then -value digits else value digits
    if n < -2 ^ 31 ∨ 2 ^ 31 ≤ n then raise (.std (ascii "stoi"))
    else .ok (Int32.ofInt n, str.length - (s.dropWhile isDigit).length)

/-- `parse_positive_int`. -/
def parsePositiveInt (str : Bytes) (fieldName : Bytes) : Cpp Int32 :=
  match stoi str with
  | .error (.throws _) => raise (.invalidMessage (ascii "invalid integer field: " ++ fieldName))
  | .error .undefined => .error .undefined
  | .ok (number, pos) =>
    if pos ≠ str.length ∨ number ≤ 0 then
      raise (.invalidMessage (ascii "invalid positive integer field: " ++ fieldName))
    else .ok number

/-- A digit string that denotes `n`. -/
def Digits (n : Int32) (s : Bytes) : Prop :=
  s ≠ [] ∧ (∀ b ∈ s, isDigit b = true) ∧ (value s : ℤ) = n.toInt

/-- What `stoi` reads as the positive number `n`: blanks and a plus sign may stand before the
    digits. -/
def Spelled (n : Int32) (s : Bytes) : Prop :=
  ∃ blanks plus digits, s = blanks ++ plus ++ digits ∧ (∀ b ∈ blanks, isSpace b = true) ∧
    (plus = [] ∨ plus = [byte '+']) ∧ Digits n digits

theorem Digits.spelled {n : Int32} {s : Bytes} (h : Digits n s) : Spelled n s :=
  ⟨[], [], s, rfl, by simp, Or.inl rfl, h⟩

theorem toInt_natAbs {n : Int32} (hn : 0 < n) : (n.toInt.natAbs : ℤ) = n.toInt := by
  have : (0 : Int32).toInt < n.toInt := Int32.lt_iff_toInt_lt.mp hn
  rw [Int32.toInt_zero] at this
  omega

/-- A positive number prints as a digit string that denotes it. -/
theorem digits_toStr {n : Int32} (hn : 0 < n) : Digits n (toStr n) := by
  have habs := toInt_natAbs hn
  rw [toStr, if_neg (by omega)]
  exact ⟨decimal_ne_nil _, isDigit_decimal, by rw [value_decimal, habs]⟩

theorem isDigit_not_isSpace {b : Byte} (h : isDigit b = true) : isSpace b = false := by
  rw [isDigit_iff] at h
  simp only [isSpace, Bool.or_eq_false_iff, Bool.and_eq_false_iff, beq_eq_false_iff_ne, ne_eq,
    decide_eq_false_iff_not, UInt8.le_iff_toNat_le, ← UInt8.toNat_inj]
  simp only [UInt8.reduceToNat]
  omega

theorem sign_digits : ∀ {s : Bytes}, (∀ b ∈ s, isDigit b = true) → sign s = (false, s)
  | [], _ => rfl
  | b :: s, h => by
      have hb := h b List.mem_cons_self
      rw [sign]
      · intro r heq
        rw [(List.cons.inj heq).1] at hb
        exact absurd hb (by decide)
      · intro r heq
        rw [(List.cons.inj heq).1] at hb
        exact absurd hb (by decide)

/-- What `sign` leaves, put back behind what it took. -/
theorem sign_cases (s : Bytes) :
    sign s = (false, s) ∨ (∃ r, s = byte '+' :: r ∧ sign s = (false, r)) ∨
      ∃ r, s = byte '-' :: r ∧ sign s = (true, r) := by
  unfold sign
  split
  · exact Or.inr (Or.inl ⟨_, rfl, rfl⟩)
  · exact Or.inr (Or.inr ⟨_, rfl, rfl⟩)
  · exact Or.inl rfl

/-- Behind the blanks and the plus sign, the digits. -/
theorem sign_spelled {blanks plus digits : Bytes} (hb : ∀ b ∈ blanks, isSpace b = true)
    (hp : plus = [] ∨ plus = [byte '+']) (hne : digits ≠ []) (hd : ∀ b ∈ digits, isDigit b = true) :
    sign ((blanks ++ plus ++ digits).dropWhile isSpace) = (false, digits) := by
  rw [List.append_assoc, List.dropWhile_append_of_pos hb]
  rcases hp with rfl | rfl
  · obtain ⟨b, r, rfl⟩ := List.exists_cons_of_ne_nil hne
    have hblank : ¬isSpace b = true := by
      rw [isDigit_not_isSpace (hd b List.mem_cons_self)]
      exact Bool.false_ne_true
    rw [List.nil_append, List.dropWhile_cons_of_neg hblank]
    exact sign_digits hd
  · rfl

theorem stoi_spelled {n : Int32} {s : Bytes} (h : Spelled n s) : stoi s = .ok (n, s.length) := by
  obtain ⟨blanks, plus, digits, rfl, hb, hp, hne, hd, hv⟩ := h
  have hsign := sign_spelled hb hp hne hd
  have htake : digits.takeWhile isDigit = digits := List.takeWhile_eq_self_iff.mpr hd
  have hrest : digits.dropWhile isDigit = [] := List.dropWhile_eq_nil_iff.mpr hd
  have hlo := n.le_toInt
  have hhi := n.toInt_lt
  rw [stoi, hsign]
  simp only [htake, hrest, List.isEmpty_iff, if_neg hne, Bool.false_eq_true, if_false, hv]
  rw [if_neg (by omega), Int32.ofInt_toInt]
  rfl

theorem stoi_defined (s : Bytes) : stoi s ≠ .error .undefined := by
  rw [stoi]
  rcases sign (s.dropWhile isSpace) with ⟨neg, r⟩
  simp only
  generalize (if neg then -value (r.takeWhile isDigit) else value (r.takeWhile isDigit) : ℤ) = m
  split
  · exact nofun
  · split <;> exact nofun

theorem stoi_inv {n : Int32} {s : Bytes} {pos : ℕ} (h : stoi s = .ok (n, pos)) {neg : Bool}
    {r : Bytes} (hr : sign (s.dropWhile isSpace) = (neg, r)) :
    r.takeWhile isDigit ≠ [] ∧
      n.toInt = (if neg then -value (r.takeWhile isDigit) else value (r.takeWhile isDigit) : ℤ) ∧
      pos = s.length - (r.dropWhile isDigit).length := by
  rw [stoi, hr] at h
  simp only [List.isEmpty_iff] at h
  split at h
  · cases h
  · next hne =>
    generalize (if neg then -value (r.takeWhile isDigit) else value (r.takeWhile isDigit) : ℤ) = m
      at h ⊢
    split at h
    · cases h
    · next hrange =>
      obtain ⟨rfl, rfl⟩ := Prod.mk.inj (Except.ok.inj h)
      exact ⟨hne, Int32.toInt_ofInt_of_le (by omega) (by omega), rfl⟩

/-- A positive number read to the end of the text is spelled there. -/
theorem spelled_of_stoi {n : Int32} {s : Bytes} (h : stoi s = .ok (n, s.length)) (hn : 0 < n) :
    Spelled n s := by
  have hpos : 0 < n.toInt := by
    have := Int32.lt_iff_toInt_lt.mp hn
    rwa [Int32.toInt_zero] at this
  have hs : s.takeWhile isSpace ++ s.dropWhile isSpace = s := List.takeWhile_append_dropWhile
  have hblank : ∀ b ∈ s.takeWhile isSpace, isSpace b = true := fun b => List.mem_takeWhile_imp
  -- what follows the sign is digits to the end
  have key : ∀ neg plus r, s.dropWhile isSpace = plus ++ r →
      sign (s.dropWhile isSpace) = (neg, r) → neg = false ∧ Digits n r := by
    intro neg plus r hplus hr
    obtain ⟨hne, hv, hend⟩ := stoi_inv h hr
    have hcut : r.takeWhile isDigit ++ r.dropWhile isDigit = r := List.takeWhile_append_dropWhile
    have hlen := congrArg List.length hs
    have hrlen := congrArg List.length hcut
    have htake := List.length_pos_of_ne_nil hne
    simp only [hplus, List.length_append] at hlen hrlen
    have hnil : r.dropWhile isDigit = [] := List.length_eq_zero_iff.mp (by omega)
    rw [hnil, List.append_nil] at hcut
    rw [hcut] at hne hv
    cases neg with
    | true => simp only [if_true] at hv; omega
    | false =>
      refine ⟨rfl, hne, ?_, hv.symm⟩
      rw [← hcut]
      exact fun b => List.mem_takeWhile_imp
  rcases sign_cases (s.dropWhile isSpace) with hr | ⟨r, hr, hs'⟩ | ⟨r, hr, hs'⟩
  · obtain ⟨-, hd⟩ := key _ [] _ rfl hr
    exact ⟨_, [], _, by rw [List.append_nil, hs], hblank, Or.inl rfl, hd⟩
  · obtain ⟨-, hd⟩ := key _ [byte '+'] r hr hs'
    refine ⟨_, [byte '+'], r, ?_, hblank, Or.inr rfl, hd⟩
    rw [List.append_assoc, List.singleton_append, ← hr, hs]
  · obtain ⟨hneg, -⟩ := key _ [byte '-'] r hr hs'
    cases hneg

theorem parsePositiveInt_iff {s f : Bytes} {n : Int32} :
    parsePositiveInt s f = .ok n ↔ 0 < n ∧ Spelled n s := by
  constructor
  · intro h
    rw [parsePositiveInt] at h
    split at h
    · cases h
    · cases h
    · next number pos hstoi =>
      split at h
      · cases h
      · next hok =>
        obtain rfl := Except.ok.inj h
        rw [not_or, not_not, Int32.not_le] at hok
        obtain ⟨rfl, hn⟩ := hok
        exact ⟨hn, spelled_of_stoi hstoi hn⟩
  · rintro ⟨hn, hs⟩
    rw [parsePositiveInt, stoi_spelled hs]
    simp only [ne_eq, not_true_eq_false, false_or, Int32.not_le.mpr hn, if_false]

/-- What `parse_positive_int` does not accept it rejects as an invalid message. -/
theorem parsePositiveInt_error {s f : Bytes} (h : ¬∃ n, 0 < n ∧ Spelled n s) :
    ∃ what, parsePositiveInt s f = raise (.invalidMessage what) := by
  cases hp : parsePositiveInt s f with
  | ok n => exact absurd ⟨n, parsePositiveInt_iff.mp hp⟩ h
  | error e =>
    rw [parsePositiveInt] at hp
    split at hp
    · exact ⟨_, hp.symm⟩
    · next hu => exact absurd hu (stoi_defined s)
    · split at hp
      · exact ⟨_, hp.symm⟩
      · cases hp

end Restaurant
