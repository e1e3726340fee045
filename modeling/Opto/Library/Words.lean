import Mathlib.Data.List.GetD
import Opto.Library.Digits
import Opto.Library.TwosComplement

/-!
# Words as lists of bits

A word lists its bits, the least significant first. Read as signed, its last bit counts
negatively; an extension repeats that bit or adds zeros, and keeps the number.
-/

namespace Opto

open TwosComplement

abbrev Bits := List Bool

namespace Bits

/-- The number that a word stands for. -/
def number (signed : Bool) (bits : Bits) : Int := read signed bits.length (bitsValue bits)

def sign (bits : Bits) : Bool := bits.getLastD false

/-- Some bit is set. -/
def truth (bits : Bits) : Bool := bits.any id

/-- The word of another width for the same number, or for its low bits. -/
def resize (signed : Bool) (width : Nat) (bits : Bits) : Bits := digits (number signed bits) width

/-- The bits from a position on; a range that leaves the word is zero. -/
def extractAt (value : Bits) (offset width : Nat) : Bits :=
  if offset + width ≤ value.length then (value.drop offset).take width
  else List.replicate width false

/-- The bits from a position on are replaced; what would lie past the word is dropped. -/
def insertAt (value replacement : Bits) (offset : Nat) : Bits :=
  (List.range value.length).map fun index =>
    if offset ≤ index ∧ index < offset + replacement.length then
      replacement.getD (index - offset) false
    else value.getD index false

variable {signed : Bool} {bits : Bits} {width : Nat}

@[simp] theorem number_unsigned (bits : Bits) : number false bits = bitsValue bits := by simp [number]

@[simp] theorem length_resize (signed : Bool) (width : Nat) (bits : Bits) :
    (resize signed width bits).length = width := by simp [resize]

theorem digit_bitsValue (bits : Bits) (i : Nat) : digit (bitsValue bits) i = bits.getD i false := by
  induction bits generalizing i with
  | nil => simpa [bitsValue] using digit_small (z := 0) (i := i) le_rfl (by positivity)
  | cons bit bits ih =>
    rw [bitsValue, Nat.cast_add, Nat.cast_mul, Nat.cast_ofNat]
    cases i with
    | zero => simp
    | succ i => rw [digit_succ, half_cast_add, ih, List.getD_cons_succ]

/-- The last bit is the one that weighs half of the range. -/
theorem sign_iff (bits : Bits) : 2 ^ bits.length ≤ 2 * bitsValue bits ↔ sign bits = true := by
  induction bits with
  | nil => simp [bitsValue, sign]
  | cons bit bits ih =>
    cases bits with
    | nil => cases bit <;> simp [bitsValue, sign]
    | cons next rest =>
      have hbit := Bool.toNat_le bit
      have hsign : sign (bit :: next :: rest) = sign (next :: rest) := rfl
      rw [hsign, ← ih, bitsValue, List.length_cons, pow_succ]
      have heven : 2 ^ (next :: rest).length = 2 * 2 ^ rest.length := by rw [List.length_cons, pow_succ']
      omega

theorem number_negative (h : sign bits = true) : number true bits = bitsValue bits - 2 ^ bits.length :=
  read_negative ((sign_iff bits).mpr h)

theorem number_nonneg (signed : Bool) (h : sign bits = false) : number signed bits = bitsValue bits := by
  apply read_nonneg
  have hiff := sign_iff bits
  rw [h] at hiff
  exact not_le.mp fun hle => Bool.false_ne_true (hiff.mp hle)

theorem number_modEq (signed : Bool) (bits : Bits) :
    number signed bits ≡ bitsValue bits [ZMOD 2 ^ bits.length] := read_modEq signed _ _

theorem number_bounds (signed : Bool) (bits : Bits) :
    -(2 ^ bits.length) ≤ number signed bits ∧ number signed bits < 2 ^ bits.length := by
  have hlt := bitsValue_lt bits
  have hpow : ((2 ^ bits.length : Nat) : Int) = 2 ^ bits.length := by simp
  rw [number, TwosComplement.read]
  split_ifs <;> omega

/-- The wrapped number of a negative word is larger by the range. -/
theorem number_emod (signed : Bool) (hle : bits.length ≤ width) :
    number signed bits % 2 ^ width = number signed bits + if signed && sign bits then 2 ^ width else 0 := by
  have hpow : (2 : Int) ^ bits.length ≤ 2 ^ width := pow_le_pow_right₀ (by decide) hle
  have hlt : (bitsValue bits : Int) < 2 ^ bits.length := by exact_mod_cast bitsValue_lt bits
  cases hsign : signed && sign bits with
  | false =>
    have hnumber : number signed bits = bitsValue bits := by
      cases signed with
      | false => exact number_unsigned bits
      | true => exact number_nonneg true (by simpa using hsign)
    rw [hnumber]
    simpa using Int.emod_eq_of_lt (Int.natCast_nonneg _) (hlt.trans_le hpow)
  | true =>
    rw [Bool.and_eq_true] at hsign
    rw [hsign.1, number_negative hsign.2, if_pos rfl, ← Int.add_emod_right]
    exact Int.emod_eq_of_lt (by omega) (by omega)

theorem number_neg_iff (bits : Bits) : number true bits < 0 ↔ sign bits = true := by
  have hlt : (bitsValue bits : Int) < 2 ^ bits.length := by exact_mod_cast bitsValue_lt bits
  cases hsign : sign bits with
  | false =>
    rw [number_nonneg true hsign]
    simp
  | true =>
    rw [number_negative hsign]
    exact iff_of_true (by omega) rfl

/-- Past its bits, a word goes on with the extension. -/
theorem digit_number (signed : Bool) (bits : Bits) (i : Nat) :
    digit (number signed bits) i = bits.getD i (signed && sign bits) := by
  by_cases hi : i < bits.length
  · rw [digit_congr (number_modEq signed bits) hi, digit_bitsValue, List.getD_eq_getElem _ _ hi,
      List.getD_eq_getElem _ _ hi]
  · rw [List.getD_eq_default _ _ (not_lt.mp hi)]
    have hpow : (2 : Int) ^ bits.length ≤ 2 ^ i := by gcongr <;> omega
    have hlt : (bitsValue bits : Int) < 2 ^ bits.length := by exact_mod_cast bitsValue_lt bits
    cases hsign : signed && sign bits with
    | false =>
      have hnumber : number signed bits = bitsValue bits := by
        cases signed with
        | false => exact number_unsigned bits
        | true => exact number_nonneg true (by simpa using hsign)
      rw [hnumber]
      exact digit_small (Int.natCast_nonneg _) (by omega)
    | true =>
      rw [Bool.and_eq_true] at hsign
      have hbounds := number_bounds true bits
      rw [hsign.1, number_negative hsign.2] at *
      exact digit_negative (by omega) (by omega)

/-- Every position from the last bit on shows the sign. -/
theorem digit_sign (hle : bits.length ≤ width) : digit (number true bits) (width - 1) = sign bits := by
  rw [digit_number, Bool.true_and]
  by_cases hlast : width - 1 < bits.length
  · rw [show width - 1 = bits.length - 1 by omega, List.getD, ← List.getLast?_eq_getElem?, sign,
      List.getLastD_eq_getLast?]
    cases bits with
    | nil => rfl
    | cons bit bits => simp [List.getLast?_cons]
  · exact List.getD_eq_default _ _ (not_lt.mp hlast)

theorem getElem?_resize {i : Nat} (hi : i < width) :
    (resize signed width bits)[i]? = some (bits.getD i (signed && sign bits)) := by
  rw [resize, digits, List.getElem?_map, List.getElem?_range hi, Option.map_some, digit_number]

theorem resize_self (signed : Bool) (bits : Bits) : resize signed bits.length bits = bits := by
  rw [resize, digits_congr (number_modEq signed bits), digits_bitsValue]

/-- A word of the number's low digits wraps it around. -/
theorem number_digits (signed : Bool) (z : Int) (width : Nat) :
    number signed (digits z width) = wrap signed width z := by
  have hvalue : bitsValue (digits z width) = encode width z := by
    have hcongr : z ≡ (encode width z : Int) [ZMOD 2 ^ width] := (encode_modEq width z).symm
    rw [digits_congr hcongr, bitsValue_digits, Nat.mod_eq_of_lt (encode_lt width z)]
  rw [number, length_digits, hvalue, wrap]

/-- Words of one width stand for different numbers. -/
theorem number_injective {left right : Bits} (hlen : left.length = right.length)
    (h : number signed left = number signed right) : left = right := by
  rw [← resize_self signed left, ← resize_self signed right, resize, resize, h, hlen]

theorem length_pos_of_sign (h : sign bits = true) : 0 < bits.length := by
  cases bits with
  | nil => cases h
  | cons bit bits => exact Nat.succ_pos _

theorem number_range (signed : Bool) (hpos : 0 < bits.length) :
    least signed bits.length ≤ number signed bits ∧ number signed bits ≤ greatest signed bits.length := by
  have hwrap := wrap_bounds signed hpos (number signed bits)
  rwa [← number_digits, ← resize, resize_self] at hwrap

/-- An extension keeps the number. -/
theorem number_resize (hpos : 0 < bits.length) (hle : bits.length ≤ width) :
    number signed (resize signed width bits) = number signed bits := by
  obtain ⟨hlo, hhi⟩ := number_range signed hpos
  have hdouble := double_pow hpos
  have hwide := double_pow (show 0 < width by omega)
  have hpow : (2 : Int) ^ (bits.length - 1) ≤ 2 ^ (width - 1) := pow_le_pow_right₀ (by decide) (by omega)
  rw [resize, number_digits]
  apply wrap_eq (by omega)
  · refine le_trans ?_ hlo
    cases signed with
    | false => exact le_rfl
    | true =>
      simp only [least, if_true]
      omega
  · refine le_trans hhi ?_
    cases signed with
    | false =>
      simp only [greatest, Bool.false_eq_true, if_false]
      omega
    | true =>
      simp only [greatest, if_true]
      omega

/-- Words of one width with the same digits stand for the same numbers. -/
theorem bitsValue_eq {v : Nat} (hv : v < 2 ^ bits.length)
    (h : ∀ i < bits.length, bits.getD i false = v.testBit i) : bitsValue bits = v := by
  have hmod : (bitsValue bits : Int) ≡ v [ZMOD 2 ^ bits.length] := by
    apply modEq_iff_digits.mpr
    intro i hi
    rw [digit_bitsValue, digit_testBit, h i hi]
  rw [← Nat.mod_eq_of_lt (bitsValue_lt bits), ← Nat.mod_eq_of_lt hv]
  exact Int.natCast_modEq_iff.mp (by exact_mod_cast hmod)

theorem number_of_zero (signed : Bool) (h : bitsValue bits = 0) : number signed bits = 0 := by
  have hnumber := read_nonneg signed (show 2 * 0 < 2 ^ bits.length by positivity)
  rw [number, h, hnumber]
  rfl

theorem truth_eq_false : truth bits = false ↔ bitsValue bits = 0 := by
  induction bits with
  | nil => simp [truth, bitsValue]
  | cons bit bits ih =>
    have hcons : truth (bit :: bits) = (bit || truth bits) := rfl
    rw [hcons, bitsValue, Bool.or_eq_false_iff, ih]
    cases bit <;> simp

end Bits

end Opto

/-! Two words of one length may differ from some position on only. Sums, products and bitwise
operations carry such a difference upwards, never downwards. -/

namespace Opto

open Bits (number resize)

/-- The words have one length and the same `d` low bits. -/
structure SameLow (d : Nat) (x y : Bits) : Prop where
  length : x.length = y.length
  bits : ∀ i < d, x[i]? = y[i]?

namespace SameLow

variable {d e : Nat} {x y xs ys : Bits}

theorem refl (x : Bits) : SameLow d x x := ⟨rfl, fun _ _ => rfl⟩

theorem mono (h : SameLow d x y) (hle : e ≤ d) : SameLow e x y :=
  ⟨h.length, fun i hi => h.bits i (hi.trans_le hle)⟩

/-- Positions past the end of the words do not count. -/
theorem min_length (h : SameLow (min d x.length) x y) : SameLow d x y := by
  refine ⟨h.length, fun i _ => ?_⟩
  by_cases hlt : i < x.length
  · exact h.bits i (by omega)
  · have hlength := h.length
    rw [List.getElem?_eq_none (by omega), List.getElem?_eq_none (by omega)]

theorem eq (h : SameLow d x y) (hle : x.length ≤ d) : x = y := by
  apply List.ext_getElem?
  intro i
  by_cases hi : i < d
  · exact h.bits i hi
  · have hlength := h.length
    rw [List.getElem?_eq_none (by omega), List.getElem?_eq_none (by omega)]

theorem getD (h : SameLow d x y) {i : Nat} (hi : i < d) (b : Bool) : x.getD i b = y.getD i b := by
  rw [List.getD_eq_getElem?_getD, List.getD_eq_getElem?_getD, h.bits i hi]

theorem number_modEq (h : SameLow d x y) (signed : Bool) : number signed x ≡ number signed y [ZMOD 2 ^ d] := by
  by_cases hle : x.length ≤ d
  · rw [h.eq hle]
  · apply modEq_iff_digits.mpr
    intro i hi
    have hlength := h.length
    have hx : i < x.length := by omega
    have hy : i < y.length := by omega
    rw [Bits.digit_number, Bits.digit_number, List.getD_eq_getElem?_getD, List.getD_eq_getElem?_getD,
      h.bits i hi, List.getElem?_eq_getElem hy, Option.getD_some, Option.getD_some]

theorem digits {a b : Int} (h : a ≡ b [ZMOD 2 ^ d]) (width : Nat) : SameLow d (Opto.digits a width) (Opto.digits b width) := by
  refine ⟨by rw [length_digits, length_digits], fun i hi => ?_⟩
  rw [Opto.digits, Opto.digits, List.getElem?_map, List.getElem?_map]
  by_cases hlt : i < width
  · rw [List.getElem?_range hlt, Option.map_some, Option.map_some, modEq_iff_digits.mp h i hi]
  · have hnone : (List.range width)[i]? = none := List.getElem?_eq_none (by rw [List.length_range]; omega)
    rw [hnone]
    rfl

theorem resize (h : SameLow d x y) (signed : Bool) (width : Nat) :
    SameLow d (Bits.resize signed width x) (Bits.resize signed width y) := digits (h.number_modEq signed) width

theorem map (h : SameLow d x y) (f : Bool → Bool) : SameLow d (x.map f) (y.map f) := by
  refine ⟨by rw [List.length_map, List.length_map, h.length], fun i hi => ?_⟩
  rw [List.getElem?_map, List.getElem?_map, h.bits i hi]

theorem zipWith (h : SameLow d x y) (h' : SameLow d xs ys) (f : Bool → Bool → Bool) :
    SameLow d (List.zipWith f x xs) (List.zipWith f y ys) := by
  refine ⟨by rw [List.length_zipWith, List.length_zipWith, h.length, h'.length], fun i hi => ?_⟩
  rw [List.getElem?_zipWith, List.getElem?_zipWith, h.bits i hi, h'.bits i hi]

theorem take (h : SameLow d x y) (n : Nat) : SameLow d (x.take n) (y.take n) := by
  refine ⟨by rw [List.length_take, List.length_take, h.length], fun i hi => ?_⟩
  rw [List.getElem?_take, List.getElem?_take, h.bits i hi]

theorem drop {n : Nat} (h : SameLow (n + d) x y) : SameLow d (x.drop n) (y.drop n) := by
  refine ⟨by rw [List.length_drop, List.length_drop, h.length], fun i hi => ?_⟩
  rw [List.getElem?_drop, List.getElem?_drop, h.bits (n + i) (by omega)]

/-- The second word matters from the end of the first one on. -/
theorem append (h : SameLow d x y) (h' : SameLow (d - x.length) xs ys) : SameLow d (x ++ xs) (y ++ ys) := by
  refine ⟨by rw [List.length_append, List.length_append, h.length, h'.length], fun i hi => ?_⟩
  rw [List.getElem?_append, List.getElem?_append, ← h.length, h.bits i hi]
  split_ifs
  · rfl
  · exact h'.bits _ (by omega)

end SameLow

end Opto
