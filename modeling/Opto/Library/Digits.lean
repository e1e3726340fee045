import Mathlib.Data.Int.ModEq
import Mathlib.Tactic.Positivity
import Mathlib.Tactic.Ring

/-!
# Binary digits of integers

The digits of an integer are those of its two's complement, lowest first and without an
end. Sums and complements are computed digit by digit, and integers that agree modulo
`2 ^ n` are those with the same first `n` digits.
-/

namespace Opto

/-- The lowest bit of an integer. -/
def odd (z : Int) : Bool := decide (z % 2 = 1)

theorem odd_toNat (z : Int) : ((odd z).toNat : Int) = z % 2 := by
  by_cases h : z % 2 = 1
  · simp [odd, h]
  · rw [odd, decide_eq_false h, Bool.toNat_false]
    omega

theorem odd_add_half (z : Int) : z = ((odd z).toNat : Int) + 2 * (z / 2) := by
  rw [odd_toNat]
  omega

theorem odd_eq_iff {z : Int} {b : Bool} : odd z = b ↔ z % 2 = b.toNat := by
  have hodd := odd_toNat z
  rw [← hodd]
  cases odd z <;> cases b <;> decide

@[simp] theorem odd_cast_add (b : Bool) (z : Int) : odd ((b.toNat : Int) + 2 * z) = b := by
  rw [odd_eq_iff]
  cases b <;> simp

@[simp] theorem half_cast_add (b : Bool) (z : Int) : ((b.toNat : Int) + 2 * z) / 2 = z := by
  cases b
  · simp
  · rw [Bool.toNat_true]
    omega

@[simp] theorem odd_cast (b : Bool) : odd (b.toNat : Int) = b := by cases b <;> rfl

@[simp] theorem half_cast (b : Bool) : (b.toNat : Int) / 2 = 0 := by cases b <;> rfl

/-! Complements. -/

theorem odd_complement (z : Int) : odd (-z - 1) = !odd z := by
  have hodd := odd_toNat z
  rw [odd_eq_iff]
  cases h : odd z <;> simp only [h, Bool.toNat_true, Bool.toNat_false, Bool.not_true, Bool.not_false] at hodd ⊢ <;>
    omega

theorem half_complement (z : Int) : (-z - 1) / 2 = -(z / 2) - 1 := by omega

/-! Sums. -/

/-- The carry into the next position. -/
def majority (a b c : Bool) : Bool := (a && b) || ((a ^^ b) && c)

theorem majority_toNat (a b c : Bool) :
    ((a ^^ b) ^^ c).toNat + 2 * (majority a b c).toNat = a.toNat + b.toNat + c.toNat := by
  cases a <;> cases b <;> cases c <;> rfl

theorem odd_sum (a b : Int) (c : Bool) :
    odd (a + b + c.toNat) = ((odd a ^^ odd b) ^^ c) := by
  have hsum := majority_toNat (odd a) (odd b) c
  have ha := odd_toNat a
  have hb := odd_toNat b
  have hbound := Bool.toNat_le ((odd a ^^ odd b) ^^ c)
  rw [odd_eq_iff]
  omega

theorem half_sum (a b : Int) (c : Bool) :
    (a + b + c.toNat) / 2 = a / 2 + b / 2 + (majority (odd a) (odd b) c).toNat := by
  have hsum := majority_toNat (odd a) (odd b) c
  have ha := odd_toNat a
  have hb := odd_toNat b
  have hbound := Bool.toNat_le ((odd a ^^ odd b) ^^ c)
  omega

theorem odd_add_bit (a : Int) (c : Bool) : odd (a + c.toNat) = (odd a ^^ c) := by
  have hsum := odd_sum a 0 c
  rwa [add_zero, show odd 0 = false from rfl, Bool.xor_false] at hsum

theorem half_add_bit (a : Int) (c : Bool) : (a + c.toNat) / 2 = a / 2 + (odd a && c).toNat := by
  have hhalf := half_sum a 0 c
  rwa [add_zero, Int.zero_ediv, add_zero, majority, show odd 0 = false from rfl, Bool.and_false,
    Bool.xor_false, Bool.false_or] at hhalf

/-- The carry that a ripple adder brings into a position. -/
def carryInto : Nat → Int → Int → Bool → Bool
  | 0, _, _, c => c
  | i + 1, a, b, c => carryInto i (a / 2) (b / 2) (majority (odd a) (odd b) c)

theorem sum_shift (i : Nat) (a b : Int) (c : Bool) :
    (a + b + c.toNat) / 2 ^ i = a / 2 ^ i + b / 2 ^ i + (carryInto i a b c).toNat := by
  induction i generalizing a b c with
  | zero => simp [carryInto]
  | succ i ih =>
    have hshift (z : Int) : z / 2 ^ (i + 1) = z / 2 / 2 ^ i := by
      rw [pow_succ', Int.ediv_ediv_of_nonneg (by decide)]
    rw [hshift, hshift, hshift, half_sum, ih, carryInto]

/-! Digits at a position. -/

def digit (z : Int) (i : Nat) : Bool := odd (z / 2 ^ i)

@[simp] theorem digit_zero (z : Int) : digit z 0 = odd z := by simp [digit]

theorem shift_succ (z : Int) (i : Nat) : z / 2 ^ (i + 1) = z / 2 / 2 ^ i := by
  rw [pow_succ', Int.ediv_ediv_of_nonneg (by decide)]

theorem shift_add (z : Int) (i j : Nat) : z / 2 ^ (i + j) = z / 2 ^ i / 2 ^ j := by
  rw [pow_add, Int.ediv_ediv_of_nonneg (by positivity)]

theorem digit_succ (z : Int) (i : Nat) : digit z (i + 1) = digit (z / 2) i := by
  rw [digit, digit, shift_succ]

theorem digit_shift (z : Int) (i j : Nat) : digit (z / 2 ^ i) j = digit z (i + j) := by
  rw [digit, digit, shift_add]

theorem digit_sum (a b : Int) (c : Bool) (i : Nat) :
    digit (a + b + c.toNat) i = ((digit a i ^^ digit b i) ^^ carryInto i a b c) := by
  rw [digit, sum_shift, odd_sum, digit, digit]

theorem carryInto_succ (i : Nat) (a b : Int) (c : Bool) :
    carryInto (i + 1) a b c = majority (digit a i) (digit b i) (carryInto i a b c) := by
  induction i generalizing a b c with
  | zero => simp [carryInto]
  | succ i ih => rw [carryInto, ih, digit_succ, digit_succ, carryInto]

theorem digit_complement (z : Int) (i : Nat) : digit (-z - 1) i = !digit z i := by
  induction i generalizing z with
  | zero => rw [digit_zero, digit_zero, odd_complement]
  | succ i ih => rw [digit_succ, digit_succ, half_complement, ih]

theorem half_modEq {n : Nat} {a b : Int} (h : a ≡ b [ZMOD 2 ^ (n + 1)]) :
    odd a = odd b ∧ a / 2 ≡ b / 2 [ZMOD 2 ^ n] := by
  obtain ⟨k, hk⟩ := h.dvd
  have hb : b = a + 2 * (2 ^ n * k) := by
    rw [← mul_assoc, ← pow_succ', ← hk]
    ring
  constructor
  · simp [odd, hb, Int.add_emod]
  · rw [hb, Int.add_mul_ediv_left _ _ (by decide)]
    exact Int.modEq_iff_dvd.mpr ⟨k, by ring⟩

theorem modEq_of_half {n : Nat} {a b : Int} (hodd : odd a = odd b)
    (hhalf : a / 2 ≡ b / 2 [ZMOD 2 ^ n]) : a ≡ b [ZMOD 2 ^ (n + 1)] := by
  rw [odd_add_half a, odd_add_half b, hodd, pow_succ']
  exact (Int.ModEq.mul_left' hhalf).add_left _

/-- Integers agree modulo `2 ^ n` when their first `n` digits do. -/
theorem modEq_iff_digits {n : Nat} {a b : Int} :
    a ≡ b [ZMOD 2 ^ n] ↔ ∀ i < n, digit a i = digit b i := by
  induction n generalizing a b with
  | zero => simp [Int.modEq_one]
  | succ n ih =>
    constructor
    · intro h i hi
      obtain ⟨hodd, hhalf⟩ := half_modEq h
      cases i with
      | zero => rw [digit_zero, digit_zero, hodd]
      | succ i => rw [digit_succ, digit_succ, ih.mp hhalf i (by omega)]
    · intro h
      apply modEq_of_half (by simpa using h 0 (by omega))
      apply ih.mpr
      intro i hi
      rw [← digit_succ, ← digit_succ, h (i + 1) (by omega)]

theorem digit_congr {n i : Nat} {a b : Int} (h : a ≡ b [ZMOD 2 ^ n]) (hi : i < n) :
    digit a i = digit b i := modEq_iff_digits.mp h i hi

theorem digit_small {z : Int} {i : Nat} (hlo : 0 ≤ z) (hhi : z < 2 ^ i) : digit z i = false := by
  rw [digit, Int.ediv_eq_zero_of_lt hlo hhi]
  rfl

theorem digit_negative {z : Int} {i : Nat} (hlo : -(2 ^ i) ≤ z) (hhi : z < 0) : digit z i = true := by
  have hcomplement := digit_small (z := -z - 1) (i := i) (by omega) (by omega)
  rw [digit_complement] at hcomplement
  simpa using hcomplement

/-- A product with a power of two moves the digits up. -/
theorem digit_mul_pow (z : Int) (s i : Nat) :
    digit (z * 2 ^ s) i = if i < s then false else digit z (i - s) := by
  split_ifs with hi
  · have hzero : z * 2 ^ s ≡ 0 [ZMOD 2 ^ s] := Int.modEq_zero_iff_dvd.mpr (dvd_mul_left _ _)
    rw [digit_congr hzero hi]
    exact digit_small le_rfl (by positivity)
  · have hsplit : i = s + (i - s) := by omega
    rw [hsplit, ← digit_shift, Int.mul_ediv_cancel _ (by positivity), Nat.add_sub_cancel_left]

/-- The next digit doubles the range. -/
theorem emod_succ (z : Int) (w : Nat) : z % 2 ^ (w + 1) = z % 2 ^ w + 2 ^ w * (digit z w).toNat := by
  have hpos : (0 : Int) < 2 ^ w := by positivity
  have hlow := Int.emod_nonneg z hpos.ne'
  have hhigh := Int.emod_lt_of_pos z hpos
  have hsplit := Int.emod_add_mul_ediv z (2 ^ w)
  have hdigit := odd_add_half (z / 2 ^ w)
  have hz : z = z % 2 ^ w + 2 ^ w * (digit z w).toNat + 2 ^ (w + 1) * (z / 2 ^ w / 2) := by
    rw [digit, pow_succ, mul_assoc (2 ^ w) 2, add_assoc, ← mul_add, ← hdigit, hsplit]
  have hsmall : z % 2 ^ w + 2 ^ w * (digit z w).toNat < 2 ^ (w + 1) := by
    rw [pow_succ]
    cases digit z w <;> simp only [Bool.toNat_false, Bool.toNat_true] <;> push_cast <;> omega
  calc z % 2 ^ (w + 1) = (z % 2 ^ w + 2 ^ w * (digit z w).toNat) % 2 ^ (w + 1) := by
        conv_lhs => rw [hz]
        rw [Int.add_mul_emod_self_left]
    _ = z % 2 ^ w + 2 ^ w * (digit z w).toNat := Int.emod_eq_of_lt (by positivity) hsmall

/-! Words of digits, the lowest first. -/

/-- The first `n` digits of an integer. -/
def digits (z : Int) (n : Nat) : List Bool := (List.range n).map (digit z)

@[simp] theorem length_digits (z : Int) (n : Nat) : (digits z n).length = n := by simp [digits]

theorem digits_succ (z : Int) (n : Nat) : digits z (n + 1) = odd z :: digits (z / 2) n := by
  rw [digits, List.range_succ_eq_map, List.map_cons, digit_zero, List.map_map, digits]
  congr 1
  exact List.map_congr_left fun i _ => digit_succ z i

theorem digits_congr {a b : Int} {n : Nat} (h : a ≡ b [ZMOD 2 ^ n]) : digits a n = digits b n := by
  apply List.map_congr_left
  intro i hi
  exact digit_congr h (List.mem_range.mp hi)

theorem digits_add (z : Int) (m n : Nat) : digits z (m + n) = digits z m ++ digits (z / 2 ^ m) n := by
  induction m generalizing z with
  | zero => simp [digits]
  | succ m ih =>
    rw [Nat.add_right_comm, digits_succ, ih, digits_succ, shift_succ]
    rfl

theorem digits_zero (n : Nat) : digits 0 n = List.replicate n false := by
  induction n with
  | zero => rfl
  | succ n ih =>
    rw [digits_succ, Int.zero_ediv, ih]
    rfl

theorem nat_odd_half (v : Nat) : v = (odd (v : Int)).toNat + 2 * (v / 2) := by
  have hv := odd_add_half (v : Int)
  omega

theorem digit_testBit (v i : Nat) : digit (v : Int) i = v.testBit i := by
  rw [digit, odd, Nat.testBit_eq_decide_div_mod_eq]
  have hcast : (v : Int) / 2 ^ i % 2 = (v / 2 ^ i % 2 : Nat) := by push_cast; rfl
  rw [hcast]
  simp only [decide_eq_decide]
  omega

def bitsValue : List Bool → Nat
  | [] => 0
  | bit :: bits => bit.toNat + 2 * bitsValue bits

theorem bitsValue_lt (bits : List Bool) : bitsValue bits < 2 ^ bits.length := by
  induction bits with
  | nil => decide
  | cons bit bits ih =>
    have hbit := Bool.toNat_le bit
    rw [bitsValue, List.length_cons, pow_succ]
    omega

theorem bitsValue_digits (v n : Nat) : bitsValue (digits v n) = v % 2 ^ n := by
  induction n generalizing v with
  | zero => simp [digits, bitsValue, Nat.mod_one]
  | succ n ih =>
    have hcast : (v : Int) / 2 = (v / 2 : Nat) := by push_cast; rfl
    have hv := nat_odd_half v
    rw [digits_succ, bitsValue, hcast, ih, pow_succ', Nat.mod_mul]
    omega

theorem digits_bitsValue (bits : List Bool) : digits (bitsValue bits) bits.length = bits := by
  induction bits with
  | nil => rfl
  | cons bit bits ih =>
    rw [List.length_cons, digits_succ, bitsValue]
    push_cast
    rw [odd_cast_add, half_cast_add, ih]

end Opto
