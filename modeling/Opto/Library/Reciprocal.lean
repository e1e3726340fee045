import Mathlib.Algebra.Order.Ring.Nat
import Mathlib.Data.Nat.Log
import Mathlib.Tactic.Linarith
import Mathlib.Tactic.Ring

/-!
# Division by a rounded reciprocal

A reciprocal that is too large by less than one part in the dividend gives the exact
quotient after a shift. For every divisor that is not a power of two there is one with as
many bits as the dividend, or with one bit more.
-/

namespace Opto.Reciprocal

variable {d e m n numerator : Nat}

/-- Multiplying by the rounded reciprocal and dividing by its numerator is exact. -/
theorem mul_div_eq (hd : 0 < d) (hm : m * d = numerator + e) (he : n * e < numerator) :
    n * m / numerator = n / d := by
  have hdivision := Nat.div_add_mod n d
  have hrest := Nat.mod_lt n hd
  have hproduct : n * m * d = n * numerator + n * e := by rw [mul_assoc, hm, Nat.mul_add]
  have hsplit : n * numerator = n / d * numerator * d + n % d * numerator := by
    have hscaled := congrArg (· * numerator) hdivision
    simp only [Nat.add_mul] at hscaled
    rw [← hscaled]
    ring
  apply Nat.div_eq_of_lt_le
  · have hlow : n / d * numerator * d ≤ n * m * d := by omega
    exact Nat.le_of_mul_le_mul_right hlow hd
  · have hstep : (n % d + 1) * numerator ≤ d * numerator := Nat.mul_le_mul_right _ hrest
    have hnext : (n / d + 1) * numerator * d = n / d * numerator * d + d * numerator := by ring
    have hhigh : n * m * d < (n / d + 1) * numerator * d := by
      rw [Nat.add_mul, Nat.one_mul] at hstep
      omega
    exact Nat.lt_of_mul_lt_mul_right hhigh

/-- The reciprocal above the quotient: what it is too large by. -/
theorem succ_quotient (hd : 0 < d) :
    (numerator / d + 1) * d = numerator + (d - numerator % d) := by
  have hdivision := Nat.div_add_mod numerator d
  have hrest := Nat.mod_lt numerator hd
  rw [Nat.add_mul, Nat.one_mul, Nat.mul_comm]
  omega

/-- A divisor strictly between two powers leaves room below the next power. -/
theorem succ_quotient_lt {l w : Nat} (hl : 2 ^ l < d) (hlt : l < w) (hpos : 0 < l) :
    2 ^ (w + l) / d + 1 < 2 ^ w := by
  have hpow : 2 ^ (w + l) = 2 ^ w * 2 ^ l := pow_add 2 w l
  have hdouble : 2 ^ (l + 1) ≤ 2 ^ w := Nat.pow_le_pow_right (by decide) hlt
  have htwo : 2 ≤ 2 ^ l := Nat.le_self_pow (by omega) 2
  have hsucc : 2 ^ (l + 1) = 2 * 2 ^ l := pow_succ' 2 l
  have hbound : 2 ^ (w + l) < (2 ^ w - 1) * d := by
    obtain ⟨k, hk⟩ := Nat.exists_eq_add_of_lt hl
    rw [hpow, hk, Nat.sub_mul, Nat.one_mul]
    have hmul : 2 ^ w ≤ 2 ^ w * (k + 1) := Nat.le_mul_of_pos_right _ (by omega)
    have hgrow : k + 2 ^ l + 1 < 2 ^ w * (k + 1) := by nlinarith
    have hexpand : 2 ^ w * (2 ^ l + k + 1) = 2 ^ w * 2 ^ l + 2 ^ w * (k + 1) := by ring
    omega
  have hquotient : 2 ^ (w + l) / d < 2 ^ w - 1 := (Nat.div_lt_iff_lt_mul (by omega)).mpr hbound
  omega

/-- Halving the sum of the dividend and a part of it, without leaving its range. -/
theorem half_sum {t : Nat} (h : t ≤ n) : (n - t) / 2 + t = (n + t) / 2 := by omega

/-- A reciprocal of one more bit, whose leading bit is added afterwards. -/
theorem mul_div_add {w l : Nat} (hd : 0 < d) (hm : (2 ^ w + m) * d = 2 ^ (w + l + 1) + e)
    (he : n * e < 2 ^ (w + l + 1)) : (n + n * m / 2 ^ w) / 2 / 2 ^ l = n / d := by
  have hsum : n + n * m / 2 ^ w = n * (2 ^ w + m) / 2 ^ w := by
    rw [Nat.mul_add, Nat.add_comm (n * 2 ^ w), Nat.add_mul_div_right _ _ (by positivity), Nat.add_comm]
  have hpow : 2 ^ w * (2 * 2 ^ l) = 2 ^ (w + l + 1) := by ring
  rw [hsum, Nat.div_div_eq_div_mul, Nat.div_div_eq_div_mul, hpow]
  exact mul_div_eq hd hm he

end Opto.Reciprocal
