import Opto.Bitblast.Division
import Opto.Library.Reciprocal

/-!
# The invariant divisor's reciprocal

For every divisor of the width that is not a power of two the multiplier exists, its
computation stays within 128 bits, and its product gives the quotient of every dividend.
-/

namespace Opto.Bitblast

/-- The quotient that a dividend gets from the multiplier. -/
def magicDivide (magic : UnsignedMagic) (width n : Nat) : Nat :=
  let high := n * magic.multiplier / 2 ^ width
  (if magic.add then (n - high) / 2 + high else high) / 2 ^ magic.shift

theorem checked128_ok {value : Nat} (h : value < 2 ^ 128) : checked128 value = .ok value := if_pos h

section Magic

variable {width d : Nat}

/-- The doubled numerator's quotient, from the quotient and the remainder. -/
theorem double_div (numerator : Nat) (hd : 0 < d) : 2 * numerator / d =
    if d ≤ numerator % d * 2 then numerator / d * 2 + 1 else numerator / d * 2 := by
  have hdivision := Nat.div_add_mod numerator d
  have hrest := Nat.mod_lt numerator hd
  have hscaled : numerator / d * 2 * d = 2 * (d * (numerator / d)) := by ring
  split_ifs with hfits
  · apply Nat.div_eq_of_lt_le
    · rw [Nat.add_mul, Nat.one_mul]
      omega
    · rw [Nat.add_mul, Nat.add_mul, Nat.one_mul]
      omega
  · apply Nat.div_eq_of_lt_le
    · omega
    · rw [Nat.add_mul, Nat.one_mul]
      omega

theorem magicQuotient_double (numerator : Nat) (hd : 0 < d) (hquotient : 2 * numerator / d < 2 ^ 128)
    (hdivisor : 2 * d ≤ 2 ^ 128) :
    magicQuotient (numerator / d) (numerator % d) d true = .ok (2 * numerator / d) := by
  have hrest := Nat.mod_lt numerator hd
  have hdouble := double_div numerator hd
  have hfirst : numerator / d * 2 < 2 ^ 128 := by
    split_ifs at hdouble <;> omega
  rw [magicQuotient, if_pos rfl, checked128_ok hfirst, checked128_ok (by omega)]
  simp only [bind, Except.bind]
  split_ifs at hdouble ⊢ with hfits
  · rw [checked128_ok (by omega), hdouble]
  · rw [hdouble]
    rfl

/-- Between two powers of two. -/
theorem log2_bounds (hd : 1 < d) (hlt : d < 2 ^ width) (hpow : isPowerOfTwo d = false) :
    0 < d.log2 ∧ d.log2 < width ∧ 2 ^ d.log2 < d ∧ d < 2 ^ (d.log2 + 1) := by
  have hle : 2 ^ d.log2 ≤ d := Nat.log2_self_le (by omega)
  have hupper : d < 2 ^ (d.log2 + 1) := Nat.lt_log2_self
  have hne : 2 ^ d.log2 ≠ d := by simpa [isPowerOfTwo] using hpow
  have hpositive : 0 < d.log2 := by
    by_contra hzero
    rw [Nat.eq_zero_of_not_pos hzero] at hupper
    omega
  have hpowers : 2 ^ d.log2 < 2 ^ width := by omega
  exact ⟨hpositive, (Nat.pow_lt_pow_iff_right (by decide)).mp hpowers, by omega, hupper⟩

/-- The multiplier of a divisor: none of its steps leaves 128 bits. -/
theorem unsignedMagic_eq (hwidth : width ≤ 64) (hd : 1 < d) (hlt : d < 2 ^ width)
    (hpow : isPowerOfTwo d = false) : unsignedMagic width d = .ok (some
      (if 2 ^ d.log2 ≤ d - 2 ^ (width + d.log2) % d then
        ⟨2 ^ (width + 1 + d.log2) / d + 1 - 2 ^ width, d.log2, true⟩
      else ⟨2 ^ (width + d.log2) / d + 1, d.log2, false⟩)) := by
  obtain ⟨hpositive, hlog, hlow, hhigh⟩ := log2_bounds hd hlt hpow
  have hwide : 2 ^ width ≤ 2 ^ 64 := Nat.pow_le_pow_right (by decide) hwidth
  have hnarrow := Reciprocal.succ_quotient_lt hlow hlog hpositive
  have hnext := Reciprocal.succ_quotient_lt (w := width + 1) hlow (by omega) hpositive
  have hdouble : 2 ^ (width + 1 + d.log2) = 2 * 2 ^ (width + d.log2) := by ring
  have hsucc : 2 ^ (width + 1) = 2 * 2 ^ width := pow_succ' 2 width
  rw [unsignedMagic, if_neg (by rw [hpow]; simp; omega), if_neg (by omega), if_neg (by omega)]
  split_ifs with hadd
  · have hquotient := magicQuotient_double (2 ^ (width + d.log2)) (d := d) (by omega)
      (by rw [← hdouble]; omega) (by omega)
    rw [← hdouble] at hquotient
    have hlarge : 2 ^ width ≤ 2 ^ (width + 1 + d.log2) / d := by
      apply (Nat.le_div_iff_mul_le (by omega)).mpr
      have hmul : 2 ^ width * d ≤ 2 ^ width * 2 ^ (d.log2 + 1) := Nat.mul_le_mul_left _ hhigh.le
      have hsplit : 2 ^ width * 2 ^ (d.log2 + 1) = 2 ^ (width + 1 + d.log2) := by ring
      omega
    have hmod : (2 ^ (width + 1 + d.log2) / d + 1) % 2 ^ width =
        2 ^ (width + 1 + d.log2) / d + 1 - 2 ^ width := by
      rw [Nat.mod_eq_sub_mod (by omega), Nat.mod_eq_of_lt (by omega)]
    simp only [decide_eq_true hadd, hquotient, bind, Except.bind]
    rw [checked128_ok (by omega), ← hmod]
    rfl
  · have hquotient (q r : Nat) : magicQuotient q r d false = .ok q := rfl
    simp only [decide_eq_false hadd, hquotient, bind, Except.bind]
    rw [checked128_ok (by omega)]
    simp only [Nat.mod_eq_of_lt hnarrow]
    rfl

theorem magic_below (hwidth : width ≤ 64) (hd : 1 < d) (hlt : d < 2 ^ width)
    (hpow : isPowerOfTwo d = false) {magic : UnsignedMagic}
    (hmagic : unsignedMagic width d = .ok (some magic)) : magic.multiplier < 2 ^ width := by
  obtain ⟨hpositive, hlog, hlow, hhigh⟩ := log2_bounds hd hlt hpow
  have hnarrow := Reciprocal.succ_quotient_lt hlow hlog hpositive
  have hnext := Reciprocal.succ_quotient_lt (w := width + 1) hlow (by omega) hpositive
  have hsucc : 2 ^ (width + 1) = 2 * 2 ^ width := pow_succ' 2 width
  rw [unsignedMagic_eq hwidth hd hlt hpow, Except.ok.injEq, Option.some.injEq] at hmagic
  split_ifs at hmagic
  · rw [← hmagic]
    simp only
    omega
  · rw [← hmagic]
    exact hnarrow

/-- The multiplier gives every dividend's quotient. -/
theorem magicDivide_eq (hwidth : width ≤ 64) (hd : 1 < d) (hlt : d < 2 ^ width)
    (hpow : isPowerOfTwo d = false) {magic : UnsignedMagic}
    (hmagic : unsignedMagic width d = .ok (some magic)) {n : Nat} (hn : n < 2 ^ width) :
    magicDivide magic width n = n / d := by
  obtain ⟨hpositive, hlog, hlow, hhigh⟩ := log2_bounds hd hlt hpow
  have hbelow := magic_below hwidth hd hlt hpow hmagic
  rw [unsignedMagic_eq hwidth hd hlt hpow, Except.ok.injEq, Option.some.injEq] at hmagic
  split_ifs at hmagic with hadd
  · subst hmagic
    have hpartial : n * (2 ^ (width + 1 + d.log2) / d + 1 - 2 ^ width) / 2 ^ width ≤ n := by
      apply Nat.div_le_of_le_mul
      rw [Nat.mul_comm]
      exact Nat.mul_le_mul_right n hbelow.le
    have hlarge : 2 ^ width ≤ 2 ^ (width + 1 + d.log2) / d := by
      apply (Nat.le_div_iff_mul_le (by omega)).mpr
      have hmul : 2 ^ width * d ≤ 2 ^ width * 2 ^ (d.log2 + 1) := Nat.mul_le_mul_left _ hhigh.le
      have hsplit : 2 ^ width * 2 ^ (d.log2 + 1) = 2 ^ (width + 1 + d.log2) := by ring
      omega
    have hexponent : width + 1 + d.log2 = width + d.log2 + 1 := by omega
    simp only [magicDivide, if_true]
    rw [Reciprocal.half_sum hpartial]
    apply Reciprocal.mul_div_add (e := d - 2 ^ (width + 1 + d.log2) % d) (by omega)
    · have hsum : 2 ^ width + (2 ^ (width + 1 + d.log2) / d + 1 - 2 ^ width) =
          2 ^ (width + 1 + d.log2) / d + 1 := by omega
      rw [hsum, Reciprocal.succ_quotient (by omega), hexponent]
    · have hsplit : 2 ^ (width + d.log2 + 1) = 2 ^ width * 2 ^ (d.log2 + 1) := by ring
      rw [hsplit]
      exact Nat.mul_lt_mul'' hn (by omega)
  · subst hmagic
    simp only [magicDivide]
    rw [if_neg Bool.false_ne_true, Nat.div_div_eq_div_mul, ← pow_add]
    apply Reciprocal.mul_div_eq (by omega) (Reciprocal.succ_quotient (by omega))
    have hproduct := Nat.mul_lt_mul'' hn (not_le.mp hadd)
    rwa [← pow_add] at hproduct

end Magic

end Opto.Bitblast
