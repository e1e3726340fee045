import Opto.Word.KnownBitsSound

/-!
# Transfer functions are sound

What each operation derives from facts that contain its operands contains its result.
-/

namespace Opto.Word

open Bits FactRange

variable {left right : FactRange} {l r : Bits} {width : Nat}

/-! Sums, carry by carry. -/

theorem addBits_sound {f g : Nat → KnownBit} {a b : Int} {c : Bool}
    (hf : ∀ i, (f i).allows (digit a i) = true) (hg : ∀ i, (g i).allows (digit b i) = true)
    {carry : KnownBit} {k : Nat} (hcarry : carry.allows (carryInto k a b c) = true) (n : Nat) :
    Contains (addBits f g carry (List.range' k n)) ((List.range' k n).map (digit (a + b + c.toNat))) := by
  induction n generalizing k carry with
  | zero => exact .nil
  | succ n ih =>
    obtain ⟨hsum, hnext⟩ := KnownBit.allows_fullAdder (hf k) (hg k) hcarry
    rw [List.range'_succ, addBits, List.map_cons]
    refine .cons ?_ (ih ?_)
    · rwa [digit_sum]
    · rwa [carryInto_succ]

theorem sum_sound (width : Nat) {f g : Nat → KnownBit} {a b : Int} (hf : ∀ i, (f i).allows (digit a i) = true)
    (hg : ∀ i, (g i).allows (digit b i) = true) {carry : KnownBit} {c : Bool} (hcarry : carry.allows c = true) :
    (store (addBits f g carry (List.range width)) width).Contains (digits (a + b + c.toNat) width) := by
  apply contains_store _ (length_digits _ _)
  rw [digits, List.range_eq_range']
  exact addBits_sound hf hg hcarry width

theorem add_sound (hl : left.Contains l) (hr : right.Contains r) (sl sr : Bool) :
    (store (addBits left.bit right.bit .zero (List.range width)) width).Contains
      (digits (l.number sl + r.number sr) width) := by
  have hcarry : KnownBit.zero.allows false = true := rfl
  have hsum := sum_sound width (hl.digit sl) (hr.digit sr) hcarry
  simpa using hsum

theorem sub_sound (hl : left.Contains l) (hr : right.Contains r) (sl sr : Bool) :
    (store (addBits left.bit (fun index => (right.bit index).invert) .one (List.range width)) width).Contains
      (digits (l.number sl - r.number sr) width) := by
  have hcomplement (i : Nat) : (right.bit i).invert.allows (digit (-r.number sr - 1) i) = true := by
    rw [digit_complement]
    exact KnownBit.allows_invert (hr.digit sr i)
  have hcarry : KnownBit.one.allows true = true := rfl
  have hsum := sum_sound width (hl.digit sl) hcomplement hcarry
  rwa [show l.number sl + (-r.number sr - 1) + (true.toNat : Nat) = l.number sl - r.number sr by
    rw [Bool.toNat_true]; push_cast; ring] at hsum

/-! Products. -/

theorem contains_digits {f : Nat → KnownBit} {z : Int} (h : ∀ i < width, (f i).allows (digit z i) = true) :
    (generate width f).Contains (digits z width) := by
  apply contains_generate (length_digits _ _)
  intro i hi
  rw [digits, List.getD_eq_getElem _ _ (by simpa using hi), List.getElem_map, List.getElem_range]
  exact h i hi

theorem zeros_sound : (store (List.replicate width .zero) width).Contains (digits 0 width) := by
  apply contains_store _ (length_digits _ _)
  rw [digits_zero, Contains, List.forall₂_iff_get]
  simp

/-- A factor that counts as a power of two moves the other factor's bits up. -/
theorem shifted_sound {fact : FactRange} {a b : Int} {s : Nat} (hfact : ∀ i, (fact.bit i).allows (digit a i) = true)
    (hb : b ≡ 2 ^ s [ZMOD 2 ^ width]) :
    (generate width fun index => if index < s then .zero else fact.bit (index - s)).Contains
      (digits (a * b) width) := by
  apply contains_digits
  intro i hi
  rw [digit_congr (hb.mul_left a) hi, digit_mul_pow]
  split_ifs
  · rfl
  · exact hfact _

theorem trailingZeros_number (hl : left.Contains l) (signed : Bool) :
    (2 : Int) ^ left.trailingZeros ∣ l.number signed := by
  obtain ⟨hle, hdvd⟩ := trailingZeros_dvd hl
  have hmod := (number_modEq signed l).symm.of_dvd (pow_dvd_pow 2 hle)
  rw [← Int.modEq_zero_iff_dvd]
  exact hmod.symm.trans (Int.modEq_zero_iff_dvd.mpr (by exact_mod_cast hdvd))

/-- A product is derived rightly when a factor whose fact is a power of two also counts as that
power in the product. -/
theorem deriveMul_sound (hl : left.Contains l) (hr : right.Contains r) {sl sr : Bool}
    (hleft : ∀ s, left.powerOfTwo = some s → l.number sl ≡ 2 ^ s [ZMOD 2 ^ width])
    (hright : ∀ s, right.powerOfTwo = some s → r.number sr ≡ 2 ^ s [ZMOD 2 ^ width]) :
    (deriveMul left right width).Contains (digits (l.number sl * r.number sr) width) := by
  have hcopy {fact : FactRange} {bits : Bits} (hfact : fact.Contains bits) (signed : Bool)
      (hlen : fact.length = width) {z : Int} (hz : z ≡ bits.number signed [ZMOD 2 ^ width]) :
      fact.copy.Contains (digits z width) := by
    have hbits : digits z width = bits := by
      rw [digits_congr hz, ← hlen, hfact.length_eq]
      exact resize_self signed bits
    rw [hbits]
    exact contains_copy hfact
  rw [deriveMul]
  by_cases hzero : (left.isZero || right.isZero) = true
  · rw [if_pos hzero]
    have hproduct : l.number sl * r.number sr = 0 := by
      rw [Bool.or_eq_true] at hzero
      obtain hzero | hzero := hzero
      · rw [number_of_zero sl (bitsValue_of_isZero hl hzero), zero_mul]
      · rw [number_of_zero sr (bitsValue_of_isZero hr hzero), mul_zero]
    rw [hproduct]
    exact zeros_sound
  rw [if_neg hzero]
  by_cases hone : (left.isOne && decide (right.length = width)) = true
  · rw [if_pos hone]
    simp only [Bool.and_eq_true, decide_eq_true_eq] at hone
    have hfactor := (hleft 0 (powerOfTwo_of_isOne hone.1)).mul_right (r.number sr)
    exact hcopy hr sr hone.2 (by simpa using hfactor)
  rw [if_neg hone]
  by_cases hone' : (right.isOne && decide (left.length = width)) = true
  · rw [if_pos hone']
    simp only [Bool.and_eq_true, decide_eq_true_eq] at hone'
    have hfactor := (hright 0 (powerOfTwo_of_isOne hone'.1)).mul_left (l.number sl)
    exact hcopy hl sl hone'.2 (by simpa using hfactor)
  rw [if_neg hone']
  split
  · next shift hshift =>
    split_ifs at hshift
    exact shifted_sound (hl.digit sl) (hright shift hshift)
  · next shift hshift hshift' =>
    split_ifs at hshift'
    rw [mul_comm]
    exact shifted_sound (hr.digit sr) (hleft shift hshift')
  · have hdvd : (2 : Int) ^ (left.trailingZeros + right.trailingZeros) ∣ l.number sl * r.number sr := by
      rw [pow_add]
      exact mul_dvd_mul (trailingZeros_number hl sl) (trailingZeros_number hr sr)
    apply contains_digits
    intro i hi
    split_ifs with hlow
    · rw [KnownBit.allows_zero, digit_congr (Int.modEq_zero_iff_dvd.mpr hdvd) (by omega)]
      exact digit_small le_rfl (by positivity)
    · rfl

/-! Bits and shifts. -/

theorem bitwise_sound {op : BinaryOp} {f : Bool → Bool → Bool}
    (hf : ∀ {left right : KnownBit} {l r : Bool}, left.allows l = true → right.allows r = true →
      (KnownBit.bitwise op left right).allows (f l r) = true)
    (hl : left.Contains l) (hr : right.Contains r) (sl sr : Bool) :
    (generate width fun index => KnownBit.bitwise op (left.bit index) (right.bit index)).Contains
      (List.zipWith f (l.resize sl width) (r.resize sr width)) := by
  apply contains_generate (by simp)
  intro i hi
  rw [List.getD_eq_getElem _ _ (by simpa using hi), List.getElem_zipWith]
  have hget (bits : Bits) (signed : Bool) (h : i < (bits.resize signed width).length) :
      (bits.resize signed width)[i] = digit (bits.number signed) i := by
    simp [resize, digits]
  rw [hget, hget]
  exact hf (hl.digit sl i) (hr.digit sr i)

theorem shl_sound (hl : left.Contains l) (shift : Nat) (ty : WordType) :
    (generate width (deriveShift .shl left ty shift)).Contains
      ((List.range width).map fun index => if index < shift then false else l.getD (index - shift) false) := by
  apply contains_generate (by simp)
  intro i hi
  rw [List.getD_eq_getElem _ _ (by simpa using hi), List.getElem_map, List.getElem_range, deriveShift]
  split_ifs
  · rfl
  · exact hl.bit _ _

theorem shr_sound (hl : left.Contains l) (shift : Nat) (ty : WordType) :
    (generate width (deriveShift .shr left ty shift)).Contains
      ((List.range width).map fun index => l.getD (index + shift) false) := by
  apply contains_generate (by simp)
  intro i hi
  rw [List.getD_eq_getElem _ _ (by simpa using hi), List.getElem_map, List.getElem_range, deriveShift]
  split_ifs with hout
  · rw [hl.length_eq] at hout
    rw [List.getD_eq_default _ _ hout]
    rfl
  · exact hl.bit _ _

theorem ashr_sound (hl : left.Contains l) (shift : Nat) (ty : WordType) :
    (generate width (deriveShift .ashr left ty shift)).Contains
      ((List.range width).map fun index => l.getD (index + shift) (ty.signed && l.sign)) := by
  have hlen := hl.length_eq
  apply contains_generate (by simp)
  intro i hi
  rw [List.getD_eq_getElem _ _ (by simpa using hi), List.getElem_map, List.getElem_range, deriveShift]
  split_ifs with hout hsigned
  · rw [List.getD_eq_default _ _ (by omega), hsigned, Bool.true_and, ← digit_sign le_rfl, ← hlen]
    exact hl.digit true _
  · rw [List.getD_eq_default _ _ (by omega), Bool.eq_false_of_not_eq_true hsigned]
    rfl
  · exact hl.bit _ _

end Opto.Word
