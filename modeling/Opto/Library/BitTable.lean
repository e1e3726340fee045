import Mathlib.Data.Nat.Bits
import Mathlib.Data.BitVec

/-!
# Boolean functions as machine words

A word carries a Boolean function on the first `count` indices when each of its
low bits is the function's value there and the rest are zero. Bitwise operations
on words are pointwise operations on functions, and the index that spells out a
list of Booleans recovers each of them.
-/

namespace Opto.BitTable

variable {w count : Nat} {x y z : BitVec w} {f g h : Nat → Bool}

def Carries (count : Nat) (bits : BitVec w) (f : Nat → Bool) : Prop :=
  ∀ i, bits.getLsbD i = (decide (i < count) && f i)

theorem Carries.congr (hx : Carries count x f) (hfg : ∀ i < count, f i = g i) :
    Carries count x g := fun i => by
  rw [hx i]
  by_cases hi : i < count
  · rw [hfg i hi]
  · rw [decide_eq_false hi, Bool.false_and, Bool.false_and]

theorem Carries.bit (hx : Carries count x f) {i : Nat} (hi : i < count) : x.getLsbD i = f i := by
  rw [hx i, decide_eq_true hi, Bool.true_and]

theorem carries_zero : Carries count (0 : BitVec w) fun _ => false := fun i => by simp

theorem Carries.and (hx : Carries count x f) (hy : Carries count y g) :
    Carries count (x &&& y) fun i => f i && g i := fun i => by
  rw [BitVec.getLsbD_and, hx i, hy i]
  cases decide (i < count) <;> rfl

theorem Carries.or (hx : Carries count x f) (hy : Carries count y g) :
    Carries count (x ||| y) fun i => f i || g i := fun i => by
  rw [BitVec.getLsbD_or, hx i, hy i]
  cases decide (i < count) <;> rfl

theorem Carries.xor (hx : Carries count x f) (hy : Carries count y g) :
    Carries count (x ^^^ y) fun i => f i ^^ g i := fun i => by
  rw [BitVec.getLsbD_xor, hx i, hy i]
  cases decide (i < count) <;> rfl

theorem Carries.lt (hx : Carries count x fun _ => true) {i : Nat} (hi : i < count) : i < w := by
  have hbit : x.getLsbD i = true := hx.bit hi
  exact BitVec.lt_of_getLsbD hbit

/-- A complement is taken within a mask of the valid bits. -/
theorem Carries.complement (hx : Carries count x f) (hy : Carries count y fun _ => true) :
    Carries count (~~~x &&& y) fun i => !f i := fun i => by
  rw [BitVec.getLsbD_and, BitVec.getLsbD_not, hx i, hy i]
  by_cases hi : i < count
  · rw [decide_eq_true hi, decide_eq_true (hy.lt hi)]
    simp only [Bool.true_and, Bool.and_true]
  · rw [decide_eq_false hi]
    simp only [Bool.false_and, Bool.and_false]

theorem Carries.select (hx : Carries count x f) (hy : Carries count y g) (hz : Carries count z h)
    {mask : BitVec w} (hm : Carries count mask fun _ => true) :
    Carries count (x &&& y ||| ~~~x &&& z &&& mask) fun i => if f i then g i else h i := fun i => by
  have hrest := (hz.and hm) i
  rw [BitVec.getLsbD_or, BitVec.getLsbD_and, BitVec.and_assoc, BitVec.getLsbD_and, hrest,
    BitVec.getLsbD_not, hx i, hy i]
  by_cases hi : i < count
  · rw [decide_eq_true hi, decide_eq_true (hm.lt hi)]
    simp only [Bool.true_and, Bool.and_true]
    cases f i <;> simp
  · rw [decide_eq_false hi]
    simp only [Bool.false_and, Bool.and_false, Bool.or_false]

theorem carries_mask {c : Nat} (hc : c < w) : Carries c ((1#w <<< c) - 1) fun _ => true := fun i => by
  have hpow : 2 ^ c < 2 ^ w := Nat.pow_lt_pow_right Nat.one_lt_two hc
  have htwo : 1 < 2 ^ w := Nat.one_lt_two_pow (by omega)
  have hone : (1#w <<< c).toNat = 2 ^ c := by
    rw [BitVec.toNat_shiftLeft, BitVec.toNat_ofNat, Nat.mod_eq_of_lt htwo,
      Nat.shiftLeft_eq, Nat.one_mul, Nat.mod_eq_of_lt hpow]
  have h1 : (1 : BitVec w).toNat = 1 := by
    rw [BitVec.ofNat_eq_ofNat, BitVec.toNat_ofNat, Nat.mod_eq_of_lt htwo]
  have hle : (1 : BitVec w) ≤ 1#w <<< c := by
    rw [BitVec.le_def, hone, h1]; exact Nat.one_le_two_pow
  rw [← BitVec.testBit_toNat, BitVec.toNat_sub_of_le hle, hone, h1, Nat.testBit_two_pow_sub_one,
    Bool.and_true]

theorem carries_allOnes : Carries w (BitVec.allOnes w) fun _ => true := fun i => by simp

/-- A word filled bit by bit over the indices that satisfy a test. -/
theorem carries_fill (p : Nat → Bool) (hc : count ≤ w) :
    Carries count ((List.range count).foldl
      (fun bits i => if p i then bits ||| 1#w <<< i else bits) 0) p := fun j => by
  induction count with
  | zero => simp
  | succ c ih =>
    have hbit : (1#w <<< c).getLsbD j = decide (j = c) := by
      rw [BitVec.getLsbD_shiftLeft, BitVec.getLsbD_one]
      by_cases hj : j = c
      · subst hj; simp; omega
      · simp [hj]; omega
    rw [List.range_succ, List.foldl_append, List.foldl_cons, List.foldl_nil]
    by_cases hp : p c = true
    · rw [if_pos hp, BitVec.getLsbD_or, ih (by omega), hbit]
      by_cases hj : j = c
      · subst hj; simp [hp]
      · simp only [hj, decide_false, Bool.or_false]
        congr 1
        simp only [decide_eq_decide]; omega
    · rw [if_neg hp, ih (by omega)]
      by_cases hj : j = c
      · subst hj; simp [hp]
      · congr 1
        simp only [decide_eq_decide]; omega

/-- The index whose bits are the given Booleans. -/
def indexOf (bits : List Bool) : Nat := bits.foldr Nat.bit 0

theorem testBit_indexOf (bits : List Bool) (i : Nat) : (indexOf bits).testBit i = bits[i]?.getD false := by
  induction bits generalizing i with
  | nil => simp [indexOf]
  | cons b bits ih =>
    have hbit : indexOf (b :: bits) = Nat.bit b (indexOf bits) := rfl
    cases i with
    | zero => rw [hbit, Nat.testBit_bit_zero]; rfl
    | succ i => rw [hbit, Nat.testBit_bit_succ, ih]; rfl

theorem indexOf_lt (bits : List Bool) : indexOf bits < 2 ^ bits.length := by
  induction bits with
  | nil => exact Nat.one_pos
  | cons b bits ih =>
    have hbit : indexOf (b :: bits) = Nat.bit b (indexOf bits) := rfl
    rw [hbit, Nat.bit_val, List.length_cons, Nat.pow_succ]
    cases b <;> simp only [Bool.toNat_true, Bool.toNat_false] <;> omega

end Opto.BitTable
