import Mathlib.Data.Int.ModEq
import Mathlib.Data.Int.Order.Basic
import Mathlib.Tactic.Common
import Mathlib.Tactic.Positivity
import Mathlib.Tactic.Ring

/-!
# Two's complement readings

A word of `width` bits is a number below `2 ^ width`. Read as signed, its top bit
counts negatively. Both readings agree modulo `2 ^ width`, and an extension keeps
the reading that it is made for.
-/

namespace Opto.TwosComplement

/-- The number that a word stands for. -/
def read (signed : Bool) (width x : Nat) : Int :=
  if signed = true ∧ 2 ^ width ≤ 2 * x then x - 2 ^ width else x

variable {signed : Bool} {width target x : Nat}

@[simp] theorem read_unsigned (width x : Nat) : read false width x = x := by simp [read]

theorem read_nonneg (signed : Bool) (h : 2 * x < 2 ^ width) : read signed width x = x := by
  rw [read, if_neg]
  rintro ⟨-, hx⟩
  omega

theorem read_negative (h : 2 ^ width ≤ 2 * x) : read true width x = x - 2 ^ width := by
  rw [read, if_pos ⟨rfl, h⟩]

/-- A reading stands for the word itself. -/
theorem read_modEq (signed : Bool) (width x : Nat) : read signed width x ≡ x [ZMOD 2 ^ width] := by
  rw [read]
  split_ifs
  · exact Int.modEq_iff_dvd.mpr ⟨1, by ring⟩
  · rfl

/-- A shorter word loses nothing of what counts modulo its width. -/
theorem modEq_of_le {a b : Int} (hle : target ≤ width) (h : a ≡ b [ZMOD 2 ^ width]) :
    a ≡ b [ZMOD 2 ^ target] := h.of_dvd (pow_dvd_pow 2 hle)

theorem read_bounds (hx : x < 2 ^ width) :
    -(2 ^ width) ≤ 2 * read true width x ∧ 2 * read true width x < 2 ^ width := by
  have hcast : ((2 ^ width : Nat) : Int) = 2 ^ width := by simp
  by_cases hneg : 2 ^ width ≤ 2 * x
  · rw [read_negative hneg]
    omega
  · rw [read_nonneg _ (by omega)]
    omega

/-- The word of `target` bits that stands for a number. -/
def encode (target : Nat) (a : Int) : Nat := (a % 2 ^ target).toNat

theorem encode_cast (target : Nat) (a : Int) : (encode target a : Int) = a % 2 ^ target :=
  Int.toNat_of_nonneg (Int.emod_nonneg a (by positivity))

theorem encode_modEq (target : Nat) (a : Int) : (encode target a : Int) ≡ a [ZMOD 2 ^ target] := by
  rw [encode_cast]
  exact Int.mod_modEq a _

theorem encode_nonneg {a : Int} (hlo : 0 ≤ a) (hhi : a < 2 ^ target) : (encode target a : Int) = a := by
  rw [encode_cast, Int.emod_eq_of_lt hlo hhi]

theorem encode_negative {a : Int} (hlo : -(2 ^ target) ≤ a) (hhi : a < 0) :
    (encode target a : Int) = a + 2 ^ target := by
  rw [encode_cast, ← Int.add_emod_right, Int.emod_eq_of_lt (by omega) (by omega)]

/-- Zero extension keeps the unsigned reading, and so does any reading of the wider word. -/
theorem read_zeroExtend (hx : x < 2 ^ width) (hlt : width < target) (signed : Bool) :
    read signed target (encode target x) = x := by
  have hpow : 2 ^ (width + 1) ≤ 2 ^ target := Nat.pow_le_pow_right (by omega) hlt
  have hcast : ((2 ^ target : Nat) : Int) = 2 ^ target := by simp
  rw [Nat.pow_succ] at hpow
  have henc : (encode target x : Int) = x := encode_nonneg (by omega) (by omega)
  rw [read_nonneg _ (by omega), henc]

/-- The unsigned reading of a sign extension is too large by the wider word's size when the
word is negative. -/
theorem encode_signExtend (hx : x < 2 ^ width) (hle : width ≤ target) :
    (encode target (read true width x) : Int) =
      read true width x + if 2 ^ width ≤ 2 * x then 2 ^ target else 0 := by
  have hpow : 2 ^ width ≤ 2 ^ target := Nat.pow_le_pow_right (by omega) hle
  have htarget : ((2 ^ target : Nat) : Int) = 2 ^ target := by simp
  have hwidth : ((2 ^ width : Nat) : Int) = 2 ^ width := by simp
  by_cases hneg : 2 ^ width ≤ 2 * x
  · rw [if_pos hneg, read_negative hneg]
    exact encode_negative (by omega) (by omega)
  · rw [if_neg hneg, read_nonneg _ (by omega), Int.add_zero]
    exact encode_nonneg (by omega) (by omega)

/-- A sign extension is negative when the word is. -/
theorem signExtend_negative_iff (hx : x < 2 ^ width) (hle : width ≤ target) :
    2 ^ target ≤ 2 * encode target (read true width x) ↔ 2 ^ width ≤ 2 * x := by
  have hpow : 2 ^ width ≤ 2 ^ target := Nat.pow_le_pow_right (by omega) hle
  have htarget : ((2 ^ target : Nat) : Int) = 2 ^ target := by simp
  have hwidth : ((2 ^ width : Nat) : Int) = 2 ^ width := by simp
  have hencode := encode_signExtend hx hle
  by_cases hneg : 2 ^ width ≤ 2 * x
  · have hread := read_negative hneg
    rw [if_pos hneg] at hencode
    exact iff_of_true (by omega) hneg
  · have hread := read_nonneg true (show 2 * x < 2 ^ width by omega)
    rw [if_neg hneg] at hencode
    exact iff_of_false (by omega) hneg

/-- Sign extension keeps the signed reading. -/
theorem read_signExtend (hx : x < 2 ^ width) (hle : width ≤ target) :
    read true target (encode target (read true width x)) = read true width x := by
  have hpow : 2 ^ width ≤ 2 ^ target := Nat.pow_le_pow_right (by omega) hle
  have htarget : ((2 ^ target : Nat) : Int) = 2 ^ target := by simp
  have hwidth : ((2 ^ width : Nat) : Int) = 2 ^ width := by simp
  have hbounds := read_bounds hx
  have hencode := encode_signExtend hx hle
  by_cases hneg : 2 ^ width ≤ 2 * x
  · rw [if_pos hneg] at hencode
    rw [read_negative (by omega), hencode]
    omega
  · rw [if_neg hneg] at hencode
    have hnonneg := read_nonneg true (show 2 * x < 2 ^ width by omega)
    rw [read_nonneg _ (by omega), hencode]
    omega

/-! Arithmetic of a width. -/

theorem encode_lt (width : Nat) (a : Int) : encode width a < 2 ^ width := by
  have hlow := Int.emod_lt_of_pos a (show (0 : Int) < 2 ^ width by positivity)
  have hcast := encode_cast width a
  have hpow : ((2 ^ width : Nat) : Int) = 2 ^ width := by simp
  omega

/-- The number that the low bits of `a` stand for. -/
def wrap (signed : Bool) (width : Nat) (a : Int) : Int := read signed width (encode width a)

theorem wrap_modEq (signed : Bool) (width : Nat) (a : Int) : a ≡ wrap signed width a [ZMOD 2 ^ width] :=
  ((read_modEq signed width _).trans (encode_modEq width a)).symm

theorem wrap_signed (width : Nat) (a : Int) :
    -(2 ^ width) ≤ 2 * wrap true width a ∧ 2 * wrap true width a < 2 ^ width :=
  read_bounds (encode_lt width a)

theorem wrap_unsigned (width : Nat) (a : Int) : 0 ≤ wrap false width a := by
  rw [wrap, read_unsigned]
  exact Int.natCast_nonneg _

/-- The least number of a width. -/
def least (signed : Bool) (width : Nat) : Int := if signed then -(2 ^ (width - 1)) else 0

/-- The greatest number of a width. -/
def greatest (signed : Bool) (width : Nat) : Int := if signed then 2 ^ (width - 1) - 1 else 2 ^ width - 1

theorem double_pow (hpos : 0 < width) : (2 : Int) ^ width = 2 * 2 ^ (width - 1) := by
  rw [← pow_succ', Nat.sub_add_cancel hpos]

theorem wrap_bounds (signed : Bool) (hpos : 0 < width) (a : Int) :
    least signed width ≤ wrap signed width a ∧ wrap signed width a ≤ greatest signed width := by
  have hdouble := double_pow hpos
  cases signed with
  | true =>
    have hbounds := wrap_signed width a
    simp only [least, greatest, if_true]
    omega
  | false =>
    have hnonneg := wrap_unsigned width a
    have hlt := encode_lt width a
    have hpow : ((2 ^ width : Nat) : Int) = 2 ^ width := by simp
    simp only [least, greatest, Bool.false_eq_true, if_false]
    rw [wrap, read_unsigned] at hnonneg ⊢
    omega

/-- A number of the width does not wrap. -/
theorem wrap_eq (hpos : 0 < width) {a : Int} (hlo : least signed width ≤ a) (hhi : a ≤ greatest signed width) :
    wrap signed width a = a := by
  have hdouble := double_pow hpos
  have hpow : ((2 ^ width : Nat) : Int) = 2 ^ width := by simp
  cases signed with
  | true =>
    simp only [least, greatest, if_true] at hlo hhi
    by_cases hnegative : a < 0
    · have hencode := encode_negative (show -(2 ^ width) ≤ a by omega) hnegative
      rw [wrap, read_negative (by omega), hencode, Int.add_sub_cancel]
    · have hencode := encode_nonneg (not_lt.mp hnegative) (show a < 2 ^ width by omega)
      rw [wrap, read_nonneg _ (by omega), hencode]
  | false =>
    simp only [least, greatest, Bool.false_eq_true, if_false] at hlo hhi
    rw [wrap, read_unsigned]
    exact encode_nonneg hlo (by omega)

end Opto.TwosComplement

/-! A machine integer lies between the bounds of its type. Checked operations compute exactly and
give nothing when the result is out of bounds. -/

namespace Opto

structure MachineInt (low high : Int) where
  value : Int
  low_le : low ≤ value
  le_high : value ≤ high
deriving DecidableEq, Repr

abbrev I128 := MachineInt (-(2 ^ 127)) (2 ^ 127 - 1)

abbrev U128 := MachineInt 0 (2 ^ 128 - 1)

namespace MachineInt

variable {low high v : Int}

/-- The machine integer of a value, if there is one. -/
def checked (v : Int) : Option (MachineInt low high) :=
  if h : low ≤ v ∧ v ≤ high then some ⟨v, h.1, h.2⟩ else none

theorem checked_value {r : MachineInt low high} (h : checked v = some r) : r.value = v := by
  rw [checked] at h
  split_ifs at h
  exact (congrArg value (Option.some.inj h)).symm

theorem checked_none (h : (checked v : Option (MachineInt low high)) = none) : v < low ∨ high < v := by
  rw [checked] at h
  split_ifs at h with hbounds
  omega

def checkedAdd (a b : MachineInt low high) : Option (MachineInt low high) := checked (a.value + b.value)

def checkedSub (a b : MachineInt low high) : Option (MachineInt low high) := checked (a.value - b.value)

def checkedDiv (a b : MachineInt low high) : Option (MachineInt low high) :=
  if b.value = 0 then none else checked (a.value.tdiv b.value)

def unsignedAbs (a : I128) : U128 where
  value := a.value.natAbs
  low_le := Int.natCast_nonneg _
  le_high := by
    have hlow := a.low_le
    have hhigh := a.le_high
    omega

def absDiff (a b : I128) : U128 where
  value := (a.value - b.value).natAbs
  low_le := Int.natCast_nonneg _
  le_high := by
    have hlow := a.low_le
    have hhigh := a.le_high
    have hlow' := b.low_le
    have hhigh' := b.le_high
    omega

end MachineInt
end Opto
