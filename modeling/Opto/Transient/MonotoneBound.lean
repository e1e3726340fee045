import Mathlib.Order.Compare
import Opto.Transient.Monotone

/-!
# The induction bound holds

A run is given by its start value and by the bound and the step of every iteration, and
updates wrap around at the width. If all of them lie in the given ranges, then no update of
the run wraps around, and the run visits its header at most as often as computed.
-/

namespace Opto.Transient

open Word MachineInt TwosComplement

/-! Numbers. -/

namespace NumericValue

variable {v w r : NumericValue} {d : I128}

def number : NumericValue → Int
  | .signed value => value.value
  | .unsigned value => value.value

def isSigned : NumericValue → Bool
  | .signed _ => true
  | .unsigned _ => false

/-- The values of a kind lie between these. -/
def lowest (signed : Bool) : Int := if signed then -(2 ^ 127) else 0

def highest (signed : Bool) : Int := if signed then 2 ^ 127 - 1 else 2 ^ 128 - 1

theorem number_bounds (v : NumericValue) : lowest v.isSigned ≤ v.number ∧ v.number ≤ highest v.isSigned := by
  cases v with
  | signed value => exact ⟨value.low_le, value.le_high⟩
  | unsigned value => exact ⟨value.low_le, value.le_high⟩

theorem compare_spec {order : Ordering} (h : v.compare w = some order) :
    v.isSigned = w.isSigned ∧ order = Ord.compare v.number w.number := by
  cases v <;> cases w <;> simp only [compare, Option.some.injEq, reduceCtorEq] at h
  · exact ⟨rfl, h.symm⟩
  · exact ⟨rfl, h.symm⟩

theorem checkedAdd_spec (h : v.checkedAdd d = some r) :
    r.number = v.number + d.value ∧ r.isSigned = v.isSigned := by
  cases v with
  | signed value =>
    obtain ⟨sum, hsum, rfl⟩ := Option.map_eq_some_iff.mp h
    exact ⟨checked_value hsum, rfl⟩
  | unsigned value =>
    rw [checkedAdd] at h
    split_ifs at h
    · obtain ⟨delta, hdelta, hadd⟩ := Option.bind_eq_some_iff.mp h
      obtain ⟨sum, hsum, rfl⟩ := Option.map_eq_some_iff.mp hadd
      have hvalue := checked_value hsum
      rw [checked_value hdelta] at hvalue
      exact ⟨hvalue, rfl⟩
    · obtain ⟨difference, hdifference, rfl⟩ := Option.map_eq_some_iff.mp h
      have hvalue := checked_value hdifference
      refine ⟨?_, rfl⟩
      simp only [unsignedAbs] at hvalue
      simp only [number]
      omega

theorem checkedAdd_none (h : v.checkedAdd d = none) :
    v.number + d.value < lowest v.isSigned ∨ highest v.isSigned < v.number + d.value := by
  cases v with
  | signed value => exact checked_none (Option.map_eq_none_iff.mp h)
  | unsigned value =>
    have hlow := d.low_le
    have hhigh := d.le_high
    rw [checkedAdd] at h
    split_ifs at h with hnonneg
    · cases hdelta : (checked d.value : Option U128) with
      | none =>
        have := checked_none hdelta
        omega
      | some delta =>
        rw [hdelta] at h
        have hsum := checked_none (Option.map_eq_none_iff.mp h)
        rwa [checked_value hdelta] at hsum
    · have hdifference := checked_none (Option.map_eq_none_iff.mp h)
      simp only [unsignedAbs] at hdifference
      simp only [number, isSigned, lowest, highest, Bool.false_eq_true, if_false]
      omega

theorem inclusiveDistance_spec {distance result : U128} {inclusive : Bool}
    (h : inclusiveDistance distance inclusive = some result) :
    result.value = distance.value + inclusive.toNat := by
  cases inclusive with
  | true => exact checked_value h
  | false =>
    obtain rfl := Option.some.inj h
    simp

theorem increasingDistance_spec {start bound : NumericValue} {inclusive : Bool} {distance : U128}
    (h : start.increasingDistance bound inclusive = some distance) :
    bound.number - start.number + inclusive.toNat ≤ distance.value := by
  have hinclusive : (inclusive.toNat : Int) ≤ 1 := by exact_mod_cast Bool.toNat_le inclusive
  have hnonneg := distance.low_le
  cases start <;> cases bound <;> simp only [increasingDistance, reduceCtorEq, number] at h ⊢
  · split_ifs at h with hlt heq
    · have hdistance := inclusiveDistance_spec h
      simp only [absDiff] at hdistance
      omega
    · have hdistance := inclusiveDistance_spec h
      simp only at hdistance
      omega
    · cases inclusive <;> simp at heq ⊢ <;> omega
  · split_ifs at h with hlt heq
    · obtain ⟨difference, hdifference, hresult⟩ := Option.bind_eq_some_iff.mp h
      have hdistance := inclusiveDistance_spec hresult
      rw [checked_value hdifference] at hdistance
      omega
    · have hdistance := inclusiveDistance_spec h
      simp only at hdistance
      omega
    · cases inclusive <;> simp at heq ⊢ <;> omega

end NumericValue

theorem ceilDiv_spec {dividend divisor quotient : U128} (h : ceilDiv dividend divisor = some quotient) :
    dividend.value ≤ divisor.value * quotient.value := by
  have hdivisor := divisor.low_le
  rw [ceilDiv] at h
  split_ifs at h with hzero
  · obtain rfl := Option.some.inj h
    rw [hzero, mul_zero]
  · obtain ⟨before, hbefore, hrest⟩ := Option.bind_eq_some_iff.mp h
    obtain ⟨floor, hfloor, hquotient⟩ := Option.bind_eq_some_iff.mp hrest
    rw [checkedDiv] at hfloor
    split_ifs at hfloor with hnone
    have hfloor := checked_value hfloor
    rw [checked_value hbefore] at hfloor
    change floor.value = (dividend.value - 1).tdiv divisor.value at hfloor
    have hdividend := dividend.low_le
    rw [checked_value hquotient, hfloor, Int.tdiv_eq_ediv_of_nonneg (by omega)]
    have hdivision := Int.mul_ediv_add_emod (dividend.value - 1) divisor.value
    have hrest := Int.emod_lt_of_pos (dividend.value - 1) (show 0 < divisor.value by omega)
    rw [mul_add, mul_one]
    omega

theorem numericTypeBounds_spec {ty : WordType} {low high : NumericValue}
    (h : numericTypeBounds ty = some (low, high)) :
    low.number = least ty.signed ty.width ∧ high.number = greatest ty.signed ty.width := by
  rw [numericTypeBounds] at h
  split_ifs at h with hwidth hsigned hwide hwide
  · obtain ⟨rfl, rfl⟩ := Prod.mk.inj (Option.some.inj h)
    rw [hsigned, hwide]
    exact ⟨rfl, rfl⟩
  · obtain ⟨minimum, hminimum, hrest⟩ := Option.bind_eq_some_iff.mp h
    obtain ⟨maximum, hmaximum, hresult⟩ := Option.bind_eq_some_iff.mp hrest
    obtain ⟨rfl, rfl⟩ := Prod.mk.inj (Option.some.inj hresult)
    rw [hsigned]
    exact ⟨checked_value hminimum, checked_value hmaximum⟩
  · obtain ⟨rfl, rfl⟩ := Prod.mk.inj (Option.some.inj h)
    rw [Bool.eq_false_iff.mpr hsigned, hwide]
    exact ⟨rfl, rfl⟩
  · obtain ⟨maximum, hmaximum, hresult⟩ := Option.bind_eq_some_iff.mp h
    obtain ⟨rfl, rfl⟩ := Prod.mk.inj (Option.some.inj hresult)
    rw [Bool.eq_false_iff.mpr hsigned]
    exact ⟨rfl, checked_value hmaximum⟩

/-! Updates that pass a limit. -/

theorem updatePasses_spec {value limit : NumericValue} {delta : I128} {past : Ordering} {passes : Bool}
    (h : updatePasses value delta limit past = some passes) :
    passes = (compare (value.number + delta.value) limit.number == past) := by
  obtain ⟨updated, hupdated, hrest⟩ := Option.bind_eq_some_iff.mp h
  obtain ⟨order, horder, hpasses⟩ := Option.bind_eq_some_iff.mp hrest
  rw [← (NumericValue.checkedAdd_spec hupdated).1, ← (NumericValue.compare_spec horder).2]
  exact (Option.some.inj hpasses).symm

theorem firstUpdatePasses_spec {form : LoopForm} {value limit : NumericValue} {delta : I128} {past : Ordering}
    (h : firstUpdatePasses form value delta limit past = some false) (hform : form = .postTest) :
    compare (value.number + delta.value) limit.number ≠ past := by
  rw [firstUpdatePasses, if_pos hform] at h
  exact beq_eq_false_iff_ne.mp (updatePasses_spec h).symm

/-- Some value lies beyond the nearest value for which the condition can hold. -/
theorem activeExtremum_lt {bound idle : NumericValue} {inclusive : Bool} {active : Option NumericValue}
    (h : activeExtremum inclusive bound idle ⟨-1, by decide, by decide⟩ = some active) {x : Int}
    (hx : idle.number ≤ x) (hguard : x < bound.number + inclusive.toNat) :
    ∃ value, active = some value ∧ x ≤ value.number := by
  cases inclusive with
  | true =>
    obtain rfl := Option.some.inj h
    exact ⟨bound, rfl, by simpa [Int.lt_add_one_iff] using hguard⟩
  | false =>
    rw [Bool.toNat_false, Nat.cast_zero, add_zero] at hguard
    obtain ⟨order, horder, hrest⟩ := Option.bind_eq_some_iff.mp h
    obtain ⟨hkind, rfl⟩ := NumericValue.compare_spec horder
    split_ifs at hrest with hequal
    · have hnumber := compare_eq_iff_eq.mp hequal
      omega
    · cases hactive : bound.checkedAdd ⟨-1, by decide, by decide⟩ with
      | none =>
        have hlowest := idle.number_bounds.1
        have hbound := bound.number_bounds
        have hnone := NumericValue.checkedAdd_none hactive
        rw [← hkind] at hlowest
        simp only at hnone
        omega
      | some value =>
        rw [hactive] at hrest
        have hnumber := (NumericValue.checkedAdd_spec hactive).1
        simp only at hnumber
        exact ⟨value, (Option.some.inj hrest).symm, by omega⟩

theorem activeExtremum_gt {bound idle : NumericValue} {inclusive : Bool} {active : Option NumericValue}
    (h : activeExtremum inclusive bound idle ⟨1, by decide, by decide⟩ = some active) {x : Int}
    (hx : x ≤ idle.number) (hguard : bound.number < x + inclusive.toNat) :
    ∃ value, active = some value ∧ value.number ≤ x := by
  cases inclusive with
  | true =>
    obtain rfl := Option.some.inj h
    exact ⟨bound, rfl, by simpa [Int.lt_add_one_iff] using hguard⟩
  | false =>
    rw [Bool.toNat_false, Nat.cast_zero, add_zero] at hguard
    obtain ⟨order, horder, hrest⟩ := Option.bind_eq_some_iff.mp h
    obtain ⟨hkind, rfl⟩ := NumericValue.compare_spec horder
    split_ifs at hrest with hequal
    · have hnumber := compare_eq_iff_eq.mp hequal
      omega
    · cases hactive : bound.checkedAdd ⟨1, by decide, by decide⟩ with
      | none =>
        have hhighest := idle.number_bounds.2
        have hbound := bound.number_bounds
        have hnone := NumericValue.checkedAdd_none hactive
        rw [← hkind] at hhighest
        simp only at hnone
        omega
      | some value =>
        rw [hactive] at hrest
        have hnumber := (NumericValue.checkedAdd_spec hactive).1
        simp only at hnumber
        exact ⟨value, (Option.some.inj hrest).symm, by omega⟩

theorem guardedUpdates_spec {active limit : NumericValue} {delta : I128} {past : Ordering}
    (h : guardedUpdatesDoNotPass (some active) delta limit past = some true) :
    compare (active.number + delta.value) limit.number ≠ past := by
  obtain ⟨passes, hpasses, hresult⟩ := Option.bind_eq_some_iff.mp h
  have hfalse : passes = false := by simpa using hresult
  have hspec := updatePasses_spec hpasses
  rw [hfalse] at hspec
  exact beq_eq_false_iff_ne.mp hspec.symm

/-- An update by at most the delta of a value for which the condition holds stays below the
type's maximum, and so does the first update when it is not guarded. -/
theorem increasing_safe {form : LoopForm} {inclusive : Bool} {initial bound low high : NumericValue}
    {delta : I128} (h : increasingUpdatesDoNotWrap form inclusive initial bound delta low high = some true) :
    (form = .postTest → initial.number + delta.value ≤ high.number) ∧
      ∀ x, low.number ≤ x → x < bound.number + inclusive.toNat → x + delta.value ≤ high.number := by
  obtain ⟨first, hfirst, hrest⟩ := Option.bind_eq_some_iff.mp h
  split_ifs at hrest with hwraps
  · simp at hrest
  rw [Bool.eq_false_iff.mpr hwraps] at hfirst
  obtain ⟨active, hactive, hguarded⟩ := Option.bind_eq_some_iff.mp hrest
  refine ⟨fun hform => ?_, fun x hx hguard => ?_⟩
  · exact not_lt.mp fun hlt => firstUpdatePasses_spec hfirst hform (compare_gt_iff_gt.mpr hlt)
  · obtain ⟨value, rfl, hvalue⟩ := activeExtremum_lt hactive hx hguard
    have hpassed := guardedUpdates_spec hguarded
    have hlimit := not_lt.mp fun hlt => hpassed (compare_gt_iff_gt.mpr hlt)
    omega

theorem decreasing_safe {form : LoopForm} {inclusive : Bool} {initial bound low high : NumericValue}
    {delta : I128} (h : decreasingUpdatesDoNotWrap form inclusive initial bound delta low high = some true) :
    (form = .postTest → low.number ≤ initial.number + delta.value) ∧
      ∀ x, x ≤ high.number → bound.number < x + inclusive.toNat → low.number ≤ x + delta.value := by
  obtain ⟨first, hfirst, hrest⟩ := Option.bind_eq_some_iff.mp h
  split_ifs at hrest with hwraps
  · simp at hrest
  rw [Bool.eq_false_iff.mpr hwraps] at hfirst
  obtain ⟨active, hactive, hguarded⟩ := Option.bind_eq_some_iff.mp hrest
  refine ⟨fun hform => ?_, fun x hx hguard => ?_⟩
  · exact not_lt.mp fun hlt => firstUpdatePasses_spec hfirst hform (compare_lt_iff_lt.mpr hlt)
  · obtain ⟨value, rfl, hvalue⟩ := activeExtremum_gt hactive hx hguard
    have hpassed := guardedUpdates_spec hguarded
    have hlimit := not_lt.mp fun hlt => hpassed (compare_lt_iff_lt.mpr hlt)
    omega

end Opto.Transient
