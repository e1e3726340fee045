import Mathlib.Data.Nat.Bitwise
import Opto.Liberty.Function

/-!
# The meaning of Boolean functions

The frames of an evaluation compute the two-valued meaning of a function, name by name, and a
truth table lists it under all assignments.
-/

namespace Opto.Liberty

namespace BooleanFunction

section

variable {lookup : String → Option Bool} {frames : List Frame} {values : List Bool}

/-- Only the names that decide the value have to be known; a condition selects one branch. -/
def meaning (lookup : String → Option Bool) : BooleanFunction → Option Bool
  | .const value => some value
  | .pin name => lookup name
  | .not argument => do return !(← argument.meaning lookup)
  | .and left right => do return (← left.meaning lookup) && (← right.meaning lookup)
  | .or left right => do return (← left.meaning lookup) || (← right.meaning lookup)
  | .xor left right => do return (← left.meaning lookup) ^^ (← right.meaning lookup)
  | .imp left right => do return !(← left.meaning lookup) || (← right.meaning lookup)
  | .iff left right => do return (← left.meaning lookup) == (← right.meaning lookup)
  | .cond condition whenTrue whenFalse => do
    if ← condition.meaning lookup then whenTrue.meaning lookup else whenFalse.meaning lookup

/-- With the fuel for its frames, a visited function puts its meaning on the values. -/
def Visits (lookup : String → Option Bool) (function : BooleanFunction) : Prop :=
  ∀ (fuel : Nat) (frames : List Frame) (values : List Bool), ∃ left, fuel ≤ left ∧
    evalLoop lookup (fuel + function.frameCount) (.visit function :: frames) values =
      (function.meaning lookup).bind fun value => evalLoop lookup left frames (value :: values)

theorem visits_const (value : Bool) : (const value).Visits lookup := fun fuel _ _ => ⟨fuel, le_rfl, rfl⟩

theorem visits_pin (name : String) : (pin name).Visits lookup := by
  intro fuel frames values
  refine ⟨fuel, le_rfl, ?_⟩
  simp only [frameCount, evalLoop, runFrame, visit, meaning]
  cases lookup name <;> rfl

theorem visits_not {argument : BooleanFunction} (h : argument.Visits lookup) : argument.not.Visits lookup := by
  intro fuel frames values
  obtain ⟨left, hleft, hrun⟩ := h (fuel + 1) (.not :: frames) values
  refine ⟨left - 1, by omega, ?_⟩
  have hfuel : fuel + argument.not.frameCount = (fuel + 1 + argument.frameCount) + 1 := by
    simp only [frameCount]
    omega
  rw [hfuel, evalLoop]
  simp only [runFrame, visit, List.cons_append, List.nil_append, hrun, meaning]
  cases argument.meaning lookup with
  | none => rfl
  | some value =>
    obtain ⟨left, rfl⟩ := Nat.exists_eq_add_of_le' (Nat.le_of_add_left_le hleft)
    rfl

/-- A function whose operands are visited before their operator is applied. -/
theorem visits_binary {function left right : BooleanFunction} (operator : Operator) (hleft : left.Visits lookup)
    (hright : right.Visits lookup) (hcount : function.frameCount = left.frameCount + right.frameCount + 2)
    (hvisit : ∀ values, visit lookup values function = some ([.visit left, .visit right, .binary operator], values))
    (hmeaning : function.meaning lookup =
      (left.meaning lookup).bind fun l => (right.meaning lookup).bind fun r => some (operator.apply l r)) :
    function.Visits lookup := by
  intro fuel frames values
  obtain ⟨after, hafter, hfirst⟩ := hleft (fuel + right.frameCount + 1) (.visit right :: .binary operator :: frames) values
  have hfuel : fuel + function.frameCount = (fuel + right.frameCount + 1 + left.frameCount) + 1 := by omega
  cases hl : left.meaning lookup with
  | none =>
    refine ⟨fuel, le_rfl, ?_⟩
    rw [hfuel, evalLoop]
    simp only [runFrame, hvisit, List.cons_append, List.nil_append, hfirst, hl, hmeaning, Option.bind_none]
  | some l =>
    obtain ⟨last, hlast, hsecond⟩ :=
      hright (after - right.frameCount) (.binary operator :: frames) (l :: values)
    rw [Nat.sub_add_cancel (by omega)] at hsecond
    refine ⟨last - 1, by omega, ?_⟩
    rw [hfuel, evalLoop]
    simp only [runFrame, hvisit, List.cons_append, List.nil_append, hfirst, hl, hmeaning, Option.bind_some, hsecond]
    cases right.meaning lookup with
    | none => rfl
    | some r =>
      obtain ⟨last, rfl⟩ := Nat.exists_eq_add_of_le' (show 1 ≤ last by omega)
      rfl

theorem visits_cond {condition whenTrue whenFalse : BooleanFunction} (hcondition : condition.Visits lookup)
    (htrue : whenTrue.Visits lookup) (hfalse : whenFalse.Visits lookup) :
    (cond condition whenTrue whenFalse).Visits lookup := by
  intro fuel frames values
  obtain ⟨after, hafter, hfirst⟩ := hcondition (fuel + whenTrue.frameCount + whenFalse.frameCount + 1)
    (.conditional whenTrue whenFalse :: frames) values
  have hfuel : fuel + (cond condition whenTrue whenFalse).frameCount =
      (fuel + whenTrue.frameCount + whenFalse.frameCount + 1 + condition.frameCount) + 1 := by
    simp only [frameCount]
    omega
  obtain ⟨after, rfl⟩ := Nat.exists_eq_add_of_le' (show 1 ≤ after by omega)
  cases hc : condition.meaning lookup with
  | none =>
    refine ⟨fuel, le_rfl, ?_⟩
    rw [hfuel, evalLoop]
    simp only [runFrame, visit, List.cons_append, List.nil_append, hfirst, hc, meaning]
    rfl
  | some value =>
    have hbranch : (if value then whenTrue else whenFalse).Visits lookup := by
      cases value
      · exact hfalse
      · exact htrue
    have hcount : (if value then whenTrue else whenFalse).frameCount ≤ whenTrue.frameCount + whenFalse.frameCount := by
      cases value
      · exact Nat.le_add_left _ _
      · exact Nat.le_add_right _ _
    obtain ⟨last, hlast, hsecond⟩ :=
      hbranch (after - (if value then whenTrue else whenFalse).frameCount) frames values
    rw [Nat.sub_add_cancel (by omega)] at hsecond
    refine ⟨last, by omega, ?_⟩
    rw [hfuel, evalLoop]
    simp only [runFrame, visit, List.cons_append, List.nil_append, hfirst, hc, meaning, Option.bind_some]
    rw [evalLoop]
    simp only [runFrame, List.cons_append, List.nil_append, hsecond]
    cases value <;> rfl

theorem visits (lookup : String → Option Bool) (function : BooleanFunction) : function.Visits lookup := by
  induction function with
  | const value => exact visits_const value
  | pin name => exact visits_pin name
  | not argument ih => exact visits_not ih
  | and left right hleft hright => exact visits_binary .and hleft hright rfl (fun _ => rfl) rfl
  | or left right hleft hright => exact visits_binary .or hleft hright rfl (fun _ => rfl) rfl
  | xor left right hleft hright => exact visits_binary .xor hleft hright rfl (fun _ => rfl) rfl
  | imp left right hleft hright => exact visits_binary .imp hleft hright rfl (fun _ => rfl) rfl
  | iff left right hleft hright => exact visits_binary .iff hleft hright rfl (fun _ => rfl) rfl
  | cond condition whenTrue whenFalse hcondition htrue hfalse => exact visits_cond hcondition htrue hfalse

theorem eval_eq_meaning (function : BooleanFunction) (lookup : String → Option Bool) :
    function.eval lookup = function.meaning lookup := by
  obtain ⟨left, _, hrun⟩ := function.visits lookup 0 [] []
  rw [eval, ← Nat.zero_add function.frameCount, hrun]
  cases function.meaning lookup with
  | none => rfl
  | some value => cases left <;> rfl

end

/-! Truth tables. -/

theorem testBit_record (bits assignment i : Nat) (value : Bool) (hbits : bits < 2 ^ assignment) :
    (if value then bits ||| 1 <<< assignment else bits).testBit i =
      if i = assignment then value else bits.testBit i := by
  have hclear : bits.testBit assignment = false := Nat.testBit_lt_two_pow hbits
  cases value with
  | false =>
    by_cases hi : i = assignment
    · rw [if_pos hi, hi]
      exact hclear
    · rw [if_neg hi]
      rfl
  | true =>
    rw [if_pos rfl, Nat.testBit_or, Nat.one_shiftLeft, Nat.testBit_two_pow]
    by_cases hi : i = assignment
    · simp [hi]
    · simp [hi, Ne.symm hi]

theorem record_lt {bits assignment : Nat} (value : Bool) (hbits : bits < 2 ^ assignment) :
    (if value then bits ||| 1 <<< assignment else bits) < 2 ^ (assignment + 1) := by
  have hwide : bits < 2 ^ (assignment + 1) := hbits.trans_le (Nat.pow_le_pow_right (by decide) (Nat.le_succ _))
  cases value with
  | false => exact hwide
  | true =>
    rw [if_pos rfl, Nat.one_shiftLeft]
    exact Nat.or_lt_two_pow hwide (Nat.pow_lt_pow_right (by decide) (Nat.lt_succ_self _))

/-- The entries of the first assignments, if all of them have a value. -/
theorem recorded (function : BooleanFunction) (inputs : List String) (count : Nat) :
    match (List.range count).foldlM (fun bits assignment =>
      (function.eval (assigned inputs assignment)).map fun value =>
        if value then bits ||| 1 <<< assignment else bits) 0 with
    | some bits => bits < 2 ^ count ∧ ∀ assignment < count,
        function.meaning (assigned inputs assignment) = some (bits.testBit assignment)
    | none => ∃ assignment < count, function.meaning (assigned inputs assignment) = none := by
  induction count with
  | zero => exact ⟨Nat.zero_lt_one, fun _ h => absurd h (Nat.not_lt_zero _)⟩
  | succ count ih =>
    rw [List.range_succ, List.foldlM_append]
    cases hfold : (List.range count).foldlM (fun bits assignment =>
        (function.eval (assigned inputs assignment)).map fun value =>
          if value then bits ||| 1 <<< assignment else bits) 0 with
    | none =>
      rw [hfold] at ih
      obtain ⟨assignment, hlt, hnone⟩ := ih
      exact ⟨assignment, hlt.trans (Nat.lt_succ_self _), hnone⟩
    | some bits =>
      rw [hfold] at ih
      obtain ⟨hbits, hentries⟩ := ih
      simp only [Option.bind_eq_bind, Option.bind_some, List.foldlM_cons, List.foldlM_nil, eval_eq_meaning]
      cases hvalue : function.meaning (assigned inputs count) with
      | none => exact ⟨count, Nat.lt_succ_self _, hvalue⟩
      | some value =>
        refine ⟨record_lt value hbits, fun assignment hlt => ?_⟩
        rw [testBit_record bits count assignment value hbits]
        by_cases heq : assignment = count
        · rw [if_pos heq, heq, hvalue]
        · rw [if_neg heq]
          exact hentries assignment (by omega)

/-- A truth table has the meaning under each assignment as its entry. -/
theorem truthTableBits_eq_some {function : BooleanFunction} {inputs : List String} {bits : Nat}
    (h : function.truthTableBits inputs = some bits) : bits < 2 ^ 2 ^ inputs.length ∧
      ∀ assignment < 2 ^ inputs.length,
        function.meaning (assigned inputs assignment) = some (bits.testBit assignment) := by
  rw [truthTableBits] at h
  split_ifs at h
  have hrecorded := recorded function inputs (2 ^ inputs.length)
  rw [h] at hrecorded
  exact hrecorded

/-- At most six inputs that include all names a value needs have a truth table. -/
theorem truthTableBits_eq_none {function : BooleanFunction} {inputs : List String}
    (h : function.truthTableBits inputs = none) : 6 < inputs.length ∨
      ∃ assignment < 2 ^ inputs.length, function.meaning (assigned inputs assignment) = none := by
  rw [truthTableBits] at h
  split_ifs at h with hmany
  · exact .inl hmany
  · have hrecorded := recorded function inputs (2 ^ inputs.length)
    rw [h] at hrecorded
    exact .inr hrecorded

end BooleanFunction

end Opto.Liberty
