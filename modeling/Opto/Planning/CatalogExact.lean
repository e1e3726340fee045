import Opto.Planning.Regions

/-!
# Operators denote their operations

An operator denotes what its operation computes, unless a one of one bit counts for minus
one or a multiplication misreads an operand. What a region absorbs has no other use.
-/

namespace Opto.Planning

open Word
open TwosComplement

/-! When an operator fits its operation. -/

section Conditions

variable (m : WordModule) (observed : List Nat)

/-- A constant of one bit counts for minus one in a wider signed result. -/
def NegativeOne (product : WordType) (one : Nat) : Prop :=
  ∃ ty, m.valueTy one = some ty ∧ ty.width = 1 ∧ (product.signed && ty.signed) = true ∧ 2 ≤ product.width

/-- Whether an operation is absorbed into an operation that uses it. -/
def isAddend (o : Nat) : Bool :=
  match m.operations[o]? with
  | some stored => m.operations.zipIdx.any fun parent =>
      decide (stored.result ∈ parent.1.kind.inputs) &&
        addend m observed stored.result parent.2 == some o
  | none => false

def headsRegion (o : Nat) : Bool :=
  match m.operations[o]? with
  | some stored => isAdditive stored.kind && !isAddend m observed o && rootGrows m observed o
  | none => false

/-- The operands of an operation are what its operator takes them for. -/
def OperandsFit (fused : Bool) (value : Nat → Nat) (o : Nat) : Prop :=
  match m.operations[o]? with
  | some ⟨.binary op left right, result⟩ => ∀ ty, m.valueTy result = some ty →
    if (fused && headsRegion m observed o) = true then
      (2 : Int) ^ ty.width ∣ rootSurplus m value observed o
    else match operatorKind m op left right with
      | some (.increment, _, one) => ¬ NegativeOne m ty one
      | some (.decrement, _, one) => ¬ NegativeOne m ty one
      | some (.multiply, left, right) => (2 : Int) ^ ty.width ∣ productSurplus m value ty left right
      | _ => True
  | _ => True

end Conditions

/-- What the operator denotes, modulo two to the width of the result, is the result. -/
def Exact (m : WordModule) (value : Nat → Nat) (operator : SemanticOperator)
    (terms : List ArithmeticTerm) : Prop :=
  ∃ stored ty x, m.operations[operator.sourceOperation]? = some stored ∧
    m.valueTy stored.result = some ty ∧ operator.denote value terms = some x ∧
      (value stored.result : Int) = x % 2 ^ ty.width

variable {m : WordModule} {observed : List Nat} {value : Nat → Nat}

theorem eq_emod_iff {v width : Nat} {x surplus : Int} (hv : v < 2 ^ width)
    (hx : x ≡ v - surplus [ZMOD 2 ^ width]) : (v : Int) = x % 2 ^ width ↔ (2 : Int) ^ width ∣ surplus := by
  have hcast : ((2 ^ width : Nat) : Int) = 2 ^ width := by simp
  have hself : (v : Int) % 2 ^ width = v := Int.emod_eq_of_lt (by omega) (by omega)
  calc (v : Int) = x % 2 ^ width ↔ v ≡ x [ZMOD 2 ^ width] := by rw [Int.ModEq, hself]
    _ ↔ v ≡ v - surplus [ZMOD 2 ^ width] := ⟨fun h => h.trans hx, fun h => h.trans hx.symm⟩
    _ ↔ (2 : Int) ^ width ∣ surplus := by
      rw [Int.modEq_iff_dvd]
      constructor
      · intro h
        simpa using h
      · intro h
        simpa using h

/-! Constants. -/

theorem definedBits_one {bits : List BitVal} (hlast : bits.getLast? = some .one)
    (hzero : bits.dropLast.all (· = .zero) = true) : definedBits bits = some 1 := by
  induction bits with
  | nil => cases hlast
  | cons bit bits ih =>
    cases bits with
    | nil =>
      cases hlast
      rfl
    | cons next bits =>
      rw [List.dropLast_cons_of_ne_nil (List.cons_ne_nil _ _), List.all_cons, Bool.and_eq_true] at hzero
      rw [List.getLast?_cons_cons] at hlast
      rw [definedBits.eq_def]
      simp [of_decide_eq_true hzero.1, ih hlast hzero.2]

/-- A constant one counts for one, or for minus one. -/
theorem one_reading (hvalid : m.validate = true) (hval : Valuation m value) {one : Nat}
    (hone : isConstantOne m one = true) (product : WordType) :
    (2 : Int) ^ product.width ∣ operandReading m value product one - 1 ↔ ¬ NegativeOne m product one := by
  unfold isConstantOne at hone
  split at hone
  · rename_i bits ty hentry
    rw [Bool.and_eq_true, decide_eq_true_eq] at hone
    have hty : m.valueTy one = some ty := by rw [WordModule.valueTy, hentry]; rfl
    have hvalue := hval.constant one bits ty 1 hentry (definedBits_one hone.1 hone.2)
    have hlength : 1 ≤ ty.width := by
      rw [← WordModule.valid_constant hvalid hentry]
      cases bits with
      | nil => cases hone.1
      | cons bit bits => exact Nat.le_add_left ..
    rw [operandReading, hty, hvalue]
    simp only [extended]
    have hnegative : NegativeOne m product one ↔
        ty.width = 1 ∧ (product.signed && ty.signed) = true ∧ 2 ≤ product.width := by
      rw [NegativeOne, hty]
      constructor
      · rintro ⟨_, he, h⟩
        exact Option.some_inj.mp he ▸ h
      · exact fun h => ⟨ty, rfl, h⟩
    rw [hnegative]
    by_cases hcase : ty.width = 1 ∧ (product.signed && ty.signed) = true
    · obtain ⟨hwidth, hsigned⟩ := hcase
      rw [hsigned, hwidth, read_negative (by decide)]
      constructor
      · rintro ⟨k, hk⟩ ⟨-, -, hproduct⟩
        obtain ⟨w, hw⟩ : ∃ w, product.width = w + 2 := ⟨product.width - 2, by omega⟩
        rw [hw, pow_add] at hk
        have : (2 : Int) ^ w * 2 ^ 2 * k = 4 * (2 ^ w * k) := by ring
        omega
      · intro h
        have hproduct : product.width = 0 ∨ product.width = 1 := by
          by_contra hne
          exact h ⟨rfl, rfl, by omega⟩
        rcases hproduct with h0 | h1
        · rw [h0]
          exact ⟨-2, by norm_num⟩
        · rw [h1]
          exact ⟨-1, by norm_num⟩
    · have hread : read (product.signed && ty.signed) ty.width 1 = 1 := by
        by_cases hwidth : ty.width = 1
        · have hsigned : (product.signed && ty.signed) = false := by
            by_contra h
            exact hcase ⟨hwidth, by simpa using h⟩
          rw [hsigned, read_unsigned]
          rfl
        · obtain ⟨w, hw⟩ : ∃ w, ty.width = w + 2 := ⟨ty.width - 2, by omega⟩
          rw [hw, read_nonneg]
          · rfl
          · have := Nat.one_le_two_pow (n := w)
            rw [Nat.pow_add]
            omega
      rw [hread]
      refine ⟨fun _ h => hcase ⟨h.1, h.2.1⟩, fun _ => by norm_num⟩
  · cases hone

/-! Single operations. -/

/-- The operation of a kind of operator; a constant one comes second. -/
theorem operatorKind_cases {op : BinaryOp} {left right l r : Nat} {kind : OperatorKind}
    (h : operatorKind m op left right = some (kind, l, r)) :
    (op = .add ∧ kind = .increment ∧ isConstantOne m r = true ∧
      (l = right ∧ r = left ∨ l = left ∧ r = right)) ∨
    (op = .sub ∧ kind = .decrement ∧ isConstantOne m r = true ∧ l = left ∧ r = right) ∨
    ((op = .add ∧ kind = .add ∨ op = .sub ∧ kind = .subtract ∨ op = .mul ∧ kind = .multiply ∨
      op = .div ∧ kind = .divide ∨ op = .mod ∧ kind = .modulo) ∧ l = left ∧ r = right) := by
  cases op with
  | add =>
    simp only [operatorKind] at h
    split_ifs at h with hleft hright
    · cases h
      exact .inl ⟨rfl, rfl, hleft, .inl ⟨rfl, rfl⟩⟩
    · cases h
      exact .inl ⟨rfl, rfl, hright, .inr ⟨rfl, rfl⟩⟩
    · cases h
      exact .inr (.inr ⟨.inl ⟨rfl, rfl⟩, rfl, rfl⟩)
  | sub =>
    simp only [operatorKind] at h
    split_ifs at h with hright
    · cases h
      exact .inr (.inl ⟨rfl, rfl, hright, rfl, rfl⟩)
    · cases h
      exact .inr (.inr ⟨.inr (.inl ⟨rfl, rfl⟩), rfl, rfl⟩)
  | mul =>
    cases h
    exact .inr (.inr ⟨.inr (.inr (.inl ⟨rfl, rfl⟩)), rfl, rfl⟩)
  | div =>
    cases h
    exact .inr (.inr ⟨.inr (.inr (.inr (.inl ⟨rfl, rfl⟩))), rfl, rfl⟩)
  | mod =>
    cases h
    exact .inr (.inr ⟨.inr (.inr (.inr (.inr ⟨rfl, rfl⟩))), rfl, rfl⟩)
  | _ => cases h

/-- By how much the result exceeds what an operator of its kind denotes. -/
def kindSurplus (m : WordModule) (value : Nat → Nat) (product : WordType) (kind : OperatorKind)
    (left right : Nat) : Int :=
  match kind with
  | .increment => operandReading m value product right - 1
  | .decrement => 1 - operandReading m value product right
  | .multiply => productSurplus m value product left right
  | _ => 0

theorem kindSurplus_iff (hvalid : m.validate = true) (hval : Valuation m value) {op : BinaryOp}
    {left right l r : Nat} {kind : OperatorKind} (h : operatorKind m op left right = some (kind, l, r))
    (product : WordType) : (2 : Int) ^ product.width ∣ kindSurplus m value product kind l r ↔
      match some (kind, l, r) with
      | some (.increment, _, one) => ¬ NegativeOne m product one
      | some (.decrement, _, one) => ¬ NegativeOne m product one
      | some (.multiply, left, right) =>
        (2 : Int) ^ product.width ∣ productSurplus m value product left right
      | _ => True := by
  rcases operatorKind_cases h with ⟨-, rfl, hone, -⟩ | ⟨-, rfl, hone, -⟩ | ⟨hkind, -⟩
  · exact one_reading hvalid hval hone product
  · have hneg : kindSurplus m value product .decrement l r =
        -(operandReading m value product r - 1) := by simp [kindSurplus]
    rw [hneg, Int.dvd_neg]
    exact one_reading hvalid hval hone product
  · rcases hkind with ⟨-, rfl⟩ | ⟨-, rfl⟩ | ⟨-, rfl⟩ | ⟨-, rfl⟩ | ⟨-, rfl⟩
    · simp [kindSurplus]
    · simp [kindSurplus]
    · rfl
    · simp [kindSurplus]
    · simp [kindSurplus]

/-- The inputs of an operator are read as the operands, but for the surplus of a factor. -/
def InputsRead (m : WordModule) (value : Nat → Nat) (product : WordType) (operator : SemanticOperator)
    (left right : Nat) : Prop :=
  let l := operator.input operator.inputTypes.1 (value operator.inputs.1)
  let r := operator.input operator.inputTypes.2 (value operator.inputs.2)
  if operator.kind = .multiply then
    operandReading m value product left = l + operandSurplus m value product left ∧
      operandReading m value product right = r + operandSurplus m value product right
  else operandReading m value product left = l ∧ operandReading m value product right = r

theorem denote_surplus (hvalid : m.validate = true) (hval : Valuation m value) {o : Nat} {op : BinaryOp}
    {left right result l r : Nat} {ty : WordType} {operator : SemanticOperator}
    (hop : m.operations[o]? = some ⟨.binary op left right, result⟩) (hty : m.valueTy result = some ty)
    (hkind : operatorKind m op left right = some (operator.kind, l, r))
    (hinputs : InputsRead m value ty operator l r) : ∃ x, operator.denote value [] = some x ∧
      x ≡ value result - kindSurplus m value ty operator.kind l r [ZMOD 2 ^ ty.width] := by
  have hresult {x : Int} (hx : op.arithmetic (operandReading m value ty left)
      (operandReading m value ty right) = some x) : x ≡ value result [ZMOD 2 ^ ty.width] := by
    rw [arithmetic_reading hvalid hval hop hty hx]
    exact (encode_modEq ty.width x).symm
  unfold InputsRead at hinputs
  rcases operatorKind_cases hkind with ⟨rfl, hk, -, hsides⟩ | ⟨rfl, hk, -, rfl, rfl⟩ | ⟨hsame, rfl, rfl⟩
  · rw [hk, if_neg (by decide)] at hinputs
    refine ⟨_, by simp only [SemanticOperator.denote, hk]; rfl, ?_⟩
    rw [← hinputs.1]
    have hsum := (hresult rfl).sub_right (operandReading m value ty r - 1)
    rcases hsides with ⟨rfl, rfl⟩ | ⟨rfl, rfl⟩
    · convert hsum using 1
      · ring
      · rw [hk]
        rfl
    · convert hsum using 1
      · ring
      · rw [hk]
        rfl
  · rw [hk, if_neg (by decide)] at hinputs
    refine ⟨_, by simp only [SemanticOperator.denote, hk]; rfl, ?_⟩
    rw [← hinputs.1]
    have hdiff := (hresult rfl).sub_right (1 - operandReading m value ty r)
    convert hdiff using 1
    · ring
    · rw [hk]
      rfl
  · rcases hsame with ⟨rfl, hk⟩ | ⟨rfl, hk⟩ | ⟨rfl, hk⟩ | ⟨rfl, hk⟩ | ⟨rfl, hk⟩
    · rw [hk, if_neg (by decide)] at hinputs
      refine ⟨_, by simp only [SemanticOperator.denote, hk]; rfl, ?_⟩
      rw [← hinputs.1, ← hinputs.2]
      simp only [hk, kindSurplus, Int.sub_zero]
      exact hresult rfl
    · rw [hk, if_neg (by decide)] at hinputs
      refine ⟨_, by simp only [SemanticOperator.denote, hk]; rfl, ?_⟩
      rw [← hinputs.1, ← hinputs.2]
      simp only [hk, kindSurplus, Int.sub_zero]
      exact hresult rfl
    · rw [hk, if_pos rfl] at hinputs
      refine ⟨_, by simp only [SemanticOperator.denote, hk]; rfl, ?_⟩
      have hproduct := (hresult rfl).sub_right (productSurplus m value ty l r)
      rw [product_reading hinputs.1 hinputs.2] at hproduct
      convert hproduct using 1
      · ring
      · rw [hk]
        rfl
    · rw [hk, if_neg (by decide)] at hinputs
      refine ⟨_, by simp only [SemanticOperator.denote, hk]; rfl, ?_⟩
      rw [← hinputs.1, ← hinputs.2]
      simp only [hk, kindSurplus, Int.sub_zero]
      exact hresult rfl
    · rw [hk, if_neg (by decide)] at hinputs
      refine ⟨_, by simp only [SemanticOperator.denote, hk]; rfl, ?_⟩
      rw [← hinputs.1, ← hinputs.2]
      simp only [hk, kindSurplus, Int.sub_zero]
      exact hresult rfl

section Operators

variable {analyses : Analyses} {id index : Nat} {fused : Bool}

theorem plainInputs_settles (left right : Nat) : Settles (plainInputs m left right) (fun typed =>
    typed.1.1 = left ∧ typed.2.1 = right ∧ m.valueTy left = some typed.1.2 ∧
      m.valueTy right = some typed.2.2) fun _ => True := by
  apply Settles.bind (orInvariant_settles _ _)
  intro leftTy hleft
  apply Settles.bind (orInvariant_settles _ _)
  exact fun rightTy hright => ⟨rfl, rfl, hleft, hright⟩

theorem normalizedInputs_settles (hvalid : m.validate = true) (hval : Valuation m value)
    (product : WordType) (left right : Nat) : Settles (normalizedInputs m left right) (fun typed =>
      operandReading m value product left = read typed.1.2.signed typed.1.2.width (value typed.1.1) +
        operandSurplus m value product left ∧
      operandReading m value product right = read typed.2.2.signed typed.2.2.width (value typed.2.1) +
        operandSurplus m value product right) fun _ => True := by
  apply Settles.bind (reading_settles hvalid hval product left)
  intro l hl
  apply Settles.bind (reading_settles hvalid hval product right)
  exact fun r hr => ⟨hl, hr⟩

/-- The operator of a single operation is exact when its operands fit. -/
theorem semanticOperator_settles (hvalid : m.validate = true) (hval : Valuation m value)
    (hhead : (fused && headsRegion m observed index) = false) :
    Settles (semanticOperator m analyses id index) (fun r => ∀ operator, r = some operator →
      operator.sourceOperation = index ∧ (operator.kind ≠ .dynamicExtract →
        (Exact m value operator [] ↔ OperandsFit m observed fused value index))) fun _ => True := by
  unfold semanticOperator
  apply Settles.bind (orInvariant_settles _ _)
  intro operation hoperation
  obtain ⟨kind, result⟩ := operation
  simp only
  split
  · unfold extractOperator
    apply Settles.bind (orInvariant_settles _ _)
    intro _ _
    dsimp only
    split_ifs
    · exact fun _ h => by cases h
    · apply Settles.bind (orInvariant_settles _ _)
      intro _ _
      apply Settles.bind (orInvariant_settles _ _)
      intro _ _
      split_ifs
      · trivial
      · apply Settles.bind (orInvariant_settles _ _)
        rintro _ - operator h
        cases h
        exact ⟨rfl, fun h => absurd rfl h⟩
  · rename_i op left right
    split
    · intro _ h
      cases h
    · rename_i kind l r hkind
      have hfits {ty : WordType} (hty : m.valueTy result = some ty) {operator : SemanticOperator}
          (hk : operator.kind = kind) (hsource : operator.sourceOperation = index)
          (hinputs : InputsRead m value ty operator l r) :
          Exact m value operator [] ↔ OperandsFit m observed fused value index := by
        rw [← hk] at hkind
        obtain ⟨x, hx, hmod⟩ := denote_surplus hvalid hval hoperation hty hkind hinputs
        have hdvd := (eq_emod_iff (hval.bounded result ty hty) hmod).trans
          (kindSurplus_iff hvalid hval hkind ty)
        have hfit : OperandsFit m observed fused value index ↔
            match some (operator.kind, l, r) with
            | some (.increment, _, one) => ¬ NegativeOne m ty one
            | some (.decrement, _, one) => ¬ NegativeOne m ty one
            | some (.multiply, left, right) =>
              (2 : Int) ^ ty.width ∣ productSurplus m value ty left right
            | _ => True := by
          simp only [OperandsFit, hoperation, hhead, hty, hkind, Option.some_inj, forall_eq',
            Bool.false_eq_true, if_false]
        rw [hfit, ← hdvd, Exact, hsource]
        constructor
        · rintro ⟨stored, ty', x', hstored, hty', hx', hequal⟩
          rw [hoperation, Option.some_inj] at hstored
          subst hstored
          rw [hty, Option.some_inj] at hty'
          rw [hx, Option.some_inj] at hx'
          subst hty' hx'
          exact hequal
        · exact fun hequal => ⟨_, ty, x, hoperation, hty, hx, hequal⟩
      obtain ⟨ty, hty, -⟩ := WordModule.valid_result hvalid hoperation
      simp only at hty
      have hresult : Settles (orInvariant
          s!"semantic operation OpId({index}) has unknown result ValueId({result})" (m.valueTy result))
          (fun ty' => ty' = ty) fun _ => True := by
        rw [hty]
        rfl
      have hnormalized := (normalizedInputs_settles hvalid hval ty l r).map (f := some)
        (R := fun normalized => ∃ typed, normalized = some typed ∧
          operandReading m value ty l = read typed.1.2.signed typed.1.2.width (value typed.1.1) +
            operandSurplus m value ty l ∧
          operandReading m value ty r = read typed.2.2.signed typed.2.2.width (value typed.2.1) +
            operandSurplus m value ty r) fun typed h => ⟨typed, rfl, h⟩
      split_ifs with hmultiply hzero hzero
      · apply Settles.bind hnormalized
        intro _ _
        apply Settles.bind hresult
        exact fun _ _ _ h => by cases h
      · apply Settles.bind hnormalized
        rintro _ ⟨typed, rfl, hread⟩
        apply Settles.bind hresult
        rintro _ rfl operator h
        cases h
        refine ⟨rfl, fun _ => hfits hty rfl rfl ?_⟩
        simp only [InputsRead, SemanticOperator.input, if_pos hmultiply]
        exact hread
      · apply Settles.bind hresult
        exact fun _ _ _ h => by cases h
      · apply Settles.bind hresult
        rintro _ rfl
        apply Settles.bind (plainInputs_settles l r)
        rintro ⟨⟨l', lty⟩, ⟨r', rty⟩⟩ ⟨hl', hr', hl, hr⟩ operator h
        simp only at hl' hr' hl hr
        subst hl' hr'
        cases h
        refine ⟨rfl, fun _ => hfits hty rfl rfl ?_⟩
        simp only [InputsRead, SemanticOperator.input, if_neg hmultiply, operandReading, hl, hr]
        exact ⟨rfl, rfl⟩
  · exact fun _ h => by cases h

theorem count32_settles (what : String) (count : Nat) :
    Settles (count32 what count) (fun _ => True) fun _ => True := by
  unfold count32
  split_ifs <;> trivial

/-- The operator of a region is exact when the region has no surplus. -/
theorem semanticSumOperator_settles (hval : Valuation m value) {region : AdditiveRegion}
    (hhead : (fused && headsRegion m observed index) = true)
    (hregion : RegionExact m value observed index region) :
    Settles (semanticSumOperator m analyses id index region) (fun r => ∀ operator, r = some operator →
      operator.sourceOperation = index ∧
        (Exact m value operator region.terms ↔ OperandsFit m observed fused value index))
      fun _ => True := by
  obtain ⟨op, left, right, result, ty, hop, hty, hsum, -⟩ := hregion
  have hfits {operator : SemanticOperator} (hk : operator.kind = .sum)
      (hsource : operator.sourceOperation = index) :
      Exact m value operator region.terms ↔ OperandsFit m observed fused value index := by
    have hdenote : operator.denote value region.terms = some (region.terms.map (·.denote value)).sum := by
      simp only [SemanticOperator.denote, hk]
    have hfit : OperandsFit m observed fused value index ↔
        (2 : Int) ^ ty.width ∣ rootSurplus m value observed index := by
      simp only [OperandsFit, hop, hhead, hty, Option.some_inj, forall_eq', if_true]
    rw [hfit, ← eq_emod_iff (hval.bounded result ty hty) hsum, Exact, hsource]
    constructor
    · rintro ⟨stored, ty', x, hstored, hty', hx, hequal⟩
      rw [hop, Option.some_inj] at hstored
      subst hstored
      rw [hty, Option.some_inj] at hty'
      rw [hdenote, Option.some_inj] at hx
      subst hty' hx
      exact hequal
    · exact fun hequal => ⟨_, ty, _, hop, hty, hdenote, hequal⟩
  unfold semanticSumOperator
  apply Settles.bind (orInvariant_settles _ _)
  intro _ _
  apply Settles.bind (orInvariant_settles _ _)
  intro _ _
  dsimp only
  split_ifs
  · exact fun _ h => by cases h
  · apply Settles.bind (orInvariant_settles _ _)
    intro _ _
    apply Settles.bind (count32_settles _ _)
    intro _ _
    apply Settles.bind (count32_settles _ _)
    intro _ _
    apply Settles.bind (count32_settles _ _)
    intro _ _
    apply Settles.bind (count32_settles _ _)
    intro _ _
    apply Settles.bind (orInvariant_settles _ _)
    intro _ _
    apply Settles.bind (orInvariant_settles _ _)
    rintro _ - operator h
    cases h
    exact ⟨rfl, hfits rfl rfl⟩

end Operators

/-! The regions. -/

section Regions

variable {uses : List Nat} {absorb : List (Option Nat)}

theorem isAddend_iff (hvalid : m.validate = true) (hcounts : Counts m observed uses)
    (habsorb : Absorbs m uses absorb) (o : Nat) :
    isAddend m observed o = true ↔ absorb[o]?.join.isSome = true := by
  unfold isAddend
  constructor
  · intro h
    split at h
    · rename_i stored hstored
      obtain ⟨⟨parent, p⟩, hentry, h⟩ := List.any_eq_true.mp h
      rw [Bool.and_eq_true, decide_eq_true_eq, beq_iff_eq] at h
      have hparent : m.operations[p]? = some parent := by
        simpa using List.mem_zipIdx_iff_getElem?.mp hentry
      have hchild := @absorbedChild_eq _ _ _ absorb hvalid hcounts habsorb ⟨stored.result, false, p⟩
        parent hparent h.1
      rw [h.2, absorbedChild_eq_some] at hchild
      rw [hchild.2]
      rfl
    · cases h
  · intro h
    obtain ⟨p, hp⟩ := Option.isSome_iff_exists.mp h
    obtain ⟨stored, parent, -, -, hstored, hparent, -, -, -, hmem, -⟩ := (habsorb o p).mp hp
    obtain ⟨-, -, hproducer, -⟩ := WordModule.valid_result hvalid hstored
    rw [hstored]
    refine List.any_eq_true.mpr ⟨(parent, p), ?_, ?_⟩
    · simpa [List.mem_zipIdx_iff_getElem?] using hparent
    · have hchild := @absorbedChild_eq _ _ _ absorb hvalid hcounts habsorb ⟨stored.result, false, p⟩
        parent hparent hmem
      rw [absorbedChild_eq_some.mpr ⟨hproducer, hp⟩] at hchild
      rw [Bool.and_eq_true, decide_eq_true_eq, beq_iff_eq]
      exact ⟨hmem, hchild.symm⟩

/-- The regions are those of the operations that head one. -/
structure RegionsExact (m : WordModule) (value : Nat → Nat) (observed : List Nat) (fused : Bool)
    (regions : AdditiveRegions) : Prop where
  exact : ∀ root region, (root, region) ∈ regions.byRoot →
    (fused && headsRegion m observed root) = true ∧ RegionExact m value observed root region
  others : ∀ index, regions.byRoot.lookup index = none → (fused && headsRegion m observed index) = false

theorem additiveRegions_settles (hvalid : m.validate = true) (hcounts : Counts m observed uses)
    (hval : Valuation m value) : Settles (additiveRegions m uses)
      (RegionsExact m value observed true) fun _ => True := by
  apply Settles.bind (absorbInto_settles hcounts)
  intro absorb habsorb
  let kept (k : Nat) (regions : AdditiveRegions) : Prop :=
    (∀ root region, (root, region) ∈ regions.byRoot →
      headsRegion m observed root = true ∧ RegionExact m value observed root region) ∧
    ∀ index < k, regions.byRoot.lookup index = none → headsRegion m observed index = false
  -- an operation that is passed over heads no region
  have hskip {k : Nat} {regions : AdditiveRegions} (h : kept k regions)
      (hk : headsRegion m observed k = false) : kept (k + 1) regions := by
    refine ⟨h.1, fun index hindex hlookup => ?_⟩
    by_cases he : index = k
    · rw [he, hk]
    · exact h.2 index (by omega) hlookup
  apply (Settles.foldlM_zipIdx kept ⟨fun _ _ h => absurd h List.not_mem_nil,
    fun _ h => absurd h (Nat.not_lt_zero _)⟩ ?_).mono
  · rintro regions ⟨hexact, hothers⟩
    refine ⟨fun root region h => ?_, fun index h => ?_⟩
    · rw [Bool.true_and]
      exact hexact root region h
    · rw [Bool.true_and]
      by_cases hindex : index < m.operations.length
      · exact hothers index hindex h
      · rw [headsRegion, List.getElem?_eq_none (by omega)]
  · intro k stored hstored regions hregions
    have hhead : headsRegion m observed k =
        (isAdditive stored.kind && !absorb[k]?.join.isSome && rootGrows m observed k) := by
      rw [headsRegion, hstored]
      simp only
      rw [Bool.eq_iff_iff.mpr (isAddend_iff hvalid hcounts habsorb k)]
    simp only
    split_ifs with hcond
    · apply hskip hregions
      rw [hhead]
      rw [Bool.or_eq_true, Bool.not_eq_true'] at hcond
      rcases hcond with hadditive | hsome
      · rw [hadditive]
        rfl
      · rw [hsome, Bool.not_true, Bool.and_false, Bool.false_and]
    · rw [Bool.or_eq_true, not_or, Bool.not_eq_true', Bool.not_eq_false, Bool.not_eq_true] at hcond
      rw [hcond.1, hcond.2, Bool.not_false, Bool.true_and, Bool.true_and] at hhead
      apply Settles.bind (collectAdditiveRegion_settles hvalid habsorb hcounts hval hstored hcond.1
        (by simpa using hcond.2))
      intro region hregion
      have hdropped := hregion.dropped_iff
      split_ifs with hsmall
      · exact hskip hregions (hhead.trans (hdropped.mp hsmall))
      · refine ⟨fun root region' h => ?_, fun index hindex hlookup => ?_⟩
        · rcases List.mem_append.mp h with h | h
          · exact hregions.1 root region' h
          · rw [List.mem_singleton, Prod.mk.injEq] at h
            obtain ⟨rfl, rfl⟩ := h
            refine ⟨?_, hregion⟩
            by_contra hfalse
            rw [Bool.not_eq_true] at hfalse
            exact hsmall (hdropped.mpr (hhead.symm.trans hfalse))
        · rw [List.lookup_append, Option.or_eq_none_iff, List.lookup_cons, List.lookup_nil] at hlookup
          apply hregions.2 index _ hlookup.1
          by_contra hge
          obtain rfl : index = k := by omega
          rw [beq_self_eq_true] at hlookup
          cases hlookup.2

theorem arithmeticRegions_settles (hvalid : m.validate = true) (hval : Valuation m value) :
    Settles (arithmeticRegions m observed) (RegionsExact m value observed true) fun _ => True := by
  unfold arithmeticRegions
  rw [← bind_assoc]
  apply Settles.bind (counts_settles m observed)
  exact fun uses huses => additiveRegions_settles hvalid huses hval

end Regions

/-! The catalog. -/

/-- An operator with its terms and its operations. -/
def Row (m : WordModule) (value : Nat → Nat) (observed : List Nat) (fused : Bool)
    (operator : SemanticOperator) (terms : List ArithmeticTerm) (sources : List Nat) : Prop :=
  (operator.kind ≠ .dynamicExtract → (Exact m value operator terms ↔
    OperandsFit m observed fused value operator.sourceOperation)) ∧
  AbsorbedOnce m observed operator.sourceOperation sources

structure Rows (m : WordModule) (value : Nat → Nat) (observed : List Nat) (fused : Bool)
    (catalog : OperatorCatalog) : Prop where
  terms : catalog.arithmeticTerms.length = catalog.operators.length
  sources : catalog.sourceOperations.length = catalog.operators.length
  row : ∀ (k : Nat) operator terms sources, catalog.operators[k]? = some operator →
    catalog.arithmeticTerms[k]? = some terms → catalog.sourceOperations[k]? = some sources →
      Row m value observed fused operator terms sources

theorem getElem?_append_singleton {α : Type} {xs : List α} {x y : α} {k : Nat}
    (h : (xs ++ [x])[k]? = some y) : xs[k]? = some y ∨ k = xs.length ∧ y = x := by
  rcases Nat.lt_or_ge k xs.length with hk | hk
  · rw [List.getElem?_append_left hk] at h
    exact .inl h
  · rw [List.getElem?_append_right hk] at h
    obtain ⟨hlt, he⟩ := List.getElem?_eq_some_iff.mp h
    rw [List.length_singleton] at hlt
    refine .inr ⟨by omega, ?_⟩
    rw [← he, List.getElem_singleton]

theorem Rows.append {fused : Bool} {catalog : OperatorCatalog} (h : Rows m value observed fused catalog)
    {operator : SemanticOperator} {terms : List ArithmeticTerm} {sources : List Nat}
    (hrow : Row m value observed fused operator terms sources) (owners : List (Option Nat))
    (elided : List Bool) : Rows m value observed fused
      ⟨catalog.operators ++ [operator], owners, elided, catalog.sourceOperations ++ [sources],
        catalog.arithmeticTerms ++ [terms]⟩ := by
  have hterms := h.terms
  have hsources := h.sources
  refine ⟨by simp [hterms], by simp [hsources], fun k operator' terms' sources' ho ht hs => ?_⟩
  rcases getElem?_append_singleton ho with ho | ⟨hk, rfl⟩
  · have hk := (List.getElem?_eq_some_iff.mp ho).1
    rw [List.getElem?_append_left (by omega)] at ht hs
    exact h.row k operator' terms' sources' ho ht hs
  · rcases getElem?_append_singleton ht with ht | ⟨-, rfl⟩
    · have := (List.getElem?_eq_some_iff.mp ht).1
      omega
    · rcases getElem?_append_singleton hs with hs | ⟨-, rfl⟩
      · have := (List.getElem?_eq_some_iff.mp hs).1
        omega
      · exact hrow

theorem catalogStep_settles {analyses : Analyses} {fused : Bool} (hvalid : m.validate = true)
    (hval : Valuation m value) {regions : AdditiveRegions}
    (hregions : RegionsExact m value observed fused regions) {catalog : OperatorCatalog}
    (h : Rows m value observed fused catalog) (index : Nat) :
    Settles (catalogStep m analyses regions catalog index) (Rows m value observed fused)
      fun _ => True := by
  unfold catalogStep
  apply Settles.bind (show Settles _ (fun _ => True) fun _ => True from ?_)
  · intro id _
    split
    · exact h
    · cases hlookup : regions.byRoot.lookup index with
      | none =>
        apply Settles.bind (semanticOperator_settles hvalid hval (hregions.others index hlookup))
        intro operator hoperator
        cases operator with
        | none => exact ⟨h.terms, h.sources, h.row⟩
        | some operator =>
          obtain ⟨hsource, hexact⟩ := hoperator operator rfl
          refine @Rows.append _ _ _ _ _ h operator [] _ ⟨hsource ▸ hexact, fun o ho => .inl ?_⟩ _ _
          exact List.mem_singleton.mp ho
      | some region =>
        have hmem : (index, region) ∈ regions.byRoot := by
          obtain ⟨_, _, he, -⟩ := List.lookup_eq_some_iff.mp hlookup
          rw [he]
          exact List.mem_append_right _ List.mem_cons_self
        obtain ⟨hhead, hregion⟩ := hregions.exact index region hmem
        apply Settles.bind (semanticSumOperator_settles hval hhead hregion)
        intro operator hoperator
        cases operator with
        | none => exact ⟨h.terms, h.sources, h.row⟩
        | some operator =>
          obtain ⟨hsource, hexact⟩ := hoperator operator rfl
          obtain ⟨-, -, -, -, -, -, -, -, -, honce⟩ := hregion
          exact h.append ⟨fun _ => hsource ▸ hexact, hsource ▸ honce⟩ _ _
  · unfold freshOperatorId
    split_ifs <;> trivial

theorem forModule_settles {analyses : Analyses} {fused : Bool} (hvalid : m.validate = true)
    (hval : Valuation m value) : Settles (forModule m analyses observed fused)
      (Rows m value observed fused) fun _ => True := by
  have hloop (regions : AdditiveRegions) (hregions : RegionsExact m value observed fused regions) :
      Settles ((List.range m.operations.length).foldlM (catalogStep m analyses regions)
        ⟨[], List.replicate m.operations.length none, List.replicate m.operations.length false, [], []⟩)
        (Rows m value observed fused) fun _ => True := by
    apply Settles.foldlM fun _ => Rows m value observed fused
    · exact ⟨rfl, rfl, fun k _ _ _ h => by cases h⟩
    · exact fun _ index _ catalog h => catalogStep_settles hvalid hval hregions h index
  unfold forModule
  cases fused with
  | true =>
    apply Settles.bind (arithmeticRegions_settles hvalid hval)
    exact hloop
  | false => exact hloop ⟨[], []⟩ ⟨fun _ _ h => absurd h List.not_mem_nil, fun _ _ => rfl⟩

/-- An operator denotes the value of its operation exactly when the operands fit, and what it
absorbs has no other use. -/
theorem operators_exact_iff (m : WordModule) (analyses : Analyses) (observed : List Nat) (fused : Bool)
    (catalog : OperatorCatalog) (value : Nat → Nat) (hvalid : m.validate = true)
    (hval : Valuation m value) (hcatalog : forModule m analyses observed fused = .ok catalog) (k : Nat)
    (operator : SemanticOperator) (hk : catalog.operators[k]? = some operator)
    (hkind : operator.kind ≠ .dynamicExtract) :
    ∃ terms sources, catalog.arithmeticTerms[k]? = some terms ∧
      catalog.sourceOperations[k]? = some sources ∧
      (Exact m value operator terms ∧ AbsorbedOnce m observed operator.sourceOperation sources ↔
        OperandsFit m observed fused value operator.sourceOperation) := by
  have hrows := (forModule_settles hvalid hval).ok hcatalog
  have hlt := (List.getElem?_eq_some_iff.mp hk).1
  have hterms := List.getElem?_eq_getElem (show k < catalog.arithmeticTerms.length by rw [hrows.terms]; exact hlt)
  have hsources := List.getElem?_eq_getElem (show k < catalog.sourceOperations.length by
    rw [hrows.sources]; exact hlt)
  obtain ⟨hexact, honce⟩ := hrows.row k operator _ _ hk hterms hsources
  exact ⟨_, _, hterms, hsources, ⟨fun h => (hexact hkind).mp h.1, fun h => ⟨(hexact hkind).mpr h, honce⟩⟩⟩

/-- Wires and what is computed from them. -/
def wires (types : List WordType) (values : List Value) (operations : List Operation) : WordModule where
  names := ⟨[], [], List.nodup_nil⟩
  name := 0
  definitionKind := .synthesizable
  annotations := []
  synthesisDirectives := []
  ports := []
  signals := types.map fun ty => ⟨none, .wire, ty, .singleDriver, none⟩
  memories := []
  memoryReadPorts := []
  memoryWritePorts := []
  typeLayouts := []
  values
  operations
  connects := []
  instances := []
  namedSignals := []
  namedMemories := []
  namedInstances := []
  speculationIdentity := 0

def byte : WordType := ⟨8, false, .twoState, by decide⟩
def signedNibble : WordType := ⟨4, true, .twoState, by decide⟩

def fullWidth : Analyses := ⟨fun _ => 8, fun _ => none, fun _ => 0⟩

/-- `c - (a + b)`, where `b` is signed and narrower. -/
def nestedDifference : WordModule := wires [byte, signedNibble, byte]
  [⟨.signal ⟨0, 0, 8⟩, byte⟩, ⟨.signal ⟨1, 0, 4⟩, signedNibble⟩, ⟨.signal ⟨2, 0, 8⟩, byte⟩,
    ⟨.operation 0, byte⟩, ⟨.operation 1, byte⟩] [⟨.binary .add 0 1, 3⟩, ⟨.binary .sub 2 3, 4⟩]

/-- `a = 200`, `b = -1` and `c = 7`; the sum takes `b` for 15. -/
def differenceValue (v : Nat) : Nat := [200, 15, 7, 215, 48].getD v 0

/-- Two operations become one operator. -/
theorem difference_exact : ∃ catalog operator terms,
    forModule nestedDifference fullWidth [] true = .ok catalog ∧ catalog.operators = [operator] ∧
      catalog.arithmeticTerms = [terms] ∧ catalog.sourceOperations = [[0, 1]] ∧ terms.length = 3 ∧
      operator.kind = .sum ∧ Exact nestedDifference differenceValue operator terms := by
  have hrows : (forModule nestedDifference fullWidth [] true).toOption.map (fun catalog =>
      (catalog.operators.map fun operator => (operator.kind, operator.sourceOperation),
        catalog.sourceOperations, catalog.arithmeticTerms.map (·.length))) =
      some ([(.sum, 1)], [[0, 1]], [3]) := by decide +kernel
  cases hcatalog : forModule nestedDifference fullWidth [] true with
  | error e =>
    rw [hcatalog] at hrows
    cases hrows
  | ok catalog =>
    rw [hcatalog] at hrows
    simp only [Except.toOption, Option.map_some, Option.some_inj, Prod.mk.injEq,
      List.map_eq_singleton_iff] at hrows
    obtain ⟨⟨operator, hoperators, hkind, hsource⟩, hsources, terms, hterms, hlength⟩ := hrows
    obtain ⟨terms', sources, hterms', -, hexact⟩ := operators_exact_iff nestedDifference fullWidth []
      true catalog differenceValue (by decide) (valuation_of_agrees (by decide)) hcatalog 0 operator
      (by rw [hoperators]; rfl) (by rw [hkind]; decide)
    rw [hterms] at hterms'
    cases hterms'
    refine ⟨catalog, operator, terms, rfl, hoperators, hterms, hsources, hlength, hkind,
      (hexact.mpr ?_).1⟩
    rw [hsource]
    intro ty _
    have hsurplus : rootSurplus nestedDifference differenceValue [] 1 = 0 := by decide
    rw [if_pos (by decide), hsurplus]
    exact Int.dvd_zero _

/-- An unsigned product of a byte and a signed nibble. -/
def mixedProduct : WordModule := wires [signedNibble, byte]
  [⟨.signal ⟨0, 0, 4⟩, signedNibble⟩, ⟨.signal ⟨1, 0, 8⟩, byte⟩, ⟨.operation 0, byte⟩]
  [⟨.binary .mul 0 1, 2⟩]

/-- The nibble 15 times 2. -/
def productValue (v : Nat) : Nat := [15, 2, 30].getD v 0

/-- The multiplier takes the nibble for minus one. -/
theorem mixed_product_misread : mixedProduct.validate = true ∧ Valuation mixedProduct productValue ∧
    ∃ catalog operator, forModule mixedProduct fullWidth [] true = .ok catalog ∧
      catalog.operators = [operator] ∧ catalog.arithmeticTerms = [[]] ∧ operator.kind = .multiply ∧
      operator.sourceOperation = 0 ∧ operator.denote productValue [] = some (-2) ∧
      ¬ Exact mixedProduct productValue operator [] := by
  refine ⟨by decide, valuation_of_agrees (by decide), ?_⟩
  have hrows : (forModule mixedProduct fullWidth [] true).toOption.map (fun catalog =>
      (catalog.operators.map fun operator => (operator.kind, operator.sourceOperation,
        operator.denote productValue []), catalog.arithmeticTerms)) =
      some ([(.multiply, 0, some (-2))], [[]]) := by decide
  cases hcatalog : forModule mixedProduct fullWidth [] true with
  | error e =>
    rw [hcatalog] at hrows
    cases hrows
  | ok catalog =>
    rw [hcatalog] at hrows
    simp only [Except.toOption, Option.map_some, Option.some_inj, Prod.mk.injEq,
      List.map_eq_singleton_iff] at hrows
    obtain ⟨⟨operator, hoperators, hkind, hsource, hdenote⟩, hterms⟩ := hrows
    refine ⟨catalog, operator, rfl, hoperators, hterms, hkind, hsource, hdenote, ?_⟩
    rintro ⟨stored, ty, x, hstored, hty, hx, hequal⟩
    rw [hsource] at hstored
    cases hstored
    cases hty
    rw [hdenote] at hx
    cases hx
    exact absurd hequal (by decide)

end Opto.Planning
