import Opto.Planning.Catalog
import Opto.Word.Arithmetic
import Opto.Word.Module

/-!
# What an operator stands for

The arithmetic that an operator's kind, inputs, input types, terms and signs denote,
and by how much an input of a multiplication exceeds the number it is taken for.
-/

namespace Opto.Planning

open Word
open TwosComplement

def signed (negative : Bool) (x : Int) : Int := if negative then -x else x

@[simp] theorem signed_false (x : Int) : signed false x = x := rfl

@[simp] theorem signed_not (negative : Bool) (x : Int) : signed (!negative) x = -signed negative x := by
  cases negative <;> simp [signed]

theorem signed_add (negative : Bool) (x y : Int) :
    signed negative (x + y) = signed negative x + signed negative y := by
  cases negative with
  | false => rfl
  | true => exact Int.neg_add

theorem signed_neg (negative : Bool) (x : Int) : signed negative (-x) = -signed negative x := by
  cases negative <;> simp [signed]

theorem signed_sub (negative : Bool) (x y : Int) :
    signed negative (x - y) = signed negative x - signed negative y := by
  rw [Int.sub_eq_add_neg, signed_add, signed_neg, Int.sub_eq_add_neg]

theorem signed_modEq {n x y : Int} (negative : Bool) (h : x ≡ y [ZMOD n]) :
    signed negative x ≡ signed negative y [ZMOD n] := by
  cases negative with
  | false => exact h
  | true => exact h.neg

section Denote

variable (value : Nat → Nat)

/-- A term's operands are extended by the types that the term gives them. -/
def ArithmeticTerm.denote : ArithmeticTerm → Int
  | .value operand ty negative => signed negative (read ty.signed ty.width (value operand))
  | .product inputs types _ negative _ =>
    signed negative (read types.1.signed types.1.width (value inputs.1) *
      read types.2.signed types.2.width (value inputs.2))

/-- A multiplier extends an input by the type it is given; the other implementations extend
a signed input only when the operator is signed. -/
def SemanticOperator.input (operator : SemanticOperator) (ty : WordType) (x : Nat) : Int :=
  if operator.kind = .multiply then read ty.signed ty.width x
  else read (operator.signed && ty.signed) ty.width x

/-- Nothing is said about dynamic extracts. -/
def SemanticOperator.denote (operator : SemanticOperator) (terms : List ArithmeticTerm) : Option Int :=
  let left := operator.input operator.inputTypes.1 (value operator.inputs.1)
  let right := operator.input operator.inputTypes.2 (value operator.inputs.2)
  match operator.kind with
  | .add => some (left + right)
  | .sum => some (terms.map (·.denote value)).sum
  | .subtract => some (left - right)
  | .increment => some (left + 1)
  | .decrement => some (left - 1)
  | .multiply => some (left * right)
  | .divide => some (left.tdiv right)
  | .modulo => some (if right = 0 then 0 else left.tmod right)
  | .dynamicExtract => none

end Denote

/-! Misread operands. -/

section Surplus

variable (m : WordModule) (value : Nat → Nat)

/-- The kind of the extension that a value comes from. -/
def widening (input : Nat) : Option CastKind := do
  let operation ← m.producer input
  let stored ← m.operations[operation]?
  match stored.kind with
  | .cast kind source target => do
    let sourceTy ← m.valueTy source
    if sourceTy.width < target.width ∧ kind ≠ .truncate then some kind else none
  | _ => none

/-- Whether a multiplier sign-extends an operand: a sign extension is, and so is a signed
value that comes from no extension. -/
def takenSigned (input : Nat) (ty : WordType) : Bool :=
  match widening m input with
  | some kind => kind = .signExtend
  | none => ty.signed

/-- A negative operand that the multiplier sign-extends and the multiplication zero-extends
is too small by its size. -/
def operandSurplus (product : WordType) (input : Nat) : Int :=
  match m.valueTy input with
  | some ty =>
    if takenSigned m input ty = true ∧ (product.signed && ty.signed) = false ∧
        2 ^ ty.width ≤ 2 * value input then 2 ^ ty.width
    else 0
  | none => 0

def operandReading (product : WordType) (input : Nat) : Int :=
  match m.valueTy input with
  | some ty => extended product ty (value input)
  | none => 0

/-- By how much a product exceeds the product that its operands are taken for. -/
def productSurplus (product : WordType) (left right : Nat) : Int :=
  operandSurplus m value product left * operandReading m value product right +
    operandSurplus m value product right * operandReading m value product left -
      operandSurplus m value product left * operandSurplus m value product right

/-- Whether a value has one use, observations included. -/
def UsedOnce (observed : List Nat) (v : Nat) : Prop := (directValueUses m ++ observed).count v = 1

instance (observed : List Nat) (v : Nat) : Decidable (UsedOnce m observed v) :=
  inferInstanceAs (Decidable (_ = _))

/-- The addition or subtraction that computes an operand which is used once, by an addition or
subtraction of the same width. -/
def addend (observed : List Nat) (operand parent : Nat) : Option Nat := do
  let child ← m.producer operand
  let stored ← m.operations[child]?
  let parentStored ← m.operations[parent]?
  let ty ← m.valueTy operand
  let parentTy ← m.valueTy parentStored.result
  if isAdditive stored.kind ∧ isAdditive parentStored.kind ∧ ty.width = parentTy.width ∧
    UsedOnce m observed operand then some child else none

/-- The factors of the multiplication that computes an operand, where the operand is used once
and as wide as the result. -/
def addedProduct (observed : List Nat) (operand parent : Nat) : Option (WordType × Nat × Nat) := do
  let child ← m.producer operand
  let stored ← m.operations[child]?
  let parentStored ← m.operations[parent]?
  let ty ← m.valueTy operand
  let parentTy ← m.valueTy parentStored.result
  match stored.kind with
  | .binary .mul left right =>
    if UsedOnce m observed operand ∧ ty.width = parentTy.width then some (ty, left, right) else none
  | _ => none

/-- Whether an operand of an addition or subtraction makes its region larger than two values. -/
def extendsRegion (observed : List Nat) (operand parent : Nat) : Bool :=
  (addend m observed operand parent).isSome || (addedProduct m observed operand parent).isSome

/-- The same for an operand of an additive region, which adds up what its products have. -/
def regionSurplus (observed : List Nat) : Nat → Nat → Nat → Int
  | 0, _, _ => 0
  | fuel + 1, operand, parent =>
    match addend m observed operand parent with
    | some child =>
      match m.operations[child]? with
      | some ⟨.binary .add left right, _⟩ =>
        regionSurplus observed fuel left child + regionSurplus observed fuel right child
      | some ⟨.binary .sub left right, _⟩ =>
        regionSurplus observed fuel left child - regionSurplus observed fuel right child
      | _ => 0
    | none =>
      match addedProduct m observed operand parent with
      | some (ty, left, right) => productSurplus m value ty left right
      | none => 0

end Surplus

/-! Reading an operand. -/

section Reading

variable {m : WordModule} {value : Nat → Nat}

/-- The input of a multiplication is the operand itself or what an extension extends. -/
theorem normalize_settles (input : Nat) :
    Settles (normalizeMultiplyInput m input) (fun typed => ∃ ty, m.valueTy input = some ty ∧
      (widening m input = none ∧ typed = (input, ty) ∨
        ∃ o kind target result ty', m.producer input = some o ∧
          m.operations[o]? = some ⟨.cast kind typed.1 target, result⟩ ∧
          m.valueTy typed.1 = some ty' ∧ ty'.width < target.width ∧ widening m input = some kind ∧
          kind ≠ .truncate ∧ typed.2 = { ty' with signed := decide (kind = .signExtend) }))
      fun _ => True := by
  unfold normalizeMultiplyInput
  apply Settles.bind (orInvariant_settles _ _)
  intro ty hty
  have plain (h : widening m input = none) : ∃ ty', m.valueTy input = some ty' ∧
      (widening m input = none ∧ (input, ty) = (input, ty') ∨
        ∃ o kind target result ty'', m.producer input = some o ∧
          m.operations[o]? = some ⟨.cast kind (input, ty).1 target, result⟩ ∧
          m.valueTy (input, ty).1 = some ty'' ∧ ty''.width < target.width ∧
          widening m input = some kind ∧ kind ≠ .truncate ∧
          (input, ty).2 = { ty'' with signed := decide (kind = .signExtend) }) :=
    ⟨ty, hty, .inl ⟨h, rfl⟩⟩
  split
  · rename_i o ty' hvalue
    have hproducer : m.producer input = some o := WordModule.producer_eq_some.mpr ⟨ty', hvalue⟩
    apply Settles.bind (orInvariant_settles _ _)
    intro stored hstored
    split
    · rename_i kind source target hkind
      apply Settles.bind (orInvariant_settles _ _)
      intro sourceTy hsource
      have hwiden : widening m input =
          if sourceTy.width < target.width ∧ kind ≠ .truncate then some kind else none := by
        simp only [widening, hproducer, hstored, hkind, hsource, Option.bind_eq_bind, Option.bind_some]
      have hcast : m.operations[o]? = some ⟨.cast kind source target, stored.result⟩ := by
        rw [hstored, ← hkind]
      split_ifs with hle
      · exact plain (by rw [hwiden, if_neg (by omega)])
      · rw [Nat.not_le] at hle
        cases kind with
        | zeroExtend =>
          rw [if_pos ⟨hle, by decide⟩] at hwiden
          exact ⟨ty, hty, .inr ⟨o, _, target, _, sourceTy, hproducer, hcast, hsource, hle, hwiden,
            by decide, rfl⟩⟩
        | signExtend =>
          rw [if_pos ⟨hle, by decide⟩] at hwiden
          exact ⟨ty, hty, .inr ⟨o, _, target, _, sourceTy, hproducer, hcast, hsource, hle, hwiden,
            by decide, rfl⟩⟩
        | truncate => exact plain (by rw [hwiden, if_neg (by simp)])
    · rename_i hkind
      apply plain
      simp only [widening, hproducer, hstored, Option.bind_eq_bind, Option.bind_some]
  · rename_i hne
    apply plain
    rw [widening, WordModule.producer_eq_none hne]
    rfl

theorem extended_plain (product ty : WordType) (x : Nat) :
    extended product ty x = read ty.signed ty.width x +
      if ty.signed = true ∧ (product.signed && ty.signed) = false ∧ 2 ^ ty.width ≤ 2 * x
      then 2 ^ ty.width else 0 := by
  unfold extended
  cases hty : ty.signed with
  | false => simp
  | true =>
    cases hproduct : product.signed with
    | true => simp
    | false =>
      by_cases hneg : 2 ^ ty.width ≤ 2 * x
      · rw [if_pos ⟨rfl, rfl, hneg⟩, read_negative hneg]
        simp
      · rw [if_neg fun h => hneg h.2.2, read_nonneg true (by omega)]
        simp

theorem extended_zeroExtend (product : WordType) {source target : WordType} {x : Nat}
    (hx : x < 2 ^ source.width) (hlt : source.width < target.width) :
    extended product target (CastKind.zeroExtend.cast source target x) = read false source.width x := by
  have hpow : 2 ^ (source.width + 1) ≤ 2 ^ target.width := Nat.pow_le_pow_right (by omega) hlt
  rw [Nat.pow_succ] at hpow
  rw [extended, CastKind.cast, read_unsigned]
  exact read_nonneg _ (by omega)

theorem extended_signExtend (product : WordType) {source target : WordType} {x : Nat}
    (hx : x < 2 ^ source.width) (hlt : source.width < target.width) :
    extended product target (CastKind.signExtend.cast source target x) = read true source.width x +
      if (product.signed && target.signed) = false ∧
        2 ^ target.width ≤ 2 * CastKind.signExtend.cast source target x
      then 2 ^ target.width else 0 := by
  have hneg := signExtend_negative_iff hx hlt.le
  rw [extended, CastKind.cast]
  cases product.signed && target.signed with
  | true =>
    rw [if_neg (by simp), Int.add_zero]
    exact read_signExtend hx hlt.le
  | false =>
    rw [read_unsigned, encode_signExtend hx hlt.le]
    simp only [true_and, hneg]

theorem cast_type (hvalid : m.validate = true) {input o : Nat} {kind : CastKind} {source result : Nat}
    {target ty : WordType} (hproducer : m.producer input = some o)
    (hop : m.operations[o]? = some ⟨.cast kind source target, result⟩)
    (hty : m.valueTy input = some ty) : result = input ∧ ty = target := by
  obtain ⟨stored, hstored, hresult⟩ := WordModule.valid_producer hvalid hproducer
  rw [hop, Option.some_inj] at hstored
  subst hstored
  obtain ⟨ty', hty', -, htype, -⟩ := WordModule.valid_result hvalid hop
  simp only at hresult hty' htype
  rw [hresult, hty, Option.some_inj] at hty'
  subst hty'
  refine ⟨hresult, ?_⟩
  simp only [WordModule.operationType, Option.bind_eq_bind] at htype
  obtain ⟨sourceTy, -, htype⟩ := Option.bind_eq_some_iff.mp htype
  split_ifs at htype
  exact (Option.some_inj.mp htype).symm

/-- The operand counts for what the input is read as, and its surplus. -/
theorem reading_settles (hvalid : m.validate = true) (hval : Valuation m value)
    (product : WordType) (input : Nat) :
    Settles (normalizeMultiplyInput m input) (fun typed => operandReading m value product input =
      read typed.2.signed typed.2.width (value typed.1) + operandSurplus m value product input)
      fun _ => True := by
  apply (normalize_settles input).mono
  rintro ⟨source, sourceTy⟩ ⟨ty, hty, hcases⟩
  simp only [operandReading, operandSurplus, hty]
  rcases hcases with ⟨hwiden, he⟩ |
    ⟨o, kind, target, result, ty', hproducer, hop, hsource, hlt, hwiden, htruncate, he⟩
  · obtain ⟨rfl, rfl⟩ := Prod.mk.injEq .. ▸ he
    simp only [takenSigned, hwiden]
    exact extended_plain product sourceTy (value source)
  · simp only at he hop hsource
    subst he
    obtain ⟨rfl, rfl⟩ := cast_type hvalid hproducer hop hty
    have hx := hval.bounded source ty' hsource
    rw [hval.cast o kind source ty result ty' hop hsource]
    simp only [takenSigned, hwiden]
    cases kind with
    | zeroExtend =>
      rw [extended_zeroExtend product hx hlt]
      simp
    | signExtend =>
      rw [extended_signExtend product hx hlt]
      simp
    | truncate => exact absurd rfl htruncate

/-- A product is what its operands are taken for, and its surplus. -/
theorem product_reading {left right : Nat} {product : WordType} {x y : Int}
    (hx : operandReading m value product left = x + operandSurplus m value product left)
    (hy : operandReading m value product right = y + operandSurplus m value product right) :
    operandReading m value product left * operandReading m value product right =
      x * y + productSurplus m value product left right := by
  rw [productSurplus, hx, hy]
  ring

end Reading

end Opto.Planning
