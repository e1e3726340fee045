import Mathlib.Data.List.Sort
import Opto.Library.Worklist
import Opto.Word.Compact

/-!
# The operator catalog

Arithmetic operations become semantic operators. Additions and subtractions that are
used once, by an addition or subtraction of the same width, are absorbed into an
additive region, and so are the products a region adds up.
-/

namespace Opto.Planning

open Word
open Mapped (U32_MAX)

inductive SynthError
  | invariant (message : String)
  | capacity (message : String)
  | unsupported (message : String)
  deriving DecidableEq

def invariant {α : Type} (message : String) : Except SynthError α := .error (.invariant message)

def orInvariant {α : Type} (message : String) : Option α → Except SynthError α
  | some a => .ok a
  | none => invariant message

theorem orInvariant_settles {α : Type} (message : String) (x : Option α) :
    Settles (orInvariant message x) (fun a => x = some a) fun _ => True := by
  cases x with
  | none => trivial
  | some a => rfl

inductive OperatorKind
  | add
  | sum
  | subtract
  | increment
  | decrement
  | multiply
  | divide
  | modulo
  | dynamicExtract
  deriving DecidableEq, Repr

inductive ArithmeticTerm
  | value (value : Nat) (ty : WordType) (negative : Bool)
  | product (inputs : Nat × Nat) (inputTypes : WordType × WordType) (ty : WordType)
      (negative : Bool) (constantInput : Option Nat)
  deriving DecidableEq, Repr

namespace ArithmeticTerm

def isNegative : ArithmeticTerm → Bool
  | .value _ _ negative => negative
  | .product _ _ _ negative _ => negative

def isProduct : ArithmeticTerm → Bool
  | .value .. => false
  | .product .. => true

def hasVariableProduct : ArithmeticTerm → Bool
  | .product _ _ _ _ none => true
  | _ => false

def inputs : ArithmeticTerm → List Nat
  | .value operand _ _ => [operand]
  | .product inputs _ _ _ _ => [inputs.1, inputs.2]

end ArithmeticTerm

structure DynamicExtractOperator where
  maximumOffset : Nat
  selectionMax : Nat
  alignment : Nat
  offsetWidth : Nat
  tapCount : Nat
  deriving DecidableEq, Repr

def DynamicExtractOperator.new (maximumOffset availableOffsets alignment offsetWidth : Nat) :
    DynamicExtractOperator :=
  let selectionMax := min maximumOffset availableOffsets
  -- a stride beyond 127 bits is cut to `1 << 127`
  let taps := selectionMax / 2 ^ min alignment 127 + 1
  { maximumOffset, selectionMax, alignment, offsetWidth
    tapCount := if taps ≤ U32_MAX then taps else U32_MAX }

def ONE_HOT_EXTRACT_MAX_OFFSET : Nat := 4096

def ONE_HOT_EXTRACT_MIN_TAPS : Nat := 4

def ONE_HOT_EXTRACT_MAX_TAPS : Nat := 64

def ONE_HOT_EXTRACT_MIN_WIDTH : Nat := 4

def ONE_HOT_EXTRACT_SPARSITY : Nat := 4

def DynamicExtractOperator.supportsOneHot (extract : DynamicExtractOperator) (resultWidth : Nat) :
    Bool :=
  ONE_HOT_EXTRACT_MIN_WIDTH ≤ resultWidth && extract.selectionMax < ONE_HOT_EXTRACT_MAX_OFFSET &&
    (ONE_HOT_EXTRACT_MIN_TAPS ≤ extract.tapCount && extract.tapCount ≤ ONE_HOT_EXTRACT_MAX_TAPS) &&
    extract.tapCount * ONE_HOT_EXTRACT_SPARSITY ≤ extract.selectionMax + 1

structure SemanticOperator where
  id : Nat
  kind : OperatorKind
  sourceOperation : Nat
  inputs : Nat × Nat
  inputTypes : WordType × WordType
  result : Nat
  constantInput : Option Nat
  termCount : Nat
  negativeTermCount : Nat
  productTermCount : Nat
  variableProductTermCount : Nat
  semanticWidth : Nat
  implementationWidth : Nat
  signed : Bool
  dynamicExtract : Option DynamicExtractOperator
  deriving DecidableEq, Repr

/-- What the demand, range and known-bits analyses answer; the catalog only copies it. -/
structure Analyses where
  implementationWidth : Nat → Nat
  offsetMaximum : Nat → Option Nat
  offsetAlignment : Nat → Nat

/-! Uses. -/

/-- Every direct use of a value, as often as it is used. -/
def directValueUses (m : WordModule) : List Nat :=
  m.operations.flatMap (·.kind.inputs) ++ m.rootValues []

def incrementUseCount (uses : List Nat) (value : Nat) : Except SynthError (List Nat) := do
  let count ← orInvariant s!"use references unknown value ValueId({value})" uses[value]?
  if count < U32_MAX then return uses.set value (count + 1)
  else .error (.capacity "value use count exceeds 32-bit capacity")

def valueUseCounts (m : WordModule) : Except SynthError (List Nat) :=
  (directValueUses m).foldlM incrementUseCount (List.replicate m.values.length 0)

def isAdditive : OpKind → Bool
  | .binary .add _ _ | .binary .sub _ _ => true
  | _ => false

def requiresImplementation : OpKind → Bool
  | .binary .add _ _ | .binary .sub _ _ | .binary .mul _ _ | .binary .div _ _ | .binary .mod _ _
  | .dynamicExtract .. => true
  | _ => false

section Module

variable (m : WordModule)

def valueType (value : Nat) : Except SynthError WordType :=
  orInvariant s!"semantic operation has unknown input ValueId({value})" (m.valueTy value)

/-! Constants. -/

/-- The number one, by its bits. -/
def isConstantOne (value : Nat) : Bool :=
  match m.values[value]? with
  | some ⟨.constant bits, _⟩ => bits.getLast? = some .one && bits.dropLast.all (· = .zero)
  | _ => false

/-- A constant below casts; operands come first, so a value's number bounds the casts. -/
def definedConstant : Nat → Nat → Bool
  | 0, _ => false
  | fuel + 1, value =>
    match m.values[value]? with
    | some ⟨.constant bits, _⟩ => bits.all fun bit => bit = .zero || bit = .one
    | some ⟨.operation operation, _⟩ =>
      match m.operations[operation]? with
      | some ⟨.cast _ source _, _⟩ => definedConstant fuel source
      | _ => false
    | _ => false

def isDefinedConstant (value : Nat) : Bool := definedConstant m (value + 1) value

def constantInput (inputs : Nat × Nat) : Option Nat :=
  if isDefinedConstant m inputs.1 then some 0
  else if isDefinedConstant m inputs.2 then some 1
  else none

/-! Multiplications. -/

/-- An extension in front of a multiplication is dropped; its kind becomes the signedness. -/
def normalizeMultiplyInput (input : Nat) : Except SynthError (Nat × WordType) := do
  let ty ← valueType m input
  match m.values[input]? with
  | some ⟨.operation operation, _⟩ =>
    let operation ← orInvariant
      s!"multiply input references unknown operation OpId({operation})" m.operations[operation]?
    match operation.kind with
    | .cast kind value target => do
      let sourceTy ← valueType m value
      if target.width ≤ sourceTy.width then return (input, ty)
      else match kind with
        | .signExtend => return (value, { sourceTy with signed := true })
        | .zeroExtend => return (value, { sourceTy with signed := false })
        | .truncate => return (input, ty)
    | _ => return (input, ty)
  | _ => return (input, ty)

/-! Additive regions. -/

structure AdditiveRegion where
  terms : List ArithmeticTerm
  operations : List Nat
  deriving DecidableEq

structure AdditiveRegions where
  byRoot : List (Nat × AdditiveRegion)
  absorbed : List Nat

/-- An operand to be added or subtracted, and the operation it is an operand of. -/
structure Operand where
  value : Nat
  negative : Bool
  parent : Nat
  deriving DecidableEq

/-- The operation that uses a value, where that is the value's only use. -/
def consumers (uses : List Nat) : List (Option Nat) :=
  m.operations.zipIdx.foldl (fun consumer entry =>
    entry.1.kind.inputs.foldl (fun consumer input =>
      if uses[input]? = some 1 then consumer.set input (some entry.2) else consumer) consumer)
    (List.replicate m.values.length none)

def absorbParent (consumer : List (Option Nat)) (operation : Operation) :
    Except SynthError (Option Nat) :=
  if isAdditive operation.kind then
    match consumer[operation.result]?.join with
    | none => return none
    | some parent =>
      match m.operations[parent]? with
      | none => return none
      | some parentOperation =>
        if isAdditive parentOperation.kind then do
          let ty ← valueType m operation.result
          let parentTy ← valueType m parentOperation.result
          return if ty.width = parentTy.width then some parent else none
        else return none
  else return none

def absorbInto (uses : List Nat) : Except SynthError (List (Option Nat)) :=
  m.operations.mapM (absorbParent m (consumers m uses))

/-- The operands of an addition or subtraction; the left one is taken up first. -/
def additiveOperands (operation : Nat) (kind : OpKind) (negative : Bool) :
    Except SynthError (List Operand) :=
  match kind with
  | .binary .add left right => .ok [⟨left, negative, operation⟩, ⟨right, negative, operation⟩]
  | .binary .sub left right => .ok [⟨left, negative, operation⟩, ⟨right, !negative, operation⟩]
  | .binary .. => invariant "arithmetic region contains a non-additive operation"
  | _ => invariant "arithmetic region contains a non-binary operation"

/-- The operation of the operand, where it is absorbed into the operand's parent. -/
def absorbedChild (absorb : List (Option Nat)) (operand : Operand) : Option Nat := do
  let child ← m.producer operand.value
  if absorb[child]?.join = some operand.parent then some child else none

/-- The multiplication of the operand, where the operand is used once and as wide as its
parent's result. -/
def productChild (uses : List Nat) (ty parentTy : WordType) (value : Nat) :
    Option (Nat × Nat × Nat) := do
  let child ← m.producer value
  let operation ← m.operations[child]?
  match operation.kind with
  | .binary .mul left right =>
    if uses[value]? = some 1 ∧ ty.width = parentTy.width then some (child, left, right) else none
  | _ => none

/-- The term of an operand that is not absorbed. -/
def boundaryTerm (uses : List Nat) (s : AdditiveRegion) (operand : Operand) :
    Except SynthError AdditiveRegion := do
  let parent ← orInvariant
    s!"arithmetic term references unknown parent operation {operand.parent}"
    m.operations[operand.parent]?
  let parentTy ← valueType m parent.result
  let valueTy ← valueType m operand.value
  let ty := { valueTy with signed := valueTy.signed && parentTy.signed }
  match productChild m uses valueTy parentTy operand.value with
  | some (index, left, right) => do
    let (left, leftTy) ← normalizeMultiplyInput m left
    let (right, rightTy) ← normalizeMultiplyInput m right
    return {
      operations := s.operations ++ [index]
      terms := s.terms ++ [.product (left, right) (leftTy, rightTy) ty operand.negative
        (constantInput m (left, right))] }
  | none =>
    return { s with terms := s.terms ++ [.value operand.value ty operand.negative] }

def regionStep (absorb : List (Option Nat)) (uses : List Nat) (s : AdditiveRegion)
    (operand : Operand) : Except SynthError (AdditiveRegion × List Operand) :=
  match absorbedChild m absorb operand with
  | some child => do
    let operation ← orInvariant s!"arithmetic region references unknown operation {child}"
      m.operations[child]?
    let pushed ← additiveOperands child operation.kind operand.negative
    return ({ s with operations := s.operations ++ [child] }, pushed)
  | none => do
    let s ← boundaryTerm m uses s operand
    return (s, [])

/-- Every operation is absorbed once and has two operands. -/
def collectAdditiveRegion (absorb : List (Option Nat)) (uses : List Nat) (root : Nat) :
    Except SynthError AdditiveRegion := do
  let operation ← orInvariant s!"unknown arithmetic-region root {root}" m.operations[root]?
  let pending ← additiveOperands root operation.kind false
  let region ← Worklist.exhaust (regionStep m absorb uses)
    (.capacity "the region did not end") (2 * m.operations.length + 3) ⟨[], [root]⟩ pending
  return { region with operations := region.operations.insertionSort (· ≤ ·) }

def additiveRegions (uses : List Nat) : Except SynthError AdditiveRegions := do
  let absorb ← absorbInto m uses
  m.operations.zipIdx.foldlM (fun (regions : AdditiveRegions) entry =>
    if !isAdditive entry.1.kind || absorb[entry.2]?.join.isSome then .ok regions
    else do
      let region ← collectAdditiveRegion m absorb uses entry.2
      if region.terms.length < 3 ∧ !region.terms.any (·.isProduct) then return regions
      else return {
        byRoot := regions.byRoot ++ [(entry.2, region)]
        absorbed := regions.absorbed ++ region.operations.filter (· ≠ entry.2) }) ⟨[], []⟩

def arithmeticRegions (observed : List Nat) : Except SynthError AdditiveRegions := do
  let uses ← valueUseCounts m
  let uses ← observed.foldlM incrementUseCount uses
  additiveRegions m uses

/-! Operators. -/

def operatorKind (op : BinaryOp) (left right : Nat) : Option (OperatorKind × Nat × Nat) :=
  match op with
  | .add =>
    if isConstantOne m left then some (.increment, right, left)
    else if isConstantOne m right then some (.increment, left, right)
    else some (.add, left, right)
  | .sub => if isConstantOne m right then some (.decrement, left, right)
    else some (.subtract, left, right)
  | .mul => some (.multiply, left, right)
  | .div => some (.divide, left, right)
  | .mod => some (.modulo, left, right)
  | _ => none

/-- The two inputs of an operator with their types. -/
abbrev TypedInputs := (Nat × WordType) × (Nat × WordType)

def normalizedInputs (left right : Nat) : Except SynthError TypedInputs := do
  let left ← normalizeMultiplyInput m left
  let right ← normalizeMultiplyInput m right
  return (left, right)

def plainInputs (left right : Nat) : Except SynthError TypedInputs := do
  let leftTy ← valueType m left
  let rightTy ← valueType m right
  return ((left, leftTy), (right, rightTy))

variable (analyses : Analyses)

def extractOperator (id index : Nat) (result value offset width : Nat) :
    Except SynthError (Option SemanticOperator) := do
  let resultTy ← orInvariant
    s!"dynamic extract operation {index} has unknown result ValueId({result})" (m.valueTy result)
  let implementationWidth := analyses.implementationWidth result
  if implementationWidth = 0 then return none
  else
    let valueTy ← valueType m value
    let offsetTy ← valueType m offset
    if valueTy.width < width then invariant "dynamic extract width exceeds its input"
    else
      let maximumOffset ← orInvariant "cannot prove dynamic extract offset bounds"
        (analyses.offsetMaximum offset)
      return some {
        id
        kind := .dynamicExtract
        sourceOperation := index
        inputs := (value, offset)
        inputTypes := (valueTy, offsetTy)
        result
        constantInput := none
        termCount := 0
        negativeTermCount := 0
        productTermCount := 0
        variableProductTermCount := 0
        semanticWidth := resultTy.width
        implementationWidth
        signed := resultTy.signed
        dynamicExtract := some (.new maximumOffset (valueTy.width - width)
          (analyses.offsetAlignment offset) offsetTy.width) }

def semanticOperator (id index : Nat) : Except SynthError (Option SemanticOperator) := do
  let operation ← orInvariant s!"unknown source operation index {index}" m.operations[index]?
  match operation.kind with
  | .dynamicExtract value offset width =>
    extractOperator m analyses id index operation.result value offset width
  | .binary op left right =>
    match operatorKind m op left right with
    | none => return none
    | some (kind, left, right) => do
      -- a multiplication meets its errors here, another operation those of its types below
      let normalized ← if kind = .multiply then some <$> normalizedInputs m left right
        else pure none
      let resultTy ← orInvariant
        s!"semantic operation OpId({index}) has unknown result ValueId({operation.result})"
        (m.valueTy operation.result)
      let implementationWidth := analyses.implementationWidth operation.result
      if implementationWidth = 0 then return none
      else
        let (left, right) ← match normalized with
          | some inputs => pure inputs
          | none => plainInputs m left right
        return some {
          id
          kind
          sourceOperation := index
          inputs := (left.1, right.1)
          inputTypes := (left.2, right.2)
          result := operation.result
          constantInput := constantInput m (left.1, right.1)
          termCount := 0
          negativeTermCount := 0
          productTermCount := 0
          variableProductTermCount := 0
          semanticWidth := resultTy.width
          implementationWidth
          signed := resultTy.signed
          dynamicExtract := none }
  | _ => return none

def count32 (what : String) (count : Nat) : Except SynthError Nat :=
  if count ≤ U32_MAX then .ok count
  else .error (.capacity s!"{what} term count exceeds 32-bit capacity")

def semanticSumOperator (id index : Nat) (region : AdditiveRegion) :
    Except SynthError (Option SemanticOperator) := do
  let operation ← orInvariant s!"unknown arithmetic-region root {index}" m.operations[index]?
  let resultTy ← orInvariant
    s!"arithmetic-region root {index} has unknown result ValueId({operation.result})"
    (m.valueTy operation.result)
  let implementationWidth := analyses.implementationWidth operation.result
  if implementationWidth = 0 then return none
  else
    let boundary := region.terms.flatMap (·.inputs)
    let first ← orInvariant "arithmetic region has no boundary inputs" boundary[0]?
    let second := boundary[1]?.getD first
    let termCount ← count32 "arithmetic" region.terms.length
    let negativeTermCount ← count32 "negative arithmetic" (region.terms.countP (·.isNegative))
    let productTermCount ← count32 "product" (region.terms.countP (·.isProduct))
    let variableProductTermCount ← count32 "variable product"
      (region.terms.countP (·.hasVariableProduct))
    let firstTy ← valueType m first
    let secondTy ← valueType m second
    return some {
      id
      kind := .sum
      sourceOperation := index
      inputs := (first, second)
      inputTypes := (firstTy, secondTy)
      result := operation.result
      constantInput := none
      termCount
      negativeTermCount
      productTermCount
      variableProductTermCount
      semanticWidth := resultTy.width
      implementationWidth
      signed := resultTy.signed
      dynamicExtract := none }

/-! The catalog. -/

structure OperatorCatalog where
  operators : List SemanticOperator
  operatorBySourceOperation : List (Option Nat)
  elidedOperations : List Bool
  sourceOperations : List (List Nat)
  arithmeticTerms : List (List ArithmeticTerm)

def freshOperatorId (count : Nat) : Except SynthError Nat :=
  if U32_MAX < count then .error (.capacity "operator ID exceeds 32-bit capacity")
  else if count = U32_MAX then invariant "exhausted operator ID space"
  else .ok count

/-- The entries of a list of operations in a table are set. -/
def setAll {α : Type} (table : List α) (operations : List Nat) (a : α) : List α :=
  operations.foldl (fun table operation => table.set operation a) table

def catalogStep (regions : AdditiveRegions) (s : OperatorCatalog) (index : Nat) :
    Except SynthError OperatorCatalog := do
  let id ← freshOperatorId s.operators.length
  if index ∈ regions.absorbed then return s
  else
    let region := regions.byRoot.lookup index
    let operator ← match region with
      | some region => semanticSumOperator m analyses id index region
      | none => semanticOperator m analyses id index
    match operator with
    | none =>
      let elided := match region with
        | some region => region.operations
        | none => if (m.operations[index]?.map (requiresImplementation ·.kind)).getD false
            then [index] else []
      return { s with elidedOperations := setAll s.elidedOperations elided true }
    | some operator =>
      let sources := match region with
        | some region => region.operations
        | none => [operator.sourceOperation]
      let owned := match region with
        | some region => region.operations ++ [index]
        | none => [index]
      return { s with
        operators := s.operators ++ [operator]
        sourceOperations := s.sourceOperations ++ [sources]
        arithmeticTerms := s.arithmeticTerms ++ [(region.map (·.terms)).getD []]
        operatorBySourceOperation := setAll s.operatorBySourceOperation owned (some id) }

def forModule (observed : List Nat) (fuseArithmetic : Bool) : Except SynthError OperatorCatalog := do
  let regions ← if fuseArithmetic then arithmeticRegions m observed else .ok ⟨[], []⟩
  (List.range m.operations.length).foldlM (catalogStep m analyses regions)
    ⟨[], List.replicate m.operations.length none, List.replicate m.operations.length false, [], []⟩

end Module

end Opto.Planning
