import Opto.Bitblast.AdderRecipes
import Opto.Bitblast.Booth
import Opto.Planning.Meaning

/-!
# Arithmetic regions

A region sums values and products, each added or subtracted, in one matrix. Constant terms
go into the correction, products with constants are collected by their multiplicand, and a
row of one early bit may become the carry into the final adder.
-/

namespace Opto.Bitblast

open Word
open Planning (ArithmeticTerm SemanticOperator)

inductive ProductEncoding
  | radix4
  | array
deriving DecidableEq, Repr

structure RegionRecipe where
  schedule : CompressionSchedule
  network : CarryNetwork
  encoding : ProductEncoding

structure ConstantProductGroup where
  multiplicand : Nat
  multiplicandTy : WordType
  coefficient : List Bool

/-- The blaster around a region: where a source value is found in the region's module, and
how a value is lowered to bits of its type. -/
structure RegionContext (σ ε β : Type) where
  sourceValues : Option (Nat → Option Nat)
  value : Nat → WordType → BlastM σ ε (Operand β)

namespace RegionContext

variable {σ ε β : Type} (context : RegionContext σ ε β)

def localOf (source : Nat) : Option Nat :=
  match context.sourceValues with
  | some values => values source
  | none => some source

def localSourceValue (source : Nat) : BlastM σ ε Nat :=
  match context.localOf source with
  | some value => pure value
  | none => invariantError
      s!"regional provider input ValueId({source}) is absent from its local dependency cone"

def localArithmeticTerm (term : ArithmeticTerm) : BlastM σ ε ArithmeticTerm :=
  match term with
  | .value value ty negative => do
    let value ← context.localSourceValue value
    return .value value ty negative
  | .product inputs inputTypes ty negative constantInput => do
    let left ← context.localSourceValue inputs.1
    let right ← context.localSourceValue inputs.2
    return .product (left, right) inputTypes ty negative constantInput

end RegionContext

variable {σ ε β : Type} [BitBackend σ ε β]

/-! The carry input. -/

/-- A row of one early bit: the others are zeros, and nothing arrives before it. -/
def carriesEarly (isZero : β → Bool) (level : β → Option Nat) (rows : List (BitRow β)) (index : Nat) :
    Bool :=
  match rows[index]? with
  | some (some carry :: bits) =>
    !isZero carry && match level carry with
    | some carryLevel =>
      bits.all (fun slot => slot.all isZero) &&
        (rows.eraseIdx index).all fun row => row.all fun slot => slot.all fun bit =>
          isZero bit || (level bit).any (carryLevel ≤ ·)
    | none => false
  | _ => false

def takeCarryInput (isZero : β → Bool) (level : β → Option Nat) (matrix : BitMatrix β) :
    BitMatrix β × Option β :=
  if matrix.rows.length ≠ 3 ∨ matrix.correction.any id then (matrix, none)
  else
    match (List.range matrix.rows.length).find? (carriesEarly isZero level matrix.rows) with
    | some index =>
      ({ matrix with rows := matrix.rows.eraseIdx index },
        (matrix.rows[index]?.bind List.head?).join)
    | none => (matrix, none)

/-! Coefficients. -/

def addModularLoop (negative : Bool) : List Bool → List Bool → Bool → List Bool
  | bit :: accumulator, operand :: operands, carry =>
    let operand := operand ^^ negative
    ((bit ^^ operand) ^^ carry) ::
      addModularLoop negative accumulator operands ((bit && operand) || (carry && (bit || operand)))
  | accumulator, _, _ => accumulator

def addModularCoefficient (accumulator operand : List Bool) (negative : Bool) : List Bool :=
  addModularLoop negative accumulator operand negative

def addToGroups (width : Nat) (multiplicand : Nat) (ty : WordType) (coefficient : List Bool)
    (negative : Bool) : List ConstantProductGroup → List ConstantProductGroup
  | [] => [⟨multiplicand, ty, addModularCoefficient (List.replicate width false) coefficient negative⟩]
  | group :: groups =>
    if group.multiplicand = multiplicand ∧ group.multiplicandTy = ty then
      { group with coefficient := addModularCoefficient group.coefficient coefficient negative } :: groups
    else group :: addToGroups width multiplicand ty coefficient negative groups

def coefficientBit (value : Operand β) (index : Nat) : BlastM σ ε Bool := do
  let bit ← resizedBit value index value.ty.signed
  match ← scalarConstant bit with
  | some known => pure known
  | none => invariantError "constant arithmetic product contains an undefined bit"

/-! Terms. -/

def appendConstantCoefficientRows (context : RegionContext σ ε β) (resultTy : WordType)
    (matrix : BitMatrix β) (group : ConstantProductGroup) : BlastM σ ε (BitMatrix β) := do
  let value ← context.value group.multiplicand group.multiplicandTy
  let bits ← resizedBits value resultTy.width value.ty.signed
  let product ← constantCoefficientMatrix bits group.coefficient resultTy.width
  appendMatrix matrix product false

def appendValue (context : RegionContext σ ε β) (resultTy : WordType) (matrix : BitMatrix β)
    (value : Nat) (ty : WordType) (negative : Bool) : BlastM σ ε (BitMatrix β) := do
  let operand ← context.value value ty
  let row ← resizedBits operand resultTy.width true
  match ← boolVector row with
  | some known => return addCorrection matrix known negative
  | none => appendSignedRow matrix (row.map some) negative

def variableProductMatrix [DecidableEq β] (encoding : ProductEncoding) (left right : Operand β)
    (resultTy : WordType) : BlastM σ ε (BitMatrix β) :=
  match encoding with
  | .radix4 => radix4ProductMatrix left right resultTy
  | .array => arrayProductMatrix left right resultTy

def appendProductRows [DecidableEq β] (context : RegionContext σ ε β) (encoding : ProductEncoding)
    (resultTy : WordType) (matrix : BitMatrix β) (inputs : Nat × Nat) (inputTypes : WordType × WordType)
    (negative : Bool) : BlastM σ ε (BitMatrix β) := do
  let left ← context.value inputs.1 inputTypes.1
  let right ← context.value inputs.2 inputTypes.2
  let product ← variableProductMatrix encoding left right resultTy
  appendMatrix matrix product negative

/-- The constant and the multiplicand of a product with a constant. -/
def constantInputs (inputs : Nat × Nat) (inputTypes : WordType × WordType) (constantInput : Nat) :
    BlastM σ ε ((Nat × WordType) × (Nat × WordType)) :=
  match constantInput with
  | 0 => pure ((inputs.1, inputTypes.1), (inputs.2, inputTypes.2))
  | 1 => pure ((inputs.2, inputTypes.2), (inputs.1, inputTypes.1))
  | _ => panicAt "attempt to subtract with overflow"

def regionTerm [DecidableEq β] (context : RegionContext σ ε β) (encoding : ProductEncoding)
    (resultTy : WordType) (acc : BitMatrix β × List ConstantProductGroup) (term : ArithmeticTerm) :
    BlastM σ ε (BitMatrix β × List ConstantProductGroup) := do
  let term ← context.localArithmeticTerm term
  match term with
  | .value value ty negative =>
    let matrix ← appendValue context resultTy acc.1 value ty negative
    return (matrix, acc.2)
  | .product inputs inputTypes _ negative (some constantInput) =>
    let (known, multiplicand) ← constantInputs inputs inputTypes constantInput
    let operand ← context.value known.1 known.2
    let coefficient ← (List.range resultTy.width).mapM (coefficientBit operand)
    return (acc.1, addToGroups resultTy.width multiplicand.1 multiplicand.2 coefficient negative acc.2)
  | .product inputs inputTypes _ negative none =>
    let matrix ← appendProductRows context encoding resultTy acc.1 inputs inputTypes negative
    return (matrix, acc.2)

def arithmeticRegionBits [DecidableEq β] (context : RegionContext σ ε β) (operator : SemanticOperator)
    (terms : List ArithmeticTerm) (recipe : RegionRecipe) (resultTy : WordType) :
    BlastM σ ε (List β) := do
  if terms.length < 2 ∨ (terms.length < 3 ∧ operator.productTermCount = 0) ∨
      terms.length ≠ operator.termCount then
    invariantError "arithmetic-region operator has an invalid term row"
  else
    let zero ← constant false
    let one ← constant true
    let (matrix, groups) ← terms.foldlM (regionTerm context recipe.encoding resultTy)
      (BitMatrix.new resultTy.width, [])
    let matrix ← groups.foldlM (appendConstantCoefficientRows context resultTy) matrix
    let state ← get
    let (matrix, carry) := takeCarryInput (fun bit => BitBackend.scalarConstant state bit == some false)
      (BitBackend.structuralLevel state) matrix
    let (left, right) ← reduceMatrix matrix recipe.schedule zero one
    carryNetworkAdd recipe.network left right (carry.getD zero)

end Opto.Bitblast
