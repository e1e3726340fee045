import Opto.Bitblast.Compressor
import Opto.Bitblast.ConstantAdders

/-!
# Multipliers

A product is a matrix of rows: shifted copies of the multiplicand for the digits of a
constant, selected multiples for the radix-4 digits of the multiplier, or one bit for every
pair of operand bits. Constants in the correction make up for the signs.
-/

namespace Opto.Bitblast

open Word

variable {σ ε β : Type} [BitBackend σ ε β]

/-! Merging matrices. -/

def addCorrection (target : BitMatrix β) (correction : List Bool) (negative : Bool) : BitMatrix β :=
  correction.zipIdx.foldl (fun target bit =>
    if bit.1 then target.addCorrectionPower bit.2 negative else target) target

/-- The inverted bits of a row, and the corrections that make it negative. -/
def negateRowLoop : BitRow β → Nat → BitMatrix β → BlastM σ ε (BitRow β × BitMatrix β)
  | [], _, target => pure ([], target)
  | some bit :: row, column, target => do
    let inverted ← emitUnary .bitNot bit
    let (negated, target) ← negateRowLoop row (column + 1) (target.addCorrectionPower column true)
    return (some inverted :: negated, target)
  | none :: row, column, target => do
    let (negated, target) ← negateRowLoop row (column + 1) target
    return (none :: negated, target)

def negateRow (target : BitMatrix β) (row : BitRow β) : BlastM σ ε (BitMatrix β) := do
  let (negated, target) ← negateRowLoop row 0 target
  return target.pushRow negated

def appendMatrix (target source : BitMatrix β) (negative : Bool) : BlastM σ ε (BitMatrix β) :=
  if target.width ≠ source.width then
    invariantError "cannot merge arithmetic matrices with different widths"
  else if negative then do
    let target ← source.rows.foldlM negateRow target
    return addCorrection target source.correction true
  else
    pure (addCorrection { target with rows := target.rows ++ source.rows } source.correction false)

def appendSignedRow (matrix : BitMatrix β) (row : BitRow β) (negative : Bool) :
    BlastM σ ε (BitMatrix β) :=
  appendMatrix matrix ((BitMatrix.new matrix.width).pushRow row) negative

def wallaceReduce (matrix : BitMatrix β) (zero one : β) : BlastM σ ε (List β) := do
  let (left, right) ← reduceMatrix matrix .wallace zero one
  addVectors left right zero

/-! Constant coefficients. -/

def nonadjacentLoop : List Bool → Nat → Bool → List (Nat × Bool)
  | [], index, carry => if carry then [(index, false)] else []
  | bit :: bits, index, carry =>
    match bit, carry with
    | false, false => nonadjacentLoop bits (index + 1) false
    | true, true => nonadjacentLoop bits (index + 1) true
    | false, true => (index, false) :: nonadjacentLoop bits (index + 1) false
    | true, false =>
      if bits.headD false then (index, true) :: nonadjacentLoop bits (index + 1) true
      else (index, false) :: nonadjacentLoop bits (index + 1) false

/-- The signed digits of a constant, with the column and the sign of each. -/
def nonadjacentDigits (bits : List Bool) : List (Nat × Bool) := nonadjacentLoop bits 0 false

def shiftedRow (bits : List β) (shift width : Nat) : BitRow β :=
  (List.range width).map fun output => if output < shift then none else bits[output - shift]?

def appendDigit (multiplicand : List β) (width : Nat) (matrix : BitMatrix β) (digit : Nat × Bool) :
    BlastM σ ε (BitMatrix β) :=
  if width ≤ digit.1 then pure matrix
  else appendSignedRow matrix (shiftedRow multiplicand digit.1 width) digit.2

def constantCoefficientMatrix (multiplicand : List β) (constant : List Bool) (width : Nat) :
    BlastM σ ε (BitMatrix β) :=
  (nonadjacentDigits constant).foldlM (appendDigit multiplicand width) (BitMatrix.new width)

def constantMultiplyVector (multiplicand : List β) (multiplier : List Bool) (outputWidth : Nat)
    (addend : Option (List β)) : BlastM σ ε (List β) := do
  if multiplicand.isEmpty ∨ outputWidth = 0 then
    invariantError "constant multiplier requires nonempty input and output"
  else
    let zero ← constant false
    let one ← constant true
    let matrix ← constantCoefficientMatrix multiplicand multiplier outputWidth
    let matrix := match addend with
      | some addend => matrix.pushRow (shiftedRow addend 0 outputWidth)
      | none => matrix
    wallaceReduce matrix zero one

def constantProductMatrix (left right : Operand β) (resultTy : WordType) :
    BlastM σ ε (BitMatrix β) := do
  let leftBits ← resizedBits left resultTy.width left.ty.signed
  let rightBits ← resizedBits right resultTy.width right.ty.signed
  match ← boolVector leftBits with
  | some known => constantCoefficientMatrix rightBits known resultTy.width
  | none =>
    match ← boolVector rightBits with
    | some known => constantCoefficientMatrix leftBits known resultTy.width
    | none => invariantError "constant multiplier recipe has no defined constant operand"

/-! Radix-4 digits. -/

structure BoothDigit (β : Type) where
  upper : β
  middle : β
  low : β
  shift : Nat
  magnitudeWidth : Nat
  zero : β

def multiplicandBit (multiplicand : List β) (index : Nat) : BlastM σ ε β :=
  match multiplicand[index]? with
  | some bit => pure bit
  | none => panicAt "index out of bounds"

def multiplicandBelow (multiplicand : List β) (zero : β) (index : Nat) : BlastM σ ε β :=
  if index = 0 then pure zero else multiplicandBit multiplicand (index - 1)

/-- The bit of the selected multiple, inverted for a negative digit. -/
def boothPartial (multiplicand : List β) (one two upper zero : β) (index : Nat) : BlastM σ ε β := do
  let below ← multiplicandBelow multiplicand zero index
  let doubled ← emitBinary .bitAnd two below
  let single ← multiplicandBit multiplicand index
  let magnitude ← emitMux one single doubled
  emitBinary .bitXor magnitude upper

def boothSlot (multiplicand : List β) (digit : BoothDigit β) (one two : β) (signColumn output : Nat) :
    BlastM σ ε (Option β) :=
  if output < digit.shift ∨ signColumn < output then pure none
  else do
    let bit ← boothPartial multiplicand one two digit.upper digit.zero (output - digit.shift)
    if output = signColumn then some <$> emitUnary .bitNot bit else pure (some bit)

def appendBoothRow [DecidableEq β] (multiplicand : List β) (matrix : BitMatrix β)
    (digit : BoothDigit β) : BlastM σ ε (BitMatrix β) := do
  let one ← emitBinary .bitXor digit.middle digit.low
  let notOne ← emitUnary .bitNot one
  let upperMiddle ← emitBinary .bitXor digit.upper digit.middle
  let two ← emitBinary .bitAnd notOne upperMiddle
  let signColumn := digit.shift + digit.magnitudeWidth + 1
  let row ← (List.range matrix.width).mapM (boothSlot multiplicand digit one two signColumn)
  -- A sign column past the width leaves the correction alone.
  let matrix := (matrix.addCorrectionPower signColumn true).pushRow row
  if digit.upper ≠ digit.zero then
    return matrix.pushRow ((List.replicate matrix.width none).set digit.shift (some digit.upper))
  else return matrix

def boothMultiplierBit (bits : List β) (index : Int) (signed : Bool) (zero : β) : β :=
  if index < 0 then zero
  else bits[index.toNat]?.getD (if signed then bits.getLast?.getD zero else zero)

def boothGroupCount (ty : WordType) (resultWidth : Nat) : Nat :=
  let width := min ty.width resultWidth
  if ty.signed then (width + 1) / 2 else (width + 2) / 2

def boothDigit (multiplier : List β) (signed : Bool) (magnitudeWidth : Nat) (zero : β) (group : Nat) :
    BoothDigit β where
  upper := boothMultiplierBit multiplier ((group * 2 : Nat) + 1) signed zero
  middle := boothMultiplierBit multiplier (group * 2 : Nat) signed zero
  low := boothMultiplierBit multiplier ((group * 2 : Nat) - 1) signed zero
  shift := group * 2
  magnitudeWidth := magnitudeWidth
  zero := zero

def unsignedResizedBit (value : Operand β) (index : Nat) : BlastM σ ε β := do
  let bit ← resizedBit value index value.ty.signed
  unsignedBit bit

def unsignedOperandBit (value : Operand β) (index : Nat) : BlastM σ ε β := do
  let bit ← bit value index
  unsignedBit bit

/-- The operand with more groups is the multiplicand. -/
def boothOperands (left right : Operand β) (width : Nat) : Operand β × Operand β :=
  if boothGroupCount right.ty width ≤ boothGroupCount left.ty width then (left, right)
  else (right, left)

def radix4ProductMatrix [DecidableEq β] (left right : Operand β) (resultTy : WordType) :
    BlastM σ ε (BitMatrix β) := do
  let width := resultTy.width
  let (multiplicand, multiplier) := boothOperands left right width
  let zero ← constant false
  let multiplicandBits ← (List.range width).mapM (unsignedResizedBit multiplicand)
  let multiplierBits ← (List.range (min multiplier.ty.width width)).mapM (unsignedOperandBit multiplier)
  let groups := (List.range (boothGroupCount multiplier.ty width)).takeWhile (· * 2 < width)
  groups.foldlM (fun matrix group => appendBoothRow multiplicandBits matrix
    (boothDigit multiplierBits multiplier.ty.signed (min multiplicand.ty.width width) zero group))
    (BitMatrix.new width)

/-! One bit for every pair. -/

/-- The bit of a pair, inverted where exactly one of its bits is a sign. -/
def arrayPosition (width row : Nat) (right : β) (negative : Nat → Bool)
    (acc : BitRow β × BitMatrix β) (left : β × Nat) : BlastM σ ε (BitRow β × BitMatrix β) :=
  let column := left.2 + row
  if width ≤ column then pure acc
  else do
    let term ← emitBinary .bitAnd left.1 right
    if negative left.2 then
      let inverted ← emitUnary .bitNot term
      return (acc.1.set column (some inverted), acc.2.addCorrectionPower column true)
    else return (acc.1.set column (some term), acc.2)

def arrayRow (width : Nat) (leftBits : List β) (leftSign : Bool) (rightCount : Nat) (rightSign : Bool)
    (matrix : BitMatrix β) (right : β × Nat) : BlastM σ ε (BitMatrix β) := do
  let negative := fun i => (leftSign && i = leftBits.length - 1) ^^ (rightSign && right.2 = rightCount - 1)
  let (row, matrix) ← leftBits.zipIdx.foldlM (arrayPosition width right.2 right.1 negative)
    (List.replicate width none, matrix)
  return matrix.pushRow row

def arrayProductMatrix (left right : Operand β) (resultTy : WordType) : BlastM σ ε (BitMatrix β) := do
  let width := resultTy.width
  let leftBits ← (List.range (min left.ty.width width)).mapM (unsignedOperandBit left)
  let rightBits ← (List.range (min right.ty.width width)).mapM (unsignedOperandBit right)
  let leftSign := left.ty.signed && left.ty.width ≤ width
  let rightSign := right.ty.signed && right.ty.width ≤ width
  rightBits.zipIdx.foldlM (arrayRow width leftBits leftSign rightBits.length rightSign)
    (BitMatrix.new width)

/-! The recipes. -/

inductive MultiplierRecipe
  | radix4Wallace
  | arrayWallace
  | constantCsdWallace
deriving DecidableEq, Repr

def productMatrix [DecidableEq β] (recipe : MultiplierRecipe) (left right : Operand β)
    (resultTy : WordType) : BlastM σ ε (BitMatrix β) :=
  match recipe with
  | .radix4Wallace => radix4ProductMatrix left right resultTy
  | .arrayWallace => arrayProductMatrix left right resultTy
  | .constantCsdWallace => constantProductMatrix left right resultTy

def lowerMultiply [DecidableEq β] (recipe : MultiplierRecipe) (left right : Operand β)
    (resultTy : WordType) : BlastM σ ε (List β) := do
  let matrix ← productMatrix recipe left right resultTy
  let zero ← constant false
  let one ← constant true
  wallaceReduce matrix zero one

end Opto.Bitblast
