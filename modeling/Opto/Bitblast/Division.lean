import Opto.Bitblast.Multiplier

/-!
# Division

Signed operands are divided by their magnitudes. A constant divisor selects bits, multiplies
by a rounded reciprocal, or is subtracted in a restoring loop, whichever is cheaper; a
constant dividend shortens the loop to its significant bits. A zero divisor gives zero.
-/

namespace Opto.Bitblast

open Word

variable {σ ε β : Type} [BitBackend σ ε β]

/-! Vectors. -/

def addSubVectorsLoop (subtract : Bool) : List (β × β) → β → BlastM σ ε (List β × β)
  | [], carry => pure ([], carry)
  | (left, right) :: rest, carry => do
    let right ← invertIf subtract right
    let (sum, carry) ← fullAdder left right carry
    let (sums, carry) ← addSubVectorsLoop subtract rest carry
    return (sum :: sums, carry)

def addSubVectors (left right : List β) (subtract : Bool) : BlastM σ ε (List β × β) :=
  if left.length ≠ right.length ∨ left.isEmpty then
    invariantError "vector adder operands must have equal nonzero widths"
  else do
    let carry ← constant subtract
    addSubVectorsLoop subtract (left.zip right) carry

def conditionalNegateLoop (negative : β) : List β → β → BlastM σ ε (List β)
  | [], _ => pure []
  | bit :: bits, carry => do
    let inverted ← emitBinary .bitXor bit negative
    let sum ← emitBinary .bitXor inverted carry
    let carry ← emitBinary .bitAnd inverted carry
    let sums ← conditionalNegateLoop negative bits carry
    return sum :: sums

def conditionalNegateVector (value : List β) (negative : β) : BlastM σ ε (List β) :=
  conditionalNegateLoop negative value negative

def reducePairs (op : BinaryOp) : List β → BlastM σ ε (List β)
  | left :: right :: rest => do
    let bit ← emitBinary op left right
    let bits ← reducePairs op rest
    return bit :: bits
  | rest => pure rest

def reduceLoop (op : BinaryOp) : Nat → List β → BlastM σ ε β
  | 0, _ => throw .fuel
  | fuel + 1, values =>
    match values with
    | [value] => pure value
    | values => do
      let next ← reducePairs op values
      reduceLoop op fuel next

def reduceValues (values : List β) (op : BinaryOp) : BlastM σ ε β :=
  if values.isEmpty then invariantError "cannot reduce an empty bit vector"
  else reduceLoop op values.length values

/-! Constants. -/

def negateBits : List Bool → Bool → List Bool
  | [], _ => []
  | bit :: bits, carry => ((!bit) ^^ carry) :: negateBits bits (carry && !bit)

def twosComplementMagnitude (bits : List Bool) (signed : Bool) : List Bool :=
  if !signed || !bits.getLast?.getD false then bits else negateBits bits true

/-- One past the last true bit. -/
def significantBits : List Bool → Nat
  | [] => 0
  | bit :: bits =>
    match significantBits bits with
    | 0 => if bit then 1 else 0
    | n + 1 => n + 2

def bitsToU64 (bits : List Bool) : Option Nat :=
  if 64 < bits.length ∧ (bits.drop 64).any id then none else some (bitsValue (bits.take 64))

def lsbBits (value width : Nat) : List Bool := (List.range width).map value.testBit

def trailingZeros (value : Nat) : Nat := ((List.range 64).find? value.testBit).getD 64

def isPowerOfTwo (value : Nat) : Bool := 2 ^ value.log2 == value

def nonadjacentCountLoop : List Bool → Bool → Nat
  | [], carry => carry.toNat
  | bit :: bits, carry =>
    match bit, carry with
    | false, false => nonadjacentCountLoop bits false
    | true, true => nonadjacentCountLoop bits true
    | false, true => nonadjacentCountLoop bits false + 1
    | true, false => nonadjacentCountLoop bits (bits.headD false) + 1

def nonadjacentDigitCount (bits : List Bool) : Nat := nonadjacentCountLoop bits false

def logicalRightShift (bits : List β) (shift : Nat) (zero : β) : List β :=
  (List.range bits.length).map fun index => bits[index + shift]?.getD zero

/-! The reciprocal. -/

structure UnsignedMagic where
  multiplier : Nat
  shift : Nat
  add : Bool
deriving DecidableEq, Repr

/-- A result of 128-bit arithmetic, or the panic of an overflow. -/
def checked128 (value : Nat) : Except String Nat :=
  if value < 2 ^ 128 then .ok value else .error "attempt to compute with overflow"

/-- The quotient of the numerator, doubled and rounded when a further bit is needed. -/
def magicQuotient (quotient remainder divisor : Nat) (add : Bool) : Except String Nat :=
  if add then do
    let doubled ← checked128 (quotient * 2)
    let rest ← checked128 (remainder * 2)
    if divisor ≤ rest then checked128 (doubled + 1) else pure doubled
  else pure quotient

def unsignedMagic (width divisor : Nat) : Except String (Option UnsignedMagic) :=
  if width = 0 ∨ 64 < width ∨ divisor ≤ 1 ∨ isPowerOfTwo divisor then pure none
  else if width ≤ divisor.log2 then pure none
  -- `checked_shl` gives nothing from 128 bits on
  else if 128 ≤ width + divisor.log2 then pure none
  else do
    let numerator := 2 ^ (width + divisor.log2)
    let remainder := numerator % divisor
    let add : Bool := decide (2 ^ divisor.log2 ≤ divisor - remainder)
    let proposed ← magicQuotient (numerator / divisor) remainder divisor add
    let next ← checked128 (proposed + 1)
    return some ⟨next % 2 ^ width, divisor.log2, add⟩

def magicFor (width divisor : Nat) : BlastM σ ε UnsignedMagic :=
  match unsignedMagic width divisor with
  | .ok (some magic) => pure magic
  | .ok none => invariantError "failed to derive invariant-division magic"
  | .error message => panicAt message

/-! The restoring loop. -/

/-- The high bits of the dividend first. The quotient's bit says whether the divisor fits. -/
def restoringLoop (divisor : List β) : List β → List β → BlastM σ ε (List β × List β)
  | [], remaining => pure ([], remaining)
  | bit :: dividend, remaining => do
    let (quotient, remaining) ← restoringLoop divisor dividend remaining
    let shifted := bit :: remaining.dropLast
    let (difference, noBorrow) ← addSubVectors shifted divisor true
    let remaining ← (shifted.zip difference).mapM fun pair => emitMux noBorrow pair.2 pair.1
    return (noBorrow :: quotient, remaining)

def restoringDivideConstant (dividend : List β) (divisor : List Bool) : BlastM σ ε (List β × List β) := do
  let zero ← constant false
  let divisor ← divisor.mapM (m := BlastM σ ε) fun bit => constant bit
  let (quotient, remaining) ← restoringLoop (divisor ++ [zero]) dividend
    (List.replicate (divisor.length + 1) zero)
  return (quotient, (remaining ++ List.replicate (dividend.length - remaining.length) zero).take dividend.length)

def restoringDivide (dividend divisor : List β) : BlastM σ ε (List β × List β) := do
  if dividend.length ≠ divisor.length ∨ dividend.isEmpty then
    invariantError "divider operands must have equal nonzero widths"
  else
    let zero ← constant false
    let (quotient, remaining) ← restoringLoop (divisor ++ [zero]) dividend
      (List.replicate (dividend.length + 1) zero)
    return (quotient, remaining.dropLast)

/-! Constant operands. -/

/-- The product's high half, with the fix-up for a reciprocal of one more bit. -/
def magicQuotientBits (dividend quotient : List β) (magic : UnsignedMagic) (zero : β) :
    BlastM σ ε (List β) :=
  if magic.add then do
    let (difference, _) ← addSubVectors dividend quotient true
    let half := difference.drop 1 ++ [zero]
    let (sum, _) ← addSubVectors half quotient false
    return logicalRightShift sum magic.shift zero
  else pure (logicalRightShift quotient magic.shift zero)

def magicRemainder (dividend quotient : List β) (divisor width : Nat) (needRemainder : Bool) (zero : β) :
    BlastM σ ε (List β) :=
  if needRemainder then do
    let product ← constantMultiplyVector quotient (lsbBits divisor width) width none
    let (difference, _) ← addSubVectors dividend product true
    return difference
  else pure (List.replicate width zero)

def magicWork (magic : UnsignedMagic) (divisor width : Nat) (needRemainder : Bool) : Nat :=
  nonadjacentDigitCount (lsbBits magic.multiplier width) * (width * 2) + magic.add.toNat * (width * 2) +
    if needRemainder then nonadjacentDigitCount (lsbBits divisor width) * width else 0

def divideByMagic (dividend : List β) (divisor : List Bool) (divisorValue : Nat) (needRemainder : Bool)
    (zero : β) : BlastM σ ε (List β × List β) := do
  let width := dividend.length
  let magic ← magicFor width divisorValue
  if width * (significantBits divisor + 1) ≤ magicWork magic divisorValue width needRemainder then
    restoringDivideConstant dividend (divisor.take (significantBits divisor))
  else
    let product ← constantMultiplyVector dividend (lsbBits magic.multiplier width) (width * 2) none
    let quotient ← magicQuotientBits dividend (product.drop width) magic zero
    let modulus ← magicRemainder dividend quotient divisorValue width needRemainder zero
    return (quotient, modulus)

def divideByConstant (dividend : List β) (divisor : List Bool) (needRemainder : Bool) :
    BlastM σ ε (List β × List β) := do
  let width := dividend.length
  let zero ← constant false
  match bitsToU64 divisor with
  | none =>
    if significantBits divisor = 0 then
      return (List.replicate width zero, List.replicate width zero)
    else restoringDivideConstant dividend (divisor.take (significantBits divisor))
  | some divisorValue =>
    if divisorValue = 0 then return (List.replicate width zero, List.replicate width zero)
    else if isPowerOfTwo divisorValue then
      let shift := trailingZeros divisorValue
      let quotient := (List.range width).map fun index => dividend[index + shift]?.getD zero
      -- the lower bits are those of the dividend, whose index is in bounds
      let modulus := (List.range width).map fun index =>
        if index < shift then dividend[index]?.getD zero else zero
      return (quotient, modulus)
    else if width ≤ 64 then divideByMagic dividend divisor divisorValue needRemainder zero
    else restoringDivideConstant dividend (divisor.take (significantBits divisor))

/-- A divisor with a bit above the dividend's leaves the dividend. -/
def selectSmall (high : Option β) (large small : β) : BlastM σ ε β :=
  match high with
  | some high => emitMux high large small
  | none => pure small

def highNonzero (divisor : List β) (significant : Nat) : BlastM σ ε (Option β) :=
  if significant < divisor.length then some <$> reduceValues (divisor.drop significant) .bitOr
  else pure none

def divideConstantNumerator (dividend : List Bool) (divisor : List β) : BlastM σ ε (List β × List β) := do
  let width := divisor.length
  let zero ← constant false
  let significant := max (significantBits dividend) 1
  let constantBits ← (dividend.take significant).mapM (m := BlastM σ ε) fun bit => constant bit
  let (smallQuotient, smallRemainder) ← restoringDivide constantBits (divisor.take significant)
  let high ← highNonzero divisor significant
  let pairs ← ((smallQuotient.zip smallRemainder).zip constantBits).mapM (m := BlastM σ ε) fun entry => do
    let quotient ← selectSmall high zero entry.1.1
    let modulus ← selectSmall high entry.2 entry.1.2
    return (quotient, modulus)
  let padding := List.replicate (width - significant) zero
  return (pairs.map Prod.fst ++ padding, pairs.map Prod.snd ++ padding)

/-! Division. -/

def divisionPosition (left right : Operand β) (signed : Bool) (index : Nat) : BlastM σ ε (β × β) := do
  let dividend ← resizedBit left index signed
  let divisor ← resizedBit right index signed
  return (dividend, divisor)

structure Magnitudes (β : Type) where
  dividend : List β
  divisor : List β
  resultNegative : Option β

def lastBit (bits : List β) : BlastM σ ε β :=
  match bits.getLast? with
  | some bit => pure bit
  | none => panicAt "attempt to subtract with overflow"

def resultSign (remainder : Bool) (dividendSign divisorSign : β) : BlastM σ ε β :=
  if remainder then pure dividendSign else emitBinary .bitXor dividendSign divisorSign

def magnitudes (dividend divisor : List β) (signed remainder : Bool) : BlastM σ ε (Magnitudes β) :=
  if signed then do
    let dividendSign ← lastBit dividend
    let divisorSign ← lastBit divisor
    let dividend ← conditionalNegateVector dividend dividendSign
    let divisor ← conditionalNegateVector divisor divisorSign
    let negative ← resultSign remainder dividendSign divisorSign
    return ⟨dividend, divisor, some negative⟩
  else pure ⟨dividend, divisor, none⟩

def divideMagnitudes (operands : Magnitudes β) (dividendConstant divisorConstant : Option (List Bool))
    (remainder : Bool) : BlastM σ ε (List β × List β) :=
  match divisorConstant, dividendConstant with
  | some constant, _ => divideByConstant operands.dividend constant remainder
  | none, some constant => divideConstantNumerator constant operands.divisor
  | none, none => restoringDivide operands.dividend operands.divisor

def applySign (result : List β) (resultNegative : Option β) : BlastM σ ε (List β) :=
  match resultNegative with
  | some negative => conditionalNegateVector result negative
  | none => pure result

/-- Division by zero is undefined; an undefined bit is resolved to zero. -/
def maskZeroDivisor (divisor result : List β) (divisorKnown : Bool) (zero : β) : BlastM σ ε (List β) :=
  if divisorKnown then pure result
  else do
    let nonzero ← reduceValues divisor .bitOr
    result.mapM (m := BlastM σ ε) fun bit => emitMux nonzero bit zero

def divideBits (left right : Operand β) (remainder : Bool) (resultTy : WordType) :
    BlastM σ ε (List β) := do
  let signed := resultTy.signed
  let bits ← (List.range resultTy.width).mapM (m := BlastM σ ε) (divisionPosition left right signed)
  let dividend := bits.map Prod.fst
  let divisor := bits.map Prod.snd
  let dividendConstant ← boolVector dividend
  let divisorConstant ← boolVector divisor
  let zero ← constant false
  let operands ← magnitudes dividend divisor signed remainder
  let dividendConstant := dividendConstant.map (twosComplementMagnitude · signed)
  let divisorConstant := divisorConstant.map (twosComplementMagnitude · signed)
  let (quotient, modulus) ← divideMagnitudes operands dividendConstant divisorConstant remainder
  let result ← applySign (if remainder then modulus else quotient) operands.resultNegative
  maskZeroDivisor operands.divisor result divisorConstant.isSome zero

end Opto.Bitblast
