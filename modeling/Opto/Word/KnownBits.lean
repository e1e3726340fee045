import Opto.Word.Module

/-!
# Known-bit transfer

What is proven of the bits of an operation's result, from what is proven of its
operands. A fact lists the states of a word's bits, the least significant first.
-/

namespace Opto.Word

inductive KnownBit
  | zero
  | one
  | unknown
  deriving DecidableEq, Repr

abbrev FactRange := List KnownBit

namespace FactRange

def unknown (width : Nat) : FactRange := List.replicate width .unknown

def bit (fact : FactRange) (index : Nat) : KnownBit := fact.getD index .unknown

/-- `store_generated`. -/
def generate (width : Nat) (bit : Nat → KnownBit) : FactRange := (List.range width).map bit

/-- `store_bits`: bits past the width are dropped and missing ones are unknown. -/
def store (bits : List KnownBit) (width : Nat) : FactRange := generate width (FactRange.bit bits)

def scalar (bit : KnownBit) : FactRange := store [bit] 1

/-- `slice_facts`. -/
def slice (input : FactRange) (lsb width : Nat) : FactRange :=
  if lsb = 0 ∧ width = input.length then input
  else generate width fun index => input.bit (lsb + index)

/-- `copy_facts`. -/
def copy (input : FactRange) : FactRange := generate input.length input.bit

end FactRange

namespace KnownBit

def ofBool (value : Bool) : KnownBit := if value then .one else .zero

def invert : KnownBit → KnownBit
  | .zero => .one
  | .one => .zero
  | .unknown => .unknown

def mergeEqual (left right : KnownBit) : KnownBit := if left = right then left else .unknown

def bitwise : BinaryOp → KnownBit → KnownBit → KnownBit
  | .bitAnd, .zero, _ | .bitAnd, _, .zero => .zero
  | .bitAnd, .one, .one => .one
  | .bitOr, .one, _ | .bitOr, _, .one => .one
  | .bitOr, .zero, .zero => .zero
  | .bitXor, .zero, .zero | .bitXor, .one, .one => .zero
  | .bitXor, .zero, .one | .bitXor, .one, .zero => .one
  | _, _, _ => .unknown

def logicalBinary : BinaryOp → KnownBit → KnownBit → KnownBit
  | .logicalAnd, left, right => bitwise .bitAnd left right
  | .logicalOr, left, right => bitwise .bitOr left right
  | _, _, _ => .unknown

def possibilities : KnownBit → List Bool
  | .zero => [false]
  | .one => [true]
  | .unknown => [false, true]

end KnownBit

open KnownBit

inductive MergedBool
  | unset
  | known (value : Bool)
  | unknown

def mergeBool : MergedBool → Bool → MergedBool
  | .unset, value => .known value
  | .known current, value => if current = value then .known value else .unknown
  | .unknown, _ => .unknown

def knownBool : MergedBool → KnownBit
  | .known value => ofBool value
  | .unset | .unknown => .unknown

def fullAdder (left right carry : KnownBit) : KnownBit × KnownBit :=
  let values := (possibilities left).flatMap fun left => (possibilities right).flatMap fun right =>
    (possibilities carry).map fun carry => left.toNat + right.toNat + carry.toNat
  (knownBool (values.foldl (fun sum value => mergeBool sum (value % 2 ≠ 0)) .unset),
    knownBool (values.foldl (fun next value => mergeBool next (2 ≤ value)) .unset))

/-- The sum bits at the given positions, with the carry passed along. -/
def addBits (left right : Nat → KnownBit) : KnownBit → List Nat → List KnownBit
  | _, [] => []
  | carry, index :: rest =>
    let (sum, next) := fullAdder (left index) (right index) carry
    sum :: addBits left right next rest

namespace FactRange

def logicalFrom (allZero : Bool) : FactRange → KnownBit
  | [] => if allZero then .zero else .unknown
  | .one :: _ => .one
  | .unknown :: rest => logicalFrom false rest
  | .zero :: rest => logicalFrom allZero rest

def logicalValue (input : FactRange) : KnownBit := logicalFrom true input

def reductionAndFrom (allOne : Bool) : FactRange → KnownBit
  | [] => if allOne then .one else .unknown
  | .zero :: _ => .zero
  | .unknown :: rest => reductionAndFrom false rest
  | .one :: rest => reductionAndFrom allOne rest

def reductionAnd (input : FactRange) : KnownBit := reductionAndFrom true input

def reductionXorFrom (parity : Bool) : FactRange → KnownBit
  | [] => ofBool parity
  | .zero :: rest => reductionXorFrom parity rest
  | .one :: rest => reductionXorFrom (!parity) rest
  | .unknown :: _ => .unknown

def reductionXor (input : FactRange) : KnownBit := reductionXorFrom false input

def equalityFrom (left right : FactRange) (complete : Bool) : List Nat → KnownBit
  | [] => if complete then .one else .unknown
  | index :: rest =>
    match left.bit index, right.bit index with
    | .zero, .one | .one, .zero => .zero
    | l, r => equalityFrom left right (complete && l ≠ .unknown && r ≠ .unknown) rest

def equality (left right : FactRange) : KnownBit :=
  equalityFrom left right true (List.range (max left.length right.length))

def extendedBit (signed : Bool) (value : FactRange) (index : Nat) : KnownBit :=
  if index < value.length then value.bit index
  else if signed then value.bit (value.length - 1)
  else .zero

/-- The positions come from the most significant down. -/
def compareFrom (left right : Nat → KnownBit) : List Nat → Option Ordering
  | [] => some .eq
  | index :: rest =>
    match left index, right index with
    | .zero, .one => some .lt
    | .one, .zero => some .gt
    | .zero, .zero | .one, .one => compareFrom left right rest
    | .unknown, _ | _, .unknown => none

def compare (left right : FactRange) (signed : Bool) : Option Ordering :=
  let width := max left.length right.length
  let below := compareFrom (extendedBit signed left) (extendedBit signed right)
    (List.range width).reverse
  if signed then
    match extendedBit signed left (width - 1), extendedBit signed right (width - 1) with
    | .one, .zero => some .lt
    | .zero, .one => some .gt
    | .unknown, _ | _, .unknown => none
    | _, _ => below
  else below

def trailingZeros (input : FactRange) : Nat := (input.takeWhile (· = .zero)).length

def isZero (input : FactRange) : Bool := input.trailingZeros = input.length

def isOne (input : FactRange) : Bool :=
  0 < input.length ∧ input.bit 0 = .one ∧ ∀ bit ∈ input.tail, bit = .zero

def powerOfTwoFrom (input : FactRange) (one : Option Nat) : List Nat → Option Nat
  | [] => one
  | index :: rest =>
    match input.bit index with
    | .zero => powerOfTwoFrom input one rest
    | .one => if one = none then powerOfTwoFrom input (some index) rest else none
    | .unknown => none

def powerOfTwo (input : FactRange) : Option Nat :=
  powerOfTwoFrom input none (List.range input.length)

def knownUsizeFrom (input : FactRange) (value : Nat) : List Nat → Option Nat
  | [] => some value
  | index :: rest =>
    match input.bit index with
    | .zero => knownUsizeFrom input value rest
    | .one => if index < 64 then knownUsizeFrom input (value + 2 ^ index) rest else none
    | .unknown => none

def knownUsize (input : FactRange) : Option Nat := knownUsizeFrom input 0 (List.range input.length)

/-- `known_constant`, most significant bit first. -/
def constant (input : FactRange) : Option (List BitVal) :=
  input.reverse.mapM fun
    | .zero => some .zero
    | .one => some .one
    | .unknown => none

def activeWidth (input : FactRange) (limit : Nat) : Nat :=
  min limit input.length -
    ((input.take (min limit input.length)).reverse.takeWhile (· = .zero)).length

end FactRange

open FactRange

def deriveMul (left right : FactRange) (width : Nat) : FactRange :=
  if left.isZero || right.isZero then store (List.replicate width .zero) width
  else if left.isOne && right.length = width then right.copy
  else if right.isOne && left.length = width then left.copy
  else
    match (if left.length = width then right.powerOfTwo else none),
      (if right.length = width then left.powerOfTwo else none) with
    | some shift, _ => generate width fun index =>
        if index < shift then .zero else left.bit (index - shift)
    | none, some shift => generate width fun index =>
        if index < shift then .zero else right.bit (index - shift)
    | none, none =>
      let zeros := min (left.trailingZeros + right.trailingZeros) width
      generate width fun index => if index < zeros then .zero else .unknown

def deriveShift (op : BinaryOp) (left : FactRange) (resultTy : WordType) (shift index : Nat) :
    KnownBit :=
  match op with
  | .shl => if index < shift then .zero else left.bit (index - shift)
  | .shr => if left.length ≤ index + shift then .zero else left.bit (index + shift)
  | .ashr =>
    if left.length ≤ index + shift then
      if resultTy.signed then left.bit (left.length - 1) else .zero
    else left.bit (index + shift)
  | _ => .unknown

def deriveBinary (op : BinaryOp) (left right : FactRange) (resultTy : WordType)
    (comparisonSigned : Bool) : FactRange :=
  let width := resultTy.width
  match op with
  | .bitAnd | .bitOr | .bitXor =>
    generate width fun index => bitwise op (left.bit index) (right.bit index)
  | .add => store (addBits left.bit right.bit .zero (List.range width)) width
  | .sub =>
    store (addBits left.bit (fun index => (right.bit index).invert) .one (List.range width)) width
  | .mul => deriveMul left right width
  | .logicalAnd | .logicalOr => scalar (logicalBinary op left.logicalValue right.logicalValue)
  | .eq => scalar (left.equality right)
  | .ne => scalar (left.equality right).invert
  | .shl | .shr | .ashr =>
    match right.knownUsize with
    | none => unknown width
    | some shift => generate width (deriveShift op left resultTy shift)
  | .lt => order left right Ordering.isLT
  | .le => order left right Ordering.isLE
  | .gt => order left right Ordering.isGT
  | .ge => order left right Ordering.isGE
  | .div | .mod => unknown width
where
  order (left right : FactRange) (holds : Ordering → Bool) : FactRange :=
    scalar (((left.compare right comparisonSigned).map fun ordering =>
      ofBool (holds ordering)).getD .unknown)

/-- `u32` addition that saturates. -/
def saturatingAdd (left right : Nat) : Nat := min (left + right) (2 ^ 32 - 1)

section Operations

variable (m : WordModule)

/-- `value_facts`. -/
def valueFacts (facts : Nat → Option FactRange) (value : Nat) : FactRange :=
  (facts value).getD (unknown ((m.valueTy value).elim 0 (·.width)))

def deriveOperation (facts : Nat → Option FactRange) (resultTy : WordType) : OpKind → FactRange
  | .unary op arg =>
    let input := valueFacts m facts arg
    match op with
    | .bitNot => generate resultTy.width fun index => (input.bit index).invert
    | .logicalNot => scalar input.logicalValue.invert
    | .reductionAnd => scalar input.reductionAnd
    | .reductionOr => scalar input.logicalValue
    | .reductionXor => scalar input.reductionXor
  | .binary op left right =>
    let comparisonSigned := match m.valueTy left, m.valueTy right with
      | some left, some right => left.signed && right.signed
      | _, _ => false
    deriveBinary op (valueFacts m facts left) (valueFacts m facts right) resultTy comparisonSigned
  | .mux cond thenValue elseValue =>
    let thenFact := valueFacts m facts thenValue
    let elseFact := valueFacts m facts elseValue
    match (valueFacts m facts cond).logicalValue with
    | .one => thenFact.copy
    | .zero => elseFact.copy
    | .unknown => generate resultTy.width fun index =>
        mergeEqual (thenFact.bit index) (elseFact.bit index)
  | .concat parts => store (parts.reverse.flatMap (valueFacts m facts)) resultTy.width
  | .extract value lsb width => (valueFacts m facts value).slice lsb width
  | .dynamicExtract value offset width =>
    let input := valueFacts m facts value
    match (valueFacts m facts offset).knownUsize with
    | some offset =>
      if offset < 2 ^ 32 ∧ saturatingAdd offset width ≤ input.length then input.slice offset width
      else generate width fun _ => .zero
    | none => if input.isZero then generate width fun _ => .zero else unknown width
  | .dynamicInsert value offset replacement =>
    let input := valueFacts m facts value
    let replacement := valueFacts m facts replacement
    match (valueFacts m facts offset).knownUsize with
    | some offset =>
      if offset < 2 ^ 32 ∧ saturatingAdd offset replacement.length ≤ resultTy.width then
        generate resultTy.width fun index =>
          if offset ≤ index ∧ index < offset + replacement.length then
            replacement.bit (index - offset)
          else input.bit index
      else unknown resultTy.width
    | none => unknown resultTy.width
  | .cast kind value target =>
    let input := valueFacts m facts value
    generate target.width fun index =>
      if index < input.length then input.bit index
      else match kind with
        | .zeroExtend => .zero
        | .signExtend => input.bit (input.length - 1)
        | .truncate => .unknown
  | .triState _ _ | .register _ | .latch _ => unknown resultTy.width

end Operations

end Opto.Word
