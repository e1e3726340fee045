import Opto.Word.Module

/-!
# Unsigned bounds and alignment

A dense table remembers what is proven of each value: the bounds of its word as an unsigned
number, and a power of two that divides it. A value that is still being computed has no
bounds and is divided by one only.
-/

namespace Opto.Word

structure UnsignedValueRange where
  minimum : Nat
  maximum : Nat
  deriving DecidableEq, Repr

inductive RangeState
  | uncomputed
  | computing
  | computed (range : Option UnsignedValueRange)
  deriving DecidableEq, Repr

/-- The recursion went deeper than the model follows it. -/
inductive Exhausted
  | exhausted

abbrev RangeM := OptionT (StateT (List RangeState) (Except Exhausted))

abbrev AlignmentM := StateT (List (Option Nat)) (Except Exhausted)

/-! Unsigned arithmetic on 128 bits. -/

def checked128 (v : Nat) : Option Nat := if v < 2 ^ 128 then some v else none

/-- `checked_shl`: the distance is checked, the bits that leave the word are not. -/
def checkedShl128 (v distance : Nat) : Option Nat :=
  if distance < 128 then some (v * 2 ^ distance % 2 ^ 128) else none

def fullMaximum (width : Nat) : Option Nat :=
  if width = 128 then some (2 ^ 128 - 1)
  else if width < 128 then (checkedShl128 1 width).map (· - 1)
  else none

def fullRange (ty : WordType) : Option UnsignedValueRange := do
  let maximum ← fullMaximum ty.width
  some ⟨0, maximum⟩

def constantBit (range : UnsignedValueRange) (bit : BitVal × Nat) : Option UnsignedValueRange := do
  let weight ← checkedShl128 1 bit.2
  match bit.1 with
  | .zero => some range
  | .one => some ⟨range.minimum ||| weight, range.maximum ||| weight⟩
  | .x | .z => some ⟨range.minimum, range.maximum ||| weight⟩

/-- Constants list their bits from the most significant one. -/
def constantRange (bits : List BitVal) : Option UnsignedValueRange :=
  bits.reverse.zipIdx.foldlM constantBit ⟨0, 0⟩

/-- The bounds of a binary operation whose result does not wrap. -/
def exactRange (op : BinaryOp) (left right : UnsignedValueRange) : Option UnsignedValueRange :=
  match op with
  | .add => do
    let minimum ← checked128 (left.minimum + right.minimum)
    let maximum ← checked128 (left.maximum + right.maximum)
    some ⟨minimum, maximum⟩
  | .sub =>
    if right.maximum ≤ left.minimum then
      some ⟨left.minimum - right.maximum, left.maximum - right.minimum⟩
    else none
  | .mul => do
    let minimum ← checked128 (left.minimum * right.minimum)
    let maximum ← checked128 (left.maximum * right.maximum)
    some ⟨minimum, maximum⟩
  | .div =>
    if 0 < right.minimum then
      some ⟨left.minimum / right.maximum, left.maximum / right.minimum⟩
    else none
  | .mod =>
    if 0 < right.minimum then some ⟨0, min left.maximum (right.maximum - 1)⟩ else none
  | .logicalAnd | .logicalOr | .eq | .ne | .lt | .le | .gt | .ge => some ⟨0, 1⟩
  | .bitAnd => some ⟨0, min left.maximum right.maximum⟩
  | .bitOr | .bitXor | .shl | .shr | .ashr => none

def binaryRange (op : BinaryOp) (left right : UnsignedValueRange) (ty : WordType) :
    Option UnsignedValueRange := do
  let full ← fullRange ty
  let range ← exactRange op left right
  if range.maximum ≤ full.maximum then some range else none

/-! Bounds. -/

namespace RangeM

def attempt {α : Type} (answer : Option α) : RangeM α := OptionT.mk (pure answer)

/-- `unwrap_or`. -/
def recover {α : Type} (m : RangeM α) (default : α) : RangeM α :=
  OptionT.mk ((fun answer => some (answer.getD default)) <$> m.run)

end RangeM

open RangeM

section Module

variable (m : WordModule)

section Operation

variable (range : Nat → RangeM UnsignedValueRange)

def castRange (kind : CastKind) (value : Nat) (source targetFull : UnsignedValueRange) :
    Option UnsignedValueRange :=
  match kind with
  | .zeroExtend => some source
  | .truncate => if source.maximum ≤ targetFull.maximum then some source else none
  | .signExtend => do
    let sourceTy ← m.valueTy value
    let signThreshold ← checkedShl128 1 (sourceTy.width - 1)
    if source.maximum < signThreshold then some source else none

def concatPart (result : UnsignedValueRange) (part : Nat) : RangeM UnsignedValueRange := do
  let ty ← attempt (m.valueTy part)
  let part ← range part
  let minimum ← attempt (checkedShl128 result.minimum ty.width)
  let minimum ← attempt (checked128 (minimum + part.minimum))
  let maximum ← attempt (checkedShl128 result.maximum ty.width)
  let maximum ← attempt (checked128 (maximum + part.maximum))
  return ⟨minimum, maximum⟩

def concatRange (parts : List Nat) : RangeM UnsignedValueRange :=
  parts.foldlM (concatPart m range) ⟨0, 0⟩

def operationRange (ty : WordType) : OpKind → RangeM UnsignedValueRange
  | .unary .bitNot _ => failure
  | .unary _ _ => pure ⟨0, 1⟩
  | .binary op left right => do
    let leftTy ← attempt (m.valueTy left)
    let rightTy ← attempt (m.valueTy right)
    if leftTy.signed || rightTy.signed || ty.signed then failure
    else
      let left ← range left
      let right ← range right
      attempt (binaryRange op left right ty)
  | .mux _ thenValue elseValue => do
    let thenRange ← range thenValue
    let elseRange ← range elseValue
    return ⟨min thenRange.minimum elseRange.minimum, max thenRange.maximum elseRange.maximum⟩
  | .cast kind value target => do
    let source ← range value
    let targetFull ← attempt (fullRange target)
    attempt (castRange m kind value source targetFull)
  | .concat parts => concatRange m range parts
  | .extract .. | .dynamicExtract .. | .dynamicInsert .. | .triState .. | .register _ | .latch _ =>
    failure

def valueRange (value : Value) (full : UnsignedValueRange) : RangeM UnsignedValueRange :=
  match value.kind with
  | .signal _ => pure full
  | .constant bits => attempt (constantRange bits)
  | .operation operation => do
    let operation ← attempt m.operations[operation]?
    recover (operationRange m range value.ty operation.kind) full

end Operation

def finishRange (range : Nat → RangeM UnsignedValueRange) (id : Nat) : RangeM UnsignedValueRange := do
  let value ← attempt m.values[id]?
  let full ← attempt (fullRange value.ty)
  let range ← valueRange m range value full
  modify (·.set id (.computed (some range)))
  return range

def settleRange (range : Nat → RangeM UnsignedValueRange) (id : Nat) : RangeM UnsignedValueRange := do
  modify (·.set id .computing)
  finishRange m range id

def deriveRange : Nat → Nat → RangeM UnsignedValueRange
  | 0, _ => OptionT.mk (throw .exhausted)
  | fuel + 1, id => do
    match (← get)[id]? with
    | none | some .computing => failure
    | some (.computed range) => attempt range
    | some .uncomputed => settleRange m (deriveRange fuel) id

/-! Alignment. -/

def constantAlignment : List BitVal → Nat
  | .zero :: bits => 1 + constantAlignment bits
  | _ => 0

/-- The alignment of parts, the least significant first: a part that is zero is passed. -/
def concatAlignment (alignment : Nat → AlignmentM Nat) : List Nat → AlignmentM Nat
  | [] => pure 0
  | part :: parts => do
    let partWidth := (m.valueTy part).elim 0 (·.width)
    let partAlignment ← alignment part
    if partWidth ≤ partAlignment then return partWidth + (← concatAlignment alignment parts)
    else return partAlignment

def operationAlignment (alignment : Nat → AlignmentM Nat) : OpKind → AlignmentM Nat
  | .binary op left right => do
    let left ← alignment left
    let right ← alignment right
    return match op with
      | .add | .sub | .bitOr | .bitXor => min left right
      | .bitAnd => max left right
      | .mul => min (left + right) (2 ^ 32 - 1)
      | .shl => left
      | _ => 0
  | .mux _ thenValue elseValue => do
    let thenAlignment ← alignment thenValue
    let elseAlignment ← alignment elseValue
    return min thenAlignment elseAlignment
  | .cast _ value _ => alignment value
  | .extract value 0 _ => alignment value
  | .concat parts => concatAlignment m alignment parts.reverse
  | _ => return 0

def valueAlignment (alignment : Nat → AlignmentM Nat) (value : Value) : AlignmentM Nat :=
  match value.kind with
  | .signal _ => pure 0
  | .constant bits => pure (constantAlignment bits.reverse)
  | .operation operation =>
    match m.operations[operation]? with
    | none => pure 0
    | some operation => operationAlignment m alignment operation.kind

def finishAlignment (alignment : Nat → AlignmentM Nat) (id : Nat) : AlignmentM Nat :=
  match m.values[id]? with
  | none => return 0
  | some value => do
    let derived ← valueAlignment m alignment value
    let alignment := min derived value.ty.width
    modify (·.set id (some alignment))
    return alignment

def settleAlignment (alignment : Nat → AlignmentM Nat) (id : Nat) : AlignmentM Nat := do
  modify (·.set id (some 0))
  finishAlignment m alignment id

def deriveAlignment : Nat → Nat → AlignmentM Nat
  | 0, _ => throw .exhausted
  | fuel + 1, id => do
    match (← get)[id]? with
    | some (some alignment) => return alignment
    | _ => settleAlignment m (deriveAlignment fuel) id

/-! The analysis. -/

structure UnsignedValueAnalysis where
  ranges : List RangeState
  alignments : List (Option Nat)

namespace UnsignedValueAnalysis

def new : UnsignedValueAnalysis where
  ranges := List.replicate m.values.length .uncomputed
  alignments := List.replicate m.values.length none

def ensureCapacity (analysis : UnsignedValueAnalysis) : UnsignedValueAnalysis where
  ranges := analysis.ranges.takeD m.values.length .uncomputed
  alignments := analysis.alignments.takeD m.values.length none

abbrev AnalysisM := StateT UnsignedValueAnalysis (Except Exhausted)

def range (value : Nat) : AnalysisM (Option UnsignedValueRange) := do
  let analysis := (← get).ensureCapacity m
  let (range, ranges) ← (deriveRange m (m.values.length + 1) value).run.run analysis.ranges
  set { analysis with ranges }
  return range

def alignment (value : Nat) : AnalysisM Nat := do
  let analysis := (← get).ensureCapacity m
  let (alignment, alignments) ← (deriveAlignment m (m.values.length + 1) value).run analysis.alignments
  set { analysis with alignments }
  return alignment

end UnsignedValueAnalysis

end Module
end Opto.Word
