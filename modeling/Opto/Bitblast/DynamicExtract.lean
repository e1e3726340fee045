import Opto.Bitblast.Division
import Opto.Planning.Catalog

/-!
# Lowering dynamic extracts

A dynamic extract takes the bits of a word from an offset on, and zeros when they would lie
past the word. The barrel shifts by one bit of the offset after the other; the one-hot
lowering decodes the offsets that may be selected and joins the gated words.
-/

namespace Opto.Bitblast

open Word Planning
open Mapped (U32_MAX)

variable {σ ε β : Type} [BitBackend σ ε β]

def unsignedLess (left right : List β) : BlastM σ ε β := do
  match left.zip right with
  | [] => invariantError "comparison inputs must be nonempty"
  | (left, right) :: bits =>
    let notLeft ← emitUnary .bitNot left
    let less ← emitBinary .bitAnd notLeft right
    bits.foldlM (fun less (left, right) => do
      let differs ← emitBinary .bitXor left right
      let notLeft ← emitUnary .bitNot left
      emitMux differs notLeft less) less

/-- The type of a scalar is not kept; a signed scalar has a zero of its own type. -/
def zeroForScalar (_value : β) : BlastM σ ε β := constant false

def zeroOutOfRangeExtract (result : List β) (offset : Operand β) (maximum : Nat)
    (required : Bool) : BlastM σ ε (List β) := do
  if !required then return result
  else
    let maximumBits ← (List.range offset.bits.length).mapM fun index =>
      constant (index < 32 && maximum.testBit index)
    let outOfRange ← unsignedLess maximumBits offset.bits
    let inRange ← emitUnary .bitNot outOfRange
    result.mapM fun bit => do
      let zero ← zeroForScalar bit
      emitMux inRange bit zero

def offsetBitConstant (s : σ) (offset : Operand β) (index : Nat) : Option Bool :=
  offset.bits[index]?.bind (BitBackend.scalarConstant s)

/-! Barrel. -/

structure BarrelStage where
  stage : Nat
  shift : Nat
  constant : Option Bool

def barrelStages (offset : Operand β) (selectionMax : Nat) : BlastM σ ε (List BarrelStage) := do
  let s ← get
  (List.range offset.bits.length).foldlM (fun stages stage =>
    if 64 ≤ stage then invariantError "dynamic extract stage distance overflow"
    else if selectionMax < 2 ^ stage then pure stages
    else pure (stages ++ [⟨stage, 2 ^ stage, offsetBitConstant s offset stage⟩])) []

/-- How many candidates each stage must keep, and how many there are before the first one. -/
def neededPrefix : List BarrelStage → List Nat × Nat
  | [] => ([], 1)
  | stage :: rest =>
    let (needed, exposed) := neededPrefix rest
    (exposed :: needed,
      if stage.constant = some false then exposed else min (exposed + stage.shift) (2 ^ 64 - 1))

def candidate (candidates : List β) (index : Nat) : BlastM σ ε β :=
  match candidates[index]? with
  | some bit => pure bit
  | none => panicAt "index out of bounds"

def applyStage (offset : Operand β) (candidates : List β) (stage : BarrelStage) (needed : Nat) :
    BlastM σ ε (List β) := do
  let limit := min needed (candidates.length - stage.shift)
  match stage.constant with
  | some false => return candidates
  | some true =>
    (List.range limit).foldlM (fun candidates index => do
      return candidates.set index (← candidate candidates (index + stage.shift))) candidates
  | none =>
    let control ← bit offset stage.stage
    (List.range limit).foldlM (fun candidates index => do
      let shifted ← candidate candidates (index + stage.shift)
      let kept ← candidate candidates index
      return candidates.set index (← emitMux control shifted kept)) candidates

def barrelBit (value offset : Operand β) (stages : List BarrelStage) (resultBit : Nat) :
    BlastM σ ε β := do
  let (needed, exposed) := neededPrefix stages
  let candidates := (value.bits.drop resultBit).take exposed
  let candidates ← (stages.zip needed).foldlM (fun candidates (stage, needed) =>
    applyStage offset candidates stage needed) candidates
  match candidates with
  | bit :: _ => return bit
  | [] => invariantError "dynamic extract has no source candidate"

/-! One-hot. -/

def tapAgrees (constants : List (Option Bool)) (tap : Nat) : Bool :=
  constants.zipIdx.all fun (constant, index) =>
    constant.all (· = (index < 128 && tap.testBit index))

def dynamicExtractTaps (offset : Operand β) (maxOffset alignment : Nat) :
    BlastM σ ε (Option (List Nat)) := do
  let s ← get
  if ONE_HOT_EXTRACT_MAX_OFFSET ≤ maxOffset then return none
  else
    let stride := 2 ^ min alignment 127
    let constants := (List.range offset.bits.length).map (offsetBitConstant s offset)
    return some ((List.range' 0 (maxOffset / stride + 1) stride).filter (tapAgrees constants))

/-- The taps that agree on the bits decoded so far, with their positions, and the bit that
says that the offset agrees with them too. -/
abbrev TapGroup (β : Type) := List (Nat × Nat) × Option β

def tapBitSet (index tap : Nat) : Bool := index < 128 && tap.testBit index

def selectorLiteral (bit : β) (inverse : Option β) (expected : Bool) : BlastM σ ε β :=
  match expected, inverse with
  | true, _ => pure bit
  | false, some inverse => pure inverse
  | false, none => invariantError "one-hot decoder is missing an inverted selector literal"

def extendSelect (shared : Option β) (literal : β) : BlastM σ ε β :=
  match shared with
  | some shared => emitBinary .bitAnd shared literal
  | none => pure literal

def splitHalf (index : Nat) (bit : β) (inverse : Option β) (group : TapGroup β)
    (next : List (TapGroup β)) (expected : Bool) : BlastM σ ε (List (TapGroup β)) := do
  let child := group.1.filter fun tap => tapBitSet index tap.2 = expected
  if child.isEmpty then return next
  else
    let literal ← selectorLiteral bit inverse expected
    let select ← extendSelect group.2 literal
    return next ++ [(child, some select)]

def splitGroup (index : Nat) (bit : β) (inverse : Option β) (next : List (TapGroup β))
    (group : TapGroup β) : BlastM σ ε (List (TapGroup β)) :=
  [false, true].foldlM (splitHalf index bit inverse group) next

def inverseLiteral (groups : List (TapGroup β)) (index : Nat) (bit : β) :
    BlastM σ ε (Option β) :=
  if groups.any fun group => group.1.any fun tap => !tapBitSet index tap.2 then
    some <$> emitUnary .bitNot bit
  else pure none

def decodeBit (offset : Operand β) (groups : List (TapGroup β)) (index : Nat) :
    BlastM σ ε (List (TapGroup β)) := do
  let bit ← bit offset index
  let inverse ← inverseLiteral groups index bit
  groups.foldlM (splitGroup index bit inverse) []

def storeSelect (selects : List (Option β)) (group : TapGroup β) :
    BlastM σ ε (List (Option β)) :=
  match group with
  | ([(position, _)], select) =>
    if position < selects.length then return selects.set position select
    else panicAt "index out of bounds"
  | _ => invariantError "one-hot dynamic extract taps are not distinguishable"

def sharedOneHotSelects (offset : Operand β) (taps : List Nat) (alignment : Nat) :
    BlastM σ ε (List β) := do
  let s ← get
  let indices := ((List.range offset.bits.length).drop alignment).reverse.filter fun index =>
    (offsetBitConstant s offset index).isNone
  if indices.isEmpty then
    invariantError "one-hot dynamic extract taps are not distinguishable"
  else
    let groups ← indices.foldlM (decodeBit offset) [(taps.zipIdx.map Prod.swap, none)]
    let selects ← groups.foldlM storeSelect (List.replicate taps.length none)
    selects.mapM fun
      | some select => pure select
      | none => invariantError "one-hot dynamic extract lost a decoded tap"

def reduceBalanced (values : List β) (op : BinaryOp) : BlastM σ ε β := reduceValues values op

def tapBit (tap resultBit : Nat) : BlastM σ ε Nat :=
  if tap + resultBit ≤ U32_MAX then pure (tap + resultBit)
  else invariantError "dynamic extract tap index overflow"

def oneHotDynamicExtractBits (value offset : Operand β) (taps : List Nat) (alignment width : Nat) :
    BlastM σ ε (List β) := do
  match taps with
  | [tap] => (List.range width).mapM fun resultBit => do bit value (← tapBit tap resultBit)
  | taps =>
    let selects ← sharedOneHotSelects offset taps alignment
    (List.range width).mapM fun resultBit => do
      let terms ← (selects.zip taps).mapM fun (select, tap) => do
        let data ← bit value (← tapBit tap resultBit)
        emitBinary .bitAnd select data
      reduceBalanced terms .bitOr

/-! Both. -/

def lowerDynamicExtractArchitecture (operator : SemanticOperator) (oneHot : Bool)
    (value offset : Operand β) : BlastM σ ε (List β) := do
  let width := operator.implementationWidth
  match operator.dynamicExtract with
  | none => invariantError "dynamic extract has no architecture metadata"
  | some extract =>
    if value.bits.length < width then invariantError "dynamic extract exceeds source width"
    else
      let availableOffsets := value.bits.length - width
      let needsRangeGuard : Bool := availableOffsets < extract.maximumOffset
      if oneHot then
        match ← dynamicExtractTaps offset extract.selectionMax extract.alignment with
        | none => invariantError "one-hot dynamic extract cannot enumerate its selected taps"
        | some taps =>
          let result ← oneHotDynamicExtractBits value offset taps extract.alignment width
          zeroOutOfRangeExtract result offset availableOffsets needsRangeGuard
      else
        let stages ← barrelStages offset extract.selectionMax
        let result ← (List.range width).mapM (barrelBit value offset stages)
        zeroOutOfRangeExtract result offset availableOffsets needsRangeGuard

end Opto.Bitblast
