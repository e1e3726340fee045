import Mathlib.Data.Nat.Size
import Opto.Bitblast.DynamicExtract

/-!
# Lowering shifts, comparisons and dynamic inserts

A shift has a stage for each amount bit that can move a bit within the word and a fill for
the higher amount bits. A comparison is one less-than network, corrected when the signs
differ. A dynamic insert shifts the replacement and a mask of its bits to the offset.
-/

namespace Opto.Bitblast

open Word

variable {σ ε β : Type} [BitBackend σ ε β]

/-- The name of an operator in an error. -/
def operatorName : BinaryOp → String
  | .add => "Add"
  | .sub => "Sub"
  | .mul => "Mul"
  | .div => "Div"
  | .mod => "Mod"
  | .bitAnd => "BitAnd"
  | .bitOr => "BitOr"
  | .bitXor => "BitXor"
  | .logicalAnd => "LogicalAnd"
  | .logicalOr => "LogicalOr"
  | .eq => "Eq"
  | .ne => "Ne"
  | .lt => "Lt"
  | .le => "Le"
  | .gt => "Gt"
  | .ge => "Ge"
  | .shl => "Shl"
  | .shr => "Shr"
  | .ashr => "Ashr"

/-! Shifts. -/

/-- An arithmetic shift of a signed result fills with its sign. -/
def shiftFill (op : BinaryOp) (resultTy : WordType) (current : List β) (zero : β) : BlastM σ ε β :=
  if op = .ashr && resultTy.signed then candidate current (current.length - 1) else pure zero

/-- Operand and result share an arena of `2 ^ 32` bits, so the sum of an index and a stage's
distance stays in range. -/
def shiftedBit (op : BinaryOp) (width shift : Nat) (current : List β) (zero fill : β) (index : Nat) :
    BlastM σ ε β :=
  match op with
  | .shl => if shift ≤ index then candidate current (index - shift) else pure zero
  | .shr | .ashr => if index + shift < width then candidate current (index + shift) else pure fill
  | _ => invariantError s!"invalid shift op {operatorName op} during bitblast"

def shiftStage (op : BinaryOp) (resultTy : WordType) (amount : Operand β) (zero : β) (current : List β)
    (stage : Nat) : BlastM σ ε (List β) := do
  let control ← bit amount stage
  let fill ← shiftFill op resultTy current zero
  (List.range resultTy.width).mapM fun index => do
    let shifted ← shiftedBit op resultTy.width (2 ^ stage) current zero fill index
    let kept ← candidate current index
    emitMux control shifted kept

/-- The amount bits that can move a bit within the word. -/
def relevantStages (width : Nat) : Nat := if width ≤ 1 then 0 else Nat.size (width - 1)

def shiftBits (op : BinaryOp) (value amount : Operand β) (resultTy : WordType) : BlastM σ ε (List β) := do
  let current ← resizedBits value resultTy.width resultTy.signed
  let zero ← zeroForScalar (← candidate current 0)
  let relevant := relevantStages resultTy.width
  let current ← (List.range (min amount.bits.length relevant)).foldlM
    (shiftStage op resultTy amount zero) current
  if relevant < amount.bits.length then
    let highBits ← (List.range' relevant (amount.bits.length - relevant)).mapM (bit amount)
    let overflow ← reduceValues highBits .bitOr
    let fill ← shiftFill op resultTy current zero
    current.mapM fun bit => emitMux overflow fill bit
  else return current

/-! Comparisons. -/

/-- The less-than network with its sign correction. -/
def signedLess (signed : Bool) (width : Nat) (left right : List β) : BlastM σ ε β := do
  let less ← unsignedLess left right
  if signed then do
    let leftSign ← candidate left (width - 1)
    let rightSign ← candidate right (width - 1)
    let signsDiffer ← emitBinary .bitXor leftSign rightSign
    emitMux signsDiffer leftSign less
  else pure less

def compareBits (op : BinaryOp) (left right : Operand β) : BlastM σ ε (List β) := do
  let width := max left.ty.width right.ty.width
  let signExtend := left.ty.signed && right.ty.signed
  let pairs ← (List.range width).mapM fun index => do
    let left ← resizedBit left index signExtend
    let right ← resizedBit right index signExtend
    return (left, right)
  let leftBits := pairs.map (·.1)
  let rightBits := pairs.map (·.2)
  -- every ordering shares one directional less-than network
  let (orderedLeft, orderedRight, invertResult) ← match op with
    | .lt => pure (leftBits, rightBits, false)
    | .le => pure (rightBits, leftBits, true)
    | .gt => pure (rightBits, leftBits, false)
    | .ge => pure (leftBits, rightBits, true)
    | _ => invariantError s!"invalid comparison op {operatorName op} during bitblast"
  let less ← signedLess signExtend width orderedLeft orderedRight
  let result ← if invertResult then emitUnary .bitNot less else pure less
  return [result]

/-! Dynamic inserts. -/

/-- The bit a distance below, or the zero that moves in. -/
def shiftedFrom (bits : List β) (zero : β) (index distance : Nat) : BlastM σ ε β :=
  if distance ≤ index then candidate bits (index - distance) else pure zero

def insertIndex (control zero : β) (distance : Nat) (s : List β × List β) (index : Nat) :
    BlastM σ ε (List β × List β) := do
  let shiftedValue ← shiftedFrom s.1 zero index distance
  let shiftedMask ← shiftedFrom s.2 zero index distance
  let value ← emitMux control shiftedValue (← candidate s.1 index)
  let mask ← emitMux control shiftedMask (← candidate s.2 index)
  return (s.1.set index value, s.2.set index mask)

/-- The distance of a stage is a 64-bit number. -/
def insertStage (offset : Operand β) (zero : β) (s : List β × List β) (stage : Nat) :
    BlastM σ ε (List β × List β) := do
  if 64 ≤ stage then invariantError "dynamic insert stage distance overflow"
  else
    let control ← bit offset stage
    (List.range s.1.length).reverse.foldlM (insertIndex control zero (2 ^ stage)) s

def dynamicInsertBits (value offset replacement : Operand β) : BlastM σ ε (List β) := do
  if value.bits.length < replacement.bits.length then
    invariantError "dynamic insert replacement exceeds source width"
  else
    let zero ← constant false
    let one ← constant true
    let spare := value.bits.length - replacement.bits.length
    let shifted := replacement.bits ++ List.replicate spare zero
    let mask := List.replicate replacement.bits.length one ++ List.replicate spare zero
    let (shifted, mask) ← (List.range offset.bits.length).foldlM (insertStage offset zero) (shifted, mask)
    (List.range value.bits.length).mapM fun index => do
      emitMux (← candidate mask index) (← candidate shifted index) (← bit value index)

end Opto.Bitblast
