import Opto.Bitblast.Adders
import Opto.Library.Scan

/-!
# Prefix adders

The carries of an addition are a scan over the monoid of generate and propagate pairs. The
prefix networks replace every pair by the scan up to it; each adder then takes its carries
from the scanned pairs.
-/

namespace Opto.Bitblast

open Word Growing Scan

variable {σ ε β : Type} [BitBackend σ ε β]

structure PrefixNetwork (β : Type) where
  propagate : List β
  generate : List β

def entry {α : Type} (xs : List α) (index : Nat) : BlastM σ ε α :=
  match xs[index]? with
  | some x => pure x
  | none => panicAt "index out of bounds"

def combinePrefix (upper lower : Nat) (previous next : PrefixNetwork β) :
    BlastM σ ε (PrefixNetwork β) := do
  let upperPropagate ← entry previous.propagate upper
  let lowerGenerate ← entry previous.generate lower
  let propagatedGenerate ← emitBinary .bitAnd upperPropagate lowerGenerate
  let upperGenerate ← entry previous.generate upper
  let generate ← emitBinary .bitOr upperGenerate propagatedGenerate
  let lowerPropagate ← entry previous.propagate lower
  let propagate ← emitBinary .bitAnd upperPropagate lowerPropagate
  return ⟨next.propagate.set upper propagate, next.generate.set upper generate⟩

/-- A stage reads the network that it starts from and writes a copy. -/
def combineStage (distance : Nat) (indices : List Nat) (network : PrefixNetwork β) :
    BlastM σ ε (PrefixNetwork β) :=
  indices.foldlM (fun next index => combinePrefix index (index - distance) network next) network

def koggeStoneStages (count distance : Nat) (network : PrefixNetwork β) :
    BlastM σ ε (PrefixNetwork β) :=
  if 0 < distance ∧ distance < count then do
    let next ← combineStage distance (List.range' distance (count - distance)) network
    koggeStoneStages count (2 * distance) next
  else pure network
termination_by count - distance

def koggeStonePrefix (network : PrefixNetwork β) : BlastM σ ε (PrefixNetwork β) :=
  koggeStoneStages network.generate.length 1 network

/-- The numbers from `start` on below `stop`, by steps. -/
def stepBy (start stop step : Nat) : List Nat :=
  List.range' start ((stop - start + step - 1) / step) step

def brentKungUp (count stride : Nat) (network : PrefixNetwork β) : BlastM σ ε (PrefixNetwork β) :=
  if 0 < stride ∧ stride < count then do
    let next ← combineStage stride (stepBy (2 * stride - 1) count (2 * stride)) network
    brentKungUp count (2 * stride) next
  else pure network
termination_by count - stride

def brentKungDown (count stride : Nat) (network : PrefixNetwork β) :
    BlastM σ ε (PrefixNetwork β) :=
  if 0 < stride then do
    let next ← combineStage stride (stepBy (3 * stride - 1) count (2 * stride)) network
    brentKungDown count (stride / 2) next
  else pure network
termination_by stride

def nextPowerOfTwo (n : Nat) : Nat := 2 ^ Nat.clog 2 n

def brentKungPrefix (network : PrefixNetwork β) : BlastM σ ε (PrefixNetwork β) := do
  let count := network.generate.length
  let current ← brentKungUp count 1 network
  brentKungDown count (nextPowerOfTwo count / 4) current

/-- The propagate bits of all positions and the generate bits of all but the last. -/
def prefixInputsLoop {γ : Type} (position : γ → BlastM σ ε (β × β)) :
    List γ → BlastM σ ε (List β × List β)
  | [] => pure ([], [])
  | [last] => do
    let (left, right) ← position last
    let propagate ← emitBinary .bitXor left right
    return ([propagate], [])
  | first :: rest => do
    let (left, right) ← position first
    let propagate ← emitBinary .bitXor left right
    let generate ← emitBinary .bitAnd left right
    let (propagates, generates) ← prefixInputsLoop position rest
    return (propagate :: propagates, generate :: generates)

def prefixInputs {γ : Type} (position : γ → BlastM σ ε (β × β)) (positions : List γ) :
    BlastM σ ε (List β × PrefixNetwork β) := do
  let (propagate, generate) ← prefixInputsLoop position positions
  return (propagate, ⟨propagate.take generate.length, generate⟩)

def prefixAdderInputs (left right : Operand β) (subtract : Bool) (resultTy : WordType) :
    BlastM σ ε (List β × PrefixNetwork β) :=
  prefixInputs (addSubPosition left right subtract resultTy) (List.range resultTy.width)

def prefixInputsFromBits (left right : List β) : BlastM σ ε (List β × PrefixNetwork β) :=
  if left.length ≠ right.length ∨ left.length < 2 then
    invariantError "hybrid prefix inputs must have equal widths of at least two bits"
  else prefixInputs pure (left.zip right)

/-- The carry past a scanned position when the carry into position zero is `one`. -/
def scannedCarry (network : PrefixNetwork β) (one : Bool) (index : Nat) : BlastM σ ε β := do
  let generate ← entry network.generate index
  if one then do
    let propagate ← entry network.propagate index
    emitBinary .bitOr generate propagate
  else pure generate

def scannedSum (network : PrefixNetwork β) (one : Bool) (bit : β) (index : Nat) : BlastM σ ε β := do
  let carry ← scannedCarry network one (index - 1)
  emitBinary .bitXor bit carry

def prefixAdderSum (propagate : List β) (network : PrefixNetwork β) (subtract : Bool) :
    BlastM σ ε (List β) :=
  match propagate with
  | [] => panicAt "index out of bounds"
  | first :: rest => do
    let sum ← invertIf subtract first
    let sums ← (rest.zipIdx 1).mapM fun position => scannedSum network subtract position.1 position.2
    return sum :: sums

def carriedSum (network : PrefixNetwork β) (carryIn bit : β) (index : Nat) : BlastM σ ε β := do
  let propagate ← entry network.propagate (index - 1)
  let propagatedCarry ← emitBinary .bitAnd propagate carryIn
  let generate ← entry network.generate (index - 1)
  let carry ← emitBinary .bitOr generate propagatedCarry
  emitBinary .bitXor bit carry

def prefixAdderSumWithCarry (propagate : List β) (network : PrefixNetwork β) (carryIn : β) :
    BlastM σ ε (List β) :=
  match propagate with
  | [] => invariantError "hybrid prefix sum has no propagate bits"
  | first :: rest => do
    let sum ← emitBinary .bitXor first carryIn
    let sums ← (rest.zipIdx 1).mapM fun position => carriedSum network carryIn position.1 position.2
    return sum :: sums

/-- Carry-in joins the generate bit of position zero before the scan. -/
def seedPrefixCarry (network : PrefixNetwork β) (carry : β) : BlastM σ ε (PrefixNetwork β) := do
  let propagate ← entry network.propagate 0
  let propagated ← emitBinary .bitAnd propagate carry
  let generate ← entry network.generate 0
  let seeded ← emitBinary .bitOr generate propagated
  return ⟨network.propagate, network.generate.set 0 seeded⟩

/-- The scanned generate bits already contain carry-in. -/
def seededCarry (network : PrefixNetwork β) (carry : β) (index : Nat) : BlastM σ ε β :=
  if index = 0 then pure carry else entry network.generate (index - 1)

def seededSum (network : PrefixNetwork β) (carry bit : β) (index : Nat) : BlastM σ ε β := do
  let carry ← seededCarry network carry index
  emitBinary .bitXor bit carry

def seededPrefixSum (propagate : List β) (network : PrefixNetwork β) (carry : β) :
    BlastM σ ε (List β) :=
  propagate.zipIdx.mapM fun position => seededSum network carry position.1 position.2

def koggeStoneAddSubBits (left right : Operand β) (subtract : Bool) (resultTy : WordType) :
    BlastM σ ε (List β) := do
  let (propagate, network) ← prefixAdderInputs left right subtract resultTy
  let network ← koggeStonePrefix network
  prefixAdderSum propagate network subtract

def brentKungAddSubBits (left right : Operand β) (subtract : Bool) (resultTy : WordType) :
    BlastM σ ε (List β) := do
  let (propagate, network) ← prefixAdderInputs left right subtract resultTy
  let network ← brentKungPrefix network
  prefixAdderSum propagate network subtract

def koggeStoneAddVectors (left right : List β) (carry : β) : BlastM σ ε (List β) :=
  if left.length < 2 then addVectors left right carry
  else do
    let (propagate, network) ← prefixInputsFromBits left right
    let network ← seedPrefixCarry network carry
    let network ← koggeStonePrefix network
    seededPrefixSum propagate network carry

def brentKungAddVectors (left right : List β) (carry : β) : BlastM σ ε (List β) :=
  if left.length < 2 then addVectors left right carry
  else do
    let (propagate, network) ← prefixInputsFromBits left right
    let network ← seedPrefixCarry network carry
    let network ← brentKungPrefix network
    seededPrefixSum propagate network carry

/-- A ripple adder for the low bits whose carry enters a Brent-Kung adder for the rest. -/
def hybridBrentKungAddSubBits (left right : Operand β) (subtract : Bool) (resultTy : WordType)
    (requestedRippleWidth : Nat) : BlastM σ ε (List β) := do
  let split := min (max requestedRippleWidth 2) (resultTy.width - 2)
  let bits ← addSubOperands left right subtract resultTy
  let initialCarry ← constant subtract
  let leftBits := bits.map Prod.fst
  let rightBits := bits.map Prod.snd
  let (sum, carry) ← addVectorsWithCarry (leftBits.take split) (rightBits.take split) initialCarry
  let (propagate, network) ← prefixInputsFromBits (leftBits.drop split) (rightBits.drop split)
  let network ← brentKungPrefix network
  let rest ← prefixAdderSumWithCarry propagate network carry
  return sum ++ rest

end Opto.Bitblast
