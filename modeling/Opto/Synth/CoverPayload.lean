import Opto.Library.Codec
import Opto.Mapped.Names
import Opto.Synth.Truth

/-!
# Cover payloads

The cells and outputs of a library cover as bytes, and the reader that gets them back from a
plan. The reader looks at numbers and tags only; what a source refers to is looked up when
the plan is materialized.
-/

namespace Opto.Synth.Cover

open Codec
open Mapped (U32_MAX)

inductive SynthError where
  | invariant (message : String)
  | capacity (resource : String)
deriving DecidableEq

def MAX_MATCH_INPUTS : Nat := 6

def U8_MAX : Nat := 2 ^ 8 - 1

inductive LibraryCoverSource where
  | constant (value : Bool)
  | input (index : UInt64)
  | cell (index : UInt64)
  | cellSecond (index : UInt64)
deriving DecidableEq

/-- A single or a joint binding, by its number in the catalog. -/
inductive LibraryCoverBinding where
  | single (binding : Nat)
  | joint (binding : Nat)
deriving DecidableEq

structure LibraryCoverCell where
  binding : LibraryCoverBinding
  bindingIdentity : List UInt8
  truth : TruthTable
  secondTruth : Option TruthTable
  sources : List LibraryCoverSource
deriving DecidableEq

structure LibraryCover where
  cells : List LibraryCoverCell
  outputs : List LibraryCoverSource
deriving DecidableEq

structure PortableCoverCell where
  bindingIdentity : List UInt8
  truth : TruthTable
  secondTruth : Option TruthTable
  joint : Bool
  sources : List LibraryCoverSource
deriving DecidableEq

structure PortableCover where
  cells : List PortableCoverCell
  outputs : List LibraryCoverSource
deriving DecidableEq

/-! Writing. -/

def magic : List UInt8 := [0x4F, 0x52, 0x43, 0x50, 0x03]

def LibraryCoverBinding.kind : LibraryCoverBinding → UInt8
  | single _ => 0
  | joint _ => 1

def LibraryCoverSource.kindAndIndex : LibraryCoverSource → UInt8 × UInt64
  | constant value => (if value then 1 else 0, 0)
  | input index => (2, index)
  | cell index => (3, index)
  | cellSecond index => (4, index)

def encodeSource (source : LibraryCoverSource) : List UInt8 :=
  source.kindAndIndex.1 :: leBytes 8 source.kindAndIndex.2.toNat

def encodeTruth (resource : String) (truth : TruthTable) : Except SynthError (List UInt8) :=
  if truth.inputCount ≤ U8_MAX then .ok (leBytes 8 truth.bits.toNat ++ [UInt8.ofNat truth.inputCount])
  else .error (.capacity resource)

def encodeSecond : Option TruthTable → Except SynthError (List UInt8)
  | some truth => do
    return 1 :: (← encodeTruth "regional secondary truth-table input count exceeds 8 bits" truth)
  | none => .ok [0]

def encodeCell (payload : List UInt8) (entry : LibraryCoverCell × Nat) : Except SynthError (List UInt8) :=
  if entry.2 ≤ U32_MAX then do
    let truth ← encodeTruth "regional truth-table input count exceeds 8 bits" entry.1.truth
    let second ← encodeSecond entry.1.secondTruth
    return payload ++ (leBytes 4 entry.2 ++ (leBytes 8 entry.1.bindingIdentity.length ++
      (entry.1.bindingIdentity ++ (truth ++ ([entry.1.binding.kind] ++ (second ++
        (leBytes 8 entry.1.sources.length ++ entry.1.sources.flatMap encodeSource)))))))
  else .error (.capacity "regional cover cell index")

/-- The payload that a compacted plan carries. -/
def LibraryCover.payload (cover : LibraryCover) : Except SynthError (List UInt8) := do
  let payload ← cover.cells.zipIdx.foldlM encodeCell (magic ++ leBytes 8 cover.cells.length)
  return payload ++ (leBytes 8 cover.outputs.length ++ cover.outputs.flatMap encodeSource)

/-! Reading. -/

def truncated : SynthError := .invariant "regional cover-plan payload is truncated"

def readU8 : Decoder SynthError Nat := readLe truncated 1

def readU32 : Decoder SynthError Nat := readLe truncated 4

def readU64 : Decoder SynthError Nat := readLe truncated 8

def readCount (resource : String) (minimumItemBytes : Nat) : Decoder SynthError Nat := do
  let count ← readU64
  let tape ← get
  if tape.remaining.length / minimumItemBytes < count then
    throw (.invariant s!"{resource} exceeds the remaining regional cover-plan payload")
  else return count

def readTruth : Decoder SynthError TruthTable := do
  let bits ← readU64
  let inputCount ← readU8
  if MAX_MATCH_INPUTS < inputCount then
    throw (.invariant "regional cover-plan truth exceeds the supported cut width")
  else return ⟨inputCount, BitVec.ofNat 64 bits⟩

def sourceOf (kind index : Nat) : Except SynthError LibraryCoverSource :=
  if kind = 0 ∧ index = 0 then .ok (.constant false)
  else if kind = 1 ∧ index = 0 then .ok (.constant true)
  else if kind = 2 then .ok (.input (UInt64.ofNat index))
  else if kind = 3 then .ok (.cell (UInt64.ofNat index))
  else if kind = 4 then .ok (.cellSecond (UInt64.ofNat index))
  else .error (.invariant "regional cover-plan has an invalid local source")

def settle {α : Type} : Except SynthError α → Decoder SynthError α
  | .ok a => pure a
  | .error e => throw e

def readSource : Decoder SynthError LibraryCoverSource := do
  let kind ← readU8
  let index ← readU64
  settle (sourceOf kind index)

def readSources (resource : String) : Decoder SynthError (List LibraryCoverSource) := do
  let count ← readCount resource 9
  reserve count 9
  timesFrom (fun _ => readSource) 0 count

def readIdentity : Decoder SynthError (List UInt8) := do
  let length ← readCount "regional cover binding identity" 1
  reserve length 1
  takeBytes truncated length

def readJoint : Decoder SynthError Bool := do
  let kind ← readU8
  if kind = 0 then return false
  else if kind = 1 then return true
  else throw (.invariant "regional cover-plan has an unknown binding kind")

def readSecond : Decoder SynthError (Option TruthTable) := do
  let marker ← readU8
  if marker = 0 then return none
  else if marker = 1 then return some (← readTruth)
  else throw (.invariant "regional cover-plan has an invalid secondary-output marker")

def readCell (index : Nat) : Decoder SynthError PortableCoverCell := do
  let position ← readU32
  if position ≠ index then throw (.invariant "regional cover-plan cell IDs are not dense and ordered")
  else do
    let bindingIdentity ← readIdentity
    let truth ← readTruth
    let joint ← readJoint
    let secondTruth ← readSecond
    let sources ← readSources "regional cover-plan source count"
    return { bindingIdentity, truth, secondTruth, joint, sources }

def readCells : Decoder SynthError (List PortableCoverCell) := do
  let cellCount ← readCount "regional cover-plan cell count" 31
  reserve cellCount 31
  timesFrom readCell 0 cellCount

def readCover : Decoder SynthError PortableCover := do
  let abi ← takeBytes truncated 5
  if abi ≠ magic then throw (.invariant "regional cover-plan payload has an unknown ABI")
  else do
    let cells ← readCells
    let outputs ← readSources "regional cover-plan output count"
    let tape ← get
    if tape.remaining ≠ [] then throw (.invariant "regional cover-plan payload has trailing bytes")
    else return { cells, outputs }

def decode (payload : List UInt8) : Except SynthError PortableCover :=
  match readCover.run ⟨payload, []⟩ with
  | .ok cover _ => .ok cover
  | .error e _ => .error e

/-! Materialization: the references of a decoded cover. -/

section

variable {S : Type} [DecidableEq S]

/-- The two outputs of every cell, once they are allocated. -/
abbrev CellOutputs (S : Type) := List (Option S × Option S)

def assignOutputTarget (targets : CellOutputs S) (cell : Nat) (second : Bool) (target : S) :
    Except SynthError (CellOutputs S) :=
  match targets[cell]? with
  | none => .error (.invariant "regional output cell is unknown")
  | some slots =>
    if (if second then slots.2 else slots.1).any (· ≠ target) then
      .error (.invariant "one regional cell output maps to two substrate signals")
    else .ok (targets.set cell (if second then (slots.1, some target) else (some target, slots.2)))

def validateFrozenOutput (frozen : S → S → SynthError) (target source : S) : Except SynthError Unit :=
  if target ≠ source then .error (frozen target source) else .ok ()

def assignOutput (constant : Bool → S) (frozen : S → S → SynthError) (inputs : List S) (targets : CellOutputs S)
    (entry : S × LibraryCoverSource) : Except SynthError (CellOutputs S) :=
  match entry.2 with
  | .cell index => assignOutputTarget targets index.toNat false entry.1
  | .cellSecond index => assignOutputTarget targets index.toNat true entry.1
  | .constant value => do
    validateFrozenOutput frozen entry.1 (constant value)
    return targets
  | .input index =>
    match inputs[index.toNat]? with
    | none => .error (.invariant "regional cover output references an unknown input")
    | some source => do
      validateFrozenOutput frozen entry.1 source
      return targets

/-- Allocating an output claims its target, or makes a local net. -/
def allocateOutputs (claim : Nat → Bool → Option S → Except SynthError S) (targets : CellOutputs S)
    (entry : PortableCoverCell × Nat) : Except SynthError (Option S × Option S) :=
  match targets[entry.2]? with
  | none => .error (.invariant "index out of bounds")
  | some slots => do
    let primary ← claim entry.2 false slots.1
    match entry.1.secondTruth with
    | none => return (some primary, none)
    | some _ => return (some primary, some (← claim entry.2 true slots.2))

def resolveCoverSource (constant : Bool → S) (inputs : List S) (cells : CellOutputs S) (availableCells : Nat) :
    LibraryCoverSource → Except SynthError S
  | .constant value => .ok (constant value)
  | .input index =>
    match inputs[index.toNat]? with
    | some signal => .ok signal
    | none => .error (.invariant "regional cover input exceeds its revision binding")
  | .cell index =>
    if availableCells ≤ index.toNat then .error (.invariant "regional cover source is not topologically available")
    else match cells[index.toNat]?.bind Prod.fst with
      | some signal => .ok signal
      | none => .error (.invariant "regional cover output is absent")
  | .cellSecond index =>
    if availableCells ≤ index.toNat then .error (.invariant "regional cover source is not topologically available")
    else match cells[index.toNat]?.bind Prod.snd with
      | some signal => .ok signal
      | none => .error (.invariant "regional cover output is absent")

/-- The signals that the sources of every cell stand for. -/
def resolveReferences (constant : Bool → S) (frozen : S → S → SynthError)
    (claim : Nat → Bool → Option S → Except SynthError S) (cover : PortableCover) (inputs values : List S) :
    Except SynthError (List (List S)) :=
  if cover.outputs.length ≠ values.length then
    .error (.invariant "portable regional plan does not match its revision binding")
  else do
    let targets ← (values.zip cover.outputs).foldlM (assignOutput constant frozen inputs)
      (List.replicate cover.cells.length (none, none))
    let outputs ← cover.cells.zipIdx.mapM (allocateOutputs claim targets)
    cover.cells.zipIdx.mapM fun entry => entry.1.sources.mapM (resolveCoverSource constant inputs outputs entry.2)

end

end Opto.Synth.Cover
