import Opto.Library.Worklist
import Opto.Word.Builders

/-!
# Compaction

The values that connects, instances, memory ports and extra roots reach are kept.
They are renumbered in post-order, so that operands come first, and every stored
reference is sent through the new numbers.
-/

namespace Opto.Word

/-! References, in the order in which they are rewritten. -/

section References

variable {M : Type → Type} [Monad M] (f : Nat → M Nat)

def Enable.mapM (enable : Enable) : M Enable := do
  let value ← f enable.value
  return { enable with value }

def Reset.mapM (reset : Reset) : M Reset := do
  let value ← f reset.value
  let resetValue ← f reset.resetValue
  return { reset with value, resetValue }

/-- Rewrites what may be missing. -/
def optionM {α : Type} (g : α → M α) : Option α → M (Option α)
  | none => pure none
  | some a => do
    let a ← g a
    return some a

def OpKind.mapM : OpKind → M OpKind
  | .unary op arg => do
    let arg ← f arg
    return .unary op arg
  | .binary op left right => do
    let left ← f left
    let right ← f right
    return .binary op left right
  | .mux cond thenValue elseValue => do
    let cond ← f cond
    let thenValue ← f thenValue
    let elseValue ← f elseValue
    return .mux cond thenValue elseValue
  | .triState data enable => do
    let data ← f data
    let enable ← enable.mapM f
    return .triState data enable
  | .concat parts => do
    let parts ← parts.mapM f
    return .concat parts
  | .extract value lsb width => do
    let value ← f value
    return .extract value lsb width
  | .dynamicExtract value offset width => do
    let value ← f value
    let offset ← f offset
    return .dynamicExtract value offset width
  | .dynamicInsert value offset replacement => do
    let value ← f value
    let offset ← f offset
    let replacement ← f replacement
    return .dynamicInsert value offset replacement
  | .cast kind value target => do
    let value ← f value
    return .cast kind value target
  | .register op => do
    let d ← f op.d
    let clock ← f op.clock
    let enable ← optionM (Enable.mapM f) op.enable
    let resets ← op.resets.mapM (Reset.mapM f)
    return .register { op with d, clock, enable, resets }
  | .latch op => do
    let d ← f op.d
    let enable ← op.enable.mapM f
    let resets ← op.resets.mapM (Reset.mapM f)
    return .latch { d, enable, resets }

def Operation.mapM (operation : Operation) : M Operation := do
  let kind ← operation.kind.mapM f
  let result ← f operation.result
  return { kind, result }

/-- A value refers to the operation that produces it. -/
def Value.mapM (value : Value) : M Value :=
  match value.kind with
  | .operation operation => do
    let operation ← f operation
    return { value with kind := .operation operation }
  | _ => pure value

def DynamicRange.mapM (range : DynamicRange) : M DynamicRange := do
  let offset ← f range.offset
  return { range with offset }

def Connect.mapM (connect : Connect) : M Connect := do
  let value ← f connect.value
  let dynamic ← optionM (DynamicRange.mapM f) connect.target.dynamic
  return { connect with value, target := { connect.target with dynamic } }

def InstanceConnection.mapM (connection : InstanceConnection) : M InstanceConnection := do
  let value ← f connection.value
  return { connection with value }

def Instance.mapM (instance_ : Instance) : M Instance := do
  let connections ← List.mapM (InstanceConnection.mapM f) instance_.connections
  return { instance_ with connections }

def MemoryClock.mapM (clock : MemoryClock) : M MemoryClock := do
  let value ← f clock.value
  return { clock with value }

def MemoryReadTiming.mapM : MemoryReadTiming → M MemoryReadTiming
  | .asynchronous => pure .asynchronous
  | .synchronous clock enable disabled => do
    let clock ← clock.mapM f
    let enable ← optionM (Enable.mapM f) enable
    return .synchronous clock enable disabled

def MemoryReadPort.mapM (port : MemoryReadPort) : M MemoryReadPort := do
  let address ← f port.address
  let timing ← port.timing.mapM f
  return { port with address, timing }

def MemoryWriteMask.mapM (mask : MemoryWriteMask) : M MemoryWriteMask := do
  let value ← f mask.value
  return { mask with value }

def MemoryWritePort.mapM (port : MemoryWritePort) : M MemoryWritePort := do
  let address ← f port.address
  let data ← f port.data
  let clock ← port.clock.mapM f
  let enable ← optionM (Enable.mapM f) port.enable
  let mask ← optionM (MemoryWriteMask.mapM f) port.mask
  return { port with address, data, clock, enable, mask }

end References

/-! Roots. -/

def Connect.values (connect : Connect) : List Nat :=
  connect.value :: (connect.target.dynamic.map (·.offset)).toList

def MemoryReadPort.values (port : MemoryReadPort) : List Nat :=
  port.address :: match port.timing with
    | .asynchronous => []
    | .synchronous clock enable _ => clock.value :: (enable.map (·.value)).toList

def MemoryWritePort.values (port : MemoryWritePort) : List Nat :=
  port.address :: port.data :: port.clock.value ::
    ((port.enable.map (·.value)).toList ++ (port.mask.map (·.value)).toList)

def WordModule.rootValues (m : WordModule) (additionalRoots : List Nat) : List Nat :=
  m.connects.map (·.value) ++
    (m.connects.filterMap fun connect => connect.target.dynamic.map (·.offset)) ++
    (m.instances.flatMap (·.connections)).map (·.value) ++
    m.memoryReadPorts.flatMap (·.values) ++ m.memoryWritePorts.flatMap (·.values) ++
    additionalRoots

/-- The errors of compaction; running out of fuel would not be one of them. -/
def WordError.IsInvariant (e : WordError) : Prop := ∃ message, e = .invariant message

def wordError {α : Type} (message : String) : Except WordError α := .error (.invariant message)

/-! Reachability. -/

structure Reachability where
  values : List Bool
  operations : List Bool

namespace WordModule

variable (m : WordModule)

/-- Pops a value; its operation, met for the first time, has its operands pushed. -/
def reachStep (s : Reachability) (value : Nat) : Except WordError (Reachability × List Nat) :=
  match s.values[value]?, m.values[value]? with
  | some false, some stored =>
    let s := { s with values := s.values.set value true }
    match stored.kind with
    | .operation operation =>
      match s.operations[operation]?, m.operations[operation]? with
      | some false, some producer =>
        .ok ({ s with operations := s.operations.set operation true },
          producer.kind.inputs.reverse)
      | some true, some _ => .ok (s, [])
      | _, _ => wordError s!"RTL value ValueId({value}) references unknown operation OpId({operation})"
    | _ => .ok (s, [])
  | some true, some _ => .ok (s, [])
  | _, _ => wordError s!"netlist root references unknown RTL value ValueId({value})"

def inputCount : Nat := (m.operations.map fun operation => operation.kind.inputs.length).sum

/-- The operands of every operation are pushed once at most. -/
def reachable (additionalRoots : List Nat) : Except WordError Reachability :=
  Worklist.exhaust m.reachStep .mismatch
    ((m.rootValues additionalRoots).length + m.inputCount + 1)
    ⟨List.replicate m.values.length false, List.replicate m.operations.length false⟩
    (m.rootValues additionalRoots).reverse

end WordModule

/-! Renumbering. -/

structure DenseTopologicalRemap where
  valueRemap : List (Option Nat)
  operationRemap : List (Option Nat)
  valueOrder : List Nat
  operationOrder : List Nat
  /-- 0 for a value that was not met, 1 for one on the stack, 2 for one that is numbered. -/
  state : List Nat

namespace WordModule

variable (m : WordModule) (reach : Reachability)

/-- A value gets the next number, and so does the operation that produces it. -/
def finishValue (s : DenseTopologicalRemap) (index : Nat) : Except WordError DenseTopologicalRemap := do
  if s.state[index]? ≠ some 1 then wordError "RTL topological traversal lost its state"
  else
    let value ← idFromIndex "value" s.valueOrder.length
    let s := { s with
      state := s.state.set index 2
      valueRemap := s.valueRemap.set index (some value)
      valueOrder := s.valueOrder ++ [index] }
    match m.values[index]? with
    | some ⟨.operation operation, _⟩ => do
      let id ← idFromIndex "operation" s.operationOrder.length
      return { s with
        operationRemap := s.operationRemap.set operation (some id)
        operationOrder := s.operationOrder ++ [operation] }
    | _ => return s

/-- The operands of a reachable value, which its operation must own. -/
def checkedInputs (index : Nat) : Except WordError (List Nat) :=
  match m.values[index]? with
  | some ⟨.operation operation, _⟩ =>
    match m.operations[operation]? with
    | none => wordError "reachable RTL value references an unknown operation"
    | some stored =>
      if stored.result ≠ index ∨ reach.operations[operation]? ≠ some true then
        wordError "reachable RTL value disagrees with its producing operation"
      else if ¬∀ input ∈ stored.kind.inputs, reach.values[input]? = some true then
        wordError "reachable RTL operation has an unreachable input"
      else .ok stored.kind.inputs
  | _ => .ok []

def topologicalStep (s : DenseTopologicalRemap) (entry : Nat × Bool) :
    Except WordError (DenseTopologicalRemap × List (Nat × Bool)) :=
  if entry.2 then do
    let s ← m.finishValue s entry.1
    return (s, [])
  else
    match s.state[entry.1]? with
    | some 2 => .ok (s, [])
    | some 1 => wordError "RTL value dependencies contain a cycle"
    | some 0 => do
      let inputs ← m.checkedInputs reach entry.1
      return ({ s with state := s.state.set entry.1 1 },
        inputs.map (·, false) ++ [(entry.1, true)])
    | _ => wordError "RTL topological state is invalid"

/-- Every value is entered and left once, and its operands are met once. -/
def topologicalBudget : Nat := m.values.length + m.inputCount + 2

def denseTopologicalRemap : Except WordError DenseTopologicalRemap := do
  let s ← (List.range m.values.length).foldlM (fun (s : DenseTopologicalRemap) start =>
    if reach.values[start]? ≠ some true ∨ s.state[start]? = some 2 then .ok s
    else Worklist.exhaust (m.topologicalStep reach) .mismatch
      m.topologicalBudget s [(start, false)])
    ⟨List.replicate m.values.length none, List.replicate m.operations.length none, [], [],
      List.replicate m.values.length 0⟩
  if s.operationOrder.length ≠ reach.operations.count true then
    wordError "reachable operation arena disagrees with reachable values"
  else return s

end WordModule

/-! Rewriting. -/

structure NetlistRemap where
  values : List (Option Nat)
  operations : List (Option Nat)
  valueCount : Nat
  operationCount : Nat
  deriving DecidableEq

def NetlistRemap.value (remap : NetlistRemap) (old : Nat) : Option Nat := remap.values[old]?.join

def NetlistRemap.operation (remap : NetlistRemap) (old : Nat) : Option Nat :=
  remap.operations[old]?.join

def remapId (remap : List (Option Nat)) (kind : String) (index : Nat) : Except WordError Nat :=
  match remap[index]?.join with
  | some id => .ok id
  | none => wordError s!"reachable netlist references dead {kind} {index}"

def remapValue (remap : List (Option Nat)) : Nat → Except WordError Nat := remapId remap "RTL value"

def remapOperation (remap : List (Option Nat)) : Nat → Except WordError Nat :=
  remapId remap "RTL operation"

/-- Moves the rows of `order` out of a table; no row may be asked for twice. -/
def takeRows {α β : Type} (old : List α) (order : List Nat) (duplicate : String)
    (rewrite : α → Except WordError β) : Except WordError (List β) := do
  let (_, rows) ← order.foldlM (fun (state : List (Option α) × List β) index => do
    match state.1[index]? with
    | some (some row) => do
      let row ← rewrite row
      return (state.1.set index none, state.2 ++ [row])
    | some none => wordError duplicate
    | none => wordError "index out of bounds") (old.map some, [])
  return rows

/-- Where an annotation goes; nowhere when its value or operation is dead. -/
def retarget (remap : DenseTopologicalRemap) : AnnotationTarget → Option AnnotationTarget
  | .value value => remap.valueRemap[value]?.join.map .value
  | .operation operation => remap.operationRemap[operation]?.join.map .operation
  | target => some target

def compactNetlistWithRoots (additionalRoots : List Nat) : Build NetlistRemap := do
  let m ← get
  let reach ← fromExcept (m.reachable additionalRoots)
  let remap ← fromExcept (m.denseTopologicalRemap reach)
  set { m with values := [] }
  let values ← fromExcept (takeRows m.values remap.valueOrder
    "topological value order contains a duplicate" (Value.mapM (remapOperation remap.operationRemap)))
  set { m with values := [], operations := [] }
  let operations ← fromExcept (takeRows m.operations remap.operationOrder
    "topological operation order contains a duplicate"
    (Operation.mapM (remapValue remap.valueRemap)))
  let connects ← fromExcept (m.connects.mapM (Connect.mapM (remapValue remap.valueRemap)))
  set { m with values := [], operations := [], connects }
  let instances ← fromExcept (m.instances.mapM (Instance.mapM (remapValue remap.valueRemap)))
  set { m with values := [], operations := [], connects, instances }
  let memoryReadPorts ← fromExcept
    (m.memoryReadPorts.mapM (MemoryReadPort.mapM (remapValue remap.valueRemap)))
  set { m with values := [], operations := [], connects, instances, memoryReadPorts }
  let memoryWritePorts ← fromExcept
    (m.memoryWritePorts.mapM (MemoryWritePort.mapM (remapValue remap.valueRemap)))
  set { m with
    connects
    instances
    memoryReadPorts
    memoryWritePorts
    annotations := m.annotations.filterMap fun ( annotation : Annotation) =>
      (retarget remap annotation.target).map fun target => { annotation with target }
    synthesisDirectives := m.synthesisDirectives.filterMap fun (directive : SynthesisDirective) =>
      (retarget remap directive.target).map fun target => { directive with target }
    values
    operations }
  return ⟨remap.valueRemap, remap.operationRemap, values.length, operations.length⟩

def compactNetlist : Build NetlistRemap := compactNetlistWithRoots []

end Opto.Word
