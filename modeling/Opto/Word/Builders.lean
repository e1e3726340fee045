import Opto.Library.Outcome
import Opto.Word.Module

/-!
# Building a word module

The checked calls that append to a module. A call that fails may leave a name
interned, but never an object.
-/

namespace Opto.Word

open Mapped (U32_MAX NameTable NameError NameId isBlank)

inductive WordError
  | invariant (message : String)
  /-- A foreign id, a range or a type is refused. -/
  | mismatch
  | name (error : NameError)
  deriving DecidableEq

abbrev Build := EStateM WordError WordModule

def fromExcept {α : Type} : Except WordError α → Build α
  | .ok a => pure a
  | .error e => throw e

/-- Ids are stored one-based in 32 bits. -/
def idFromIndex (kind : String) (index : Nat) : Except WordError Nat :=
  if index + 1 ≤ U32_MAX then .ok index
  else .error (.invariant s!"{kind} ID exceeds 32-bit capacity")

def orMismatch {α : Type} : Option α → Except WordError α
  | some a => .ok a
  | none => .error .mismatch

def check (holds : Bool) (message : String) : Except WordError Unit :=
  if holds then .ok () else .error (.invariant message)

def expectMatch (holds : Bool) : Except WordError Unit :=
  if holds then .ok () else .error .mismatch

def denseId (index : List (Option Nat)) (name : NameId) : Option Nat := index[name]?.join

def insertDenseId (index : List (Option Nat)) (name : NameId) (id : Nat) :
    Except WordError (List (Option Nat)) :=
  let index := index ++ List.replicate (name + 1 - index.length) none
  if (denseId index name).isSome then
    .error (.invariant "dense name index insertion is not unique")
  else .ok (index.set name (some id))

namespace WordModule

def new (name : String) (identity : Nat) : Except NameError WordModule := do
  let (id, names) ← NameTable.intern ⟨[""], [], by decide⟩ name
  return {
    names
    name := id
    definitionKind := .synthesizable
    annotations := []
    synthesisDirectives := []
    ports := []
    signals := []
    memories := []
    memoryReadPorts := []
    memoryWritePorts := []
    typeLayouts := []
    values := []
    operations := []
    connects := []
    instances := []
    namedSignals := []
    namedMemories := []
    namedInstances := []
    speculationIdentity := identity }

/-! Memory ports. -/

/-- The bits that address every element. -/
def minimumAddressWidth (depth : Nat) : Nat := if depth ≤ 2 then 1 else Nat.log2 (depth - 1) + 1

variable (m : WordModule)

def requireWidth (value width : Nat) : Except WordError Unit :=
  orMismatch (m.requireValueWidth value width)

def validateMemoryAddress (memory address : Nat) : Except WordError Memory := do
  let memory ← orMismatch m.memories[memory]?
  let ty ← orMismatch (m.valueTy address)
  expectMatch (!ty.signed && minimumAddressWidth memory.depth ≤ ty.width)
  return memory

def validateMemoryReadPort (port : MemoryReadPort) : Except WordError Unit := do
  let memory ← m.validateMemoryAddress port.memory port.address
  let data ← orMismatch m.signals[port.data]?
  expectMatch (data.ty = memory.elementType)
  let validTarget := match data.kind with
    | .wire => true
    | .port id => m.ports[id]?.any (·.direction = .output)
    | .register | .processLocal => false
  check (validTarget && data.resolution = .singleDriver)
    "memory read data must drive a single-driver wire or output port"
  check (!(m.memoryReadPorts.any (·.data = port.data) ||
      m.connects.any (·.target.signal = port.data)))
    "memory read data signal must have exactly one memory-port driver"
  match port.timing with
  | .asynchronous => return ()
  | .synchronous clock enable _ =>
    m.requireWidth clock.value 1
    enable.toList.forM fun enable => m.requireWidth enable.value 1

def validateMemoryWritePort (port : MemoryWritePort) : Except WordError Unit := do
  let memory ← m.validateMemoryAddress port.memory port.address
  let data ← orMismatch (m.valueTy port.data)
  expectMatch (data = memory.elementType)
  m.requireWidth port.clock.value 1
  port.enable.toList.forM fun enable => m.requireWidth enable.value 1
  port.mask.toList.forM fun mask => do
    let ty ← orMismatch (m.valueTy mask.value)
    let covered := ty.width * mask.granularity
    check (covered ≤ U32_MAX) "memory write mask width overflows"
    expectMatch (!ty.signed && covered = memory.elementType.width)
  check (!m.memoryWritePorts.any fun other =>
      other.memory = port.memory && other.priority = port.priority)
    s!"memory write priority {port.priority} is not unique"

end WordModule

open WordModule

/-! Names and signals. -/

def internName (name : String) : Build NameId := do
  let m ← get
  match m.names.intern name with
  | .error e => throw (.name e)
  | .ok (id, names) =>
    set { m with names }
    return id

def pushSignal (signal : Signal) : Build Nat := do
  let m ← get
  let id ← fromExcept (idFromIndex "signal" m.signals.length)
  set { m with signals := m.signals ++ [signal] }
  return id

/-- A name stands for one signal or one memory. -/
def checkSignalName (m : WordModule) (name : String) : Except WordError Unit :=
  match m.names.get name with
  | none => .ok ()
  | some id => do
    check (denseId m.namedSignals id).isNone s!"duplicate RTL signal '{name}'"
    check (denseId m.namedMemories id).isNone s!"RTL signal name '{name}' conflicts with a memory"

def nameSignal (name : NameId) (id : Nat) : Build Unit := do
  let m ← get
  let namedSignals ← fromExcept (insertDenseId m.namedSignals name id)
  set { m with namedSignals }

def addNamedSignal (name : String) (kind : SignalKind) (ty : WordType) : Build Nat := do
  let m ← get
  fromExcept (checkSignalName m name)
  let name ← internName name
  let id ← pushSignal ⟨some name, kind, ty, .singleDriver, none⟩
  nameSignal name id
  return id

def addWire (name : String) (ty : WordType) : Build Nat := addNamedSignal name .wire ty

def addRegisterSignal (name : String) (ty : WordType) : Build Nat :=
  addNamedSignal name .register ty

def addProcessLocalSignal (name : String) (ty : WordType) : Build Nat :=
  addNamedSignal name .processLocal ty

def addGeneratedWire (ty : WordType) : Build Nat :=
  pushSignal ⟨none, .wire, ty, .singleDriver, none⟩

def addPort (name : String) (direction : PortDirection) (ty : WordType) : Build Nat := do
  let m ← get
  let port ← fromExcept (idFromIndex "port" m.ports.length)
  let signal ← addNamedSignal name (.port port) ty
  let m ← get
  match m.signals[signal]?.bind (·.name) with
  | none => throw (.invariant "a named port signal must retain its name")
  | some name =>
    set ({ m with ports := m.ports ++ [⟨name, direction, signal, ty⟩] } : WordModule)
    return port

/-! Memories. -/

def checkMemoryName (m : WordModule) (name : String) : Except WordError Unit := do
  check (!isBlank name) "RTL memory name cannot be empty"
  match m.names.get name with
  | none => return ()
  | some id =>
    check (denseId m.namedMemories id).isNone s!"duplicate RTL memory name '{name}'"
    check (denseId m.namedSignals id).isNone s!"RTL memory name '{name}' conflicts with a signal"

def addMemory (name : String) (elementType : WordType) (depth : Nat) : Build Nat := do
  let m ← get
  fromExcept (checkMemoryName m name)
  let name ← internName name
  let m ← get
  let id ← fromExcept (idFromIndex "memory" m.memories.length)
  let namedMemories ← fromExcept (insertDenseId m.namedMemories name id)
  set ({ m with memories := m.memories ++ [⟨name, elementType, depth⟩], namedMemories } :
    WordModule)
  return id

def addMemoryReadPort (port : MemoryReadPort) : Build Nat := do
  let m ← get
  fromExcept (m.validateMemoryReadPort port)
  let id ← fromExcept (idFromIndex "memory read port" m.memoryReadPorts.length)
  set { m with memoryReadPorts := m.memoryReadPorts ++ [port] }
  return id

def addMemoryWritePort (port : MemoryWritePort) : Build Nat := do
  let m ← get
  fromExcept (m.validateMemoryWritePort port)
  let id ← fromExcept (idFromIndex "memory write port" m.memoryWritePorts.length)
  set { m with memoryWritePorts := m.memoryWritePorts ++ [port] }
  return id

/-! Values and operations. -/

def pushValue (kind : ValueKind) (ty : WordType) : Build Nat := do
  let m ← get
  let id ← fromExcept (idFromIndex "value" m.values.length)
  set ({ m with values := m.values ++ [⟨kind, ty⟩] } : WordModule)
  return id

def pushOperation (kind : OpKind) (ty : WordType) : Build Nat := do
  let m ← get
  let op ← fromExcept (idFromIndex "operation" m.operations.length)
  let result ← pushValue (.operation op) ty
  let m ← get
  set ({ m with operations := m.operations ++ [⟨kind, result⟩] } : WordModule)
  return result

def constant (bits : List BitVal) (ty : WordType) : Build Nat := do
  fromExcept (check (bits.length = ty.width)
    s!"constant width {bits.length} does not match type width {ty.width}")
  fromExcept (check (!(ty.state = .twoState ∧ (.x ∈ bits ∨ .z ∈ bits)))
    "two-state constant cannot contain x or z bits")
  pushValue (.constant bits) ty

def readSignalSlice (signal lsb width : Nat) : Build Nat := do
  let m ← get
  let signalTy ← fromExcept (orMismatch (m.signalTy signal))
  fromExcept (check (0 < width) "signal reference width must be non-zero")
  fromExcept (check (lsb + width ≤ U32_MAX) "signal reference range exceeds 32-bit capacity")
  fromExcept (expectMatch (lsb + width ≤ signalTy.width))
  let ty ← fromExcept (if lsb = 0 ∧ width = signalTy.width then .ok signalTy
    else orMismatch (WordType.new width false signalTy.state))
  pushValue (.signal ⟨signal, lsb, width⟩) ty

def readSignal (signal : Nat) : Build Nat := do
  let m ← get
  let ty ← fromExcept (orMismatch (m.signalTy signal))
  readSignalSlice signal 0 ty.width

/-- What the builder of each operation does once it has typed it. -/
def addOperation (kind : OpKind) : Build Nat := do
  let m ← get
  let ty ← fromExcept (orMismatch (m.operationType kind))
  pushOperation kind ty

def unary (op : UnaryOp) (arg : Nat) : Build Nat := addOperation (.unary op arg)

def binary (op : BinaryOp) (left right : Nat) : Build Nat := addOperation (.binary op left right)

def mux (cond thenValue elseValue : Nat) : Build Nat :=
  addOperation (.mux cond thenValue elseValue)

def triState (data : Nat) (enable : Enable) : Build Nat := addOperation (.triState data enable)

def concat (parts : List Nat) : Build Nat := addOperation (.concat parts)

def extract (value lsb width : Nat) : Build Nat := addOperation (.extract value lsb width)

def dynamicExtract (value offset width : Nat) : Build Nat :=
  addOperation (.dynamicExtract value offset width)

def dynamicInsert (value offset replacement : Nat) : Build Nat :=
  addOperation (.dynamicInsert value offset replacement)

def cast (kind : CastKind) (value : Nat) (target : WordType) : Build Nat :=
  addOperation (.cast kind value target)

def register (op : RegisterOp) : Build Nat := addOperation (.register op)

def latch (op : LatchOp) : Build Nat := addOperation (.latch op)

inductive BatchValue
  | existing (value : Nat)
  | generated (ordinal : Nat)
  deriving DecidableEq

structure MuxBatchOperation where
  cond : BatchValue
  thenValue : BatchValue
  elseValue : BatchValue
  deriving DecidableEq

/-- Batch operands refer to earlier rows of the batch only. -/
def batchTy (m : WordModule) (generated : List WordType) : BatchValue → Except WordError WordType
  | .existing value => orMismatch (m.valueTy value)
  | .generated ordinal => orMismatch generated[ordinal]?

def batchTypes (m : WordModule) (operations : List MuxBatchOperation) :
    Except WordError (List WordType) :=
  operations.foldlM (fun generated operation => do
    let cond ← batchTy m generated operation.cond
    check (cond.width = 1) "batch mux condition is not scalar"
    let ty ← batchTy m generated operation.thenValue
    let elseTy ← batchTy m generated operation.elseValue
    check (elseTy = ty) "batch mux branch types differ"
    return generated ++ [ty]) []

def BatchValue.resolve (base : Nat) : BatchValue → Nat
  | .existing value => value
  | .generated ordinal => base + ordinal

/-- The last ids of a batch must fit. -/
def batchFits (m : WordModule) (count : Nat) : Except WordError Unit :=
  if count = 0 then .ok ()
  else do
    discard <| idFromIndex "value" (m.values.length + count - 1)
    discard <| idFromIndex "operation" (m.operations.length + count - 1)

def appendMuxBatch (operations : List MuxBatchOperation) : Build (List Nat) := do
  let m ← get
  let count := operations.length
  fromExcept (batchFits m count)
  let tys ← fromExcept (batchTypes m operations)
  let results := (List.range count).map (m.values.length + ·)
  let base := m.values.length
  set ({ m with
    values := m.values ++ tys.zipIdx.map fun row =>
      ⟨.operation (m.operations.length + row.2), row.1⟩
    operations := m.operations ++ operations.zipIdx.map fun row =>
      ⟨.mux (row.1.cond.resolve base) (row.1.thenValue.resolve base) (row.1.elseValue.resolve base),
        base + row.2⟩ } : WordModule)
  return results

def connect (target : LValue) (value : Nat) : Build Unit := do
  let m ← get
  fromExcept (check (!m.memoryReadPorts.any (·.data = target.signal))
    "memory read data signal cannot have another structural driver")
  let targetTy ← fromExcept (orMismatch (m.lvalueTy target))
  let valueTy ← fromExcept (orMismatch (m.valueTy value))
  fromExcept (expectMatch (targetTy = valueTy))
  set ({ m with connects := m.connects ++ [⟨target, value⟩] } : WordModule)

end Opto.Word
