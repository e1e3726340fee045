import Opto.Mapped.Names

/-!
# Word modules

Signals, ports, memories, values and operations of a word-level definition, its static
and runtime-indexed connections, its instances, and the checks a module passes before it
is published.
-/

namespace Opto.Word

open Mapped (NameTable NameCheckpoint NameError NameId isBlank)

inductive LogicStateKind
  | twoState
  | fourState
  deriving DecidableEq, Repr

def LogicStateKind.merge (left right : LogicStateKind) : LogicStateKind :=
  if left = .fourState ∨ right = .fourState then .fourState else .twoState

structure WordType where
  width : Nat
  signed : Bool
  state : LogicStateKind
  positive : 0 < width
  deriving DecidableEq, Repr

namespace WordType

def new (width : Nat) (signed : Bool) (state : LogicStateKind) : Option WordType :=
  if h : 0 < width then some ⟨width, signed, state, h⟩ else none

def withWidth (ty : WordType) (width : Nat) : Option WordType := new width ty.signed ty.state

def mergedState (left right : WordType) : LogicStateKind := left.state.merge right.state

/-- One unsigned bit. -/
def scalar (state : LogicStateKind) : WordType := ⟨1, false, state, Nat.one_pos⟩

end WordType

inductive BitVal
  | zero
  | one
  | x
  | z
  deriving DecidableEq, Repr

structure SignalRef where
  signal : Nat
  lsb : Nat
  width : Nat
  deriving DecidableEq, Repr

inductive ValueKind
  | signal (reference : SignalRef)
  /-- The bits come most significant first. -/
  | constant (bits : List BitVal)
  | operation (operation : Nat)
  deriving DecidableEq, Repr

structure Value where
  kind : ValueKind
  ty : WordType
  deriving DecidableEq, Repr

inductive UnaryOp
  | logicalNot
  | bitNot
  | reductionAnd
  | reductionOr
  | reductionXor
  deriving DecidableEq, Repr

inductive BinaryOp
  | add
  | sub
  | mul
  | div
  | mod
  | bitAnd
  | bitOr
  | bitXor
  | logicalAnd
  | logicalOr
  | eq
  | ne
  | lt
  | le
  | gt
  | ge
  | shl
  | shr
  | ashr
  deriving DecidableEq, Repr

inductive CastKind
  | zeroExtend
  | signExtend
  | truncate
  deriving DecidableEq, Repr

inductive Edge
  | pos
  | neg
  deriving DecidableEq, Repr

structure Enable where
  value : Nat
  activeHigh : Bool
  deriving DecidableEq, Repr

inductive ResetKind
  | sync
  | async
  deriving DecidableEq, Repr

structure Reset where
  kind : ResetKind
  value : Nat
  activeHigh : Bool
  resetValue : Nat
  deriving DecidableEq, Repr

structure RegisterOp where
  d : Nat
  clock : Nat
  edge : Edge
  enable : Option Enable
  resets : List Reset
  deriving DecidableEq, Repr

structure LatchOp where
  d : Nat
  enable : Enable
  resets : List Reset
  deriving DecidableEq, Repr

inductive OpKind
  | unary (op : UnaryOp) (arg : Nat)
  | binary (op : BinaryOp) (left right : Nat)
  | mux (cond thenValue elseValue : Nat)
  | triState (data : Nat) (enable : Enable)
  /-- The most significant part comes first. -/
  | concat (parts : List Nat)
  | extract (value lsb width : Nat)
  | dynamicExtract (value offset width : Nat)
  | dynamicInsert (value offset replacement : Nat)
  | cast (kind : CastKind) (value : Nat) (target : WordType)
  | register (op : RegisterOp)
  | latch (op : LatchOp)
  deriving DecidableEq, Repr

/-- The operands in the order `for_each_input` visits them. -/
def OpKind.inputs : OpKind → List Nat
  | .unary _ arg => [arg]
  | .binary _ left right => [left, right]
  | .mux cond thenValue elseValue => [cond, thenValue, elseValue]
  | .triState data enable => [data, enable.value]
  | .concat parts => parts
  | .extract value _ _ => [value]
  | .dynamicExtract value offset _ => [value, offset]
  | .dynamicInsert value offset replacement => [value, offset, replacement]
  | .cast _ value _ => [value]
  | .register op => op.d :: op.clock :: (op.enable.map (·.value)).toList ++
      op.resets.flatMap fun reset => [reset.value, reset.resetValue]
  | .latch op => op.d :: op.enable.value ::
      op.resets.flatMap fun reset => [reset.value, reset.resetValue]

structure Operation where
  kind : OpKind
  result : Nat
  deriving DecidableEq, Repr

structure BitRange where
  msb : Nat
  lsb : Nat
  deriving DecidableEq, Repr

def BitRange.width (range : BitRange) : Nat := range.msb - range.lsb + (range.lsb - range.msb) + 1

/-- The bit of the target that a connection's bit `offset` drives. -/
def targetBit (range : Option BitRange) (offset : Nat) : Option Nat :=
  match range with
  | none => some offset
  | some range =>
    if range.lsb ≤ range.msb then some (range.lsb + offset)
    else if offset ≤ range.lsb then some (range.lsb - offset) else none

structure DynamicRange where
  offset : Nat
  width : Nat
  deriving DecidableEq, Repr

structure LValue where
  signal : Nat
  range : Option BitRange
  dynamic : Option DynamicRange
  deriving DecidableEq, Repr

structure Connect where
  target : LValue
  value : Nat
  deriving DecidableEq, Repr

inductive PortDirection
  | input
  | output
  | inout
  deriving DecidableEq, Repr

structure Port where
  name : NameId
  direction : PortDirection
  signal : Nat
  ty : WordType
  deriving DecidableEq, Repr

inductive SignalKind
  | wire
  | register
  | processLocal
  | port (port : Nat)
  deriving DecidableEq, Repr

inductive SignalResolution
  | singleDriver
  | triState
  | wiredAnd
  | wiredOr
  | pullZero
  | pullOne
  | supplyZero
  | supplyOne
  deriving DecidableEq, Repr

structure Signal where
  name : Option NameId
  kind : SignalKind
  ty : WordType
  resolution : SignalResolution
  typeLayout : Option Nat
  deriving DecidableEq, Repr

structure MemoryClock where
  value : Nat
  edge : Edge
  deriving DecidableEq, Repr

inductive DisabledRead
  | hold
  | undefined
  deriving DecidableEq, Repr

inductive ReadDuringWrite
  | oldData
  | newData
  | noChange
  | undefined
  deriving DecidableEq, Repr

inductive MemoryReadTiming
  | asynchronous
  | synchronous (clock : MemoryClock) (enable : Option Enable) (disabled : DisabledRead)
  deriving DecidableEq, Repr

structure Memory where
  name : NameId
  elementType : WordType
  depth : Nat
  deriving DecidableEq, Repr

structure MemoryReadPort where
  memory : Nat
  address : Nat
  data : Nat
  timing : MemoryReadTiming
  readDuringWrite : ReadDuringWrite
  deriving DecidableEq, Repr

structure MemoryWriteMask where
  value : Nat
  granularity : Nat
  activeHigh : Bool
  deriving DecidableEq, Repr

structure MemoryWritePort where
  memory : Nat
  address : Nat
  data : Nat
  clock : MemoryClock
  enable : Option Enable
  mask : Option MemoryWriteMask
  priority : Nat
  deriving DecidableEq, Repr

structure TypeLayout where
  width : Nat
  deriving DecidableEq, Repr

inductive DefinitionKind
  | synthesizable
  | blackBox
  deriving DecidableEq, Repr

inductive AnnotationTarget
  | module
  | port (id : Nat)
  | signal (id : Nat)
  | memory (id : Nat)
  | memoryReadPort (id : Nat)
  | memoryWritePort (id : Nat)
  | value (id : Nat)
  | operation (id : Nat)
  | instance (id : Nat)
  deriving DecidableEq, Repr

inductive AnnotationValue
  | integer (bits : NameId) (width : Nat) (signed : Bool)
  | string (text : NameId)
  | other (text : NameId)
  deriving DecidableEq, Repr

structure Annotation where
  target : AnnotationTarget
  name : NameId
  value : AnnotationValue
  deriving DecidableEq, Repr

inductive SynthesisDirectiveKind
  | dontTouch
  | ungroup
  | keepSignal
  | asyncRegister
  deriving DecidableEq, Repr

structure SynthesisDirective where
  target : AnnotationTarget
  kind : SynthesisDirectiveKind
  enabled : Bool
  deriving DecidableEq, Repr

structure InstanceConnection where
  port : NameId
  value : Nat
  deriving DecidableEq, Repr

structure Instance where
  name : NameId
  module : NameId
  connections : List InstanceConnection
  deriving DecidableEq, Repr

structure WordModule where
  names : NameTable
  name : NameId
  definitionKind : DefinitionKind
  annotations : List Annotation
  synthesisDirectives : List SynthesisDirective
  ports : List Port
  signals : List Signal
  memories : List Memory
  memoryReadPorts : List MemoryReadPort
  memoryWritePorts : List MemoryWritePort
  typeLayouts : List TypeLayout
  values : List Value
  operations : List Operation
  connects : List Connect
  instances : List Instance
  namedSignals : List (Option Nat)
  namedMemories : List (Option Nat)
  namedInstances : List (Option Nat)
  /-- The owner of the checkpoints; a clone gets another one. -/
  speculationIdentity : Nat
  deriving DecidableEq

namespace WordModule

/-- A module without contents. -/
def empty : WordModule where
  names := ⟨[], [], List.nodup_nil⟩
  name := 0
  definitionKind := .synthesizable
  annotations := []
  synthesisDirectives := []
  ports := []
  signals := []
  memories := []
  memoryReadPorts := []
  memoryWritePorts := []
  typeLayouts := []
  values := []
  operations := []
  connects := []
  instances := []
  namedSignals := []
  namedMemories := []
  namedInstances := []
  speculationIdentity := 0

variable (m : WordModule)

/-- The operation that a value comes from. -/
def producer (value : Nat) : Option Nat :=
  match m.values[value]? with
  | some ⟨.operation operation, _⟩ => some operation
  | _ => none

def valueTy (value : Nat) : Option WordType := m.values[value]?.map (·.ty)

def signalTy (signal : Nat) : Option WordType := m.signals[signal]?.map (·.ty)

def lvalueTy (lvalue : LValue) : Option WordType := do
  let signalTy ← m.signalTy lvalue.signal
  match lvalue.range, lvalue.dynamic with
  | some _, some _ => none
  | _, some dynamic => do
    let offsetTy ← m.valueTy dynamic.offset
    if offsetTy.signed ∨ signalTy.width < dynamic.width then none
    else WordType.new dynamic.width false signalTy.state
  | some range, none =>
    if signalTy.width ≤ max range.msb range.lsb then none
    else WordType.new range.width false signalTy.state
  | none, none => some signalTy

def requireValueWidth (value width : Nat) : Option Unit := do
  let ty ← m.valueTy value
  if ty.width = width then some () else none

def validateResets (data : Nat) (resets : List Reset) (latch : Bool) : Option Unit := do
  let data ← m.valueTy data
  resets.forM fun reset => do
    if latch && decide (reset.kind ≠ .async) then none
    m.requireValueWidth reset.value 1
    let ty ← m.valueTy reset.resetValue
    if ty = data then some () else none

def operationType : OpKind → Option WordType
  | .unary op arg => do
    let ty ← m.valueTy arg
    match op with
    | .logicalNot | .reductionAnd | .reductionOr | .reductionXor => some (.scalar ty.state)
    | .bitNot => some ty
  | .binary op left right => do
    let left ← m.valueTy left
    let right ← m.valueTy right
    let state := left.mergedState right
    match op with
    | .logicalAnd | .logicalOr | .eq | .ne | .lt | .le | .gt | .ge => some (.scalar state)
    | .shl | .shr | .ashr => WordType.new left.width left.signed state
    | _ => WordType.new (max left.width right.width) (left.signed && right.signed) state
  | .mux cond thenValue elseValue => do
    m.requireValueWidth cond 1
    let thenTy ← m.valueTy thenValue
    let elseTy ← m.valueTy elseValue
    if thenTy = elseTy then some thenTy else none
  | .triState data enable => do
    m.requireValueWidth enable.value 1
    m.valueTy data
  | .concat parts => do
    if parts = [] then none
    let tys ← parts.mapM m.valueTy
    WordType.new (tys.map (·.width)).sum false
      ((tys.map (·.state)).foldl .merge .twoState)
  | .extract value lsb width => do
    let ty ← m.valueTy value
    if ty.width < lsb + width then none else ty.withWidth width
  | .dynamicExtract value offset width => do
    let ty ← m.valueTy value
    let offset ← m.valueTy offset
    if ty.width < width ∨ offset.signed then none else ty.withWidth width
  | .dynamicInsert value offset replacement => do
    let ty ← m.valueTy value
    let replacement ← m.valueTy replacement
    let offset ← m.valueTy offset
    if offset.signed ∨ ty.width < replacement.width ∨ replacement.state ≠ ty.state then none
    else some ty
  | .cast kind value target => do
    let source ← m.valueTy value
    if (kind ≠ .truncate ∧ target.width < source.width) ∨
        (kind = .truncate ∧ source.width < target.width) then none
    else some target
  | .register op => do
    m.requireValueWidth op.clock 1
    op.enable.toList.forM fun enable => m.requireValueWidth enable.value 1
    m.validateResets op.d op.resets false
    m.valueTy op.d
  | .latch op => do
    m.requireValueWidth op.enable.value 1
    m.validateResets op.d op.resets true
    m.valueTy op.d

def validatePorts : Bool :=
  m.ports.all fun port => m.signalTy port.signal = some port.ty

def validateValue (id : Nat) (value : Value) : Bool :=
  match value.kind with
  | .signal reference =>
    match m.signalTy reference.signal with
    | none => false
    | some ty =>
      if reference.lsb = 0 ∧ reference.width = ty.width then value.ty = ty
      else reference.lsb + reference.width ≤ ty.width ∧
        WordType.new reference.width false ty.state = some value.ty
  | .constant bits => bits.length = value.ty.width ∧
      ¬ (value.ty.state = .twoState ∧ (.x ∈ bits ∨ .z ∈ bits))
  | .operation operation => m.operations[operation]?.any (·.result = id)

def validateOperation (id : Nat) (operation : Operation) : Bool :=
  match m.values[operation.result]? with
  | none => false
  | some result => result.kind = .operation id &&
      operation.kind.inputs.all (· < operation.result) &&
      m.operationType operation.kind = some result.ty

def validateConnect (connect : Connect) : Bool :=
  match m.lvalueTy connect.target with
  | none => false
  | some ty => m.valueTy connect.value = some ty

def validate : Bool :=
  m.validatePorts && m.values.zipIdx.all (fun value => m.validateValue value.2 value.1) &&
    m.operations.zipIdx.all (fun operation => m.validateOperation operation.2 operation.1) &&
    m.connects.all m.validateConnect

variable {m}

theorem producer_eq_some {value operation : Nat} :
    m.producer value = some operation ↔ ∃ ty, m.values[value]? = some ⟨.operation operation, ty⟩ := by
  unfold producer
  split
  · rename_i o ty heq
    simp [heq]
  · rename_i hne
    constructor
    · intro h
      cases h
    · rintro ⟨ty, h⟩
      exact absurd h (hne operation ty)

theorem producer_eq_none {value : Nat}
    (h : ∀ operation ty, m.values[value]? ≠ some ⟨.operation operation, ty⟩) :
    m.producer value = none := by
  cases hproducer : m.producer value with
  | none => rfl
  | some operation =>
    obtain ⟨ty, hty⟩ := producer_eq_some.mp hproducer
    exact absurd hty (h operation ty)

end WordModule

end Opto.Word

/-! Values and the operations they come from name each other, operands come first, and
every result has the type of its operation. -/

namespace Opto.Word.WordModule

variable {m : WordModule}

theorem all_zipIdx {α : Type} {xs : List α} {p : α × Nat → Bool} (h : xs.zipIdx.all p = true)
    {i : Nat} {x : α} (hi : xs[i]? = some x) : p (x, i) = true := by
  rw [List.all_eq_true] at h
  apply h
  rw [List.mem_iff_getElem?]
  exact ⟨i, by rw [List.getElem?_zipIdx, hi, Nat.zero_add]; rfl⟩

theorem validValue (h : m.validate = true) {v : Nat} {value : Value} (hv : m.values[v]? = some value) :
    m.validateValue v value = true := by
  simp only [validate, Bool.and_eq_true] at h
  exact all_zipIdx h.1.1.2 hv

theorem validOperation (h : m.validate = true) {o : Nat} {stored : Operation}
    (ho : m.operations[o]? = some stored) : m.validateOperation o stored = true := by
  simp only [validate, Bool.and_eq_true] at h
  exact all_zipIdx h.1.2 ho

/-- A value comes from the operation whose result it is. -/
theorem valid_producer (h : m.validate = true) {v o : Nat} (hv : m.producer v = some o) :
    ∃ stored, m.operations[o]? = some stored ∧ stored.result = v := by
  obtain ⟨ty, hty⟩ := producer_eq_some.mp hv
  have hvalue := validValue h hty
  simp only [validateValue] at hvalue
  cases ho : m.operations[o]? with
  | none =>
    rw [ho] at hvalue
    cases hvalue
  | some stored =>
    rw [ho] at hvalue
    exact ⟨stored, rfl, by simpa using hvalue⟩

theorem valid_result (h : m.validate = true) {o : Nat} {stored : Operation}
    (ho : m.operations[o]? = some stored) : ∃ ty, m.valueTy stored.result = some ty ∧
      m.producer stored.result = some o ∧ m.operationType stored.kind = some ty ∧
        ∀ i ∈ stored.kind.inputs, i < stored.result := by
  have hop := validOperation h ho
  simp only [validateOperation] at hop
  cases hv : m.values[stored.result]? with
  | none =>
    rw [hv] at hop
    cases hop
  | some value =>
    rw [hv] at hop
    simp only [Bool.and_eq_true, decide_eq_true_eq, List.all_eq_true] at hop
    obtain ⟨⟨hkind, hinputs⟩, hty⟩ := hop
    refine ⟨value.ty, by rw [valueTy, hv]; rfl, ?_, hty, hinputs⟩
    rw [producer_eq_some]
    exact ⟨value.ty, by rw [hv, ← hkind]⟩

theorem valid_constant (h : m.validate = true) {v : Nat} {bits : List BitVal} {ty : WordType}
    (hv : m.values[v]? = some ⟨.constant bits, ty⟩) : bits.length = ty.width := by
  have hvalue := validValue h hv
  simp only [validateValue, decide_eq_true_eq] at hvalue
  exact hvalue.1

end Opto.Word.WordModule
