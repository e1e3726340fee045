import Opto.Word.Compact
import Opto.Word.Semantics

/-!
# Runs of a word module

Values, signals and memories are computed anew event by event, in any order and any number
at a time, from the state before. An environment that sees the outputs, the instance inputs
and the operands of the observed memories picks the events and drives signals from outside.
-/

namespace Opto.Word

/-- What the word level leaves open. -/
structure Behaviour where
  Contents : Type
  /-- The digit of an undefined or released bit. -/
  undefined : Bool
  /-- What a bit gets from its sources; a source may be released. -/
  resolve : SignalResolution → List (Option Bool) → Bool
  /-- What the words on the ports of a memory do to its contents. -/
  access : Memory → List (MemoryReadPort × List Bits) → List (MemoryWritePort × List Bits) → Contents → Contents
  readData : MemoryReadPort → List Bits → Contents → Bits

/-- The bits of all values and signals, the contents of the memories, and the clock level that
a register has last seen. -/
structure State (b : Behaviour) where
  value : Nat → Nat → Bool
  signal : Nat → Nat → Bool
  contents : Nat → b.Contents
  clock : Nat → Bool

/-- What is computed anew, and what drives the bits of signals from outside. -/
structure Event where
  values : Nat → Bool
  signals : Nat → Bool
  memories : Nat → Bool
  external : Nat → Nat → List (Option Bool)

def BitVal.digit (undefined : Bool) : BitVal → Bool
  | .zero => false
  | .one => true
  | .x | .z => undefined

def Enable.isActive (enable : Enable) (word : Nat → Bits) : Bool := (word enable.value).truth == enable.activeHigh

def Reset.isActive (reset : Reset) (word : Nat → Bits) : Bool := (word reset.value).truth == reset.activeHigh

/-- The first reset that applies wins, then an enabled clock edge takes the data in. -/
def RegisterOp.next (register : RegisterOp) (word : Nat → Bits) (seen : Bool) (held : Bits) : Bits :=
  let level := (word register.clock).truth
  let edge := level != seen && level == decide (register.edge = .pos)
  match register.resets.find? fun reset => reset.isActive word && (decide (reset.kind = .async) || edge) with
  | some reset => word reset.resetValue
  | none => if edge && register.enable.all (·.isActive word) then word register.d else held

/-- A latch is transparent while it is enabled. -/
def LatchOp.next (latch : LatchOp) (word : Nat → Bits) (held : Bits) : Bits :=
  match latch.resets.find? (·.isActive word) with
  | some reset => word reset.resetValue
  | none => if latch.enable.isActive word then word latch.d else held

section Module

variable (m : WordModule)

def WordModule.valueBits (value : Nat) : Nat := ((m.valueTy value).map (·.width)).getD 0

def WordModule.signalBits (signal : Nat) : Nat := ((m.signalTy signal).map (·.width)).getD 0

def WordModule.kindOf (value : Nat) : Option OpKind := do
  let operation ← m.producer value
  m.operations[operation]?.map (·.kind)

variable {b : Behaviour} (s : State b)

def State.word (value : Nat) : Bits := (List.range (m.valueBits value)).map (s.value value)

def State.signalWord (signal : Nat) : Bits := (List.range (m.signalBits signal)).map (s.signal signal)

/-- What an operation makes of the words of its operands and its own. -/
def State.operate (value : Nat) (ty : WordType) : OpKind → Bits
  | .register register => register.next (s.word m) (s.clock value) (s.word m value)
  | .latch latch => latch.next (s.word m) (s.word m value)
  | .triState data enable =>
    if enable.isActive (s.word m) then s.word m data else List.replicate ty.width b.undefined
  | kind => (kind.denote m.valueTy (s.word m) ty).getD []

def State.compute (value : Nat) : Bits :=
  match m.values[value]? with
  | none => []
  | some ⟨.signal reference, _⟩ => ((s.signalWord m reference.signal).drop reference.lsb).take reference.width
  | some ⟨.constant bits, _⟩ => bits.reverse.map (·.digit b.undefined)
  | some ⟨.operation operation, ty⟩ =>
    match m.operations[operation]? with
    | none => []
    | some stored => s.operate m value ty stored.kind

/-- A disabled tri-state driver leaves its bits to the other sources. -/
def State.released (value : Nat) : Bool :=
  match m.kindOf value with
  | some (.triState _ enable) => !enable.isActive (s.word m)
  | _ => false

/-- The bits of a static connection's value that drive a bit of its target. -/
def targetOffsets (connect : Connect) (bit : Nat) : List Nat :=
  (List.range (connect.target.range.elim (m.valueBits connect.value) BitRange.width)).filter fun offset =>
    offset < m.valueBits connect.value ∧ targetBit connect.target.range offset = some bit

def State.contributions (connect : Connect) (bit : Nat) : List (Option Bool) :=
  (targetOffsets m connect bit).map fun offset =>
    if s.released m connect.value then none else some (s.value connect.value offset)

def State.sources (external : List (Option Bool)) (signal bit : Nat) : List (Option Bool) :=
  (m.connects.filter (·.target.signal = signal)).flatMap (s.contributions m · bit) ++
    ((m.memoryReadPorts.filter (·.data = signal)).map fun port =>
      (b.readData port (port.values.map (s.word m)) (s.contents port.memory))[bit]?) ++ external

def State.resolved (external : List (Option Bool)) (signal bit : Nat) : Bool :=
  b.resolve ((m.signals[signal]?.map (·.resolution)).getD .singleDriver) (s.sources m external signal bit)

def State.readOperands (memory : Nat) : List (MemoryReadPort × List Bits) :=
  (m.memoryReadPorts.filter (·.memory = memory)).map fun port => (port, port.values.map (s.word m))

def State.writeOperands (memory : Nat) : List (MemoryWritePort × List Bits) :=
  (m.memoryWritePorts.filter (·.memory = memory)).map fun port => (port, port.values.map (s.word m))

def State.accessed (memory : Nat) : b.Contents :=
  match m.memories[memory]? with
  | none => s.contents memory
  | some stored => b.access stored (s.readOperands m memory) (s.writeOperands m memory) (s.contents memory)

def State.level (value : Nat) : Bool :=
  match m.kindOf value with
  | some (.register register) => (s.word m register.clock).truth
  | _ => false

/-- Everything an event names is computed from the state before it. -/
def State.step (event : Event) : State b where
  value v i := if event.values v then (s.compute m v).getD i false else s.value v i
  signal g i := if event.signals g then s.resolved m (event.external g i) g i else s.signal g i
  contents k := if event.memories k then s.accessed m k else s.contents k
  clock v := if event.values v then s.level m v else s.clock v

/-- What is seen of a state. -/
structure Observation where
  outputs : List Bits
  instances : List (List Bits)
  memories : List (List Bits)
  values : List Bits
  deriving DecidableEq

def isOutputPort (port : Port) : Bool := port.direction = .output || port.direction = .inout

def State.observe (observedMemories : List Bool) (observedValues : List Nat) : Observation where
  outputs := (m.ports.filter isOutputPort).map fun port => s.signalWord m port.signal
  instances := m.instances.map fun inst => inst.connections.map fun connection => s.word m connection.value
  memories := ((m.memoryReadPorts.filter fun port => observedMemories[port.memory]? = some true).map fun port =>
      port.values.map (s.word m)) ++
    (m.memoryWritePorts.filter fun port => observedMemories[port.memory]? = some true).map fun port =>
      port.values.map (s.word m)
  values := observedValues.map (s.word m)

/-- The observations so far and the state. An environment chooses every event by what it has
observed, and the state may be changed after every event. -/
def run (observedMemories : List Bool) (observedValues : List Nat) (environment : List Observation → Event)
    (change : Nat → State b → State b) : Nat → List Observation × State b
  | 0 => ([(change 0 s).observe m observedMemories observedValues], change 0 s)
  | n + 1 =>
    let before := run observedMemories observedValues environment change n
    let after := change (n + 1) (before.2.step m (environment before.1))
    (before.1 ++ [after.observe m observedMemories observedValues], after)

end Module

end Opto.Word
