import Mathlib.Data.List.Dedup
import Mathlib.Data.List.Sort
import Opto.Library.Worklist
import Opto.Word.KnownBits

/-!
# Memoised known bits

The facts of a module's values and signals, computed on demand by a depth-first
walk, and kept up to date as the module grows.
-/

namespace Opto.Word

inductive FactState
  | uncomputed
  | computing
  | computed (facts : FactRange)
  deriving DecidableEq, Repr

inductive FactNode
  | value (id : Nat)
  | signal (id : Nat)
  deriving DecidableEq, Repr

structure SignalDrivers where
  /-- The connections of each signal, in order. -/
  connects : List (List Nat)
  observedConnects : Nat
  appended : List (Nat × Nat)
  deriving DecidableEq, Repr

namespace SignalDrivers

def build (m : WordModule) : SignalDrivers where
  connects := (List.range m.signals.length).map fun signal =>
    (m.connects.zipIdx.filter (·.1.target.signal = signal)).map (·.2)
  observedConnects := m.connects.length
  appended := []

/-- The signals that gained a connection, or nothing when connections were lost. -/
def syncAppendOnly (drivers : SignalDrivers) (m : WordModule) :
    SignalDrivers × Option (List Nat) :=
  if m.connects.length < drivers.observedConnects then (build m, none)
  else
    let added := m.connects.zipIdx.drop drivers.observedConnects
    ({ drivers with
        observedConnects := m.connects.length
        appended := drivers.appended ++ added.map fun entry => (entry.1.target.signal, entry.2) },
      some (added.map (·.1.target.signal)))

def forSignal (drivers : SignalDrivers) (signal : Nat) : List Nat :=
  drivers.connects.getD signal [] ++
    (drivers.appended.filter (·.1 = signal)).map (·.2)

end SignalDrivers

/-- What an analysis knows of the drivers of each signal. -/
structure Layout where
  drivers : Nat → List Nat
  external : Nat → Option Bool

section Nodes

variable (m : WordModule) (layout : Layout)

def nodeWidth : FactNode → Option Nat
  | .value value => (m.values[value]?).map (·.ty.width)
  | .signal signal => (m.signals[signal]?).map (·.ty.width)

def isDynamic (connect : Nat) : Bool :=
  (m.connects[connect]?).any (·.target.dynamic.isSome)

def nodeDependencies : FactNode → Option (List FactNode)
  | .value value => do
    let value ← m.values[value]?
    match value.kind with
    | .signal reference => some [.signal reference.signal]
    | .constant _ => some []
    | .operation operation => do
      let operation ← m.operations[operation]?
      some (operation.kind.inputs.map .value)
  | .signal signal => do
    let connects := layout.drivers signal
    let external ← layout.external signal
    if external || connects.isEmpty || connects.any (isDynamic m) then some []
    else connects.mapM fun index => (m.connects[index]?).map fun connect => .value connect.value

def constantFacts (bits : List BitVal) : FactRange :=
  FactRange.store (bits.reverse.map fun
    | .zero => .zero
    | .one => .one
    | .x | .z => .unknown) bits.length

/-- The first driver of a bit proves it, a second one takes that back. -/
def assignBit (assigned : List Bool) (bits : FactRange) (target : Nat) (bit : KnownBit) :
    List Bool × FactRange :=
  if assigned.getD target false then (assigned, bits.set target .unknown)
  else (assigned.set target true, bits.set target bit)

def assignConnect (width : Nat) (range : Option BitRange) (source : FactRange)
    (state : List Bool × FactRange) : Option (List Bool × FactRange) :=
  (List.range (range.elim width BitRange.width)).foldlM (fun state offset => do
    let target ← targetBit range offset
    some (assignBit state.1 state.2 target (source.bit offset))) state

variable (facts : FactNode → Option FactRange)

def evaluateSignal (signal : Nat) : Option FactRange := do
  let width ← nodeWidth m (.signal signal)
  let connects := layout.drivers signal
  if (layout.external signal).getD false || connects.isEmpty || connects.any (isDynamic m) then
    some (.unknown width)
  else
    let (_, bits) ← connects.foldlM (fun state index => do
      let connect ← m.connects[index]?
      let source ← facts (.value connect.value)
      assignConnect width connect.target.range source state)
      (List.replicate width false, FactRange.unknown width)
    some bits

def evaluateNode : FactNode → Option FactRange
  | .value id => do
    let value ← m.values[id]?
    match value.kind with
    | .signal reference => do
      let signal ← facts (.signal reference.signal)
      some (signal.slice reference.lsb reference.width)
    | .constant bits => some (constantFacts bits)
    | .operation operation => do
      let operation ← m.operations[operation]?
      some (deriveOperation m (fun value => facts (.value value)) value.ty operation.kind)
  | .signal signal => evaluateSignal m layout facts signal

end Nodes

structure KnownBitsAnalysis where
  values : List FactState
  signals : List FactState
  /-- Dependencies with their dependents, in the order they were recorded. -/
  dependents : List (FactNode × FactNode)
  drivers : SignalDrivers
  externalSignals : List Bool
  observedPorts : Nat
  deriving DecidableEq, Repr

def Port.isExternal (port : Port) : Bool :=
  port.direction = .input ∨ port.direction = .inout

/-- The signals that these ports drive from outside. -/
def markExternal (ports : List Port) (external : List Bool) : List Bool :=
  (ports.filter Port.isExternal).foldl (fun external port => external.set port.signal true) external

namespace KnownBitsAnalysis

def new (m : WordModule) : KnownBitsAnalysis where
  values := List.replicate m.values.length .uncomputed
  signals := List.replicate m.signals.length .uncomputed
  dependents := []
  drivers := .build m
  externalSignals := markExternal m.ports (List.replicate m.signals.length false)
  observedPorts := m.ports.length

variable (a : KnownBitsAnalysis)

def layout : Layout := ⟨a.drivers.forSignal, fun signal => a.externalSignals[signal]?⟩

def nodeState : FactNode → Option FactState
  | .value value => a.values[value]?
  | .signal signal => a.signals[signal]?

def setNodeState : FactNode → FactState → Option KnownBitsAnalysis
  | .value value, state =>
    if value < a.values.length then some { a with values := a.values.set value state } else none
  | .signal signal, state =>
    if signal < a.signals.length then some { a with signals := a.signals.set signal state }
    else none

/-- `set_node_state` where the source ignores a failure. -/
def resetNode (node : FactNode) : KnownBitsAnalysis := (a.setNodeState node .uncomputed).getD a

def nodeFacts (m : WordModule) (node : FactNode) : Option FactRange := do
  match ← a.nodeState node with
  | .computed facts => some facts
  | .computing | .uncomputed => do some (.unknown (← nodeWidth m node))

def dependentsOf (node : FactNode) : List FactNode :=
  (a.dependents.filter (·.1 = node)).map (·.2)

def recordDependency (dependency dependent : FactNode) : KnownBitsAnalysis :=
  if (dependency, dependent) ∈ a.dependents then a
  else { a with dependents := a.dependents ++ [(dependency, dependent)] }

end KnownBitsAnalysis

open KnownBitsAnalysis

section Walk

variable (m : WordModule)

/-- Enter a node, or leave it once its dependencies are done. -/
def visit (a : KnownBitsAnalysis) :
    FactNode × Bool → KnownBitsAnalysis × Option (List (FactNode × Bool))
  | (node, true) =>
    let facts := (evaluateNode m a.layout (a.nodeFacts m) node).getD
      (.unknown ((nodeWidth m node).getD 0))
    match a.setNodeState node (.computed facts) with
    | none => (a, none)
    | some a => (a, some [])
  | (node, false) =>
    match a.nodeState node with
    | none => (a, none)
    | some (.computed _) | some .computing => (a, some [])
    | some .uncomputed =>
      match a.setNodeState node .computing with
      | none => (a, none)
      | some a =>
        match nodeDependencies m a.layout node with
        | none => (a, none)
        | some dependencies =>
          (dependencies.reverse.foldl (fun a dependency => a.recordDependency dependency node) a,
            some ((dependencies.filter (a.nodeState · = some .uncomputed)).map (·, false) ++
              [(node, true)]))

/-- Enough steps for a walk: every node is left once and entered once for each edge to it. -/
def walkBudget (a : KnownBitsAnalysis) : Nat :=
  1 + (((List.range a.values.length).map FactNode.value ++
    (List.range a.signals.length).map FactNode.signal).map fun node =>
      1 + ((nodeDependencies m a.layout node).getD []).length).sum

def deriveNode (root : FactNode) (a : KnownBitsAnalysis) :
    KnownBitsAnalysis × Option FactRange :=
  if (nodeWidth m root).isNone then (a, none)
  else
    let (a, done) := Worklist.drive (visit m) (walkBudget m a) a [(root, false)]
    match done, a.nodeState root with
    | true, some (.computed facts) => (a, some facts)
    | _, _ => (a, none)

def sameFacts : Option FactState → Option FactState → Bool
  | some (.computed left), some (.computed right) => left = right
  | _, _ => false

/-- Clears a node, derives it again, and lists the dependents of a fact that changed. -/
def refreshNode (old : Option FactState) (node : FactNode) (a : KnownBitsAnalysis) :
    KnownBitsAnalysis × List FactNode :=
  let (a, facts) := deriveNode m node a
  (a, if sameFacts old (facts.map .computed) then [] else a.dependentsOf node)

def clearFrom (a : KnownBitsAnalysis) (visited : List FactNode) :
    Nat → List FactNode → KnownBitsAnalysis
  | _, [] => a
  | 0, _ :: _ => a
  | fuel + 1, node :: pending =>
    if node ∈ visited then clearFrom a visited fuel pending
    else clearFrom (a.resetNode node) (node :: visited) fuel
      ((a.dependentsOf node).reverse ++ pending)

/-- The head of the list is the top of the stack. -/
def invalidate (a : KnownBitsAnalysis) (pending : List FactNode) : KnownBitsAnalysis :=
  clearFrom a [] (pending.length + a.dependents.length) pending

def propagate : Nat → KnownBitsAnalysis → List FactNode → KnownBitsAnalysis
  | _, a, [] => a
  | 0, a, node :: pending => invalidate a (node :: pending)
  | limit + 1, a, node :: pending =>
    let (a', changed) := refreshNode m (a.nodeState node) node (a.resetNode node)
    propagate limit a' (changed.reverse ++ pending)

def refreshRoots (old : FactNode → Option FactState) :
    List FactNode → KnownBitsAnalysis → List FactNode → KnownBitsAnalysis × List FactNode
  | [], a, pending => (a, pending)
  | root :: roots, a, pending =>
    let (a', changed) := refreshNode m (old root) root a
    refreshRoots old roots a' (changed.reverse ++ pending)

def propagationLimit (a : KnownBitsAnalysis) : Nat :=
  max 1 (a.values.length + a.signals.length + a.dependents.length)

def refreshChanged (a : KnownBitsAnalysis) (roots : List FactNode) : KnownBitsAnalysis :=
  let (a', pending) := refreshRoots m a.nodeState roots (roots.foldl resetNode a) []
  propagate m (propagationLimit a') a' pending

end Walk

namespace KnownBitsAnalysis

variable (a : KnownBitsAnalysis) (m : WordModule)

def syncAppendOnly : KnownBitsAnalysis :=
  if m.values.length < a.values.length ∨ m.signals.length < a.signals.length ∨
      m.ports.length < a.observedPorts then new m
  else
    match a.drivers.syncAppendOnly m with
    | (_, none) => new m
    | (drivers, some changed) =>
      let added := m.ports.drop a.observedPorts
      let external := a.externalSignals ++
        List.replicate (m.signals.length - a.externalSignals.length) false
      let changed := changed ++ (added.filter Port.isExternal).map (·.signal)
      refreshChanged m
        { a with
          values := a.values ++
            List.replicate (m.values.length - a.values.length) .uncomputed
          signals := a.signals ++
            List.replicate (m.signals.length - a.signals.length) .uncomputed
          drivers
          externalSignals := markExternal added external
          observedPorts := m.ports.length }
        ((changed.insertionSort (· ≤ ·)).dedup.map .signal)

def bit (value index : Nat) : KnownBitsAnalysis × KnownBit :=
  let (a, facts) := deriveNode m (.value value) a
  (a, facts.elim .unknown (·.bit index))

def constant (value : Nat) : KnownBitsAnalysis × Option (List BitVal) :=
  let (a, facts) := deriveNode m (.value value) a
  (a, facts.bind FactRange.constant)

def activeWidth (value limit : Nat) : KnownBitsAnalysis × Nat :=
  let (a, facts) := deriveNode m (.value value) a
  (a, facts.elim limit (·.activeWidth limit))

/-- Facts of at most 128 bits. -/
def packed128 (value : Nat) : KnownBitsAnalysis × Option FactRange :=
  let (a, facts) := deriveNode m (.value value) a
  (a, facts.filter (·.length ≤ 128))

end KnownBitsAnalysis

end Opto.Word
