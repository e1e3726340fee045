import Mathlib.Data.List.Dedup
import Opto.Library.Worklist
import Opto.Planning.Catalog

/-!
# Netlist observability

What ports, preserved signals, instance connections and explicitly observed values depend
on: a read signal makes its drivers observable, a driver its operands, and a memory output
the memory with all operands of its ports.
-/

/-! Entries sorted into rows, each row in the order of the entries. -/

namespace Opto.Planning

open Mapped (U32_MAX)

inductive PackedRowsError
  | rowOutOfBounds (row rowCount : Nat)
  | capacity
  deriving DecidableEq, Repr

def PackedRowsError.message : PackedRowsError → String
  | .rowOutOfBounds row rowCount =>
    s!"row {row} is outside an arena containing {rowCount} rows"
  | .capacity => "packed rows exceed 32-bit capacity"

structure PackedRows (α : Type) where
  rowCount : Nat
  entries : List (Nat × α)
  inBounds : ∀ entry ∈ entries, entry.1 < rowCount

namespace PackedRows

variable {α : Type}

def tryFromEntries (rowCount : Nat) (entries : List (Nat × α)) :
    Except PackedRowsError (PackedRows α) :=
  if U32_MAX < rowCount then .error .capacity
  else match h : entries.find? fun entry => rowCount ≤ entry.1 with
    | some entry => .error (.rowOutOfBounds entry.1 rowCount)
    | none =>
      if U32_MAX < entries.length then .error .capacity
      else .ok ⟨rowCount, entries, fun entry hentry => by simpa using List.find?_eq_none.mp h entry hentry⟩

/-- A capacity or range error is an invariant of synthesis. -/
def tryPack (rowCount : Nat) (entries : List (Nat × α)) : Except SynthError (PackedRows α) :=
  (tryFromEntries rowCount entries).mapError fun error => .invariant error.message

def row (rows : PackedRows α) (index : Nat) : List α :=
  rows.entries.filterMap fun entry => if entry.1 = index then some entry.2 else none

def get (rows : PackedRows α) (index : Nat) : Option (List α) :=
  if index < rows.rowCount then some (rows.row index) else none

variable {rows : PackedRows α} {rowCount index : Nat} {entries : List (Nat × α)} {a : α}

theorem mem_row : a ∈ rows.row index ↔ (index, a) ∈ rows.entries := by
  simp only [row, List.mem_filterMap]
  constructor
  · intro ⟨entry, hentry, h⟩
    split_ifs at h with hrow
    cases h
    rwa [← hrow]
  · intro h
    exact ⟨(index, a), h, if_pos rfl⟩

/-- Packing keeps the entries. -/
theorem tryPack_ok (h : tryPack rowCount entries = .ok rows) :
    rows.rowCount = rowCount ∧ rows.entries = entries := by
  unfold tryPack tryFromEntries at h
  split at h
  · cases h
  · split at h
    · cases h
    · split at h <;> cases h
      exact ⟨rfl, rfl⟩

end PackedRows

end Opto.Planning

namespace Opto.Planning

open Word

structure NetlistObservability where
  rootSignals : List Bool
  observedSignals : List Bool
  reachableValues : List Bool
  liveConnects : List Bool
  rootConnects : List Bool
  publicationConnects : List Bool
  observedMemories : List Bool
  instanceRootValues : List Nat
  nonConnectRootValues : List Nat
  rootValues : List Nat

/-- The indices the walk looks its successors up in. -/
structure ObservabilityRows where
  connectsBySignal : PackedRows Nat
  memoryReadsBySignal : PackedRows Nat
  memoryValues : PackedRows Nat

/-- The loop's marks, and its two stacks with their tops first. -/
structure ObservabilityWalk where
  observedSignals : List Bool
  reachableValues : List Bool
  liveConnects : List Bool
  observedMemories : List Bool
  nonConnectRootValues : List Nat
  rootValues : List Nat
  pendingSignals : List Nat
  pendingValues : List Nat

/-- Sorted, every entry once. -/
def sortDedup (values : List Nat) : List Nat := (values.insertionSort (· ≤ ·)).dedup

theorem mem_sortDedup {values : List Nat} {v : Nat} : v ∈ sortDedup values ↔ v ∈ values := by
  rw [sortDedup, List.mem_dedup, List.mem_insertionSort]

section Module

variable (m : WordModule)

def preservedSignals : List Nat :=
  m.synthesisDirectives.filterMap fun directive =>
    match directive.target with
    | .signal signal =>
      if directive.enabled ∧ (directive.kind = .dontTouch ∨ directive.kind = .keepSignal ∨
        directive.kind = .asyncRegister) then some signal else none
    | _ => none

def isRootPort (port : Port) : Bool := port.direction = .output || port.direction = .inout

def observedBoundarySignals : List Nat := m.ports.map (·.signal) ++ preservedSignals m

def rootBoundarySignals : List Nat := (m.ports.filter isRootPort).map (·.signal) ++ preservedSignals m

def instanceValues : List Nat := (m.instances.flatMap (·.connections)).map (·.value)

def connectEntries : List (Nat × Nat) := m.connects.zipIdx.map fun entry => (entry.1.target.signal, entry.2)

def memoryReadEntries : List (Nat × Nat) := m.memoryReadPorts.zipIdx.map fun entry => (entry.1.data, entry.2)

def memoryValueEntries : List (Nat × Nat) :=
  (m.memoryReadPorts.flatMap fun read => read.values.map fun value => (read.memory, value)) ++
    m.memoryWritePorts.flatMap fun write => write.values.map fun value => (write.memory, value)

variable (rows : ObservabilityRows)

def visitConnect (s : ObservabilityWalk) (index : Nat) : ObservabilityWalk :=
  match s.liveConnects[index]?, m.connects[index]? with
  | some false, some connect =>
    { s with
      liveConnects := s.liveConnects.set index true
      pendingValues := connect.values.reverse ++ s.pendingValues }
  | _, _ => s

def visitRead (s : ObservabilityWalk) (index : Nat) : Except SynthError ObservabilityWalk := do
  let read ← orInvariant "observability lost a memory-read port" m.memoryReadPorts[index]?
  let observed ← orInvariant "observability memory read references an unknown memory"
    s.observedMemories[read.memory]?
  if observed then return s
  let values := rows.memoryValues.row read.memory
  return { s with
    observedMemories := s.observedMemories.set read.memory true
    nonConnectRootValues := s.nonConnectRootValues ++ values
    rootValues := s.rootValues ++ values
    pendingValues := values.reverse ++ s.pendingValues }

def visitSignal (s : ObservabilityWalk) (signal : Nat) : Except SynthError ObservabilityWalk := do
  let observed ← orInvariant s!"observability root references unknown signal SignalId({signal})"
    s.observedSignals[signal]?
  if observed then return s
  let s := { s with observedSignals := s.observedSignals.set signal true }
  let s := (rows.connectsBySignal.row signal).foldl (visitConnect m) s
  (rows.memoryReadsBySignal.row signal).foldlM (visitRead m rows) s

def visitValue (s : ObservabilityWalk) (value : Nat) : Except SynthError ObservabilityWalk := do
  let reachable ← orInvariant s!"observability root references unknown value ValueId({value})"
    s.reachableValues[value]?
  if reachable then return s
  let s := { s with reachableValues := s.reachableValues.set value true }
  let stored ← orInvariant s!"observability walk lost value ValueId({value})" m.values[value]?
  match stored.kind with
  | .signal reference => return { s with pendingSignals := reference.signal :: s.pendingSignals }
  | .operation operation =>
    let stored ← orInvariant s!"observability walk lost operation OperationId({operation})"
      m.operations[operation]?
    return { s with pendingValues := stored.kind.inputs.reverse ++ s.pendingValues }
  | .constant _ => return s

/-- All pending signals are visited before the next value is. -/
def observe : Nat → ObservabilityWalk → Except SynthError ObservabilityWalk
  | 0, s => return s
  | fuel + 1, s =>
    match s.pendingSignals, s.pendingValues with
    | signal :: rest, _ => do
      let s ← visitSignal m rows { s with pendingSignals := rest } signal
      observe fuel s
    | [], value :: rest => do
      let s ← visitValue m { s with pendingValues := rest } value
      observe fuel s
    | [], [] => return s

/-- What a visited value pushes. -/
def valueCost (value : Nat) : Nat :=
  match m.values[value]? with
  | some ⟨.signal _, _⟩ => 1
  | some ⟨.operation operation, _⟩ => (m.operations[operation]?.map (·.kind.inputs.length)).getD 0
  | _ => 0

def connectCost (connect : Nat) : Nat := (m.connects[connect]?.map (·.values.length)).getD 0

/-- Every pop lowers it. -/
def ObservabilityWalk.remaining (s : ObservabilityWalk) : Nat :=
  s.pendingSignals.length + s.pendingValues.length + unmarked (valueCost m) s.reachableValues +
    unmarked (connectCost m) s.liveConnects +
      unmarked (fun memory => (rows.memoryValues.row memory).length) s.observedMemories

def markRoots (roots : List Nat) (rootSignals : List Bool) : Except SynthError (List Bool) :=
  roots.foldlM (fun marks signal =>
    if signal < marks.length then return marks.set signal true
    else invariant "observability root references an unknown signal") rootSignals

def netlistObservabilityWithValues (observedValues : List Nat) : Except SynthError NetlistObservability := do
  let connectsBySignal ← PackedRows.tryPack m.signals.length (connectEntries m)
  let memoryReadsBySignal ← PackedRows.tryPack m.signals.length (memoryReadEntries m)
  let memoryValues ← PackedRows.tryPack m.memories.length (memoryValueEntries m)
  let rootSignals ← markRoots (rootBoundarySignals m) (List.replicate m.signals.length false)
  let instanceRootValues := sortDedup (instanceValues m)
  let nonConnectRootValues := sortDedup (instanceRootValues ++ observedValues)
  let start : ObservabilityWalk :=
    { observedSignals := List.replicate m.signals.length false
      reachableValues := List.replicate m.values.length false
      liveConnects := List.replicate m.connects.length false
      observedMemories := List.replicate m.memories.length false
      nonConnectRootValues
      rootValues := nonConnectRootValues
      pendingSignals := (observedBoundarySignals m).reverse
      pendingValues := nonConnectRootValues.reverse }
  let rows := { connectsBySignal, memoryReadsBySignal, memoryValues }
  let s ← observe m rows (start.remaining m rows) start
  let isLive (index : Nat) : Bool := s.liveConnects[index]? = some true
  let rooted := (rootBoundarySignals m).flatMap fun signal => (connectsBySignal.row signal).filter isLive
  let rootConnects := rooted.foldl (fun marks index => marks.set index true)
    (List.replicate m.connects.length false)
  let published := (List.range m.connects.length).filter fun index =>
    isLive index && m.connects[index]?.any (·.target.dynamic.isSome)
  let rootValuesOf (index : Nat) : List Nat := (m.connects[index]?.map (·.values)).getD []
  return {
    rootSignals
    observedSignals := s.observedSignals
    reachableValues := s.reachableValues
    liveConnects := s.liveConnects
    rootConnects
    publicationConnects := published.foldl (fun marks index => marks.set index true) rootConnects
    observedMemories := s.observedMemories
    instanceRootValues
    nonConnectRootValues := sortDedup s.nonConnectRootValues
    rootValues := sortDedup (s.rootValues ++ rooted.flatMap rootValuesOf ++ published.flatMap rootValuesOf) }

end Module

end Opto.Planning
