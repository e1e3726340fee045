import Opto.Mapped.Validation

/-!
# Publication

An unpublished netlist is validated, then its tombstones are squeezed out: slots
are moved down in place, every reference is sent through the new numbers, and the
lists of pins are threaded anew.
-/

namespace Opto.Mapped

def REMOVED_SLOT : Nat := U32_MAX

/-- Where the cells went. -/
structure MappedCellRemap where
  sourceGeneration : Nat
  targetGeneration : Nat
  cells : List Nat
  cellCount : Nat
deriving DecidableEq

def MappedCellRemap.cell (remap : MappedCellRemap) (cell : CellId) : Option CellId :=
  remap.cells[cell]?.bind fun index => if index ≠ REMOVED_SLOT then some index else none

structure PublicationPlan where
  sourceGeneration : Nat
  targetGeneration : Nat
  publicationRevision : Nat
  nets : List Nat
  cells : List Nat
  pinCount : Nat

/-- An error that is returned, or a panic. -/
inductive PublicationStop
  | error (error : MappedError)
  | panic (panic : Panic)
deriving DecidableEq

abbrev Publishing := EStateM PublicationStop MappedNetlist

def orPanics {α : Type} : Except Panic α → Publishing α
  | .ok a => pure a
  | .error p => throw (.panic p)

def invariantError {α : Type} (message : String) : Except MappedError α := .error (.invariant message)

/-- A statement that returns early with an error. -/
def refuse (p : Prop) [Decidable p] (message : String) : Except MappedError Unit :=
  if p then invariantError message else .ok ()

def expectOk {α : Type} (value : Option α) (message : String) : Except MappedError α :=
  match value with
  | some a => .ok a
  | none => invariantError message

def NameTable.entryCount (t : NameTable) : Nat := t.frozen.length + t.delta.length

/-! Validation. -/

def validateAppendedRanges (ranges : List (Nat × Nat)) (arenaLen : Nat) (kind : String)
    (requireNonempty : Bool) : Except MappedError Unit := do
  let expectedStart ← ranges.zipIdx.foldlM (fun expectedStart row =>
    if row.1.1 ≠ expectedStart ∨ row.1.2 < row.1.1 ∨ requireNonempty ∧ row.1.2 = row.1.1 then
      invariantError s!"mapped {kind} range {row.2} is not a valid appended arena row"
    else .ok row.1.2) 0
  refuse (expectedStart ≠ arenaLen) s!"mapped {kind} ranges do not cover their arena"

/-- Marks an entry that must not be marked yet. -/
def markOnce (used : List Bool) (i : Nat) (outside duplicate : String) :
    Except MappedError (List Bool) :=
  match used[i]? with
  | none => invariantError outside
  | some true => invariantError duplicate
  | some false => .ok (used.set i true)

namespace MappedNetlist

variable (n : MappedNetlist)

def validateLiveCounts : Except MappedError Unit :=
  if n.nets.countP (·.live) ≠ n.liveNetCount ∨ n.cells.countP (·.live) ≠ n.liveCellCount then
    invariantError "mapped live-count index disagrees with stable slots"
  else .ok ()

def requireName (name : NameId) (kind : String) : Except MappedError Unit :=
  if (n.names.resolve name).isSome then .ok ()
  else invariantError s!"mapped {kind} has an invalid name identifier"

/-- A net that something refers to must be there. -/
def requireLive (source : String) (net : NetId) : Except MappedError Unit :=
  if n.isLiveNet net then .ok ()
  else invariantError s!"{source} references removed net NetId(SlotId({net})) at publication"

def requireLiveSignal (source : String) : ConnectionSignal → Except MappedError Unit
  | .net net => n.requireLive source net
  | .constant _ => .ok ()

def validateNetName (slot : NetSlot) : Except MappedError Unit :=
  match slot.name with
  | none => .ok ()
  | some name => do
    n.requireName name "net"
    refuse ((n.names.resolve name).any isBlank)
      "mapped net name cannot be empty; use an unnamed net instead"

def validatePort (port : MappedPort) : Except MappedError Unit := do
  n.requireName port.name "port"
  let nets ← expectOk (slice n.portNets port.netStart port.netEnd)
    "mapped port has an invalid net range"
  refuse (nets = []) "mapped port has no connected bits"
  nets.forM (n.requireLive "mapped port")

def validateCell (index : Nat) (slot : CellSlot) : Except MappedError Unit := do
  let cell ← idFromIndex "cell ID" index
  n.requireName slot.cell.name "cell"
  n.requireName slot.cell.cellType "cell type"
  let connections ← expectOk
    (slice n.connections slot.cell.connectionStart slot.cell.connectionEnd)
    "mapped cell has an invalid pin range"
  connections.forM fun connection => do
    n.requireName connection.pin "cell pin"
    if slot.live then n.requireLiveSignal s!"mapped cell CellId(SlotId({cell}))" connection.signal

def validateDesignConnection (instance_ : Nat) (connection : DesignInstanceConnection) :
    Except MappedError Unit := do
  n.requireName connection.port "design instance port"
  let signals ← expectOk
    (slice n.designConnectionSignals connection.signalStart connection.signalEnd)
    "mapped design instance connection has an invalid signal range"
  signals.forM (n.requireLiveSignal
    s!"mapped design instance DesignInstanceId(DenseId({instance_}))")

def validateInstance (index : Nat) (row : MappedDesignInstance) : Except MappedError Unit := do
  n.requireName row.name "design instance"
  n.requireName row.module "design instance module"
  let connections ← expectOk
    (slice n.designConnections row.connectionStart row.connectionEnd)
    "mapped design instance has an invalid connection range"
  connections.forM (n.validateDesignConnection index)

def validateReferences : Except MappedError Unit := do
  n.requireName n.name "design"
  validateAppendedRanges (n.ports.map fun port => (port.netStart, port.netEnd))
    n.portNets.length "port net" false
  validateAppendedRanges
    (n.cells.map fun slot => (slot.cell.connectionStart, slot.cell.connectionEnd))
    n.connections.length "cell pin" false
  validateAppendedRanges
    (n.designInstances.map fun row => (row.connectionStart, row.connectionEnd))
    n.designConnections.length "design-instance connection" false
  validateAppendedRanges (n.designConnections.map fun row => (row.signalStart, row.signalEnd))
    n.designConnectionSignals.length "design-instance signal" true
  n.nets.forM n.validateNetName
  n.ports.forM n.validatePort
  n.constantDrivers.forM fun driver => n.requireLive "mapped constant driver" driver.1
  n.cells.zipIdx.forM fun row => n.validateCell row.2 row.1
  n.designInstances.zipIdx.forM fun row => n.validateInstance row.2 row.1

/-- Ports, drivers and retained occurrences refer to the nets of the index and to no others. -/
def validateExternalNetIndex : Except MappedError Unit := do
  refuse ((n.externalNets.zip n.externalNets.tail).any fun pair => pair.2 ≤ pair.1)
    "mapped external-net index is not sorted and unique"
  let mark (referenced : List Bool) (net : NetId) : Except MappedError (List Bool) :=
    if net < referenced.length then .ok (referenced.set net true)
    else invariantError s!"mapped design boundary references unknown net NetId(SlotId({net}))"
  let referenced ← n.portNets.foldlM mark (List.replicate n.nets.length false)
  let referenced ← (n.constantDrivers.map (·.1)).foldlM mark referenced
  let referenced ← (n.designConnectionSignals.filterMap fun signal => match signal with
    | .net net => some net
    | .constant _ => none).foldlM mark referenced
  let left ← n.externalNets.foldlM (fun (referenced : List Bool) net =>
    match referenced[net]? with
    | none =>
      invariantError s!"mapped external-net index contains unknown net NetId(SlotId({net}))"
    | some false =>
      invariantError s!"mapped external-net index contains unreferenced net NetId(SlotId({net}))"
    | some true => .ok (referenced.set net false)) referenced
  refuse (left.contains true) "mapped external-net index omits a design-boundary reference"

/-- Follows the pins of a net; no list has more pins than there are connections. -/
def walkNet (net : NetId) (tail : Option PinId) :
    Nat → List Bool → Option PinId → Option PinId → Except MappedError (List Bool)
  | _, seen, previous, none =>
    if previous ≠ tail then
      invariantError s!"mapped net NetId(SlotId({net})) has an inconsistent adjacency tail"
    else .ok seen
  | 0, _, _, some _ =>
    invariantError s!"mapped net NetId(SlotId({net})) pin adjacency contains a cycle"
  | fuel + 1, seen, previous, some pin => do
    let connection ← expectOk n.connections[pin]?
      s!"mapped net NetId(SlotId({net})) references unknown pin PinId(SlotId({pin}))"
    refuse (connection.signal ≠ .net net)
      s!"mapped net NetId(SlotId({net})) adjacency contains pin PinId(SlotId({pin})) connected elsewhere"
    refuse (n.pinOwner pin).isNone
      s!"mapped net NetId(SlotId({net})) adjacency contains ownerless pin PinId(SlotId({pin}))"
    let seen ← markOnce seen pin
      s!"mapped net NetId(SlotId({net})) references unknown pin PinId(SlotId({pin}))"
      s!"mapped pin PinId(SlotId({pin})) occurs in multiple net adjacency lists"
    let links ← expectOk n.pinLinks[pin]? "index out of bounds"
    refuse (links.previous ≠ previous)
      s!"mapped pin PinId(SlotId({pin})) has an inconsistent previous link"
    walkNet net tail fuel seen (some pin) links.next

def validateNetPins (seen : List Bool) (index : Nat) (slot : NetSlot) :
    Except MappedError (List Bool) := do
  let net ← idFromIndex "net ID" index
  let adjacency ← expectOk n.netPins[index]? "index out of bounds"
  if slot.live then n.walkNet net adjacency.tail n.connections.length seen none adjacency.head
  else if adjacency ≠ ⟨none, none⟩ then
    invariantError s!"removed net NetId(SlotId({net})) retains pin adjacency"
  else .ok seen

def validateCellPin (seen : List Bool) (cell : CellId) (live : Bool) (index : Nat) :
    Except MappedError Unit := do
  let pin ← idFromIndex "pin ID" index
  refuse (n.pinOwners[index]? ≠ some cell)
    s!"mapped pin PinId(SlotId({pin})) has an inconsistent owner"
  let mustBeLinked := live && n.connections[index]?.any fun connection =>
    match connection.signal with
    | .net _ => true
    | .constant _ => false
  refuse (seen[index]? ≠ some mustBeLinked)
    s!"mapped pin PinId(SlotId({pin})) has inconsistent net adjacency membership"
  refuse (mustBeLinked = false ∧ n.pinLinks[index]? ≠ some ⟨none, none⟩)
    s!"unlinked mapped pin PinId(SlotId({pin})) retains adjacency links"

def validateConnectivity : Except MappedError Unit := do
  refuse (n.connections.length ≠ n.pinOwners.length ∨ n.connections.length ≠ n.pinLinks.length ∨
      n.nets.length ≠ n.netPins.length)
    "mapped connectivity arenas have inconsistent lengths"
  let seen ← n.nets.zipIdx.foldlM (fun seen row => n.validateNetPins seen row.2 row.1)
    (List.replicate n.connections.length false)
  n.cells.zipIdx.forM fun row => do
    let cell ← idFromIndex "cell ID" row.2
    refuse (n.connections.length < row.1.cell.connectionEnd)
      s!"mapped cell CellId(SlotId({cell})) has an invalid pin range"
    (List.range' row.1.cell.connectionStart
      (row.1.cell.connectionEnd - row.1.cell.connectionStart)).forM
        (n.validateCellPin seen cell row.1.live)
  n.pinOwners.zipIdx.forM fun row => do
    let slot ← expectOk n.cells[row.1]?
      s!"mapped pin {row.2} references unknown owner CellId(SlotId({row.1}))"
    refuse (¬(slot.cell.connectionStart ≤ row.2 ∧ row.2 < slot.cell.connectionEnd))
      s!"mapped pin {row.2} lies outside owner CellId(SlotId({row.1}))'s pin range"

/-- Pins and bindings of one owner have names of their own. -/
def validateMembers (members : List NameId) (unknown duplicate : String) :
    Except MappedError Unit :=
  discard <| members.foldlM (fun (seen : List NameId) member => do
    let name ← expectOk (n.names.resolve member) unknown
    refuse (isBlank name || seen.contains member) duplicate
    return member :: seen) []

def validateCellNames (used : List Bool) (cell : CellId) : Except MappedError (List Bool) := do
  let row ← expectOk (n.cell cell) "index out of bounds"
  let resolved ← expectOk (n.names.resolve row.name) "mapped cell has an invalid name identifier"
  let cellType ← expectOk (n.names.resolve row.cellType)
    "mapped cell has an invalid type identifier"
  refuse (isBlank resolved || isBlank cellType)
    "mapped cells require non-empty instance and cell type names"
  let used ← markOnce used row.name "mapped cell name is outside the name arena"
    s!"mapped netlist contains duplicate cell name '{resolved}'"
  let connections ← expectOk (n.cellConnections cell) "mapped cell has an invalid pin range"
  n.validateMembers (connections.map (·.pin)) "mapped cell pin has an invalid name identifier"
    s!"mapped cell '{resolved}' has an empty or duplicate pin name"
  return used

def validateInstanceNames (used : List Bool) (row : MappedDesignInstance) :
    Except MappedError (List Bool) := do
  let resolved ← expectOk (n.names.resolve row.name)
    "mapped design instance has an invalid name identifier"
  let module ← expectOk (n.names.resolve row.module)
    "mapped design instance has an invalid module identifier"
  refuse (isBlank resolved || isBlank module)
    "mapped design instances require non-empty instance and module names"
  let used ← markOnce used row.name "mapped design instance name is outside the name arena"
    s!"mapped netlist contains duplicate instance name '{resolved}'"
  let connections ← expectOk
    (slice n.designConnections row.connectionStart row.connectionEnd)
    "mapped design instance has an invalid connection range"
  n.validateMembers (connections.map (·.port))
    "mapped design instance port has an invalid name identifier"
    s!"mapped design instance '{resolved}' has an empty or duplicate port binding"
  return used

def validatePortName (used : List Bool) (port : MappedPort) : Except MappedError (List Bool) := do
  let resolved ← expectOk (n.names.resolve port.name) "mapped port has an invalid name identifier"
  refuse (isBlank resolved) "mapped port name cannot be empty"
  markOnce used port.name "mapped port name is outside the name arena"
    s!"mapped netlist contains duplicate port name '{resolved}'"

def validateUniqueNames : Except MappedError Unit := do
  let designName ← expectOk (n.names.resolve n.name)
    "mapped design has an invalid name identifier"
  refuse (isBlank designName) "mapped design name cannot be empty"
  let unused := List.replicate n.names.entryCount false
  discard <| n.ports.foldlM n.validatePortName unused
  let used ← n.cellIds.foldlM n.validateCellNames unused
  discard <| n.designInstances.foldlM n.validateInstanceNames used

end MappedNetlist

/-! Preparation. -/

/-- New numbers for the slots that live, in their order. -/
def publicationRemap (live : List Bool) (kind : String) : Except MappedError (List Nat) := do
  let (remap, _) ← live.zipIdx.foldlM (fun (state : List Nat × Nat) row =>
    if row.1 then do
      let next ← idFromIndex kind state.2
      .ok (state.1.set row.2 next, next + 1)
    else .ok state) (List.replicate live.length REMOVED_SLOT, 0)
  return remap

def freshGeneration (nextGeneration : Nat) : Except Panic Nat :=
  if nextGeneration + 1 ≤ U64_MAX then .ok nextGeneration
  else .error (.expect "mapped generation ID space is exhausted")

/-- The last pin must have an identifier. -/
def checkPinCount (pinCount : Nat) : Except MappedError Unit :=
  if pinCount = 0 then .ok () else discard <| idFromIndex "pin ID" (pinCount - 1)

def MappedNetlist.preparePublication (n : MappedNetlist) (nextGeneration : Nat) :
    Except PublicationStop PublicationPlan := do
  let checked {α : Type} (r : Except MappedError α) : Except PublicationStop α :=
    r.mapError .error
  checked (refuse n.published "published mapped netlist cannot be repacked")
  checked n.validateLiveCounts
  checked n.validateReferences
  checked n.validateExternalNetIndex
  checked n.validateConnectivity
  checked n.validateUniqueNames
  checked (refuse (U64_MAX ≤ n.editRevision) "mapped publication revision space is exhausted")
  let nets ← checked (publicationRemap (n.nets.map (·.live)) "net ID")
  let cells ← checked (publicationRemap (n.cells.map (·.live)) "cell ID")
  let pinCount ← checked ((n.cells.filter (·.live)).foldlM (fun count slot =>
    let pins := slot.cell.connectionEnd - slot.cell.connectionStart
    if count + pins ≤ USIZE_MAX then Except.ok (count + pins)
    else .error (.capacity "pin connection arena")) 0)
  checked (checkPinCount pinCount)
  let targetGeneration ← (freshGeneration nextGeneration).mapError .panic
  return {
    sourceGeneration := n.generation
    targetGeneration
    publicationRevision := n.editRevision + 1
    nets
    cells
    pinCount }

/-! Repacking. -/

def remappedNet (remap : List Nat) (net : NetId) : Except Panic NetId := do
  let index ← rowAt remap net
  if index + 1 ≤ U32_MAX then .ok index
  else .error (.expect "preflighted dense net ID must fit")

def remappedSignal (remap : List Nat) : ConnectionSignal → Except Panic ConnectionSignal
  | .net net => do
    let net ← remappedNet remap net
    return .net net
  | .constant value => .ok (.constant value)

def setRow {α : Type} (rows : List α) (i : Nat) (row : α) : Except Panic (List α) :=
  if i < rows.length then .ok (rows.set i row) else .error .index

/-- Appends a pin to the list of its net. -/
def appendPin (netPins : List NetPins) (pinLinks : List PinLinks) (net : NetId) (pin : PinId) :
    Except Panic (List NetPins × List PinLinks) := do
  let pins ← rowAt netPins net
  let pinLinks ← setRow pinLinks pin ⟨pins.tail, none⟩
  match pins.tail with
  | some tail => do
    let links ← rowAt pinLinks tail
    let pinLinks ← setRow pinLinks tail { links with next := some pin }
    let netPins ← setRow netPins net { pins with tail := some pin }
    return (netPins, pinLinks)
  | none => do
    let netPins ← setRow netPins net ⟨some pin, some pin⟩
    return (netPins, pinLinks)

namespace MappedNetlist

variable (n : MappedNetlist)

def remapBoundaryNets (nets : List Nat) : Except Panic MappedNetlist := do
  let portNets ← n.portNets.mapM (remappedNet nets)
  let designConnectionSignals ← n.designConnectionSignals.mapM (remappedSignal nets)
  let constantDrivers ← n.constantDrivers.mapM fun driver => do
    let net ← remappedNet nets driver.1
    return (net, driver.2)
  let externalNets ← n.externalNets.mapM (remappedNet nets)
  return { n with portNets, designConnectionSignals, constantDrivers, externalNets }

/-- Moves one slot down to where the next living one belongs. -/
def moveNet (state : List NetSlot × Nat) (row : Nat × Nat) : Except Panic (List NetSlot × Nat) :=
  if row.1 = REMOVED_SLOT then .ok state
  else do
    let slot ← rowAt state.1 row.2
    let nets ← setRow state.1 state.2 { slot with live := true, version := 0 }
    return (nets, state.2 + 1)

def compactNetSlots (remap : List Nat) : Except Panic MappedNetlist := do
  let (nets, write) ← remap.zipIdx.foldlM moveNet (n.nets, 0)
  return { n with
    nets := nets.take write
    netPins := (n.netPins.take write).map fun _ => ⟨none, none⟩
    liveNetCount := write }

/-- The netlist being repacked and where the next cell and the next pin belong. -/
structure Repacking where
  netlist : MappedNetlist
  writeCell : Nat
  writePin : Nat

def movePin (nets : List Nat) (owner : CellId) (state : Repacking) (readPin : PinId) :
    Except Panic Repacking := do
  let n := state.netlist
  let connection ← rowAt n.connections readPin
  let signal ← remappedSignal nets connection.signal
  let connections ← setRow n.connections state.writePin { connection with signal }
  let pinOwners ← setRow n.pinOwners state.writePin owner
  let pinLinks ← setRow n.pinLinks state.writePin ⟨none, none⟩
  let n := { n with connections, pinOwners, pinLinks }
  match signal with
  | .constant _ => return { state with netlist := n, writePin := state.writePin + 1 }
  | .net net => do
    let pin ← (idFromIndex "pin ID" state.writePin).mapError fun _ =>
      .expect "preflighted dense pin ID must fit"
    let (netPins, links) ← appendPin n.netPins (n.pinLinks.take (state.writePin + 1)) net pin
    let pinLinks := links ++ n.pinLinks.drop (state.writePin + 1)
    return { state with netlist := { n with netPins, pinLinks }, writePin := state.writePin + 1 }

/-- Pin positions are stored in 32 bits. -/
def pinPosition (writePin : Nat) : Except Panic Nat :=
  if writePin ≤ U32_MAX then .ok writePin
  else .error (.expect "published pin count was capacity-checked")

def moveCell (nets : List Nat) (state : Repacking) (row : Nat × Nat) : Except Panic Repacking :=
  if row.1 = REMOVED_SLOT then .ok state
  else do
    let slot ← rowAt state.netlist.cells row.2
    let owner ← (idFromIndex "cell ID" row.1).mapError fun _ =>
      .expect "preflighted dense cell ID must fit"
    let connectionStart ← pinPosition state.writePin
    let state ← (List.range' slot.cell.connectionStart
      (slot.cell.connectionEnd - slot.cell.connectionStart)).foldlM (movePin nets owner) state
    let connectionEnd ← pinPosition state.writePin
    let cells ← setRow state.netlist.cells state.writeCell
      ⟨{ slot.cell with connectionStart, connectionEnd }, true, 0⟩
    return { state with
      netlist := { state.netlist with cells }
      writeCell := state.writeCell + 1 }

def compactCellSlots (cells nets : List Nat) : Except Panic MappedNetlist := do
  let state ← cells.zipIdx.foldlM (moveCell nets) ⟨n, 0, 0⟩
  let n := state.netlist
  return { n with
    cells := n.cells.take state.writeCell
    connections := n.connections.take state.writePin
    pinOwners := n.pinOwners.take state.writePin
    pinLinks := n.pinLinks.take state.writePin
    liveCellCount := state.writeCell }

end MappedNetlist

open MappedNetlist

def finalizeForPublication (nextGeneration : Nat) : Publishing MappedCellRemap := do
  let n ← get
  let plan ← match n.preparePublication nextGeneration with
    | .ok plan => pure plan
    | .error stop => throw stop
  let n ← orPanics (n.remapBoundaryNets plan.nets)
  set n
  let n ← orPanics (n.compactNetSlots plan.nets)
  set n
  let n ← orPanics (n.compactCellSlots plan.cells plan.nets)
  set ({ n with
    generation := plan.targetGeneration
    editRevision := plan.publicationRevision
    published := true } : MappedNetlist)
  return ⟨plan.sourceGeneration, plan.targetGeneration, plan.cells, n.cells.length⟩

end Opto.Mapped
