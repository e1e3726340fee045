import Opto.Mapped.Edit

/-!
# Checks before a delta is applied

The snapshot must be current; temporary identifiers are resolved to the slots
they will get; then every operation is validated against the unchanged netlist,
with a record of what the earlier operations write.
-/

namespace Opto.Mapped

def USIZE_MAX : Nat := 2 ^ 64 - 1

def insertEntry {α : Type} (key : Nat) (value : α) (entries : List (Nat × α)) : List (Nat × α) :=
  (entries.filter (·.1 ≠ key)).orderedInsert (fun a b => a.1 ≤ b.1) (key, value)

def insertKey (key : Nat) (keys : List Nat) : List Nat :=
  if key ∈ keys then keys else keys.orderedInsert (· ≤ ·) key

/-- Lifts a step that cannot be a conflict. -/
def orPanic {α : Type} (r : Except Panic α) : Except Stop α := r.mapError .panic

def orConflict {α : Type} (r : Except MappedError α) : Except Stop α :=
  r.mapError fun e => .conflict (.invalid e)

structure ResolvedDelta where
  operations : List ResolvedOperation
  addedNets : List (TempNetId × NetId)
  addedCells : List (TempCellId × CellId)

structure OperationValidation where
  removedCells : List CellId := []
  removedNets : List NetId := []
  reconnected : List (PinId × ConnectionSignal) := []
  writtenCells : List CellId := []
  writtenNets : List NetId := []

namespace MappedNetlist

/-! Snapshots. -/

def snapshotRegion (n : MappedNetlist) (cells : List CellId) (nets : List NetId) :
    Except MappedError RegionSnapshot := do
  let cells ← cells.foldlM (fun entries id =>
    match n.cells[id]?.filter (·.live) with
    | some slot => .ok (insertEntry id slot.version entries)
    | none => Except.error (.invariant s!"cannot snapshot removed cell CellId(SlotId({id}))")) []
  let nets ← nets.foldlM (fun entries id =>
    match n.nets[id]?.filter (·.live) with
    | some slot => .ok (insertEntry id slot.version entries)
    | none => Except.error (.invariant s!"cannot snapshot removed net NetId(SlotId({id}))")) []
  pure ⟨n.generation, cells, nets⟩

def checkSnapshot (n : MappedNetlist) (snapshot : RegionSnapshot) : Except Stop Unit := do
  if n.generation ≠ snapshot.generation then
    reject s!"mapped region snapshot belongs to generation MappedGenerationId({snapshot.generation}), not MappedGenerationId({n.generation})"
  snapshot.cells.forM fun entry =>
    if (n.cells[entry.1]?.filter (·.live)).all (·.version ≠ entry.2) then
      .error (.conflict (.staleCell entry.1))
    else .ok ()
  snapshot.nets.forM fun entry =>
    if (n.nets[entry.1]?.filter (·.live)).all (·.version ≠ entry.2) then
      .error (.conflict (.staleNet entry.1))
    else .ok ()

/-! Resolution. -/

/-- Slots for the added nets and cells, after the ones the netlist has. -/
def resolveIds (n : MappedNetlist) (operations : List RegionOperation) :
    Except Stop (List (TempNetId × NetId) × List (TempCellId × CellId)) :=
  operations.foldlM (fun ids operation =>
    match operation with
    | .addNet id _ => do
      let final ← orConflict (idFromIndex "net ID" (n.nets.length + ids.1.length))
      pure (ids.1 ++ [(id, final)], ids.2)
    | .addCell id _ => do
      let final ← orConflict (idFromIndex "cell ID" (n.cells.length + ids.2.length))
      pure (ids.1, ids.2 ++ [(id, final)])
    | _ => pure ids) ([], [])

def addedPins : RegionOperation → Nat
  | .addCell _ spec => spec.connections.length
  | _ => 0

def checkPinCapacity (n : MappedNetlist) (operations : List RegionOperation) : Except Stop Unit := do
  let addedPinCount ← operations.foldlM (fun count operation =>
    if count + addedPins operation ≤ USIZE_MAX then .ok (count + addedPins operation)
    else reject "mapped pin connection count overflow") 0
  if USIZE_MAX < n.connections.length + addedPinCount then
    reject "mapped pin connection count overflow"
  if U32_MAX < n.connections.length + addedPinCount then
    reject "mapped pin connection arena exceeds 32-bit capacity"

end MappedNetlist

def resolveSignal (addedNets : List (TempNetId × NetId)) : ConnectionRef → Except Stop ConnectionSignal
  | .net net => .ok (.net net)
  | .newNet net =>
    match addedNets.lookup net with
    | some final => .ok (.net final)
    | none => reject s!"region delta references unknown temporary net TempNetId \x7b owner: RegionDeltaId({net.owner}), index: {net.index} \x7d"
  | .constant value => .ok (.constant value)

def resolveOperation (addedNets : List (TempNetId × NetId)) (addedCells : List (TempCellId × CellId)) :
    RegionOperation → Except Stop ResolvedOperation
  | .addNet id name => do
    let final ← orPanic (expectSome (addedNets.lookup id) "no entry found for key")
    pure (.addNet final name)
  | .addCell id spec => do
    let final ← orPanic (expectSome (addedCells.lookup id) "no entry found for key")
    let connections ← spec.connections.mapM fun connection => do
      let signal ← resolveSignal addedNets connection.2.2
      pure (connection.1, connection.2.1, signal)
    pure (.addCell final spec connections)
  | .removeCell cell => pure (.removeCell cell)
  | .removeNet net => pure (.removeNet net)
  | .reconnectPin pin signal => do
    let signal ← resolveSignal addedNets signal
    pure (.reconnectPin pin signal)
  | .replaceCell cell cellType libraryCell => pure (.replaceCell cell cellType libraryCell)
  | .renameCell cell name => pure (.renameCell cell name)
  | .renameNet net name => pure (.renameNet net name)

def MappedNetlist.resolveOperations (n : MappedNetlist) (requested : List RegionOperation) :
    Except Stop ResolvedDelta := do
  let (addedNets, addedCells) ← n.resolveIds requested
  n.checkPinCapacity requested
  let operations ← requested.mapM (resolveOperation addedNets addedCells)
  pure ⟨operations, addedNets, addedCells⟩

/-! Validation. -/

def validateSignal (n : MappedNetlist) (snapshot : RegionSnapshot) (newNets : List NetId) :
    ConnectionSignal → Except Stop Unit
  | .constant _ => .ok ()
  | .net net =>
    if net ∈ newNets then .ok ()
    else if !n.isLiveNet net then reject s!"region delta references removed net NetId(SlotId({net}))"
    else if !snapshot.containsNet net then
      reject s!"region delta references net NetId(SlotId({net})) outside its snapshot"
    else .ok ()

def requireSnapshotCell (snapshot : RegionSnapshot) (cell : CellId) (action : String) :
    Except Stop Unit :=
  if snapshot.containsCell cell then .ok ()
  else reject s!"region delta {action} cell CellId(SlotId({cell})) outside its snapshot"

def requireSnapshotNet (snapshot : RegionSnapshot) (net : NetId) (action : String) :
    Except Stop Unit :=
  if snapshot.containsNet net then .ok ()
  else reject s!"region delta {action} net NetId(SlotId({net})) outside its snapshot"

def recordWrite (written : List Nat) (object : Nat) (kind tag : String) : Except Stop (List Nat) :=
  if object ∈ written then
    reject s!"region delta writes {kind} {tag}(SlotId({object})) more than once"
  else .ok (insertKey object written)

/-- `pins` are the names of the cell's earlier pins. -/
def validatePin (n : MappedNetlist) (snapshot : RegionSnapshot) (newNets : List NetId) (cell : String)
    (pins : List String) (connection : String × Option Nat × ConnectionSignal) :
    Except Stop (List String) := do
  if connection.1.isEmpty ∨ connection.1 ∈ pins then
    reject s!"mapped cell '{cell}' has an empty or duplicate pin name"
  validateSignal n snapshot newNets connection.2.2
  pure (connection.1 :: pins)

def validateAddedCell (n : MappedNetlist) (snapshot : RegionSnapshot) (spec : CellSpec)
    (connections : List (String × Option Nat × ConnectionSignal)) (newNets : List NetId) :
    Except Stop Unit := do
  if spec.name.isEmpty ∨ spec.cellType.isEmpty then
    reject "mapped cells require non-empty instance and cell type names"
  let _ ← connections.foldlM (validatePin n snapshot newNets spec.name) []

namespace OperationValidation

def validateRemovedCell (v : OperationValidation) (n : MappedNetlist) (snapshot : RegionSnapshot)
    (cell : CellId) (newNets : List NetId) : Except Stop OperationValidation := do
  requireSnapshotCell snapshot cell "removes"
  match n.cellConnections cell with
  | none => reject s!"region delta references removed cell CellId(SlotId({cell}))"
  | some connections =>
    connections.forM fun connection => validateSignal n snapshot newNets connection.signal
    let written ← recordWrite v.writtenCells cell "cell" "CellId"
    pure { v with writtenCells := written, removedCells := insertKey cell v.removedCells }

def validateReconnection (v : OperationValidation) (n : MappedNetlist) (snapshot : RegionSnapshot)
    (pin : PinId) (signal : ConnectionSignal) (newNets : List NetId) :
    Except Stop OperationValidation :=
  match n.pinOwner pin with
  | none => reject s!"region delta references unknown pin PinId(SlotId({pin}))"
  | some owner => do
    if !snapshot.containsCell owner then
      reject s!"region delta reconnects pin PinId(SlotId({pin})) outside its cell snapshot"
    if (v.reconnected.lookup pin).isSome then
      reject s!"region delta reconnects pin PinId(SlotId({pin})) more than once"
    let old ← orPanic (expectSome (n.connection pin) "validated pin has a live connection")
    validateSignal n snapshot newNets old.signal
    validateSignal n snapshot newNets signal
    pure { v with reconnected := insertEntry pin signal v.reconnected }

def writeCell (v : OperationValidation) (snapshot : RegionSnapshot) (cell : CellId) :
    Except Stop OperationValidation := do
  requireSnapshotCell snapshot cell "writes"
  let written ← recordWrite v.writtenCells cell "cell" "CellId"
  pure { v with writtenCells := written }

def writeNet (v : OperationValidation) (snapshot : RegionSnapshot) (net : NetId) (action : String) :
    Except Stop OperationValidation := do
  requireSnapshotNet snapshot net action
  let written ← recordWrite v.writtenNets net "net" "NetId"
  pure { v with writtenNets := written }

def validateOperation (v : OperationValidation) (n : MappedNetlist) (snapshot : RegionSnapshot)
    (newNets : List NetId) : ResolvedOperation → Except Stop OperationValidation
  | .addNet _ _ => .ok v
  | .addCell _ spec connections => do
    validateAddedCell n snapshot spec connections newNets
    pure v
  | .removeCell cell => v.validateRemovedCell n snapshot cell newNets
  | .removeNet net => do
    let v ← v.writeNet snapshot net "removes"
    pure { v with removedNets := insertKey net v.removedNets }
  | .reconnectPin pin signal => v.validateReconnection n snapshot pin signal newNets
  | .replaceCell cell _ _ => v.writeCell snapshot cell
  | .renameCell cell _ => v.writeCell snapshot cell
  | .renameNet net _ => v.writeNet snapshot net "writes"

end OperationValidation

/-- The names the delta gives to cells, the names it takes from them, and the
cells it renames. -/
structure CellNames where
  future : List String := []
  released : List NameId := []
  renamed : List CellId := []

def CellNames.assign (names : CellNames) (name : String) : Except Stop CellNames :=
  if name.isEmpty then reject "mapped cells require non-empty instance names"
  else if name ∈ names.future then reject s!"mapped region assigns duplicate cell name '{name}'"
  else .ok { names with future := names.future.orderedInsert (· ≤ ·) name }

def CellNames.visit (n : MappedNetlist) (names : CellNames) : ResolvedOperation → Except Stop CellNames
  | .addCell _ spec _ => names.assign spec.name
  | .renameCell cell name => do
    let slot ← orPanic (rowAt n.cells cell)
    match n.names.resolve slot.cell.name with
    | none => reject "mapped cell has an invalid name identifier"
    | some oldName =>
      if oldName = name then .ok names
      else
        let names : CellNames := { names with
          released := insertKey slot.cell.name names.released
          renamed := insertKey cell names.renamed }
        names.assign name
  | _ => .ok names

namespace OperationValidation

def validateCellNames (v : OperationValidation) (n : MappedNetlist)
    (operations : List ResolvedOperation) : Except Stop Unit := do
  let released ← v.removedCells.mapM fun cell => do
    let slot ← orPanic (rowAt n.cells cell)
    pure slot.cell.name
  let names ← operations.foldlM (CellNames.visit n) { released }
  let internedFuture := names.future.filterMap fun name => (n.names.get name).map (name, ·)
  if internedFuture.any fun entry => entry.2 ∉ names.released then
    let used := (n.cellIds.filter fun cell => cell ∉ v.removedCells ∧ cell ∉ names.renamed).filterMap
      fun cell => n.cells[cell]?.map (·.cell.name)
    let used := used ++ n.designInstances.map (·.name)
    internedFuture.forM fun entry =>
      if entry.2 ∈ used then reject s!"mapped region assigns duplicate cell name '{entry.1}'"
      else .ok ()

/-- Whether a pin keeps a reference to a net that is removed. -/
def validateRemovedPin (v : OperationValidation) (n : MappedNetlist) (net : NetId) (pin : PinId) :
    Except Stop Unit := do
  let owner ← orPanic (expectSome (n.pinOwner pin) "net adjacency contains only live cell pins")
  if owner ∈ v.removedCells then pure ()
  else
    let connection ← orPanic (rowAt n.connections pin)
    if (v.reconnected.lookup pin).getD connection.signal = .net net then
      reject s!"region delta removes net NetId(SlotId({net})) while pin PinId(SlotId({pin})) still references it"

def validateRemovedNets (v : OperationValidation) (n : MappedNetlist)
    (operations : List ResolvedOperation) : Except Stop Unit :=
  v.removedNets.forM fun net => do
    if n.isExternalNet net then
      reject s!"region delta removes externally referenced net NetId(SlotId({net}))"
    let pins ← orPanic (expectSome (n.pinsOnNet net) "removed candidate net is live before transaction")
    pins.forM (v.validateRemovedPin n net)
    operations.forM fun operation =>
      match operation with
      | .addCell _ _ connections =>
        if connections.any (·.2.2 = .net net) then
          reject s!"region delta removes net NetId(SlotId({net})) while a new cell references it"
        else .ok ()
      | _ => .ok ()

end OperationValidation

def ResolvedOperation.newNet : ResolvedOperation → Option NetId
  | .addNet id _ => some id
  | _ => none

def MappedNetlist.validateOperations (n : MappedNetlist) (snapshot : RegionSnapshot)
    (operations : List ResolvedOperation) : Except Stop Unit := do
  let newNets := operations.filterMap ResolvedOperation.newNet
  let v ← operations.foldlM (fun (v : OperationValidation) operation =>
    v.validateOperation n snapshot newNets operation) {}
  v.validateCellNames n operations
  v.validateRemovedNets n operations

def updatedLiveCount (current removed added : Nat) (resource : String) : Except Stop Nat :=
  if removed ≤ current ∧ current - removed + added ≤ USIZE_MAX then .ok (current - removed + added)
  else reject s!"mapped live {resource} count is inconsistent"

def ResolvedOperation.removesNet : ResolvedOperation → Bool
  | .removeNet _ => true
  | _ => false

def ResolvedOperation.removesCell : ResolvedOperation → Bool
  | .removeCell _ => true
  | _ => false

/-- A delta that passed every check, with the counts and the revision it commits. -/
structure PreparedDelta where
  resolved : ResolvedDelta
  netCount : Nat
  cellCount : Nat
  revision : Nat

/-- The checks of `applyRegionDelta`, in order; they read the netlist only. -/
def MappedNetlist.prepare (n : MappedNetlist) (delta : RegionDelta) : Except Stop PreparedDelta := do
  if n.published then reject "cannot edit a published mapped netlist"
  n.checkSnapshot delta.snapshot
  let resolved ← n.resolveOperations delta.operations
  n.validateOperations delta.snapshot resolved.operations
  let netCount ← updatedLiveCount n.liveNetCount
    (resolved.operations.countP ResolvedOperation.removesNet) resolved.addedNets.length "net"
  let cellCount ← updatedLiveCount n.liveCellCount
    (resolved.operations.countP ResolvedOperation.removesCell) resolved.addedCells.length "cell"
  if U64_MAX < n.editRevision + 1 then reject "mapped edit revision space is exhausted"
  pure ⟨resolved, netCount, cellCount, n.editRevision + 1⟩

end Opto.Mapped
