import Opto.Mapped.Validation

/-!
# Applying and rolling back a delta

Once a delta is prepared and its names are interned, its operations change the
netlist in order. Each of them saves a row before its first change of it, so the
undo record can put the netlist back.
-/

namespace Opto.Mapped

structure Editing where
  netlist : MappedNetlist
  applied : AppliedRegionDelta

namespace Editing

/-! Saving rows. -/

def saveCell (cell : CellId) (s : Editing) : Except Panic Editing := do
  let slot ← rowAt s.netlist.cells cell
  pure { s with applied := { s.applied with oldCells := saveOnce s.applied.oldCells cell slot } }

def saveNet (net : NetId) (s : Editing) : Except Panic Editing :=
  if net < s.applied.oldNetLen then do
    let slot ← rowAt s.netlist.nets net
    pure { s with applied := { s.applied with oldNets := saveOnce s.applied.oldNets net slot } }
  else pure s

def saveNetPins (net : NetId) (s : Editing) : Except Panic Editing :=
  if net < s.applied.oldNetLen then do
    let pins ← rowAt s.netlist.netPins net
    pure { s with applied := { s.applied with oldNetPins := saveOnce s.applied.oldNetPins net pins } }
  else pure s

def savePinLinks (pin : PinId) (s : Editing) : Except Panic Editing :=
  if pin < s.applied.oldConnectionLen then do
    let links ← rowAt s.netlist.pinLinks pin
    pure { s with applied := { s.applied with oldPinLinks := saveOnce s.applied.oldPinLinks pin links } }
  else pure s

def saveConnection (pin : PinId) (s : Editing) : Except Panic Editing := do
  let connection ← rowAt s.netlist.connections pin
  pure { s with applied := { s.applied with
    oldConnections := saveOnce s.applied.oldConnections pin connection } }

/-! Writing rows. -/

def modifyLinks (pin : PinId) (f : PinLinks → PinLinks) (s : Editing) : Except Panic Editing := do
  let pinLinks ← modifyRow s.netlist.pinLinks pin f
  pure { s with netlist := { s.netlist with pinLinks } }

def modifyNetPins (net : NetId) (f : NetPins → NetPins) (s : Editing) : Except Panic Editing := do
  let netPins ← modifyRow s.netlist.netPins net f
  pure { s with netlist := { s.netlist with netPins } }

def modifyNet (net : NetId) (f : NetSlot → NetSlot) (s : Editing) : Except Panic Editing := do
  let nets ← modifyRow s.netlist.nets net f
  pure { s with netlist := { s.netlist with nets } }

def modifyCell (cell : CellId) (f : CellSlot → CellSlot) (s : Editing) : Except Panic Editing := do
  let cells ← modifyRow s.netlist.cells cell f
  pure { s with netlist := { s.netlist with cells } }

def modifyConnection (pin : PinId) (f : PinConnection → PinConnection) (s : Editing) :
    Except Panic Editing := do
  let connections ← modifyRow s.netlist.connections pin f
  pure { s with netlist := { s.netlist with connections } }

/-! New rows. -/

def pushNet (slot : NetSlot) (s : Editing) : Editing :=
  { s with netlist := { s.netlist with
    nets := s.netlist.nets ++ [slot]
    netPins := s.netlist.netPins ++ [⟨none, none⟩] } }

def pushPin (id : CellId) (connection : PinConnection) (s : Editing) : Editing :=
  { s with netlist := { s.netlist with
    connections := s.netlist.connections ++ [connection]
    pinOwners := s.netlist.pinOwners ++ [id]
    pinLinks := s.netlist.pinLinks ++ [⟨none, none⟩] } }

def pushCell (slot : CellSlot) (s : Editing) : Editing :=
  { s with netlist := { s.netlist with cells := s.netlist.cells ++ [slot] } }

/-! The pins of a net. -/

/-- Writes the link of a neighbour, or the end of the net where there is none. -/
def writeNeighbour (neighbour : Option PinId) (f : PinLinks → PinLinks) (net : NetId)
    (g : NetPins → NetPins) (s : Editing) : Except Panic Editing :=
  match neighbour with
  | some pin => do
    let s ← s.savePinLinks pin
    s.modifyLinks pin f
  | none => s.modifyNetPins net g

def unlinkPin (pin : PinId) (s : Editing) : Except Panic Editing := do
  let connection ← rowAt s.netlist.connections pin
  match connection.signal with
  | .constant _ => .error (.unreachable "only net-connected pins enter adjacency unlinking")
  | .net net => do
    let links ← rowAt s.netlist.pinLinks pin
    let s ← s.saveNetPins net
    let s ← s.savePinLinks pin
    let s ← s.writeNeighbour links.previous (fun l => { l with next := links.next }) net
      fun pins => { pins with head := links.next }
    let s ← s.writeNeighbour links.next (fun l => { l with previous := links.previous }) net
      fun pins => { pins with tail := links.previous }
    s.modifyLinks pin fun _ => ⟨none, none⟩

def linkPin (net : NetId) (pin : PinId) (s : Editing) : Except Panic Editing := do
  let pins ← rowAt s.netlist.netPins net
  let s ← s.saveNetPins net
  let s ← s.savePinLinks pin
  let s ← s.writeNeighbour pins.tail (fun l => { l with next := some pin }) net
    fun pins => { pins with head := some pin }
  let s ← s.modifyLinks pin fun _ => ⟨pins.tail, none⟩
  s.modifyNetPins net fun pins => { pins with tail := some pin }

def touchSignalNet (signal : ConnectionSignal) (revision : Nat) (s : Editing) :
    Except Panic Editing :=
  match signal with
  | .constant _ => pure s
  | .net net => do
    let s ← s.saveNet net
    s.modifyNet net fun slot => { slot with version := revision }

/-- Takes a pin off the net it is connected to, if it is connected to one. -/
def detachPin (signal : ConnectionSignal) (pin : PinId) (s : Editing) : Except Panic Editing :=
  match signal with
  | .constant _ => pure s
  | .net _ => s.unlinkPin pin

def attachPin (signal : ConnectionSignal) (pin : PinId) (s : Editing) : Except Panic Editing :=
  match signal with
  | .constant _ => pure s
  | .net net => s.linkPin net pin

/-! Operations. -/

variable (interned : List (String × NameId)) (revision : Nat)

def nameId (name : String) : Except Panic NameId :=
  expectSome (interned.lookup name) "no entry found for key"

def addPin (id : CellId) (connection : String × Option Nat × ConnectionSignal) (s : Editing) :
    Except Panic Editing := do
  let (pin, libraryPin, signal) := connection
  let pinId := s.netlist.connections.length
  if U32_MAX < pinId + 1 then .error (.expect "resolved mapped pin ID fits its arena")
  let pin ← nameId interned pin
  let s := s.pushPin id ⟨pin, libraryPin, signal⟩
  let s ← s.attachPin signal pinId
  s.touchSignalNet signal revision

def removePin (s : Editing) (pin : PinId) : Except Panic Editing := do
  if U32_MAX < pin + 1 then .error (.expect "existing mapped pin index fits its ID")
  let connection ← rowAt s.netlist.connections pin
  let s ← s.detachPin connection.signal pin
  s.touchSignalNet connection.signal revision

def checkCapacity (length : Nat) : Except Panic Unit :=
  if U32_MAX < length then .error (.expect "validated mapped pin capacity fits u32") else .ok ()

def commit (s : Editing) : ResolvedOperation → Except Panic Editing
  | .addNet id name => do
    if id ≠ s.netlist.nets.length then .error (.expect "assertion failed")
    let name ← name.mapM (nameId interned)
    pure (s.pushNet ⟨name, true, revision⟩)
  | .addCell id spec connections => do
    if id ≠ s.netlist.cells.length then .error (.expect "assertion failed")
    let start := s.netlist.connections.length
    checkCapacity start
    let s ← connections.foldlM (fun s connection => addPin interned revision id connection s) s
    let last := s.netlist.connections.length
    checkCapacity last
    let name ← nameId interned spec.name
    let cellType ← nameId interned spec.cellType
    pure (s.pushCell ⟨⟨name, cellType, spec.libraryCell, start, last⟩, true, revision⟩)
  | .removeCell cell => do
    let s ← s.saveCell cell
    let slot ← rowAt s.netlist.cells cell
    let pins := List.range' slot.cell.connectionStart (slot.cell.connectionEnd - slot.cell.connectionStart)
    let s ← pins.foldlM (removePin revision) s
    s.modifyCell cell fun slot => { slot with live := false, version := revision }
  | .removeNet net => do
    let s ← s.saveNet net
    s.modifyNet net fun slot => { slot with live := false, version := revision }
  | .reconnectPin pin signal => do
    let s ← s.saveConnection pin
    let old ← rowAt s.netlist.connections pin
    let s ← s.detachPin old.signal pin
    let s ← s.modifyConnection pin fun c => { c with signal }
    let s ← s.attachPin signal pin
    let owner ← expectSome (s.netlist.pinOwner pin) "validated pin has a live owner"
    let s ← s.saveCell owner
    let s ← s.modifyCell owner fun slot => { slot with version := revision }
    let s ← s.touchSignalNet old.signal revision
    s.touchSignalNet signal revision
  | .replaceCell cell cellType libraryCell => do
    let s ← s.saveCell cell
    let cellType ← nameId interned cellType
    s.modifyCell cell fun slot =>
      { slot with cell := { slot.cell with cellType, libraryCell }, version := revision }
  | .renameCell cell name => do
    let s ← s.saveCell cell
    let name ← nameId interned name
    s.modifyCell cell fun slot => { slot with cell := { slot.cell with name }, version := revision }
  | .renameNet net name => do
    let s ← s.saveNet net
    let s := { s with applied := { s.applied with renamedNets := insertKey net s.applied.renamedNets } }
    let name ← name.mapM (nameId interned)
    s.modifyNet net fun slot => { slot with name, version := revision }

/-- Only nets that live on under another name stay recorded as renamed. -/
def retainRenamed (s : Editing) : Except Panic Editing := do
  let kept ← s.applied.renamedNets.filterM fun net => do
    let old ← expectSome (s.applied.oldNets.lookup net) "renamed nets are saved before mutation"
    let current ← rowAt s.netlist.nets net
    pure (current.live && old.name ≠ current.name)
  pure { s with applied := { s.applied with renamedNets := kept } }

end Editing

/-- Interns every name once; a failure leaves the names before it interned. -/
def internNames : NameTable → List (String × NameId) → List String →
    NameTable × Except NameError (List (String × NameId))
  | t, interned, [] => (t, .ok interned)
  | t, interned, name :: rest =>
    if (interned.lookup name).isSome then internNames t interned rest
    else
      match t.intern name with
      | .ok (id, t) => internNames t ((name, id) :: interned) rest
      | .error error => (t, .error error)

namespace MappedNetlist

/-- The undo record before the first operation. -/
def beginApplied (n : MappedNetlist) (p : PreparedDelta) : AppliedRegionDelta where
  generation := n.generation
  previousRevision := n.editRevision
  committedRevision := p.revision
  previousNetCount := n.liveNetCount
  previousCellCount := n.liveCellCount
  oldNetLen := n.nets.length
  oldCellLen := n.cells.length
  oldConnectionLen := n.connections.length
  oldNets := []
  oldCells := []
  oldConnections := []
  oldNetPins := []
  oldPinLinks := []
  names := n.names.checkpoint
  addedNets := p.resolved.addedNets
  addedCells := p.resolved.addedCells
  renamedNets := []

/-- The commit of a prepared delta, `names` being the table with its names interned. -/
def commitDelta (n : MappedNetlist) (p : PreparedDelta) (names : NameTable)
    (interned : List (String × NameId)) : Except Panic (AppliedRegionDelta × MappedNetlist) := do
  let s ← p.resolved.operations.foldlM (Editing.commit interned p.revision)
    ⟨{ n with names }, n.beginApplied p⟩
  let s ← s.retainRenamed
  pure (s.applied, { s.netlist with
    liveNetCount := p.netCount
    liveCellCount := p.cellCount
    editRevision := p.revision })

/-- The result and the netlist it leaves behind, which a panic does not describe. -/
def applyRegionDelta (n : MappedNetlist) (delta : RegionDelta) :
    Except Stop AppliedRegionDelta × MappedNetlist :=
  match n.prepare delta with
  | .error stop => (.error stop, n)
  | .ok p =>
    match internNames n.names [] (operationNames p.resolved.operations) with
    | (names, .error error) =>
      match names.rollback n.names.checkpoint with
      | .ok names => (.error (.conflict (.invalid (.name error))), { n with names })
      | .error _ =>
        (.error (.panic (.expect "name rollback immediately follows failed interning")), { n with names })
    | (names, .ok interned) =>
      match n.commitDelta p names interned with
      | .ok (applied, n) => (.ok applied, n)
      | .error panic => (.error (.panic panic), n)

/-- The tables with their new slots truncated and their saved rows written back. -/
def restoreTables (n : MappedNetlist) (applied : AppliedRegionDelta) : Except Panic MappedNetlist := do
  let table {α : Type} (rows : List α) (length : Nat) (saved : List (Nat × α)) : Except Panic (List α) :=
    match restore rows length saved with
    | some rows => .ok rows
    | none => .error .index
  let connections ← table n.connections applied.oldConnectionLen applied.oldConnections
  let cells ← table n.cells applied.oldCellLen applied.oldCells
  let nets ← table n.nets applied.oldNetLen applied.oldNets
  let netPins ← table n.netPins applied.oldNetLen applied.oldNetPins
  let pinLinks ← table n.pinLinks applied.oldConnectionLen applied.oldPinLinks
  pure { n with
    connections, cells, nets, netPins, pinLinks
    pinOwners := n.pinOwners.take applied.oldConnectionLen
    liveNetCount := applied.previousNetCount
    liveCellCount := applied.previousCellCount }

def rollbackRegionDelta (n : MappedNetlist) (applied : AppliedRegionDelta) :
    Except Stop Unit × MappedNetlist :=
  if n.generation ≠ applied.generation then
    (reject s!"cannot rollback mapped generation MappedGenerationId({applied.generation}) into foreign generation MappedGenerationId({n.generation})", n)
  else if n.editRevision ≠ applied.committedRevision then
    (reject s!"cannot rollback mapped revision {applied.committedRevision} after revision {n.editRevision} was published", n)
  else
    match n.restoreTables applied with
    | .error panic => (.error (.panic panic), n)
    | .ok restored =>
      match restored.names.rollback applied.names with
      | .error error => (.error (.conflict (.invalid (.name error))), restored)
      | .ok names => (.ok (), { restored with names, editRevision := applied.previousRevision })

end MappedNetlist

end Opto.Mapped
