import Opto.Library.Undo
import Opto.Mapped.Netlist

/-!
# Region deltas

A delta collects operations on a snapshot of part of a netlist. Nets and cells
it adds carry temporary identifiers of the delta until it is applied; applying
it leaves an undo record of the slots it touched.
-/

namespace Opto.Mapped

inductive RegionConflict
  | staleCell (cell : CellId)
  | staleNet (net : NetId)
  | invalid (error : MappedError)
deriving DecidableEq

def RegionConflict.message (message : String) : RegionConflict := .invalid (.invariant message)

inductive Panic
  | index
  | expect (message : String)
  | unreachable (message : String)
deriving DecidableEq

/-- A rejected delta, or a panic. -/
inductive Stop
  | conflict (conflict : RegionConflict)
  | panic (panic : Panic)
deriving DecidableEq

def reject {α : Type} (message : String) : Except Stop α := .error (.conflict (.message message))

def expectSome {α : Type} (value : Option α) (message : String) : Except Panic α :=
  match value with
  | some a => .ok a
  | none => .error (.expect message)

/-- A checked index into a table. -/
def rowAt {α : Type} (rows : List α) (i : Nat) : Except Panic α :=
  match rows[i]? with
  | some row => .ok row
  | none => .error .index

/-- A checked write through an index. -/
def modifyRow {α : Type} (rows : List α) (i : Nat) (f : α → α) : Except Panic (List α) :=
  if i < rows.length then .ok (rows.modify i f) else .error .index

structure TempNetId where
  owner : Nat
  index : Nat
deriving DecidableEq

structure TempCellId where
  owner : Nat
  index : Nat
deriving DecidableEq

inductive ConnectionRef
  | net (net : NetId)
  | newNet (net : TempNetId)
  | constant (value : Bool)
deriving DecidableEq

structure CellSpec where
  name : String
  cellType : String
  libraryCell : Option Nat
  connections : List (String × Option Nat × ConnectionRef)
deriving DecidableEq

/-- Versions by identifier, in ascending order of identifiers. -/
structure RegionSnapshot where
  generation : Nat
  cells : List (CellId × Nat)
  nets : List (NetId × Nat)
deriving DecidableEq

namespace RegionSnapshot

def containsCell (s : RegionSnapshot) (cell : CellId) : Bool := s.cells.any (·.1 = cell)
def containsNet (s : RegionSnapshot) (net : NetId) : Bool := s.nets.any (·.1 = net)

end RegionSnapshot

inductive RegionOperation
  | addNet (id : TempNetId) (name : Option String)
  | addCell (id : TempCellId) (spec : CellSpec)
  | removeCell (cell : CellId)
  | removeNet (net : NetId)
  | reconnectPin (pin : PinId) (signal : ConnectionRef)
  | replaceCell (cell : CellId) (cellType : String) (libraryCell : Option Nat)
  | renameCell (cell : CellId) (name : String)
  | renameNet (net : NetId) (name : Option String)
deriving DecidableEq

def RegionOperation.tempNet : RegionOperation → Option TempNetId
  | .addNet id _ => some id
  | _ => none

def RegionOperation.tempCell : RegionOperation → Option TempCellId
  | .addCell id _ => some id
  | _ => none

/-- Added nets and cells are numbered in the order they are added. -/
structure RegionDelta where
  snapshot : RegionSnapshot
  identity : Nat
  operations : List RegionOperation
  nextTempNet : Nat
  nextTempCell : Nat
  tempNets : operations.filterMap RegionOperation.tempNet =
    (List.range nextTempNet).map (⟨identity, ·⟩)
  tempCells : operations.filterMap RegionOperation.tempCell =
    (List.range nextTempCell).map (⟨identity, ·⟩)

namespace RegionDelta

def new (snapshot : RegionSnapshot) (identity : Nat) : RegionDelta :=
  ⟨snapshot, identity, [], 0, 0, rfl, rfl⟩

def requireCell (d : RegionDelta) (cell : CellId) : Except MappedError Unit :=
  if d.snapshot.containsCell cell then .ok ()
  else .error (.invariant s!"region delta writes cell CellId(SlotId({cell})) outside its snapshot")

def requireNet (d : RegionDelta) (net : NetId) : Except MappedError Unit :=
  if d.snapshot.containsNet net then .ok ()
  else .error (.invariant s!"region delta writes net NetId(SlotId({net})) outside its snapshot")

def addNet (d : RegionDelta) (name : Option String) : Except MappedError (TempNetId × RegionDelta) :=
  if d.nextTempNet + 1 ≤ U32_MAX then
    .ok (⟨d.identity, d.nextTempNet⟩, { d with
      operations := d.operations ++ [.addNet ⟨d.identity, d.nextTempNet⟩ name]
      nextTempNet := d.nextTempNet + 1
      tempNets := by
        rw [List.filterMap_append, d.tempNets, List.range_succ, List.map_append]
        rfl
      tempCells := by
        rw [List.filterMap_append, d.tempCells]
        exact List.append_nil _ })
  else .error (.capacity "temporary net ID")

def addCell (d : RegionDelta) (spec : CellSpec) : Except MappedError (TempCellId × RegionDelta) :=
  if d.nextTempCell + 1 ≤ U32_MAX then
    .ok (⟨d.identity, d.nextTempCell⟩, { d with
      operations := d.operations ++ [.addCell ⟨d.identity, d.nextTempCell⟩ spec]
      nextTempCell := d.nextTempCell + 1
      tempNets := by
        rw [List.filterMap_append, d.tempNets]
        exact List.append_nil _
      tempCells := by
        rw [List.filterMap_append, d.tempCells, List.range_succ, List.map_append]
        rfl })
  else .error (.capacity "temporary cell ID")

/-- Plans an operation that adds no object. -/
def plan (d : RegionDelta) (operation : RegionOperation) (hnet : operation.tempNet = none)
    (hcell : operation.tempCell = none) : RegionDelta :=
  { d with
    operations := d.operations ++ [operation]
    tempNets := by
      rw [List.filterMap_append, d.tempNets, List.filterMap_cons, hnet]
      exact List.append_nil _
    tempCells := by
      rw [List.filterMap_append, d.tempCells, List.filterMap_cons, hcell]
      exact List.append_nil _ }

def removeCell (d : RegionDelta) (cell : CellId) : Except MappedError RegionDelta := do
  d.requireCell cell
  pure (d.plan (.removeCell cell) rfl rfl)

def removeNet (d : RegionDelta) (net : NetId) : Except MappedError RegionDelta := do
  d.requireNet net
  pure (d.plan (.removeNet net) rfl rfl)

def reconnectPin (d : RegionDelta) (pin : PinId) (signal : ConnectionRef) :
    Except MappedError RegionDelta := do
  match signal with
  | .net net => d.requireNet net
  | _ => pure ()
  pure (d.plan (.reconnectPin pin signal) rfl rfl)

def replaceCell (d : RegionDelta) (cell : CellId) (cellType : String) (libraryCell : Option Nat) :
    Except MappedError RegionDelta := do
  d.requireCell cell
  pure (d.plan (.replaceCell cell cellType libraryCell) rfl rfl)

def renameCell (d : RegionDelta) (cell : CellId) (name : String) : Except MappedError RegionDelta := do
  d.requireCell cell
  pure (d.plan (.renameCell cell name) rfl rfl)

def renameNet (d : RegionDelta) (net : NetId) (name : Option String) :
    Except MappedError RegionDelta := do
  d.requireNet net
  pure (d.plan (.renameNet net name) rfl rfl)

end RegionDelta

/-- The rows an applied delta replaced; a map keeps the first row saved under a key. -/
structure AppliedRegionDelta where
  generation : Nat
  previousRevision : Nat
  committedRevision : Nat
  previousNetCount : Nat
  previousCellCount : Nat
  oldNetLen : Nat
  oldCellLen : Nat
  oldConnectionLen : Nat
  oldNets : List (NetId × NetSlot)
  oldCells : List (CellId × CellSlot)
  oldConnections : List (PinId × PinConnection)
  oldNetPins : List (NetId × NetPins)
  oldPinLinks : List (PinId × PinLinks)
  names : NameCheckpoint
  addedNets : List (TempNetId × NetId)
  addedCells : List (TempCellId × CellId)
  renamedNets : List NetId
deriving DecidableEq

inductive ResolvedOperation
  | addNet (id : NetId) (name : Option String)
  | addCell (id : CellId) (spec : CellSpec)
      (connections : List (String × Option Nat × ConnectionSignal))
  | removeCell (cell : CellId)
  | removeNet (net : NetId)
  | reconnectPin (pin : PinId) (signal : ConnectionSignal)
  | replaceCell (cell : CellId) (cellType : String) (libraryCell : Option Nat)
  | renameCell (cell : CellId) (name : String)
  | renameNet (net : NetId) (name : Option String)
deriving DecidableEq

/-- The names a delta interns, in order. -/
def operationNames (operations : List ResolvedOperation) : List String :=
  operations.flatMap fun operation =>
    match operation with
    | .addNet _ name | .renameNet _ name => name.toList
    | .addCell _ spec _ => spec.name :: spec.cellType :: spec.connections.map (·.1)
    | .replaceCell _ cellType _ => [cellType]
    | .renameCell _ name => [name]
    | .removeCell _ | .removeNet _ | .reconnectPin _ _ => []

end Opto.Mapped
