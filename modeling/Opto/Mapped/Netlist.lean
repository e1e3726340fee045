import Mathlib.Data.List.Sort
import Opto.Library.Chain
import Opto.Mapped.Names

/-!
# Mapped netlists

Nets and cells live in slots that are never renumbered: removing one leaves a
tombstone. Each cell owns a contiguous range of pin connections, and the pins of
a net are threaded through an intrusive list between the net's head and tail.
-/

namespace Opto.Mapped

abbrev NetId := Nat
abbrev CellId := Nat
abbrev PinId := Nat

inductive MappedError
  | capacity (kind : String)
  | invariant (message : String)
  | name (error : NameError)
deriving DecidableEq

/-- Slot identifiers are stored one-based in 32 bits. -/
def idFromIndex (kind : String) (index : Nat) : Except MappedError Nat :=
  if index + 1 ≤ U32_MAX then .ok index else .error (.capacity kind)

inductive ConnectionSignal
  | net (net : NetId)
  | constant (value : Bool)
deriving DecidableEq

inductive PortDirection
  | input
  | output
  | inout
deriving DecidableEq

structure MappedPort where
  name : NameId
  direction : PortDirection
  netStart : Nat
  netEnd : Nat
deriving DecidableEq

structure MappedCell where
  name : NameId
  cellType : NameId
  libraryCell : Option Nat
  connectionStart : Nat
  connectionEnd : Nat
deriving DecidableEq

structure PinConnection where
  pin : NameId
  libraryPin : Option Nat
  signal : ConnectionSignal
deriving DecidableEq

structure MappedDesignInstance where
  name : NameId
  module : NameId
  connectionStart : Nat
  connectionEnd : Nat
deriving DecidableEq

structure DesignInstanceConnection where
  port : NameId
  signalStart : Nat
  signalEnd : Nat
deriving DecidableEq

structure NetSlot where
  name : Option NameId
  live : Bool
  version : Nat
deriving DecidableEq

structure CellSlot where
  cell : MappedCell
  live : Bool
  version : Nat
deriving DecidableEq

structure NetPins where
  head : Option PinId
  tail : Option PinId
deriving DecidableEq

abbrev PinLinks := Links

structure MappedNetlist where
  generation : Nat
  editRevision : Nat
  published : Bool
  name : NameId
  names : NameTable
  nets : List NetSlot
  liveNetCount : Nat
  ports : List MappedPort
  portNets : List NetId
  cells : List CellSlot
  liveCellCount : Nat
  connections : List PinConnection
  pinOwners : List CellId
  pinLinks : List PinLinks
  netPins : List NetPins
  designInstances : List MappedDesignInstance
  designConnections : List DesignInstanceConnection
  designConnectionSignals : List ConnectionSignal
  constantDrivers : List (NetId × Bool)
  externalNets : List NetId
deriving DecidableEq

/-- The rows `start..end` of a table, if it has them. -/
def slice {α : Type} (rows : List α) (first last : Nat) : Option (List α) :=
  if first ≤ last ∧ last ≤ rows.length then some ((rows.take last).drop first) else none

/-- The pins from `cursor` on; nothing when the links leave the table or run in a circle. -/
def walk (links : List PinLinks) : Nat → Option PinId → Option (List PinId)
  | _, none => some []
  | 0, some _ => none
  | fuel + 1, some pin => links[pin]?.bind fun l => (walk links fuel l.next).map (pin :: ·)

namespace MappedNetlist

def isLiveNet (n : MappedNetlist) (net : NetId) : Bool := n.nets[net]?.any (·.live)

def cell (n : MappedNetlist) (cell : CellId) : Option MappedCell :=
  (n.cells[cell]?.filter (·.live)).map (·.cell)

def cellIds (n : MappedNetlist) : List CellId :=
  (List.range n.cells.length).filter fun cell => n.cells[cell]?.any (·.live)

def cellConnections (n : MappedNetlist) (cell : CellId) : Option (List PinConnection) :=
  (n.cell cell).bind fun c => slice n.connections c.connectionStart c.connectionEnd

def pinOwner (n : MappedNetlist) (pin : PinId) : Option CellId :=
  n.pinOwners[pin]?.bind fun owner => (n.cell owner).bind fun c =>
    if c.connectionStart ≤ pin ∧ pin < c.connectionEnd then some owner else none

def connection (n : MappedNetlist) (pin : PinId) : Option PinConnection :=
  (n.pinOwner pin).bind fun _ => n.connections[pin]?

def pinsOnNet (n : MappedNetlist) (net : NetId) : Option (List PinId) :=
  ((n.nets[net]?.filter (·.live)).bind fun _ => n.netPins[net]?).bind fun pins =>
    walk n.pinLinks n.pinLinks.length pins.head

def isExternalNet (n : MappedNetlist) (net : NetId) : Bool := n.externalNets.contains net

end MappedNetlist

end Opto.Mapped
