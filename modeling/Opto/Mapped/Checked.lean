import Opto.Library.Outcome
import Opto.Mapped.Validation

/-!
# What the checks establish

A delta passes its checks when its snapshot is current, its operations read and
write snapshotted objects only, and each object is written once. The facts are
about the netlist before the first operation.
-/

namespace Opto.Mapped

variable {n : MappedNetlist} {snapshot : RegionSnapshot} {newNets : List NetId}

/-! Checked rows. -/

theorem settles_trivial {ε α : Type} (r : Except ε α) : Settles r (fun _ => True) fun _ => True := by
  cases r <;> exact trivial

theorem rowAt_settles {α : Type} (rows : List α) (i : Nat) :
    Settles (rowAt rows i) (fun row => rows[i]? = some row) fun _ => True := by
  rw [rowAt]
  cases h : rows[i]? with
  | some row => exact rfl
  | none => exact trivial

theorem modifyRow_settles {α : Type} (rows : List α) (i : Nat) (f : α → α) :
    Settles (modifyRow rows i f) (fun rows' => rows' = rows.modify i f) fun _ => True := by
  rw [modifyRow]
  split_ifs
  · exact rfl
  · exact trivial

theorem expectSome_settles {α : Type} (value : Option α) (message : String) :
    Settles (expectSome value message) (fun a => value = some a) fun _ => True := by
  cases value with
  | some a => exact rfl
  | none => exact trivial

theorem orPanic_settles {α : Type} {r : Except Panic α} {Q : α → Prop}
    (h : Settles r Q fun _ => True) : Settles (orPanic r) Q fun _ => True :=
  h.mapError fun _ _ => trivial

/-- A statement that rejects under a condition. -/
theorem check_settles {p : Prop} [Decidable p] {e : Stop} :
    Settles (if p then Except.error e else .ok ()) (fun _ : Unit => ¬p) fun _ => True := by
  split_ifs with h
  · exact trivial
  · exact h

/-! Snapshots. -/

/-- Every object of the snapshot is live in the snapshotted version. -/
structure Current (n : MappedNetlist) (snapshot : RegionSnapshot) : Prop where
  cells : ∀ entry ∈ snapshot.cells, ∃ slot, n.cells[entry.1]? = some slot ∧ slot.live = true ∧
    slot.version = entry.2
  nets : ∀ entry ∈ snapshot.nets, ∃ slot, n.nets[entry.1]? = some slot ∧ slot.live = true ∧
    slot.version = entry.2

theorem exists_of_not_all {α : Type} {row : Option α} {p q : α → Bool}
    (h : ¬(row.filter p).all q = true) : ∃ a, row = some a ∧ p a = true ∧ q a = false := by
  cases row with
  | none => exact absurd rfl h
  | some a =>
    cases hp : p a with
    | false => simp [Option.filter, hp] at h
    | true => exact ⟨a, rfl, hp, by simpa [Option.filter, hp] using h⟩

theorem checkSnapshot_settles (n : MappedNetlist) (snapshot : RegionSnapshot) :
    Settles (n.checkSnapshot snapshot) (fun _ => Current n snapshot) fun _ => True := by
  rw [MappedNetlist.checkSnapshot]
  split_ifs with hgeneration
  · exact trivial
  apply Settles.bind (Settles.forM fun entry _ => check_settles)
  intro _ hcells
  apply Settles.mono (Settles.forM fun entry _ => check_settles)
  intro _ hnets
  constructor
  · intro entry hentry
    obtain ⟨slot, hslot, hlive, hversion⟩ := exists_of_not_all (hcells entry hentry)
    exact ⟨slot, hslot, hlive, by simpa using hversion⟩
  · intro entry hentry
    obtain ⟨slot, hslot, hlive, hversion⟩ := exists_of_not_all (hnets entry hentry)
    exact ⟨slot, hslot, hlive, by simpa using hversion⟩

theorem Current.cell (h : Current n snapshot) {cell : CellId}
    (hcell : snapshot.containsCell cell = true) :
    ∃ slot, n.cells[cell]? = some slot ∧ slot.live = true := by
  obtain ⟨entry, hentry, he⟩ := List.any_eq_true.mp hcell
  obtain ⟨slot, hslot, hlive, -⟩ := h.cells entry hentry
  exact ⟨slot, of_decide_eq_true he ▸ hslot, hlive⟩

theorem Current.net (h : Current n snapshot) {net : NetId}
    (hnet : snapshot.containsNet net = true) :
    ∃ slot, n.nets[net]? = some slot ∧ slot.live = true := by
  obtain ⟨entry, hentry, he⟩ := List.any_eq_true.mp hnet
  obtain ⟨slot, hslot, hlive, -⟩ := h.nets entry hentry
  exact ⟨slot, of_decide_eq_true he ▸ hslot, hlive⟩

/-! Resolution. -/

def ResolvedOperation.newCell : ResolvedOperation → Option CellId
  | .addCell id _ _ => some id
  | _ => none

def ResolvedOperation.newPins : ResolvedOperation → Nat
  | .addCell _ _ connections => connections.length
  | _ => 0

/-- The pins of a new cell have the names its specification gives them. -/
def ResolvedOperation.PinNames : ResolvedOperation → Prop
  | .addCell _ spec connections => connections.map (·.1) = spec.connections.map (·.1)
  | _ => True

/-- New nets and cells get the slots after the old ones, in the order they are added. -/
structure Resolved (n : MappedNetlist) (r : ResolvedDelta) : Prop where
  nets : r.operations.filterMap ResolvedOperation.newNet =
    List.range' n.nets.length r.addedNets.length
  cells : r.operations.filterMap ResolvedOperation.newCell =
    List.range' n.cells.length r.addedCells.length
  pins : n.connections.length + (r.operations.map ResolvedOperation.newPins).sum ≤ U32_MAX
  pinNames : ∀ operation ∈ r.operations, operation.PinNames
  netCapacity : r.addedNets ≠ [] → n.nets.length + r.addedNets.length ≤ U32_MAX
  cellCapacity : r.addedCells ≠ [] → n.cells.length + r.addedCells.length ≤ U32_MAX

/-- The operations are the requested ones, with slots in the place of temporary identifiers. -/
structure Planned (n : MappedNetlist) (delta : RegionDelta) (r : ResolvedDelta) : Prop where
  netKeys : r.addedNets.map (·.1) = delta.operations.filterMap RegionOperation.tempNet
  netIds : r.addedNets.map (·.2) = List.range' n.nets.length r.addedNets.length
  operations : List.Forall₂ (fun operation resolved =>
    resolveOperation r.addedNets r.addedCells operation = .ok resolved) delta.operations r.operations

/-- The identifiers given so far follow the ones of a table of `length` slots. -/
structure Numbered {κ : Type} (length : Nat) (keys : List κ) (entries : List (κ × Nat)) : Prop where
  keys : entries.map (·.1) = keys
  ids : entries.map (·.2) = List.range' length entries.length
  capacity : entries ≠ [] → length + entries.length ≤ U32_MAX

theorem Numbered.concat {κ : Type} {length : Nat} {keys : List κ} {entries : List (κ × Nat)}
    (h : Numbered length keys entries) (id : κ) (hfits : length + entries.length + 1 ≤ U32_MAX) :
    Numbered length (keys ++ [id]) (entries ++ [(id, length + entries.length)]) where
  keys := by
    rw [List.map_append, h.keys]
    rfl
  ids := by
    rw [List.map_append, h.ids, List.length_append, List.length_singleton, List.range'_concat]
    simp
  capacity := by
    intro _
    rw [List.length_append, List.length_singleton, ← Nat.add_assoc]
    exact hfits

theorem idFromIndex_settles (kind : String) (index : Nat) : Settles (orConflict (idFromIndex kind index))
    (fun id => id = index ∧ index + 1 ≤ U32_MAX) fun _ => True := by
  rw [orConflict, idFromIndex]
  split_ifs with h
  · exact ⟨rfl, h⟩
  · exact trivial

theorem resolveIds_settles (n : MappedNetlist) (operations : List RegionOperation) :
    Settles (n.resolveIds operations) (fun ids =>
      Numbered n.nets.length (operations.filterMap RegionOperation.tempNet) ids.1 ∧
        Numbered n.cells.length (operations.filterMap RegionOperation.tempCell) ids.2) fun _ => True := by
  apply Settles.foldlM (fun (done : List RegionOperation)
    (ids : List (TempNetId × NetId) × List (TempCellId × CellId)) =>
      Numbered n.nets.length (done.filterMap RegionOperation.tempNet) ids.1 ∧
        Numbered n.cells.length (done.filterMap RegionOperation.tempCell) ids.2)
  · exact ⟨⟨rfl, rfl, nofun⟩, rfl, rfl, nofun⟩
  · rintro done operation _ ⟨nets, cells⟩ ⟨hn, hc⟩
    rw [List.filterMap_append, List.filterMap_append]
    cases operation with
    | addNet id name =>
      apply Settles.bind (idFromIndex_settles _ _)
      rintro _ ⟨rfl, hfits⟩
      refine ⟨hn.concat id hfits, ?_⟩
      rw [List.filterMap_cons_none rfl, List.filterMap_nil, List.append_nil]
      exact hc
    | addCell id spec =>
      apply Settles.bind (idFromIndex_settles _ _)
      rintro _ ⟨rfl, hfits⟩
      refine ⟨?_, hc.concat id hfits⟩
      rw [List.filterMap_cons_none rfl, List.filterMap_nil, List.append_nil]
      exact hn
    | _ =>
      rw [List.filterMap_cons_none rfl, List.filterMap_cons_none rfl, List.filterMap_nil,
        List.filterMap_nil, List.append_nil, List.append_nil]
      exact ⟨hn, hc⟩

theorem resolveOperation_settles (addedNets : List (TempNetId × NetId))
    (addedCells : List (TempCellId × CellId)) (operation : RegionOperation) :
    Settles (resolveOperation addedNets addedCells operation) (fun resolved =>
      resolved.newNet = (operation.tempNet.bind fun id => addedNets.lookup id) ∧
      resolved.newCell = (operation.tempCell.bind fun id => addedCells.lookup id) ∧
      resolved.newPins = MappedNetlist.addedPins operation ∧ resolved.PinNames) fun _ => True := by
  cases operation with
  | addNet id name =>
    apply Settles.bind (orPanic_settles (expectSome_settles _ _))
    intro final hfinal
    exact ⟨hfinal.symm, rfl, rfl, trivial⟩
  | addCell id spec =>
    apply Settles.bind (orPanic_settles (expectSome_settles _ _))
    intro final hfinal
    apply Settles.bind (Settles.mapM (R := fun x y => y.1 = x.1) fun x _ => by
      apply Settles.bind (settles_trivial _)
      exact fun _ _ => rfl)
    intro connections hall
    refine ⟨rfl, hfinal.symm, hall.length_eq.symm, ?_⟩
    exact map_forall₂ (fun _ _ he => he) hall
  | reconnectPin pin signal =>
    apply Settles.bind (settles_trivial _)
    exact fun _ _ => ⟨rfl, rfl, rfl, trivial⟩
  | _ => exact ⟨rfl, rfl, rfl, trivial⟩

theorem checkPinCapacity_settles (n : MappedNetlist) (operations : List RegionOperation) :
    Settles (n.checkPinCapacity operations) (fun _ => n.connections.length +
      (operations.map MappedNetlist.addedPins).sum ≤ U32_MAX) fun _ => True := by
  have hcount : Settles (operations.foldlM (fun count operation =>
      if count + MappedNetlist.addedPins operation ≤ USIZE_MAX then
        .ok (count + MappedNetlist.addedPins operation)
      else reject "mapped pin connection count overflow") 0)
      (fun count => count = (operations.map MappedNetlist.addedPins).sum) fun _ => True := by
    apply Settles.foldlM (fun (done : List RegionOperation) count =>
      count = (done.map MappedNetlist.addedPins).sum) rfl
    · rintro done operation _ _ rfl
      split_ifs
      · rw [List.map_append, List.sum_append]
        simp [Settles]
      · exact trivial
  rw [MappedNetlist.checkPinCapacity]
  apply Settles.bind hcount
  rintro _ rfl
  split_ifs with hcapacity
  any_goals exact trivial
  exact Nat.le_of_not_lt hcapacity

theorem resolveOperations_settles (n : MappedNetlist) (delta : RegionDelta) :
    Settles (n.resolveOperations delta.operations) (fun r => Resolved n r ∧ Planned n delta r)
      fun _ => True := by
  rw [MappedNetlist.resolveOperations]
  apply Settles.bind (resolveIds_settles n delta.operations)
  rintro ⟨addedNets, addedCells⟩ ⟨hn, hc⟩
  apply Settles.bind (checkPinCapacity_settles n delta.operations)
  intro _ hpins
  apply Settles.bind (Settles.mapM fun operation _ =>
    (resolveOperation_settles addedNets addedCells operation).self)
  intro operations hall
  have hnodup {κ : Type} (owner : Nat → κ) (howner : Function.Injective owner) (k : Nat) :
      ((List.range k).map owner).Nodup := List.nodup_range.map howner
  refine ⟨⟨?_, ?_, ?_, ?_, hn.capacity, hc.capacity⟩, hn.keys, hn.ids, hall.imp fun _ _ h => h.1⟩
  · have hkeys : (addedNets.map (·.1)).Nodup := by
      rw [hn.keys, delta.tempNets]
      exact hnodup _ (fun a b h => by injection h) _
    rw [filterMap_forall₂ (fun _ _ h => h.2.1) hall, ← hn.ids, ← filterMap_lookup hkeys, hn.keys,
      List.filterMap_filterMap]
  · have hkeys : (addedCells.map (·.1)).Nodup := by
      rw [hc.keys, delta.tempCells]
      exact hnodup _ (fun a b h => by injection h) _
    rw [filterMap_forall₂ (fun _ _ h => h.2.2.1) hall, ← hc.ids, ← filterMap_lookup hkeys, hc.keys,
      List.filterMap_filterMap]
  · rw [map_forall₂ (fun _ _ h => h.2.2.2.1) hall]
    exact hpins
  · intro operation hmem
    obtain ⟨_, _, hresolved⟩ := exists_of_mem_right hall hmem
    exact hresolved.2.2.2.2

/-! Validation of single operations. -/

theorem mem_insertKey {key k : Nat} {keys : List Nat} :
    k ∈ insertKey key keys ↔ k = key ∨ k ∈ keys := by
  rw [insertKey]
  split_ifs with hkey
  · exact ⟨.inr, fun h => h.elim (fun he => he ▸ hkey) id⟩
  · exact List.mem_orderedInsert _

theorem lookup_insertEntry {α : Type} (key k : Nat) (value : α) (entries : List (Nat × α)) :
    (insertEntry key value entries).lookup k = if k = key then some value else entries.lookup k := by
  rw [insertEntry, lookup_orderedInsert (by rw [lookup_filter_ne, if_pos rfl]), lookup_filter_ne]
  split_ifs <;> rfl

/-- A net is new, or live and in the snapshot. -/
def SignalKnown (n : MappedNetlist) (snapshot : RegionSnapshot) (newNets : List NetId) :
    ConnectionSignal → Prop
  | .constant _ => True
  | .net net => net ∈ newNets ∨ n.isLiveNet net = true ∧ snapshot.containsNet net = true

theorem validateSignal_settles (signal : ConnectionSignal) :
    Settles (validateSignal n snapshot newNets signal)
      (fun _ => SignalKnown n snapshot newNets signal) fun _ => True := by
  cases signal with
  | constant _ => exact trivial
  | net net =>
    rw [validateSignal]
    split_ifs with hnew hlive hsnapshot
    · exact .inl hnew
    · exact trivial
    · exact trivial
    · exact .inr ⟨by simpa using hlive, by simpa using hsnapshot⟩

def ResolvedOperation.writtenCell : ResolvedOperation → Option CellId
  | .removeCell cell | .replaceCell cell _ _ | .renameCell cell _ => some cell
  | _ => none

def ResolvedOperation.writtenNet : ResolvedOperation → Option NetId
  | .removeNet net | .renameNet net _ => some net
  | _ => none

def ResolvedOperation.reconnectedPin : ResolvedOperation → Option PinId
  | .reconnectPin pin _ => some pin
  | _ => none

/-- What an operation reads and writes is in the snapshot. -/
def OperationValid (n : MappedNetlist) (snapshot : RegionSnapshot) (newNets : List NetId) :
    ResolvedOperation → Prop
  | .addNet _ _ => True
  | .addCell _ _ connections => (connections.map (·.1)).Nodup ∧
      ∀ connection ∈ connections, SignalKnown n snapshot newNets connection.2.2
  | .removeCell cell => snapshot.containsCell cell = true ∧ ∃ connections,
      n.cellConnections cell = some connections ∧
      ∀ connection ∈ connections, SignalKnown n snapshot newNets connection.signal
  | .removeNet net | .renameNet net _ => snapshot.containsNet net = true
  | .reconnectPin pin signal => ∃ owner connection, n.pinOwner pin = some owner ∧
      snapshot.containsCell owner = true ∧ n.connections[pin]? = some connection ∧
      SignalKnown n snapshot newNets connection.signal ∧ SignalKnown n snapshot newNets signal
  | .replaceCell cell _ _ | .renameCell cell _ => snapshot.containsCell cell = true

theorem validateAddedCell_settles (spec : CellSpec)
    (connections : List (String × Option Nat × ConnectionSignal)) :
    Settles (validateAddedCell n snapshot spec connections newNets)
      (fun _ => (connections.map (·.1)).Nodup ∧
        ∀ connection ∈ connections, SignalKnown n snapshot newNets connection.2.2) fun _ => True := by
  have hloop : Settles (connections.foldlM (validatePin n snapshot newNets spec.name) [])
      (fun pins => (∀ pin, pin ∈ pins ↔ pin ∈ connections.map (·.1)) ∧ (connections.map (·.1)).Nodup ∧
        ∀ connection ∈ connections, SignalKnown n snapshot newNets connection.2.2) fun _ => True := by
    apply Settles.foldlM (fun (done : List (String × Option Nat × ConnectionSignal)) pins =>
      (∀ pin, pin ∈ pins ↔ pin ∈ done.map (·.1)) ∧ (done.map (·.1)).Nodup ∧
        ∀ connection ∈ done, SignalKnown n snapshot newNets connection.2.2)
    · exact ⟨fun pin => by simp, List.nodup_nil, nofun⟩
    · rintro done connection _ pins ⟨hpins, hnodup, hknown⟩
      rw [validatePin]
      split_ifs with hbad
      · exact trivial
      apply Settles.bind (validateSignal_settles connection.2.2)
      intro _ hsignal
      rw [not_or, hpins] at hbad
      rw [List.map_append]
      refine ⟨fun pin => ?_, ?_, fun c hc => ?_⟩
      · simp [hpins, or_comm]
      · exact List.nodup_append.mpr ⟨hnodup, List.nodup_singleton _, fun x hx y hy he =>
          hbad.2 (by
            have hy : y = connection.1 := List.mem_singleton.mp hy
            rw [← hy, ← he]
            exact hx)⟩
      · rcases List.mem_append.mp hc with hc | hc
        · exact hknown c hc
        · exact List.mem_singleton.mp hc ▸ hsignal
  rw [validateAddedCell]
  split_ifs
  · exact trivial
  · exact Settles.bind hloop fun _ h => h.2

/-- The record of the operations so far; each object and pin is written once. -/
structure Recorded (done : List ResolvedOperation) (v : OperationValidation) : Prop where
  removedCells : ∀ cell, cell ∈ v.removedCells ↔ .removeCell cell ∈ done
  removedNets : ∀ net, net ∈ v.removedNets ↔ .removeNet net ∈ done
  reconnected : ∀ pin signal, v.reconnected.lookup pin = some signal ↔ .reconnectPin pin signal ∈ done
  writtenCells : ∀ cell, cell ∈ v.writtenCells ↔ cell ∈ done.filterMap ResolvedOperation.writtenCell
  writtenNets : ∀ net, net ∈ v.writtenNets ↔ net ∈ done.filterMap ResolvedOperation.writtenNet
  cellsOnce : (done.filterMap ResolvedOperation.writtenCell).Nodup
  netsOnce : (done.filterMap ResolvedOperation.writtenNet).Nodup
  pinsOnce : (done.filterMap ResolvedOperation.reconnectedPin).Nodup

theorem requireSnapshotCell_settles (cell : CellId) (action : String) :
    Settles (requireSnapshotCell snapshot cell action)
      (fun _ => snapshot.containsCell cell = true) fun _ => True := by
  rw [requireSnapshotCell]
  split_ifs with h
  · exact h
  · exact trivial

theorem requireSnapshotNet_settles (net : NetId) (action : String) :
    Settles (requireSnapshotNet snapshot net action)
      (fun _ => snapshot.containsNet net = true) fun _ => True := by
  rw [requireSnapshotNet]
  split_ifs with h
  · exact h
  · exact trivial

theorem recordWrite_settles (written : List Nat) (object : Nat) (kind tag : String) :
    Settles (recordWrite written object kind tag)
      (fun written' => object ∉ written ∧ written' = insertKey object written) fun _ => True := by
  rw [recordWrite]
  split_ifs with h
  · exact trivial
  · exact ⟨h, rfl⟩

/-- The record after one more operation. -/
def OperationValidation.record (v : OperationValidation) (operation : ResolvedOperation) :
    OperationValidation :=
  let v := match operation with
    | .removeCell cell => { v with removedCells := insertKey cell v.removedCells }
    | .removeNet net => { v with removedNets := insertKey net v.removedNets }
    | .reconnectPin pin signal => { v with reconnected := insertEntry pin signal v.reconnected }
    | _ => v
  { v with
    writtenCells := (operation.writtenCell.map (insertKey · v.writtenCells)).getD v.writtenCells
    writtenNets := (operation.writtenNet.map (insertKey · v.writtenNets)).getD v.writtenNets }

/-- Nothing the operation writes was written before. -/
structure Fresh (v : OperationValidation) (operation : ResolvedOperation) : Prop where
  cell : ∀ cell, operation.writtenCell = some cell → cell ∉ v.writtenCells
  net : ∀ net, operation.writtenNet = some net → net ∉ v.writtenNets
  pin : ∀ pin, operation.reconnectedPin = some pin → v.reconnected.lookup pin = none

theorem nodup_filterMap_concat {α β : Type} {f : α → Option β} {done : List α} {x : α}
    (h : (done.filterMap f).Nodup) (hx : ∀ i, f x = some i → i ∉ done.filterMap f) :
    ((done ++ [x]).filterMap f).Nodup := by
  rw [List.filterMap_append, List.filterMap_cons]
  cases hf : f x with
  | none => rw [List.filterMap_nil, List.append_nil]; exact h
  | some i =>
    refine List.nodup_append.mpr ⟨h, List.nodup_singleton i, fun j hj k hk he => hx i hf ?_⟩
    rw [← List.mem_singleton.mp hk, ← he]
    exact hj

theorem Recorded.concat {done : List ResolvedOperation} {v : OperationValidation} (h : Recorded done v)
    {operation : ResolvedOperation} (hfresh : Fresh v operation) :
    Recorded (done ++ [operation]) (v.record operation) where
  removedCells cell := by
    cases operation <;> simp [OperationValidation.record, h.removedCells, mem_insertKey, or_comm]
  removedNets net := by
    cases operation <;> simp [OperationValidation.record, h.removedNets, mem_insertKey, or_comm]
  reconnected pin signal := by
    cases operation with
    | reconnectPin p s =>
      have hnone := hfresh.pin p rfl
      simp only [OperationValidation.record, lookup_insertEntry, List.mem_append, List.mem_singleton,
        ResolvedOperation.reconnectPin.injEq, ← h.reconnected]
      split_ifs with hp
      · subst hp
        rw [hnone]
        simp [eq_comm]
      · simp [hp]
    | _ => simp [OperationValidation.record, h.reconnected]
  writtenCells cell := by
    rw [List.filterMap_append, List.mem_append, ← h.writtenCells]
    cases operation <;>
      simp [OperationValidation.record, ResolvedOperation.writtenCell, mem_insertKey, or_comm]
  writtenNets net := by
    rw [List.filterMap_append, List.mem_append, ← h.writtenNets]
    cases operation <;>
      simp [OperationValidation.record, ResolvedOperation.writtenNet, mem_insertKey, or_comm]
  cellsOnce := nodup_filterMap_concat h.cellsOnce fun cell hc =>
    (h.writtenCells cell).not.mp (hfresh.cell cell hc)
  netsOnce := nodup_filterMap_concat h.netsOnce fun net hn =>
    (h.writtenNets net).not.mp (hfresh.net net hn)
  pinsOnce := by
    apply nodup_filterMap_concat h.pinsOnce
    intro pin hpin hmem
    obtain ⟨operation', hmem, hp⟩ := List.mem_filterMap.mp hmem
    cases operation' with
    | reconnectPin p s =>
      cases hp
      have hsome := (h.reconnected pin s).mpr hmem
      rw [hfresh.pin pin hpin] at hsome
      cases hsome
    | _ => cases hp

theorem writeCell_settles (v : OperationValidation) (cell : CellId) :
    Settles (v.writeCell snapshot cell) (fun v' => (cell ∉ v.writtenCells ∧
      v' = { v with writtenCells := insertKey cell v.writtenCells }) ∧
      snapshot.containsCell cell = true) fun _ => True := by
  apply Settles.bind (requireSnapshotCell_settles cell "writes")
  intro _ hcell
  apply Settles.bind (recordWrite_settles v.writtenCells cell "cell" "CellId")
  rintro _ ⟨hnew, rfl⟩
  exact ⟨⟨hnew, rfl⟩, hcell⟩

theorem writeNet_settles (v : OperationValidation) (net : NetId) (action : String) :
    Settles (v.writeNet snapshot net action) (fun v' => (net ∉ v.writtenNets ∧
      v' = { v with writtenNets := insertKey net v.writtenNets }) ∧
      snapshot.containsNet net = true) fun _ => True := by
  apply Settles.bind (requireSnapshotNet_settles net action)
  intro _ hnet
  apply Settles.bind (recordWrite_settles v.writtenNets net "net" "NetId")
  rintro _ ⟨hnew, rfl⟩
  exact ⟨⟨hnew, rfl⟩, hnet⟩

theorem validateReconnection_settles (v : OperationValidation) (pin : PinId) (signal : ConnectionSignal) :
    Settles (v.validateReconnection n snapshot pin signal newNets) (fun v' =>
      (v.reconnected.lookup pin = none ∧
        v' = { v with reconnected := insertEntry pin signal v.reconnected }) ∧
      OperationValid n snapshot newNets (.reconnectPin pin signal)) fun _ => True := by
  rw [OperationValidation.validateReconnection]
  cases howner : n.pinOwner pin with
  | none => exact trivial
  | some owner =>
    dsimp only
    split_ifs with hcell
    any_goals exact trivial
    have hpin : v.reconnected.lookup pin = none :=
      Option.not_isSome_iff_eq_none.mp ‹¬(v.reconnected.lookup pin).isSome = true›
    apply Settles.bind (orPanic_settles (expectSome_settles _ _))
    intro old hold
    apply Settles.bind (validateSignal_settles old.signal)
    intro _ hsource
    apply Settles.bind (validateSignal_settles signal)
    intro _ htarget
    obtain ⟨_, _, hold⟩ := Option.bind_eq_some_iff.mp hold
    exact ⟨⟨hpin, rfl⟩, owner, old, howner, by simpa using hcell, hold, hsource, htarget⟩

theorem validateOperation_settles (v : OperationValidation) (operation : ResolvedOperation) :
    Settles (v.validateOperation n snapshot newNets operation) (fun v' =>
      (v' = v.record operation ∧ Fresh v operation) ∧ OperationValid n snapshot newNets operation)
      fun _ => True := by
  cases operation with
  | addNet id name => exact ⟨⟨rfl, nofun, nofun, nofun⟩, trivial⟩
  | addCell id spec connections =>
    apply Settles.bind (validateAddedCell_settles spec connections)
    exact fun _ h => ⟨⟨rfl, nofun, nofun, nofun⟩, h⟩
  | removeCell cell =>
    simp only [OperationValidation.validateOperation, OperationValidation.validateRemovedCell]
    apply Settles.bind (requireSnapshotCell_settles cell "removes")
    intro _ hcell
    cases hconnections : n.cellConnections cell with
    | none => exact trivial
    | some connections =>
      apply Settles.bind (Settles.forM fun connection _ => validateSignal_settles connection.signal)
      intro _ hknown
      apply Settles.bind (recordWrite_settles v.writtenCells cell "cell" "CellId")
      rintro _ ⟨hnew, rfl⟩
      refine ⟨⟨rfl, ?_, nofun, nofun⟩, hcell, connections, hconnections, hknown⟩
      rintro _ ⟨⟩
      exact hnew
  | removeNet net =>
    apply Settles.bind (writeNet_settles v net "removes")
    rintro _ ⟨⟨hnew, rfl⟩, hnet⟩
    refine ⟨⟨rfl, nofun, ?_, nofun⟩, hnet⟩
    rintro _ ⟨⟩
    exact hnew
  | reconnectPin pin signal =>
    apply Settles.mono (validateReconnection_settles v pin signal)
    rintro _ ⟨⟨hnew, rfl⟩, hvalid⟩
    refine ⟨⟨rfl, nofun, nofun, ?_⟩, hvalid⟩
    rintro _ ⟨⟩
    exact hnew
  | replaceCell cell _ _ | renameCell cell _ =>
    apply Settles.mono (writeCell_settles v cell)
    rintro _ ⟨⟨hnew, rfl⟩, hcell⟩
    refine ⟨⟨rfl, ?_, nofun, nofun⟩, hcell⟩
    rintro _ ⟨⟩
    exact hnew
  | renameNet net name =>
    apply Settles.mono (writeNet_settles v net "writes")
    rintro _ ⟨⟨hnew, rfl⟩, hnet⟩
    refine ⟨⟨rfl, nofun, ?_, nofun⟩, hnet⟩
    rintro _ ⟨⟩
    exact hnew

theorem validateEach_settles (operations : List ResolvedOperation) :
    Settles (operations.foldlM (fun (v : OperationValidation) operation =>
        v.validateOperation n snapshot newNets operation) {})
      (fun v => Recorded operations v ∧
        ∀ operation ∈ operations, OperationValid n snapshot newNets operation) fun _ => True := by
  apply Settles.foldlM (fun done v => Recorded done v ∧
    ∀ operation ∈ done, OperationValid n snapshot newNets operation)
  · refine ⟨⟨?_, ?_, ?_, ?_, ?_, List.nodup_nil, List.nodup_nil, List.nodup_nil⟩, nofun⟩
    all_goals intros; simp
  · rintro done operation _ v ⟨hrecorded, hvalid⟩
    apply Settles.mono (validateOperation_settles v operation)
    rintro _ ⟨⟨rfl, hfresh⟩, hoperation⟩
    refine ⟨hrecorded.concat hfresh, fun o ho => ?_⟩
    rcases List.mem_append.mp ho with ho | ho
    · exact hvalid o ho
    · rw [List.mem_singleton.mp ho]
      exact hoperation

/-! Names of cells. -/

/-- The cell a renaming gives another name to. -/
def renamedCell (n : MappedNetlist) : ResolvedOperation → Option CellId
  | .renameCell cell name =>
    if (n.cells[cell]?.bind fun slot => n.names.resolve slot.cell.name) = some name then none
    else some cell
  | _ => none

/-- The name an operation gives to a cell that did not have it. -/
def futureName (n : MappedNetlist) : ResolvedOperation → Option String
  | .addCell _ spec _ => some spec.name
  | .renameCell cell name => (renamedCell n (.renameCell cell name)).map fun _ => name
  | _ => none

/-- The name of a cell that is removed or renamed. -/
def Released (n : MappedNetlist) (operations : List ResolvedOperation) (id : NameId) : Prop :=
  ∃ (cell : CellId) (slot : CellSlot),
    (.removeCell cell ∈ operations ∨ cell ∈ operations.filterMap (renamedCell n)) ∧
      n.cells[cell]? = some slot ∧ slot.cell.name = id

/-- The name of a cell or of a retained occurrence that keeps it. -/
def Kept (n : MappedNetlist) (operations : List ResolvedOperation) (id : NameId) : Prop :=
  (∃ (cell : CellId) (slot : CellSlot), n.cells[cell]? = some slot ∧ slot.live = true ∧
    .removeCell cell ∉ operations ∧ cell ∉ operations.filterMap (renamedCell n) ∧
      slot.cell.name = id) ∨ ∃ instance' ∈ n.designInstances, instance'.name = id

/-- The delta gives no name twice, and none that is kept. -/
structure NamesFree (n : MappedNetlist) (operations : List ResolvedOperation) : Prop where
  once : (operations.filterMap (futureName n)).Nodup
  free : ∀ name ∈ operations.filterMap (futureName n), ∀ id, n.names.get name = some id →
    Released n operations id ∨ ¬Kept n operations id

structure NamesVisited (n : MappedNetlist) (released : List NameId) (done : List ResolvedOperation)
    (names : CellNames) : Prop where
  future : ∀ name, name ∈ names.future ↔ name ∈ done.filterMap (futureName n)
  once : (done.filterMap (futureName n)).Nodup
  renamed : ∀ cell, cell ∈ names.renamed ↔ cell ∈ done.filterMap (renamedCell n)
  released : ∀ id ∈ names.released, id ∈ released ∨ ∃ (cell : CellId) (slot : CellSlot),
    cell ∈ done.filterMap (renamedCell n) ∧ n.cells[cell]? = some slot ∧ slot.cell.name = id

theorem assign_settles (names : CellNames) (name : String) :
    Settles (names.assign name) (fun names' => name ∉ names.future ∧
      names' = { names with future := names.future.orderedInsert (· ≤ ·) name }) fun _ => True := by
  rw [CellNames.assign]
  split_ifs with hempty hused
  · exact trivial
  · exact trivial
  · exact ⟨hused, rfl⟩

theorem visit_settles {released : List NameId} {done : List ResolvedOperation} {names : CellNames}
    (h : NamesVisited n released done names) (operation : ResolvedOperation) :
    Settles (names.visit n operation) (NamesVisited n released (done ++ [operation])) fun _ => True := by
  have quiet (hfuture : futureName n operation = none) (hrenamed : renamedCell n operation = none) :
      NamesVisited n released (done ++ [operation]) names := by
    refine ⟨?_, ?_, ?_, ?_⟩ <;>
      simp only [List.filterMap_append, List.filterMap_cons, hfuture, hrenamed, List.filterMap_nil,
        List.append_nil]
    exacts [h.future, h.once, h.renamed, h.released]
  cases operation with
  | addCell id spec connections =>
    apply Settles.mono (assign_settles names spec.name)
    rintro _ ⟨hnew, rfl⟩
    refine ⟨fun name => ?_, ?_, fun cell => ?_, fun id hid => ?_⟩
    · rw [List.mem_orderedInsert, h.future, List.filterMap_append, List.mem_append, or_comm]
      simp [futureName]
    · apply nodup_filterMap_concat h.once
      rintro _ ⟨⟩
      exact (h.future _).not.mp hnew
    · rw [h.renamed, List.filterMap_append]
      simp [renamedCell]
    · rw [List.filterMap_append]
      simpa [renamedCell] using h.released id hid
  | renameCell cell name =>
    apply Settles.bind (orPanic_settles (rowAt_settles n.cells cell))
    intro slot hslot
    cases hold : n.names.resolve slot.cell.name with
    | none => exact trivial
    | some oldName =>
      dsimp only
      split_ifs with hsame
      · have hrenamed : renamedCell n (.renameCell cell name) = none := by
          rw [renamedCell, hslot, Option.bind_some, hold, if_pos (congrArg some hsame)]
        exact quiet (by rw [futureName, hrenamed]; rfl) hrenamed
      · have hrenamed : renamedCell n (.renameCell cell name) = some cell := by
          rw [renamedCell, hslot, Option.bind_some, hold, if_neg fun he => hsame (Option.some.inj he)]
        have hfuture : futureName n (.renameCell cell name) = some name := by
          rw [futureName, hrenamed]
          rfl
        apply Settles.mono (assign_settles _ name)
        rintro _ ⟨hnew, rfl⟩
        refine ⟨fun other => ?_, ?_, fun other => ?_, fun id hid => ?_⟩
        · rw [List.mem_orderedInsert, h.future, List.filterMap_append, List.mem_append, or_comm]
          simp [hfuture]
        · apply nodup_filterMap_concat h.once
          intro other hother
          cases hfuture.symm.trans hother
          exact (h.future name).not.mp hnew
        · rw [mem_insertKey, h.renamed, List.filterMap_append, List.mem_append, or_comm]
          simp [hrenamed]
        · rw [List.filterMap_append]
          rcases mem_insertKey.mp hid with rfl | hid
          · exact .inr ⟨cell, slot, List.mem_append_right _ (by simp [hrenamed]), hslot, rfl⟩
          · rcases h.released id hid with hid | ⟨c, s, hc, hs⟩
            · exact .inl hid
            · exact .inr ⟨c, s, List.mem_append_left _ hc, hs⟩
  | _ => exact quiet rfl rfl

theorem validateCellNames_settles {v : OperationValidation} {operations : List ResolvedOperation}
    (h : Recorded operations v) : Settles (v.validateCellNames n operations)
      (fun _ => NamesFree n operations) fun _ => True := by
  rw [OperationValidation.validateCellNames]
  apply Settles.bind (Settles.mapM (R := fun cell id => ∃ slot, n.cells[cell]? = some slot ∧
    slot.cell.name = id) fun cell _ => by
      apply Settles.bind (orPanic_settles (rowAt_settles n.cells cell))
      exact fun slot hslot => ⟨slot, hslot, rfl⟩)
  intro released hreleased
  apply Settles.bind (Settles.foldlM (NamesVisited n released) ?_ fun done operation _ names hn =>
    visit_settles hn operation)
  · intro names hnames
    have hpublic : ∀ id ∈ names.released, Released n operations id := by
      intro id hid
      rcases hnames.released id hid with hid | ⟨cell, slot, hcell, hslot⟩
      · obtain ⟨cell, hcell, slot, hslot⟩ := exists_of_mem_right hreleased hid
        exact ⟨cell, slot, .inl ((h.removedCells cell).mp hcell), hslot⟩
      · exact ⟨cell, slot, .inr hcell, hslot⟩
    have hinterned : ∀ name ∈ operations.filterMap (futureName n), ∀ id, n.names.get name = some id →
        (name, id) ∈ names.future.filterMap fun name => (n.names.get name).map (name, ·) := by
      intro name hname id hid
      exact List.mem_filterMap.mpr ⟨name, (hnames.future name).mpr hname, by rw [hid]; rfl⟩
    dsimp only
    split_ifs with hunreleased
    · apply Settles.mono (Settles.forM fun entry _ => check_settles)
      intro _ hfree
      refine ⟨hnames.once, fun name hname id hid => .inr fun hkept => ?_⟩
      apply hfree (name, id) (hinterned name hname id hid)
      rcases hkept with ⟨cell, slot, hslot, hlive, hcell, hrenamed, rfl⟩ | ⟨instance', hmem, rfl⟩
      · apply List.mem_append_left
        refine List.mem_filterMap.mpr ⟨cell, ?_, by rw [hslot]; rfl⟩
        rw [List.mem_filter, MappedNetlist.cellIds, List.mem_filter, List.mem_range]
        refine ⟨⟨(List.getElem?_eq_some_iff.mp hslot).1, by rw [hslot]; exact hlive⟩, ?_⟩
        rw [decide_eq_true_eq, h.removedCells, hnames.renamed]
        exact ⟨hcell, hrenamed⟩
      · exact List.mem_append_right _ (List.mem_map_of_mem hmem)
    · refine ⟨hnames.once, fun name hname id hid => .inl (hpublic id ?_)⟩
      by_contra hnot
      exact hunreleased (List.any_eq_true.mpr ⟨(name, id), hinterned name hname id hid, by simpa⟩)
  · exact ⟨fun name => by simp, List.nodup_nil, fun cell => by simp, fun id hid => .inl hid⟩

/-! Removed nets. -/

/-- Nothing keeps a reference to a net that is removed. -/
def NetsFree (n : MappedNetlist) (operations : List ResolvedOperation) : Prop :=
  ∀ net, .removeNet net ∈ operations → n.isExternalNet net = false ∧
    (∃ pins, n.pinsOnNet net = some pins ∧ ∀ pin ∈ pins, ∃ owner, n.pinOwner pin = some owner ∧
      (.removeCell owner ∈ operations ∨
        ∃ signal, signal ≠ .net net ∧ (.reconnectPin pin signal ∈ operations ∨
          (∃ connection, n.connections[pin]? = some connection ∧ connection.signal = signal)))) ∧
    ∀ id spec connections, .addCell id spec connections ∈ operations →
      ∀ connection ∈ connections, connection.2.2 ≠ .net net

theorem validateRemovedPin_settles {v : OperationValidation} {operations : List ResolvedOperation}
    (h : Recorded operations v) (net : NetId) (pin : PinId) :
    Settles (v.validateRemovedPin n net pin) (fun _ => ∃ owner, n.pinOwner pin = some owner ∧
      (.removeCell owner ∈ operations ∨
        ∃ signal, signal ≠ .net net ∧ (.reconnectPin pin signal ∈ operations ∨
          (∃ connection, n.connections[pin]? = some connection ∧ connection.signal = signal))))
      fun _ => True := by
  apply Settles.bind (orPanic_settles (expectSome_settles _ _))
  intro owner howner
  split_ifs with hremoved
  · exact ⟨owner, howner, .inl ((h.removedCells owner).mp hremoved)⟩
  apply Settles.bind (orPanic_settles (rowAt_settles _ _))
  intro connection hconnection
  split_ifs with hsignal
  · exact trivial
  refine ⟨owner, howner, .inr ⟨_, hsignal, ?_⟩⟩
  cases hlookup : v.reconnected.lookup pin with
  | some signal => exact .inl ((h.reconnected pin signal).mp hlookup)
  | none => exact .inr ⟨connection, hconnection, rfl⟩

theorem validateRemovedNets_settles {v : OperationValidation} {operations : List ResolvedOperation}
    (h : Recorded operations v) :
    Settles (v.validateRemovedNets n operations) (fun _ => NetsFree n operations) fun _ => True := by
  apply Settles.mono (Settles.forM (P := fun net => n.isExternalNet net = false ∧
    (∃ pins, n.pinsOnNet net = some pins ∧ ∀ pin ∈ pins, ∃ owner, n.pinOwner pin = some owner ∧
      (.removeCell owner ∈ operations ∨
        ∃ signal, signal ≠ .net net ∧ (.reconnectPin pin signal ∈ operations ∨
          (∃ connection, n.connections[pin]? = some connection ∧ connection.signal = signal)))) ∧
    ∀ id spec connections, .addCell id spec connections ∈ operations →
      ∀ connection ∈ connections, connection.2.2 ≠ .net net) fun net _ => ?_)
  · exact fun _ hall net hnet => hall net ((h.removedNets net).mpr hnet)
  · split_ifs with hexternal
    · exact trivial
    apply Settles.bind (orPanic_settles (expectSome_settles _ _))
    intro pins hpins
    apply Settles.bind (Settles.forM fun pin _ => validateRemovedPin_settles h net pin)
    intro _ hfree
    apply Settles.mono (Settles.forM (P := fun operation => ∀ id spec connections,
      operation = .addCell id spec connections →
        ∀ connection ∈ connections, connection.2.2 ≠ .net net) fun operation _ => ?_)
    · exact fun _ hadded => ⟨by simpa using hexternal, ⟨pins, hpins, hfree⟩,
        fun id spec connections hmem => hadded _ hmem id spec connections rfl⟩
    · cases operation with
      | addCell id spec connections =>
        dsimp only
        split_ifs with hany
        · exact trivial
        · rintro _ _ _ ⟨⟩ connection hmem he
          exact hany (List.any_eq_true.mpr ⟨connection, hmem, decide_eq_true he⟩)
      | _ => exact fun _ _ _ he => by cases he

/-! The whole preparation. -/

/-- What the checks establish about a prepared delta. -/
structure Prepared (n : MappedNetlist) (delta : RegionDelta) (p : PreparedDelta) : Prop where
  unpublished : n.published = false
  current : Current n delta.snapshot
  resolved : Resolved n p.resolved
  planned : Planned n delta p.resolved
  valid : ∀ operation ∈ p.resolved.operations, OperationValid n delta.snapshot
    (p.resolved.operations.filterMap ResolvedOperation.newNet) operation
  cellsOnce : (p.resolved.operations.filterMap ResolvedOperation.writtenCell).Nodup
  netsOnce : (p.resolved.operations.filterMap ResolvedOperation.writtenNet).Nodup
  pinsOnce : (p.resolved.operations.filterMap ResolvedOperation.reconnectedPin).Nodup
  names : NamesFree n p.resolved.operations
  nets : NetsFree n p.resolved.operations
  netCount : p.netCount + p.resolved.operations.countP ResolvedOperation.removesNet =
    n.liveNetCount + p.resolved.addedNets.length
  cellCount : p.cellCount + p.resolved.operations.countP ResolvedOperation.removesCell =
    n.liveCellCount + p.resolved.addedCells.length
  revision : p.revision = n.editRevision + 1

theorem validateOperations_settles (n : MappedNetlist) (snapshot : RegionSnapshot)
    (operations : List ResolvedOperation) :
    Settles (n.validateOperations snapshot operations) (fun _ =>
      (∀ operation ∈ operations, OperationValid n snapshot
        (operations.filterMap ResolvedOperation.newNet) operation) ∧
      ((operations.filterMap ResolvedOperation.writtenCell).Nodup ∧
        (operations.filterMap ResolvedOperation.writtenNet).Nodup ∧
        (operations.filterMap ResolvedOperation.reconnectedPin).Nodup) ∧
      NamesFree n operations ∧ NetsFree n operations) fun _ => True := by
  apply Settles.bind (validateEach_settles operations)
  rintro v ⟨hrecorded, hvalid⟩
  apply Settles.bind (validateCellNames_settles hrecorded)
  intro _ hnames
  apply Settles.mono (validateRemovedNets_settles hrecorded)
  exact fun _ hnets =>
    ⟨hvalid, ⟨hrecorded.cellsOnce, hrecorded.netsOnce, hrecorded.pinsOnce⟩, hnames, hnets⟩

theorem updatedLiveCount_settles (current removed added : Nat) (resource : String) :
    Settles (updatedLiveCount current removed added resource)
      (fun count => count + removed = current + added) fun _ => True := by
  rw [updatedLiveCount]
  split_ifs with h
  · change current - removed + added + removed = current + added
    omega
  · exact trivial

theorem prepare_settles (n : MappedNetlist) (delta : RegionDelta) :
    Settles (n.prepare delta) (Prepared n delta) fun _ => True := by
  rw [MappedNetlist.prepare]
  by_cases hpublished : n.published = true
  · rw [if_pos hpublished]
    exact trivial
  rw [if_neg hpublished]
  apply Settles.bind (checkSnapshot_settles n delta.snapshot)
  intro _ hcurrent
  apply Settles.bind (resolveOperations_settles n delta)
  rintro resolved ⟨hresolved, hplanned⟩
  apply Settles.bind (validateOperations_settles n delta.snapshot resolved.operations)
  rintro _ ⟨hvalid, ⟨hcells, hnets, hpins⟩, hnames, hremoved⟩
  apply Settles.bind (updatedLiveCount_settles _ _ _ _)
  intro netCount hnetCount
  apply Settles.bind (updatedLiveCount_settles _ _ _ _)
  intro cellCount hcellCount
  split_ifs
  · exact trivial
  · exact ⟨by simpa using hpublished, hcurrent, hresolved, hplanned, hvalid, hcells, hnets, hpins, hnames,
      hremoved, hnetCount, hcellCount, rfl⟩

end Opto.Mapped
