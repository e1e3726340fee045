import Opto.Mapped.Staleness

/-!
# Rejected deltas

The checks read the netlist through indices they have established before, so on
a wired netlist they end in a conflict or pass; they do not panic.
-/

namespace Opto.Mapped

def Stop.Conflicts (stop : Stop) : Prop := ∃ conflict, stop = .conflict conflict

/-- A check that passes or ends in a conflict. -/
def Rejects {α : Type} (r : Except Stop α) : Prop := Settles r (fun _ => True) Stop.Conflicts

namespace Rejects

variable {α β : Type} {r : Except Stop α}

theorem ok (a : α) : Rejects (.ok a : Except Stop α) := trivial

theorem conflict (conflict : RegionConflict) : Rejects (.error (.conflict conflict) : Except Stop α) :=
  ⟨conflict, rfl⟩

theorem reject (message : String) : Rejects (reject message : Except Stop α) := conflict _

theorem bind {k : α → Except Stop β} {Q : α → Prop} (h : Rejects r) (hq : Settles r Q fun _ => True)
    (hk : ∀ a, Q a → Rejects (k a)) : Rejects (r >>= k) :=
  Settles.bind (h.andOk hq) fun a ha => hk a ha.2

theorem andThen {k : α → Except Stop β} (h : Rejects r) (hk : ∀ a, Rejects (k a)) : Rejects (r >>= k) :=
  h.bind (settles_trivial r) fun a _ => hk a

theorem check {p : Prop} [Decidable p] {e : RegionConflict} :
    Rejects (if p then .error (.conflict e) else .ok ()) := by
  split_ifs
  · exact conflict e
  · exact ok ()

theorem checked {p : Prop} [Decidable p] {e : RegionConflict} {k : Except Stop β} (h : ¬p → Rejects k) :
    Rejects (if p then .error (.conflict e) else k) := by
  split_ifs with hp
  · exact conflict e
  · exact h hp

theorem forM {f : α → Except Stop PUnit} {xs : List α} (h : ∀ x ∈ xs, Rejects (f x)) :
    Rejects (xs.forM f) := Settles.mono (Settles.forM h) fun _ _ => trivial

theorem mapM {f : α → Except Stop β} {xs : List α} (h : ∀ x ∈ xs, Rejects (f x)) :
    Rejects (xs.mapM f) := Settles.mono (Settles.mapM (R := fun _ _ => True) h) fun _ _ => trivial

theorem foldlM {f : β → α → Except Stop β} {xs : List α} {b : β} (h : ∀ x ∈ xs, ∀ b, Rejects (f b x)) :
    Rejects (xs.foldlM f b) :=
  Settles.foldlM (fun _ _ => True) trivial fun _ x hx b _ => h x hx b

theorem some {value : Option α} (h : value.isSome) (message : String) :
    Rejects (orPanic (expectSome value message)) := by
  obtain ⟨a, rfl⟩ := Option.isSome_iff_exists.mp h
  exact trivial

theorem row {rows : List α} {i : Nat} (h : i < rows.length) : Rejects (orPanic (rowAt rows i)) := by
  rw [rowAt_lt h]
  exact trivial

end Rejects

/-! Snapshots and resolution. -/

theorem checkSnapshot_rejects (n : MappedNetlist) (snapshot : RegionSnapshot) :
    Rejects (n.checkSnapshot snapshot) := by
  rw [MappedNetlist.checkSnapshot]
  apply Rejects.checked
  intro _
  exact (Rejects.forM fun _ _ => .check).andThen fun _ => Rejects.forM fun _ _ => .check

theorem resolveIds_rejects (n : MappedNetlist) (operations : List RegionOperation) :
    Rejects (n.resolveIds operations) := by
  have fromIndex (kind : String) (index : Nat) : Rejects (orConflict (idFromIndex kind index)) := by
    rw [orConflict, idFromIndex]
    split_ifs
    · exact trivial
    · exact ⟨_, rfl⟩
  apply Rejects.foldlM
  intro operation _ ids
  cases operation with
  | addNet id name => exact (fromIndex _ _).andThen fun _ => .ok _
  | addCell id spec => exact (fromIndex _ _).andThen fun _ => .ok _
  | _ => exact .ok _

theorem checkPinCapacity_rejects (n : MappedNetlist) (operations : List RegionOperation) :
    Rejects (n.checkPinCapacity operations) := by
  rw [MappedNetlist.checkPinCapacity]
  apply Rejects.andThen
  · apply Rejects.foldlM
    intro operation _ count
    split_ifs
    · exact .ok _
    · exact .reject _
  · intro count
    apply Rejects.checked
    intro _
    exact .check

theorem resolveSignal_rejects (addedNets : List (TempNetId × NetId)) (signal : ConnectionRef) :
    Rejects (resolveSignal addedNets signal) := by
  cases signal with
  | net _ | constant _ => exact .ok _
  | newNet id =>
    rw [resolveSignal]
    cases addedNets.lookup id with
    | some _ => exact .ok _
    | none => exact .reject _

theorem isSome_lookup_of_mem {κ α : Type} [DecidableEq κ] {entries : List (κ × α)} {key : κ}
    (h : key ∈ entries.map (·.1)) : (entries.lookup key).isSome := by
  induction entries with
  | nil => cases h
  | cons entry entries ih =>
    obtain ⟨k, x⟩ := entry
    rw [lookup_cons]
    split_ifs with hk
    · rfl
    · exact ih ((List.mem_cons.mp h).resolve_left hk)

theorem resolveOperation_rejects {addedNets : List (TempNetId × NetId)}
    {addedCells : List (TempCellId × CellId)} {operation : RegionOperation}
    (hnet : ∀ id, operation.tempNet = some id → (addedNets.lookup id).isSome)
    (hcell : ∀ id, operation.tempCell = some id → (addedCells.lookup id).isSome) :
    Rejects (resolveOperation addedNets addedCells operation) := by
  cases operation with
  | addNet id name => exact (Rejects.some (hnet id rfl) _).andThen fun _ => .ok _
  | addCell id spec =>
    apply (Rejects.some (hcell id rfl) _).andThen
    intro _
    apply Rejects.andThen
    · exact Rejects.mapM fun connection _ => (resolveSignal_rejects _ _).andThen fun _ => .ok _
    · exact fun _ => .ok _
  | reconnectPin pin signal => exact (resolveSignal_rejects _ _).andThen fun _ => .ok _
  | _ => exact .ok _

theorem resolveOperations_rejects (n : MappedNetlist) (operations : List RegionOperation) :
    Rejects (n.resolveOperations operations) := by
  rw [MappedNetlist.resolveOperations]
  apply (resolveIds_rejects n operations).bind (resolveIds_settles n operations)
  rintro ⟨addedNets, addedCells⟩ ⟨hn, hc⟩
  apply (checkPinCapacity_rejects n operations).andThen
  intro _
  apply Rejects.andThen
  · apply Rejects.mapM
    intro operation hmem
    apply resolveOperation_rejects
    · intro id hid
      apply isSome_lookup_of_mem
      rw [hn.keys]
      exact List.mem_filterMap.mpr ⟨operation, hmem, hid⟩
    · intro id hid
      apply isSome_lookup_of_mem
      rw [hc.keys]
      exact List.mem_filterMap.mpr ⟨operation, hmem, hid⟩
  · exact fun _ => .ok _

/-! Validation. -/

variable {n : MappedNetlist} {rows : Rows} {snapshot : RegionSnapshot} {newNets : List NetId}

theorem validateSignal_rejects (signal : ConnectionSignal) :
    Rejects (validateSignal n snapshot newNets signal) := by
  cases signal with
  | constant _ => exact .ok _
  | net net =>
    rw [validateSignal]
    split_ifs
    · exact .ok _
    · exact .reject _
    · exact .reject _
    · exact .ok _

theorem requireSnapshotCell_rejects (cell : CellId) (action : String) :
    Rejects (requireSnapshotCell snapshot cell action) := by
  rw [requireSnapshotCell]
  split_ifs
  · exact .ok _
  · exact .reject _

theorem requireSnapshotNet_rejects (net : NetId) (action : String) :
    Rejects (requireSnapshotNet snapshot net action) := by
  rw [requireSnapshotNet]
  split_ifs
  · exact .ok _
  · exact .reject _

theorem recordWrite_rejects (written : List Nat) (object : Nat) (kind tag : String) :
    Rejects (recordWrite written object kind tag) := by
  rw [recordWrite]
  split_ifs
  · exact .reject _
  · exact .ok _

theorem validateAddedCell_rejects (spec : CellSpec)
    (connections : List (String × Option Nat × ConnectionSignal)) :
    Rejects (validateAddedCell n snapshot spec connections newNets) := by
  rw [validateAddedCell]
  apply Rejects.checked
  intro _
  apply Rejects.andThen
  · apply Rejects.foldlM
    intro connection _ pins
    rw [validatePin]
    apply Rejects.checked
    intro _
    exact (validateSignal_rejects _).andThen fun _ => .ok _
  · exact fun _ => .ok _

theorem writeNet_rejects (v : OperationValidation) (net : NetId) (action : String) :
    Rejects (v.writeNet snapshot net action) :=
  (requireSnapshotNet_rejects net action).andThen fun _ =>
    (recordWrite_rejects _ _ _ _).andThen fun _ => .ok _

theorem writeCell_rejects (v : OperationValidation) (cell : CellId) :
    Rejects (v.writeCell snapshot cell) :=
  (requireSnapshotCell_rejects cell _).andThen fun _ =>
    (recordWrite_rejects _ _ _ _).andThen fun _ => .ok _

theorem validateReconnection_rejects (hn : n.contents.Formed) (v : OperationValidation) (pin : PinId)
    (signal : ConnectionSignal) : Rejects (v.validateReconnection n snapshot pin signal newNets) := by
  rw [OperationValidation.validateReconnection]
  cases howner : n.pinOwner pin with
  | none => exact .reject _
  | some owner =>
    have hconnection : (n.connection pin).isSome := by
      have hpin := ((pinOwner_iff hn).mp howner).1
      have hlt : pin < n.connections.length := lt_of_row hpin |>.trans_eq hn.owners
      rw [MappedNetlist.connection, howner, Option.bind_some, List.getElem?_eq_getElem hlt]
      rfl
    apply Rejects.checked
    intro _
    apply Rejects.checked
    intro _
    apply (Rejects.some hconnection _).andThen
    intro old
    exact (validateSignal_rejects _).andThen fun _ => (validateSignal_rejects _).andThen fun _ => .ok _

theorem validateOperation_rejects (hn : n.contents.Formed) (v : OperationValidation)
    (operation : ResolvedOperation) : Rejects (v.validateOperation n snapshot newNets operation) := by
  cases operation with
  | addNet id name => exact .ok _
  | addCell id spec connections => exact (validateAddedCell_rejects _ _).andThen fun _ => .ok _
  | removeCell cell =>
    apply (requireSnapshotCell_rejects cell _).andThen
    intro _
    cases n.cellConnections cell with
    | none => exact .reject _
    | some connections =>
      apply (Rejects.forM fun _ _ => validateSignal_rejects _).andThen
      exact fun _ => (recordWrite_rejects _ _ _ _).andThen fun _ => .ok _
  | removeNet net => exact (writeNet_rejects v net _).andThen fun _ => .ok _
  | reconnectPin pin signal => exact validateReconnection_rejects hn v pin signal
  | replaceCell cell _ _ | renameCell cell _ => exact writeCell_rejects v cell
  | renameNet net _ => exact writeNet_rejects v net _

theorem assign_rejects (names : CellNames) (name : String) : Rejects (names.assign name) := by
  rw [CellNames.assign]
  split_ifs
  · exact .reject _
  · exact .reject _
  · exact .ok _

theorem visit_rejects {operation : ResolvedOperation}
    (hcell : ∀ cell name, operation = .renameCell cell name → cell < n.cells.length)
    (names : CellNames) : Rejects (names.visit n operation) := by
  cases operation with
  | addCell id spec connections => exact assign_rejects names _
  | renameCell cell name =>
    apply (Rejects.row (hcell cell name rfl)).andThen
    intro slot
    cases n.names.resolve slot.cell.name with
    | none => exact .reject _
    | some oldName =>
      dsimp only
      split_ifs
      · exact .ok _
      · exact assign_rejects _ _
  | _ => exact .ok _

theorem validateCellNames_rejects {v : OperationValidation} {operations : List ResolvedOperation}
    (h : Recorded operations v)
    (hremoved : ∀ cell, .removeCell cell ∈ operations → cell < n.cells.length)
    (hrenamed : ∀ cell name, .renameCell cell name ∈ operations → cell < n.cells.length) :
    Rejects (v.validateCellNames n operations) := by
  rw [OperationValidation.validateCellNames]
  apply Rejects.andThen
  · apply Rejects.mapM
    intro cell hcell
    exact (Rejects.row (hremoved cell ((h.removedCells cell).mp hcell))).andThen fun _ => .ok _
  intro released
  apply Rejects.andThen
  · exact Rejects.foldlM fun operation hmem names =>
      visit_rejects (fun cell name he => hrenamed cell name (he ▸ hmem)) names
  intro names
  dsimp only
  split_ifs
  · exact Rejects.forM fun _ _ => .check
  · exact .ok _

theorem validateRemovedNets_rejects (hw : Wired n rows) {v : OperationValidation}
    {operations : List ResolvedOperation} (h : Recorded operations v)
    (hlive : ∀ net, .removeNet net ∈ operations → ∃ slot, n.nets[net]? = some slot ∧ slot.live = true) :
    Rejects (v.validateRemovedNets n operations) := by
  apply Rejects.forM
  intro net hnet
  obtain ⟨slot, hslot, hslotLive⟩ := hlive net ((h.removedNets net).mp hnet)
  have hpins : n.pinsOnNet net = some (rows net) := by rw [hw.pinsOnNet hslot, if_pos hslotLive]
  apply Rejects.checked
  intro _
  rw [hpins]
  apply Rejects.bind (Q := (· = rows net))
  · exact Rejects.some rfl _
  · exact (rfl : rows net = rows net)
  rintro _ rfl
  apply Rejects.andThen
  · apply Rejects.forM
    intro pin hpin
    obtain ⟨hpinLive, connection, hconnection, -⟩ := (hw.attached pin net).mp hpin
    have howner : (n.pinOwner pin).isSome := (live_iff hw.formed).mp hpinLive
    have hlt : pin < n.connections.length := (lt_of_row hconnection :)
    apply (Rejects.some howner _).andThen
    intro owner
    split_ifs
    · exact .ok _
    · exact (Rejects.row hlt).andThen fun _ => .check
  · intro _
    apply Rejects.forM
    intro operation _
    cases operation with
    | addCell id spec connections => exact .check
    | _ => exact .ok _

/-! The whole preparation. -/

theorem validateOperations_rejects (hw : Wired n rows) (hcurrent : Current n snapshot)
    (operations : List ResolvedOperation) : Rejects (n.validateOperations snapshot operations) := by
  have hlt {cell : CellId} (hc : snapshot.containsCell cell = true) : cell < n.cells.length := by
    obtain ⟨slot, hslot, -⟩ := hcurrent.cell hc
    exact lt_of_row hslot
  apply Rejects.bind (Rejects.foldlM fun operation _ v => validateOperation_rejects hw.formed v operation)
    (validateEach_settles operations)
  rintro v ⟨hrecorded, hvalid⟩
  apply Rejects.andThen
  · apply validateCellNames_rejects hrecorded
    · exact fun cell hmem => hlt (hvalid _ hmem).1
    · exact fun cell name hmem => hlt (hvalid _ hmem)
  · intro _
    apply validateRemovedNets_rejects hw hrecorded
    exact fun net hmem => hcurrent.net (hvalid _ hmem)

theorem updatedLiveCount_rejects (current removed added : Nat) (resource : String) :
    Rejects (updatedLiveCount current removed added resource) := by
  rw [updatedLiveCount]
  split_ifs
  · exact .ok _
  · exact .reject _

theorem prepare_rejects (hw : Wired n rows) (delta : RegionDelta) : Rejects (n.prepare delta) := by
  rw [MappedNetlist.prepare]
  apply Rejects.checked
  intro _
  apply (checkSnapshot_rejects n _).bind (checkSnapshot_settles n _)
  intro _ hcurrent
  apply (resolveOperations_rejects n _).andThen
  intro resolved
  apply (validateOperations_rejects hw hcurrent _).andThen
  intro _
  apply (updatedLiveCount_rejects _ _ _ _).andThen
  intro netCount
  apply (updatedLiveCount_rejects _ _ _ _).andThen
  intro cellCount
  exact Rejects.checked fun _ => .ok _

end Opto.Mapped
