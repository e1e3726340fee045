import Opto.Mapped.Validity

/-!
# What a delta ends with

Each row of the final contents comes from an old row or from the operation that
added it, and each field holds what the one operation that writes it put there.
-/

namespace Opto.Mapped

namespace Contents

variable {ids : String → NameId} {c : Contents} {operations : List ResolvedOperation}

/-! New rows. -/

theorem born_net {net : NetId} {x : Option NameId × Bool} (hx : (c.run ids operations).nets[net]? = some x)
    (hnew : c.nets.length ≤ net) : ∃ done id name rest, operations = done ++ .addNet id name :: rest ∧
      net = (c.run ids done).nets.length ∧ x = rest.foldl (netAfter ids net) (name.map ids, true) := by
  obtain ⟨done, operation, rest, y, rfl, hlen, hy, rfl⟩ := foldl_born Contents.nets
    (fun _ operation _ _ hx => apply_net hx operation) hx hnew
  have habsent (hlength : ((c.run ids done).apply ids operation).nets.length =
      (c.run ids done).nets.length) : False :=
    absurd (lt_of_row hy) (Nat.not_lt.mpr (hlength.trans_le hlen))
  cases operation with
  | addNet id name =>
    rcases concat_getElem? hy with hold | ⟨hnet, rfl⟩
    · exact absurd (lt_of_row hold) (Nat.not_lt.mpr hlen)
    · exact ⟨done, id, name, rest, rfl, hnet, rfl⟩
  | removeNet other | renameNet other name => exact (habsent (List.length_modify ..)).elim
  | _ => exact (habsent rfl).elim

theorem born_cell {cell : CellId} {x : MappedCell × Bool} (hx : (c.run ids operations).cells[cell]? = some x)
    (hnew : c.cells.length ≤ cell) : ∃ done id spec connections rest y,
      operations = done ++ .addCell id spec connections :: rest ∧ cell = (c.run ids done).cells.length ∧
        y.1.name = ids spec.name ∧ x = rest.foldl (cellAfter ids cell) y := by
  obtain ⟨done, operation, rest, y, rfl, hlen, hy, rfl⟩ := foldl_born Contents.cells
    (fun _ operation _ _ hx => apply_cell hx operation) hx hnew
  have habsent (hlength : ((c.run ids done).apply ids operation).cells.length =
      (c.run ids done).cells.length) : False :=
    absurd (lt_of_row hy) (Nat.not_lt.mpr (hlength.trans_le hlen))
  cases operation with
  | addCell id spec connections =>
    rcases concat_getElem? hy with hold | ⟨hcell, rfl⟩
    · exact absurd (lt_of_row hold) (Nat.not_lt.mpr hlen)
    · exact ⟨done, id, spec, connections, rest, _, rfl, hcell, rfl, rfl⟩
  | removeCell other | replaceCell other cellType libraryCell | renameCell other name =>
    exact (habsent (List.length_modify ..)).elim
  | _ => exact (habsent rfl).elim

theorem born_connection {pin : PinId} {x : PinConnection}
    (hx : (c.run ids operations).connections[pin]? = some x) (hnew : c.connections.length ≤ pin) :
    ∃ done id spec connections rest y, operations = done ++ .addCell id spec connections :: rest ∧
      y ∈ connections ∧ x = rest.foldl (connectionAfter pin) ⟨ids y.1, y.2.1, y.2.2⟩ := by
  obtain ⟨done, operation, rest, y, rfl, hlen, hy, rfl⟩ := foldl_born Contents.connections
    (fun _ operation _ _ hx => apply_connection hx operation) hx hnew
  have habsent (hlength : ((c.run ids done).apply ids operation).connections.length =
      (c.run ids done).connections.length) : False :=
    absurd (lt_of_row hy) (Nat.not_lt.mpr (hlength.trans_le hlen))
  cases operation with
  | addCell id spec connections =>
    rw [apply, List.getElem?_append_right hlen] at hy
    obtain ⟨row, hrow, rfl⟩ := List.mem_map.mp (List.mem_of_getElem? hy)
    exact ⟨done, id, spec, connections, rest, row, rfl, hrow, rfl⟩
  | reconnectPin other signal => exact (habsent (List.length_modify ..)).elim
  | _ => exact (habsent rfl).elim

/-! Rows written at most once. -/

theorem netAfter_of_ne {net : NetId} {operation : ResolvedOperation} (x : Option NameId × Bool)
    (h : operation.writtenNet ≠ some net) : netAfter ids net x operation = x := by
  cases operation with
  | removeNet other | renameNet other name => exact if_neg fun he => h (congrArg some he)
  | _ => rfl

theorem cellAfter_of_ne {cell : CellId} {operation : ResolvedOperation} (x : MappedCell × Bool)
    (h : operation.writtenCell ≠ some cell) : cellAfter ids cell x operation = x := by
  cases operation with
  | removeCell other | replaceCell other cellType libraryCell | renameCell other name =>
    exact if_neg fun he => h (congrArg some he)
  | _ => rfl

theorem connectionAfter_of_ne {pin : PinId} {operation : ResolvedOperation} (x : PinConnection)
    (h : operation.reconnectedPin ≠ some pin) : connectionAfter pin x operation = x := by
  cases operation with
  | reconnectPin other signal => exact if_neg fun he => h (congrArg some he)
  | _ => rfl

theorem netAfter_written (honce : (operations.filterMap ResolvedOperation.writtenNet).Nodup) {net : NetId}
    {operation : ResolvedOperation} (hmem : operation ∈ operations)
    (hkey : operation.writtenNet = some net) (x : Option NameId × Bool) :
    operations.foldl (netAfter ids net) x = netAfter ids net x operation :=
  foldl_written honce (fun _ y => netAfter_of_ne y) hmem hkey x

theorem cellAfter_written (honce : (operations.filterMap ResolvedOperation.writtenCell).Nodup)
    {cell : CellId} {operation : ResolvedOperation} (hmem : operation ∈ operations)
    (hkey : operation.writtenCell = some cell) (x : MappedCell × Bool) :
    operations.foldl (cellAfter ids cell) x = cellAfter ids cell x operation :=
  foldl_written honce (fun _ y => cellAfter_of_ne y) hmem hkey x

theorem connectionAfter_written (honce : (operations.filterMap ResolvedOperation.reconnectedPin).Nodup)
    {pin : PinId} {signal : ConnectionSignal} (hmem : .reconnectPin pin signal ∈ operations)
    (x : PinConnection) : operations.foldl (connectionAfter pin) x = { x with signal } :=
  (foldl_written honce (fun _ y => connectionAfter_of_ne y) hmem rfl x).trans (if_pos rfl)

/-! Pins that were there. -/

theorem apply_owner {pin : PinId} {owner : CellId} (h : c.pinOwners[pin]? = some owner)
    (operation : ResolvedOperation) : (c.apply ids operation).pinOwners[pin]? = some owner := by
  cases operation with
  | addCell id spec connections => exact append_row h _
  | _ => exact h

theorem run_owner (ids : String → NameId) {pin : PinId} {owner : CellId}
    (h : c.pinOwners[pin]? = some owner) (operations : List ResolvedOperation) :
    (c.run ids operations).pinOwners[pin]? = some owner := by
  induction operations generalizing c with
  | nil => exact h
  | cons operation operations ih => exact ih (apply_owner h operation)

/-- A pin lives until its cell is removed. -/
theorem run_live (ids : String → NameId) {pin : PinId} {owner : CellId} (howner : c.pinOwners[pin]? = some owner)
    {x : MappedCell × Bool} (hx : c.cells[owner]? = some x) (operations : List ResolvedOperation) :
    (c.run ids operations).Live pin ↔ x.2 = true ∧ .removeCell owner ∉ operations := by
  have howner' := run_owner ids howner operations
  have hx' := run_cell ids hx operations
  rw [← cellAfter_live ids owner x operations]
  constructor
  · rintro ⟨other, cell, hother, hcell⟩
    cases howner'.symm.trans hother
    rw [Option.some_inj.mp (hx'.symm.trans hcell)]
  · intro hlive
    exact ⟨owner, _, howner', hx'.trans (congrArg some (Prod.ext rfl hlive))⟩

end Contents

variable {n : MappedNetlist} {delta : RegionDelta} {p : PreparedDelta} {rows : Rows}
  {ids : String → NameId}

namespace Prepared

theorem writtenNet_old (hp : Prepared n delta p) {operation : ResolvedOperation} {net : NetId}
    (hmem : operation ∈ p.resolved.operations) (hkey : operation.writtenNet = some net) :
    ∃ name, n.contents.nets[net]? = some (name, true) := by
  have hvalid := hp.valid operation hmem
  cases operation with
  | removeNet other | renameNet other name =>
    cases hkey
    exact hp.current.netRow hvalid
  | _ => cases hkey

theorem writtenCell_old (hp : Prepared n delta p) {operation : ResolvedOperation} {cell : CellId}
    (hmem : operation ∈ p.resolved.operations) (hkey : operation.writtenCell = some cell) :
    ∃ x, n.contents.cells[cell]? = some (x, true) := by
  have hvalid := hp.valid operation hmem
  cases operation with
  | removeCell other =>
    cases hkey
    exact hp.current.cellRow hvalid.1
  | replaceCell other cellType libraryCell | renameCell other name =>
    cases hkey
    exact hp.current.cellRow hvalid
  | _ => cases hkey

/-! New rows stay as they were added. -/

theorem keepsNet (hp : Prepared n delta p) {operations : List ResolvedOperation}
    (hsub : ∀ operation ∈ operations, operation ∈ p.resolved.operations) {net : NetId}
    (hnew : n.contents.nets.length ≤ net) (x : Option NameId × Bool) :
    operations.foldl (Contents.netAfter ids net) x = x := by
  apply foldl_keep
  intro operation hmem
  apply Contents.netAfter_of_ne
  intro hkey
  obtain ⟨_, hrow⟩ := hp.writtenNet_old (hsub operation hmem) hkey
  exact absurd (lt_of_row hrow) (Nat.not_lt.mpr hnew)

theorem keepsCell (hp : Prepared n delta p) {operations : List ResolvedOperation}
    (hsub : ∀ operation ∈ operations, operation ∈ p.resolved.operations) {cell : CellId}
    (hnew : n.contents.cells.length ≤ cell) (x : MappedCell × Bool) :
    operations.foldl (Contents.cellAfter ids cell) x = x := by
  apply foldl_keep
  intro operation hmem
  apply Contents.cellAfter_of_ne
  intro hkey
  obtain ⟨_, hrow⟩ := hp.writtenCell_old (hsub operation hmem) hkey
  exact absurd (lt_of_row hrow) (Nat.not_lt.mpr hnew)

theorem keepsConnection (hp : Prepared n delta p) {operations : List ResolvedOperation}
    (hsub : ∀ operation ∈ operations, operation ∈ p.resolved.operations) {pin : PinId}
    (hnew : n.contents.connections.length ≤ pin) (x : PinConnection) :
    operations.foldl (Contents.connectionAfter pin) x = x := by
  apply foldl_keep
  intro operation hmem
  apply Contents.connectionAfter_of_ne
  intro hkey
  have hvalid := hp.valid operation (hsub operation hmem)
  cases operation with
  | reconnectPin other signal =>
    cases hkey
    obtain ⟨_, connection, -, -, hrow, -⟩ := hvalid
    exact absurd (lt_of_row hrow) (Nat.not_lt.mpr hnew)
  | _ => cases hkey

theorem after_mem {operations done rest : List ResolvedOperation} {operation : ResolvedOperation}
    (hsplit : operations = done ++ operation :: rest) : ∀ other ∈ rest, other ∈ operations :=
  fun _ hmem => hsplit ▸ List.mem_append_right _ (List.mem_cons_of_mem _ hmem)

theorem newNet (hp : Prepared n delta p) {net : NetId} {x : Option NameId × Bool}
    (hx : (n.contents.run ids p.resolved.operations).nets[net]? = some x)
    (hnew : n.contents.nets.length ≤ net) : x.2 = true := by
  obtain ⟨done, id, name, rest, hsplit, -, rfl⟩ := Contents.born_net hx hnew
  rw [hp.keepsNet (after_mem hsplit) hnew]

theorem newCell (hp : Prepared n delta p) {cell : CellId} {x : MappedCell × Bool}
    (hx : (n.contents.run ids p.resolved.operations).cells[cell]? = some x)
    (hnew : n.contents.cells.length ≤ cell) : ∃ spec connections,
      .addCell cell spec connections ∈ p.resolved.operations ∧ x.1.name = ids spec.name := by
  obtain ⟨done, id, spec, connections, rest, y, hsplit, hcell, hname, rfl⟩ := Contents.born_cell hx hnew
  have hfits : id = _ ∧ _ := hp.fits ids hsplit
  obtain rfl : cell = id := hcell.trans hfits.1.symm
  rw [hp.keepsCell (after_mem hsplit) hnew]
  exact ⟨spec, connections, hsplit ▸ List.mem_append_right _ List.mem_cons_self, hname⟩

theorem newConnection (hp : Prepared n delta p) {pin : PinId} {x : PinConnection}
    (hx : (n.contents.run ids p.resolved.operations).connections[pin]? = some x)
    (hnew : n.contents.connections.length ≤ pin) : ∃ id spec connections y,
      .addCell id spec connections ∈ p.resolved.operations ∧ y ∈ connections ∧ x.signal = y.2.2 := by
  obtain ⟨done, id, spec, connections, rest, y, hsplit, hy, rfl⟩ := Contents.born_connection hx hnew
  rw [hp.keepsConnection (after_mem hsplit) hnew]
  exact ⟨id, spec, connections, y, hsplit ▸ List.mem_append_right _ List.mem_cons_self, hy, rfl⟩

/-! References. -/

theorem reconnected (hp : Prepared n delta p) {pin : PinId} {signal : ConnectionSignal}
    (hmem : .reconnectPin pin signal ∈ p.resolved.operations) {x : PinConnection}
    (hx : (n.contents.run ids p.resolved.operations).connections[pin]? = some x) : x.signal = signal := by
  obtain ⟨_, connection, -, -, hrow, -⟩ := hp.valid _ hmem
  have hlast := Contents.run_connection ids (c := n.contents) hrow p.resolved.operations
  rw [Contents.connectionAfter_written hp.pinsOnce hmem] at hlast
  cases hlast.symm.trans hx
  rfl

/-- A net that lived and is not removed, or a net that is added. -/
theorem netLives (hp : Prepared n delta p) {net : NetId}
    (hnet : net ∈ p.resolved.operations.filterMap ResolvedOperation.newNet ∨
      ∃ name, n.contents.nets[net]? = some (name, true) ∧ .removeNet net ∉ p.resolved.operations) :
    ∃ name, (n.contents.run ids p.resolved.operations).nets[net]? = some (name, true) := by
  rcases hnet with hnew | ⟨name, hrow, hkept⟩
  · rw [hp.resolved.nets, List.mem_range'_1] at hnew
    have hcount := congrArg List.length hp.resolved.nets
    have hlength : n.contents.nets.length = n.nets.length := List.length_map _
    have hlt : net < (n.contents.run ids p.resolved.operations).nets.length := by
      rw [Contents.run_nets_length, hcount, List.length_range', hlength]
      exact hnew.2
    have hrow := List.getElem?_eq_getElem hlt
    exact ⟨_, hrow.trans (congrArg some (Prod.ext rfl (hp.newNet hrow (hlength.trans_le hnew.1))))⟩
  · have hlast := Contents.run_net ids hrow p.resolved.operations
    have hlive := (Contents.netAfter_live ids net (name, true) _).mpr ⟨rfl, hkept⟩
    exact ⟨_, hlast.trans (congrArg some (Prod.ext rfl hlive))⟩

end Prepared

/-- No pin of a cell that stays is put on a net that is removed. -/
def Detached (n : MappedNetlist) (operations : List ResolvedOperation) : Prop :=
  ∀ net pin owner, .removeNet net ∈ operations → .reconnectPin pin (.net net) ∈ operations →
    n.pinOwner pin = some owner → .removeCell owner ∈ operations

theorem isLiveNet_iff {net : NetId} :
    n.isLiveNet net = true ↔ ∃ name, n.contents.nets[net]? = some (name, true) := by
  rw [MappedNetlist.isLiveNet, Option.any_eq_true]
  simp only [MappedNetlist.contents, List.getElem?_map, Option.map_eq_some_iff, Prod.mk.injEq]
  constructor
  · rintro ⟨slot, hslot, hlive⟩
    exact ⟨slot.name, slot, hslot, rfl, hlive⟩
  · rintro ⟨name, slot, hslot, -, hlive⟩
    exact ⟨slot, hslot, hlive⟩

/-- An old pin lives on with its cell. -/
theorem Wired.pinOwner_of_live (hw : Wired n rows) {operations : List ResolvedOperation} {pin : PinId}
    (hold : pin < n.contents.connections.length) (hlive : (n.contents.run ids operations).Live pin) :
    ∃ owner, n.pinOwner pin = some owner ∧ .removeCell owner ∉ operations ∧ n.contents.Live pin := by
  have hpin : pin < n.contents.pinOwners.length := hw.formed.owners ▸ hold
  have howner := List.getElem?_eq_getElem hpin
  generalize n.contents.pinOwners[pin] = owner at howner
  obtain ⟨⟨x, live⟩, hx, -⟩ := hw.formed.owner howner
  obtain ⟨rfl : live = true, hstays⟩ := (Contents.run_live ids howner hx _).mp hlive
  obtain ⟨slot, hslot, -, hcell⟩ := cells_contents.mp hx
  exact ⟨owner, (pinOwner_iff hw.formed).mpr ⟨howner, slot, hslot, hcell⟩, hstays, owner, x, howner, hx⟩

namespace Prepared

theorem knownLives (hp : Prepared n delta p) {net : NetId}
    (hknown : SignalKnown n delta.snapshot
      (p.resolved.operations.filterMap ResolvedOperation.newNet) (.net net))
    (hkept : .removeNet net ∉ p.resolved.operations) :
    ∃ name, (n.contents.run ids p.resolved.operations).nets[net]? = some (name, true) := by
  apply hp.netLives
  apply hknown.imp_right
  intro hold
  obtain ⟨name, hname⟩ := isLiveNet_iff.mp hold.1
  exact ⟨name, hname, hkept⟩

/-- A net keeps a pin that stays where it is. -/
theorem attachedKept (hp : Prepared n delta p) (hw : Wired n rows) {pin : PinId} {net : NetId}
    {owner : CellId} (hattached : n.contents.Attached pin net) (howner : n.pinOwner pin = some owner)
    (hstays : .removeCell owner ∉ p.resolved.operations)
    (hunmoved : ∀ signal, .reconnectPin pin signal ∉ p.resolved.operations) :
    .removeNet net ∉ p.resolved.operations := by
  intro hremoved
  obtain ⟨-, ⟨pins, hpins, hfree⟩, -⟩ := hp.nets net hremoved
  obtain ⟨slot, hslot, hlive⟩ := hp.current.net (hp.valid _ hremoved)
  rw [hw.pinsOnNet hslot, if_pos hlive] at hpins
  cases hpins
  obtain ⟨other, hother, hout⟩ := hfree pin ((hw.attached pin net).mpr hattached)
  cases hother.symm.trans howner
  rcases hout with hcell | ⟨signal, hne, hmoved | ⟨connection, hconnection, hsame⟩⟩
  · exact hstays hcell
  · exact hunmoved signal hmoved
  · obtain ⟨-, connection', hconnection', hsignal⟩ := hattached
    cases hconnection'.symm.trans hconnection
    exact hne (hsame.symm.trans hsignal)

theorem referenced (hp : Prepared n delta p) (ids : String → NameId) (hw : Wired n rows) (h : Referenced n.contents)
    (hdetached : Detached n p.resolved.operations) :
    Referenced (n.contents.run ids p.resolved.operations) := by
  intro pin net hattached
  obtain ⟨hlive, connection, hrow, hsignal⟩ := hattached
  rcases Nat.lt_or_ge pin n.contents.connections.length with hlt | hge
  · obtain ⟨owner, howner, hstays, hbefore⟩ := hw.pinOwner_of_live hlt hlive
    by_cases hmoved : ∃ signal, .reconnectPin pin signal ∈ p.resolved.operations
    · obtain ⟨signal, hmem⟩ := hmoved
      obtain rfl : signal = .net net := (hp.reconnected hmem hrow).symm.trans hsignal
      obtain ⟨_, _, -, -, -, -, hknown⟩ := hp.valid _ hmem
      exact hp.knownLives hknown fun hremoved => hstays (hdetached net pin owner hremoved hmem howner)
    · have hunmoved : ∀ signal, .reconnectPin pin signal ∉ p.resolved.operations :=
        fun signal hmem => hmoved ⟨signal, hmem⟩
      have hold := List.getElem?_eq_getElem hlt
      have hlast := Contents.run_connection ids hold p.resolved.operations
      rw [foldl_keep fun operation hmem => Contents.connectionAfter_of_ne _ ?_] at hlast
      · rw [hlast] at hrow
        have hattached : n.contents.Attached pin net := ⟨hbefore, connection, hold.trans hrow, hsignal⟩
        obtain ⟨name, hname⟩ := h pin net hattached
        exact hp.netLives (.inr ⟨name, hname, hp.attachedKept hw hattached howner hstays hunmoved⟩)
      · intro hkey
        cases operation with
        | reconnectPin other signal =>
          cases hkey
          exact hunmoved signal hmem
        | _ => cases hkey
  · obtain ⟨id, spec, connections, y, hmem, hy, hsame⟩ := hp.newConnection hrow hge
    have hknown := (hp.valid _ hmem).2 y hy
    rw [← hsame, hsignal] at hknown
    apply hp.knownLives hknown
    intro hremoved
    obtain ⟨-, -, hadded⟩ := hp.nets net hremoved
    exact hadded id spec connections hmem y hy (hsame.symm.trans hsignal)

/-- A pin that is put on a removed net refers to it in the end. -/
theorem detached (hp : Prepared n delta p) (hw : Wired n rows)
    (h : Referenced (n.contents.run ids p.resolved.operations)) : Detached n p.resolved.operations := by
  intro net pin owner hremoved hmem howner
  by_contra hstays
  obtain ⟨_, connection, -, -, hrow, -⟩ := hp.valid _ hmem
  have hlast := Contents.run_connection ids (c := n.contents) hrow p.resolved.operations
  obtain ⟨hpin, slot, hslot, hcell⟩ := (pinOwner_iff hw.formed).mp howner
  have hlive := (Contents.run_live ids hpin (cells_contents.mpr ⟨slot, hslot, rfl, hcell⟩) _).mpr
    ⟨rfl, hstays⟩
  obtain ⟨name, hname⟩ := h pin net ⟨hlive, _, hlast, hp.reconnected hmem hlast⟩
  obtain ⟨old, hold⟩ := hp.current.netRow (hp.valid _ hremoved)
  have hafter := Contents.run_net ids hold p.resolved.operations
  have hkept := (Contents.netAfter_live ids net (old, true) p.resolved.operations).mp
    (congrArg Prod.snd (Option.some_inj.mp (hafter.symm.trans hname)))
  exact hkept.2 hremoved

end Prepared

/-! Names of cells. -/

/-- The cell an operation names. -/
def ResolvedOperation.namedCell : ResolvedOperation → Option CellId
  | .addCell id _ _ => some id
  | .renameCell cell _ => some cell
  | _ => none

theorem Contents.cellAfter_name (ids : String → NameId) {operations : List ResolvedOperation} {cell : CellId}
    (h : ∀ name, .renameCell cell name ∉ operations) (x : MappedCell × Bool) :
    (operations.foldl (cellAfter ids cell) x).1.name = x.1.name := by
  induction operations generalizing x with
  | nil => rfl
  | cons operation operations ih =>
    rw [List.foldl_cons, ih fun name hmem => h name (List.mem_cons_of_mem _ hmem)]
    cases operation with
    | removeCell other | replaceCell other cellType libraryCell =>
      rw [cellAfter]
      split_ifs <;> rfl
    | renameCell other name =>
      rw [cellAfter, if_neg]
      rintro rfl
      exact h name List.mem_cons_self
    | _ => rfl

theorem futureName_given {operations : List ResolvedOperation} {operation : ResolvedOperation}
    (hmem : operation ∈ operations) {name : String} (h : futureName n operation = some name) :
    name ∈ operationNames operations := by
  apply List.mem_flatMap.mpr
  refine ⟨operation, hmem, ?_⟩
  cases operation with
  | addCell id spec connections =>
    cases h
    exact List.mem_cons_self
  | renameCell cell other =>
    obtain ⟨_, -, rfl⟩ := Option.map_eq_some_iff.mp h
    exact List.mem_singleton_self _
  | _ => cases h

theorem renamedCell_eq_some {operation : ResolvedOperation} {cell : CellId}
    (h : renamedCell n operation = some cell) : ∃ name, operation = .renameCell cell name := by
  cases operation with
  | renameCell other name =>
    rw [renamedCell] at h
    split_ifs at h
    cases h
    exact ⟨name, rfl⟩
  | _ => cases h

/-- A cell that keeps its name through the operations. -/
def KeepsName (n : MappedNetlist) (operations : List ResolvedOperation) (cell : CellId) (id : NameId) :
    Prop :=
  ∃ slot, n.cells[cell]? = some slot ∧ slot.live = true ∧ .removeCell cell ∉ operations ∧
    cell ∉ operations.filterMap (renamedCell n) ∧ slot.cell.name = id

/-- A cell that gets a new name. -/
def GetsName (n : MappedNetlist) (ids : String → NameId) (operations : List ResolvedOperation)
    (cell : CellId) (id : NameId) : Prop :=
  ∃ operation ∈ operations, ∃ name, futureName n operation = some name ∧
    operation.namedCell = some cell ∧ id = ids name

variable {names : NameTable}

namespace Prepared

theorem finalName (hp : Prepared n delta p) (hextends : n.names.Extends names)
    (hids : ∀ name ∈ operationNames p.resolved.operations, names.resolve (ids name) = some name)
    {cell : CellId} {x : MappedCell}
    (hx : (n.contents.run ids p.resolved.operations).cells[cell]? = some (x, true)) :
    KeepsName n p.resolved.operations cell x.name ∨ GetsName n ids p.resolved.operations cell x.name := by
  rcases Nat.lt_or_ge cell n.contents.cells.length with hlt | hge
  · obtain ⟨⟨y, live⟩, hy⟩ : ∃ y, n.contents.cells[cell]? = some y := ⟨_, List.getElem?_eq_getElem hlt⟩
    have hlast := Contents.run_cell ids hy p.resolved.operations
    have hrow := Option.some_inj.mp (hlast.symm.trans hx)
    obtain ⟨rfl : live = true, hstays⟩ :=
      (Contents.cellAfter_live ids cell (y, live) p.resolved.operations).mp (congrArg Prod.snd hrow)
    obtain ⟨slot, hslot, rfl, hlive⟩ := cells_contents.mp hy
    by_cases hrenamed : ∃ name, .renameCell cell name ∈ p.resolved.operations
    · obtain ⟨name, hmem⟩ := hrenamed
      rw [Contents.cellAfter_written hp.cellsOnce hmem rfl, Contents.cellAfter, if_pos rfl] at hrow
      have hname : x.name = ids name := (congrArg (·.1.name) hrow).symm
      by_cases hsame : (n.cells[cell]?.bind fun slot => n.names.resolve slot.cell.name) = some name
      · refine .inl ⟨slot, hslot, hlive, hstays, fun hin => ?_, ?_⟩
        · obtain ⟨other, hother, hcell⟩ := List.mem_filterMap.mp hin
          obtain ⟨name', rfl⟩ := renamedCell_eq_some hcell
          cases eq_of_key hp.cellsOnce hother hmem rfl rfl
          rw [renamedCell, if_pos hsame] at hcell
          cases hcell
        · rw [hslot] at hsame
          rw [hname]
          refine NameTable.resolve_injective (hextends.resolve hsame) (hids name ?_)
          exact List.mem_flatMap.mpr ⟨_, hmem, List.mem_singleton_self _⟩
      · refine .inr ⟨_, hmem, name, ?_, rfl, hname⟩
        rw [futureName, renamedCell, if_neg hsame]
        rfl
    · have hunnamed : ∀ name, .renameCell cell name ∉ p.resolved.operations :=
        fun name hmem => hrenamed ⟨name, hmem⟩
      refine .inl ⟨slot, hslot, hlive, hstays, fun hin => ?_, ?_⟩
      · obtain ⟨other, hother, hcell⟩ := List.mem_filterMap.mp hin
        obtain ⟨name, rfl⟩ := renamedCell_eq_some hcell
        exact hunnamed name hother
      · have hname := Contents.cellAfter_name ids hunnamed (slot.cell, true)
        rw [hrow] at hname
        exact hname.symm
  · obtain ⟨spec, connections, hmem, hname⟩ := hp.newCell hx hge
    exact .inr ⟨_, hmem, spec.name, rfl, rfl, hname⟩

/-- A new name is not one that is kept. -/
theorem futureName_free (hp : Prepared n delta p) (hextends : n.names.Extends names)
    (hids : ∀ name ∈ operationNames p.resolved.operations, names.resolve (ids name) = some name)
    (h : Distinct n.contents (n.designInstances.map (·.name))) {operation : ResolvedOperation}
    (hmem : operation ∈ p.resolved.operations) {name : String}
    (hname : futureName n operation = some name) (hhas : n.names.Has (ids name)) :
    ¬Kept n p.resolved.operations (ids name) := by
  intro hkept
  obtain ⟨other, hother⟩ := hhas
  obtain rfl : other = name := Option.some_inj.mp
    ((hextends.resolve hother).symm.trans (hids name (futureName_given hmem hname)))
  have hget : n.names.get other = some (ids other) := by
    cases hget : n.names.get other with
    | none =>
      rw [NameTable.resolve_eq] at hother
      exact absurd (List.mem_of_getElem? hother) (NameTable.get_eq_none hget)
    | some id => rw [NameTable.resolve_injective (NameTable.get_eq_some hget) hother]
  rcases hp.names.free other (List.mem_filterMap.mpr ⟨_, hmem, hname⟩) _ hget with hreleased | hfree
  · obtain ⟨cell, slot, hout, hslot, hid⟩ := hreleased
    have hlive : ∃ x, n.contents.cells[cell]? = some (x, true) := by
      rcases hout with hremoved | hrenamed
      · exact hp.writtenCell_old hremoved rfl
      · obtain ⟨op, hop, hcell⟩ := List.mem_filterMap.mp hrenamed
        obtain ⟨_, rfl⟩ := renamedCell_eq_some hcell
        exact hp.writtenCell_old hop rfl
    obtain ⟨x, hx⟩ := hlive
    obtain ⟨slot', hslot', rfl, -⟩ := cells_contents.mp hx
    cases hslot.symm.trans hslot'
    rcases hkept with ⟨cell', slot', hslot', hlive', hstays, hsame, hid'⟩ | ⟨row, hrow, hid'⟩
    · have hx' := cells_contents.mpr ⟨slot', hslot', rfl, hlive'⟩
      obtain rfl := h.cells cell cell' _ _ hx hx' (hid.trans hid'.symm)
      exact hout.elim hstays hsame
    · apply h.retained cell _ hx
      rw [hid, ← hid']
      exact List.mem_map_of_mem hrow
  · exact hfree hkept

theorem distinct (hp : Prepared n delta p) (hextends : n.names.Extends names)
    (hids : ∀ name ∈ operationNames p.resolved.operations, names.resolve (ids name) = some name)
    (hnamed : Named n.names n.contents) (hinstances : ∀ row ∈ n.designInstances, n.names.Has row.name)
    (h : Distinct n.contents (n.designInstances.map (·.name))) :
    Distinct (n.contents.run ids p.resolved.operations) (n.designInstances.map (·.name)) := by
  have clash {cell : CellId} {id : NameId} (hget : GetsName n ids p.resolved.operations cell id)
      (hhas : n.names.Has id) : ¬Kept n p.resolved.operations id := by
    obtain ⟨operation, hmem, name, hname, -, rfl⟩ := hget
    exact hp.futureName_free hextends hids h hmem hname hhas
  have kept {cell : CellId} {id : NameId} (hkeep : KeepsName n p.resolved.operations cell id) :
      n.names.Has id ∧ Kept n p.resolved.operations id := by
    obtain ⟨slot, hslot, hlive, hstays, hsame, rfl⟩ := hkeep
    have hrow := cells_contents.mpr ⟨slot, hslot, rfl, hlive⟩
    exact ⟨(hnamed.cells _ (List.mem_of_getElem? hrow)).1, .inl ⟨cell, slot, hslot, hlive, hstays, hsame, rfl⟩⟩
  constructor
  · intro i j x y hx hy heq
    rcases hp.finalName hextends hids hx with hi | hi <;> rcases hp.finalName hextends hids hy with hj | hj
    · obtain ⟨slot, hslot, hlive, -, -, hname⟩ := hi
      obtain ⟨slot', hslot', hlive', -, -, hname'⟩ := hj
      exact h.cells i j _ _ (cells_contents.mpr ⟨slot, hslot, rfl, hlive⟩)
        (cells_contents.mpr ⟨slot', hslot', rfl, hlive'⟩) (hname.trans (heq.trans hname'.symm))
    · exact (clash (heq ▸ hj) (kept hi).1 (kept hi).2).elim
    · exact (clash (heq ▸ hi) (kept hj).1 (kept hj).2).elim
    · obtain ⟨a, ha, s, hs, hai, hxs⟩ := hi
      obtain ⟨b, hb, s', hs', hbj, hys⟩ := hj
      have hsame : s = s' := Option.some_inj.mp ((hids s (futureName_given ha hs)).symm.trans
        ((congrArg names.resolve (hxs.symm.trans (heq.trans hys))).trans
          (hids s' (futureName_given hb hs'))))
      obtain rfl := eq_of_key hp.names.once ha hb hs (hsame ▸ hs')
      exact Option.some_inj.mp (hai.symm.trans hbj)
  · intro i x hx hin
    obtain ⟨row, hrow, hname⟩ := List.mem_map.mp hin
    rcases hp.finalName hextends hids hx with hi | hi
    · obtain ⟨slot, hslot, hlive, -, -, hid⟩ := hi
      exact h.retained i _ (cells_contents.mpr ⟨slot, hslot, rfl, hlive⟩) (hid ▸ hin)
    · exact clash hi (hname ▸ hinstances row hrow) (.inr ⟨row, hrow, hname⟩)

/-! Names that are given stay. -/

theorem addedNet (hp : Prepared n delta p) (ids : String → NameId) {done rest : List ResolvedOperation} {id : NetId}
    {name : Option String} (hsplit : p.resolved.operations = done ++ .addNet id name :: rest) :
    (n.contents.run ids p.resolved.operations).nets[id]? = some (name.map ids, true) := by
  have hid : id = _ := hp.fits ids hsplit
  have hrow : ((n.contents.run ids done).apply ids (.addNet id name)).nets[id]? =
      some (name.map ids, true) := hid ▸ List.getElem?_concat_length
  have hlast := Contents.run_net ids hrow rest
  rw [hp.keepsNet (after_mem hsplit)] at hlast
  · rw [hsplit, Contents.run_append]
    exact hlast
  · rw [hid, Contents.run_nets_length]
    exact Nat.le_add_right _ _

theorem addedCell (hp : Prepared n delta p) (ids : String → NameId) {done rest : List ResolvedOperation} {id : CellId}
    {spec : CellSpec} {connections : List (String × Option Nat × ConnectionSignal)}
    (hsplit : p.resolved.operations = done ++ .addCell id spec connections :: rest) :
    ∃ x, (n.contents.run ids p.resolved.operations).cells[id]? = some (x, true) ∧
      x.name = ids spec.name ∧ x.cellType = ids spec.cellType := by
  have hfits : id = _ ∧ _ := hp.fits ids hsplit
  have hrow : ∃ x, ((n.contents.run ids done).apply ids (.addCell id spec connections)).cells[id]? =
      some (x, true) ∧ x.name = ids spec.name ∧ x.cellType = ids spec.cellType :=
    ⟨_, hfits.1 ▸ List.getElem?_concat_length, rfl, rfl⟩
  obtain ⟨x, hx, hnames⟩ := hrow
  have hlast := Contents.run_cell ids hx rest
  rw [hp.keepsCell (after_mem hsplit)] at hlast
  · refine ⟨x, ?_, hnames⟩
    rw [hsplit, Contents.run_append]
    exact hlast
  · rw [hfits.1, Contents.run_cells_length]
    exact Nat.le_add_right _ _

theorem addedPin (hp : Prepared n delta p) (ids : String → NameId) (hw : Wired n rows) {done rest : List ResolvedOperation}
    {id : CellId} {spec : CellSpec} {connections : List (String × Option Nat × ConnectionSignal)}
    (hsplit : p.resolved.operations = done ++ .addCell id spec connections :: rest)
    {y : String × Option Nat × ConnectionSignal} (hy : y ∈ connections) :
    ∃ pin x, (n.contents.run ids p.resolved.operations).Live pin ∧
      (n.contents.run ids p.resolved.operations).connections[pin]? = some x ∧ x.pin = ids y.1 := by
  obtain ⟨j, hj⟩ := List.mem_iff_getElem?.mp hy
  have hformed : (n.contents.run ids done).Formed := hp.formed hw.formed ids hsplit
  have howners : (n.contents.run ids done).pinOwners.length = (n.contents.run ids done).connections.length :=
    hformed.owners
  have hpin : ((n.contents.run ids done).apply ids (.addCell id spec connections)).connections[
      (n.contents.run ids done).connections.length + j]? = some ⟨ids y.1, y.2.1, y.2.2⟩ := by
    rw [Contents.apply, List.getElem?_append_right (Nat.le_add_right _ _), Nat.add_sub_cancel_left,
      List.getElem?_map, hj]
    rfl
  have howner : ((n.contents.run ids done).apply ids (.addCell id spec connections)).pinOwners[
      (n.contents.run ids done).connections.length + j]? = some id := by
    rw [Contents.apply, ← howners, List.getElem?_append_right (Nat.le_add_right _ _),
      Nat.add_sub_cancel_left, List.getElem?_replicate, if_pos (lt_of_row hj)]
  have hlast := Contents.run_connection ids hpin rest
  rw [hp.keepsConnection (after_mem hsplit)] at hlast
  · obtain ⟨x, hx, -⟩ := hp.addedCell ids hsplit
    have hkept := Contents.run_owner ids howner rest
    rw [hsplit, Contents.run_append] at hx ⊢
    exact ⟨_, _, ⟨id, x, hkept, hx⟩, hlast, rfl⟩
  · rw [Contents.run_connections_length, Nat.add_assoc]
    exact Nat.le_add_right _ _

/-- A blank name that is given is there in the end. -/
theorem given (hp : Prepared n delta p) (hw : Wired n rows)
    (hids : ∀ name ∈ operationNames p.resolved.operations, names.resolve (ids name) = some name)
    (h : Labelled names (n.contents.run ids p.resolved.operations)) :
    ∀ name ∈ operationNames p.resolved.operations, isBlank name = false := by
  intro name hname
  have hresolve := hids name hname
  suffices hnames : names.Names (ids name) by
    obtain ⟨other, hother, hblank⟩ := hnames
    cases hresolve.symm.trans hother
    exact hblank
  obtain ⟨operation, hmem, hgiven⟩ := List.mem_flatMap.mp hname
  obtain ⟨done, rest, hsplit⟩ := List.append_of_mem hmem
  have written {cell : CellId} (hkey : operation.writtenCell = some cell) :
      ∃ x, (Contents.cellAfter ids cell (x, true) operation).2 = true →
        names.Names (Contents.cellAfter ids cell (x, true) operation).1.name ∧
          names.Names (Contents.cellAfter ids cell (x, true) operation).1.cellType := by
    obtain ⟨x, hx⟩ := hp.writtenCell_old hmem hkey
    have hlast := Contents.run_cell ids hx p.resolved.operations
    rw [Contents.cellAfter_written hp.cellsOnce hmem hkey] at hlast
    exact ⟨x, h.cells _ (List.mem_of_getElem? hlast)⟩
  cases operation with
  | addNet id given =>
    obtain rfl := Option.mem_toList.mp hgiven
    exact h.nets _ (List.mem_of_getElem? (hp.addedNet ids hsplit)) _ rfl
  | addCell id spec connections =>
    obtain ⟨x, hx, hcellName, hcellType⟩ := hp.addedCell ids hsplit
    have hcell := h.cells _ (List.mem_of_getElem? hx) rfl
    rcases List.mem_cons.mp hgiven with rfl | hgiven
    · exact hcellName ▸ hcell.1
    rcases List.mem_cons.mp hgiven with rfl | hgiven
    · exact hcellType ▸ hcell.2
    rw [← hp.resolved.pinNames _ hmem] at hgiven
    obtain ⟨y, hy, rfl⟩ := List.mem_map.mp hgiven
    obtain ⟨pin, x, hlive, hx, hpin⟩ := hp.addedPin ids hw hsplit hy
    exact hpin ▸ h.pins pin x hlive hx
  | replaceCell cell cellType libraryCell =>
    obtain ⟨x, hx⟩ := written rfl
    rw [Contents.cellAfter, if_pos rfl] at hx
    rw [List.mem_singleton.mp hgiven]
    exact (hx rfl).2
  | renameCell cell given =>
    obtain ⟨x, hx⟩ := written rfl
    rw [Contents.cellAfter, if_pos rfl] at hx
    rw [List.mem_singleton.mp hgiven]
    exact (hx rfl).1
  | renameNet net given =>
    obtain rfl := Option.mem_toList.mp hgiven
    obtain ⟨old, hold⟩ := hp.writtenNet_old hmem rfl
    have hlast := Contents.run_net ids hold p.resolved.operations
    rw [Contents.netAfter_written hp.netsOnce hmem rfl, Contents.netAfter, if_pos rfl] at hlast
    exact h.nets _ (List.mem_of_getElem? hlast) _ rfl
  | removeCell cell => cases hgiven
  | removeNet net => cases hgiven
  | reconnectPin pin signal => cases hgiven

end Prepared

end Opto.Mapped
