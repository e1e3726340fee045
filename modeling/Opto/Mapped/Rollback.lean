import Opto.Mapped.Checked
import Opto.Mapped.Transaction

/-!
# Rollback undoes apply

Every step of an applied delta keeps the undo record complete: a row that is
about to change was saved before. Writing the record back gives the netlist the
delta was applied to.
-/

namespace Opto.Mapped

/-- The part of a netlist that no operation of a delta writes. -/
def MappedNetlist.frame (n : MappedNetlist) : MappedNetlist :=
  { n with nets := [], cells := [], connections := [], pinOwners := [], pinLinks := [], netPins := [] }

/-- Nets and pins have their adjacency rows. -/
structure Aligned (n : MappedNetlist) : Prop where
  netPins : n.netPins.length = n.nets.length
  pinLinks : n.pinLinks.length = n.connections.length
  pinOwners : n.pinOwners.length = n.connections.length

/-- The undo record restores `old`. -/
structure Undo (old : MappedNetlist) (s : Editing) : Prop where
  nets : Undoes old.nets s.netlist.nets s.applied.oldNets
  cells : Undoes old.cells s.netlist.cells s.applied.oldCells
  connections : Undoes old.connections s.netlist.connections s.applied.oldConnections
  netPins : Undoes old.netPins s.netlist.netPins s.applied.oldNetPins
  pinLinks : Undoes old.pinLinks s.netlist.pinLinks s.applied.oldPinLinks
  pinOwners : old.pinOwners <+: s.netlist.pinOwners
  frame : s.netlist.frame = old.frame
  netLen : s.applied.oldNetLen = old.nets.length
  cellLen : s.applied.oldCellLen = old.cells.length
  connectionLen : s.applied.oldConnectionLen = old.connections.length
  old : Aligned old
  current : Aligned s.netlist

/-- What a step adds to the undo record stays in it. -/
structure Carries (s s' : Editing) : Prop where
  nets : ∀ i, (s.applied.oldNets.lookup i).isSome → (s'.applied.oldNets.lookup i).isSome
  cells : ∀ i, (s.applied.oldCells.lookup i).isSome → (s'.applied.oldCells.lookup i).isSome
  connections : ∀ i, (s.applied.oldConnections.lookup i).isSome →
    (s'.applied.oldConnections.lookup i).isSome
  netPins : ∀ i, (s.applied.oldNetPins.lookup i).isSome → (s'.applied.oldNetPins.lookup i).isSome
  pinLinks : ∀ i, (s.applied.oldPinLinks.lookup i).isSome → (s'.applied.oldPinLinks.lookup i).isSome
  header : ({ s'.applied with
      oldNets := [], oldCells := [], oldConnections := [], oldNetPins := [], oldPinLinks := []
      renamedNets := [] } : AppliedRegionDelta) =
    { s.applied with
      oldNets := [], oldCells := [], oldConnections := [], oldNetPins := [], oldPinLinks := []
      renamedNets := [] }

namespace Carries

variable {s t u : Editing}

theorem refl (s : Editing) : Carries s s :=
  ⟨fun _ h => h, fun _ h => h, fun _ h => h, fun _ h => h, fun _ h => h, rfl⟩

theorem of_applied (h : t.applied = s.applied) : Carries s t := by
  constructor <;> rw [h] <;> exact fun _ h => h

theorem trans (h : Carries s t) (h' : Carries t u) : Carries s u :=
  ⟨fun i hi => h'.nets i (h.nets i hi), fun i hi => h'.cells i (h.cells i hi),
    fun i hi => h'.connections i (h.connections i hi), fun i hi => h'.netPins i (h.netPins i hi),
    fun i hi => h'.pinLinks i (h.pinLinks i hi), h'.header.trans h.header⟩

end Carries

/-- A step from `s` that succeeds keeps the record complete. -/
def Safe (old : MappedNetlist) (s : Editing) (m : Except Panic Editing) : Prop :=
  Settles m (fun s' => Undo old s' ∧ Carries s s') fun _ => True

namespace Safe

variable {old : MappedNetlist} {s : Editing}

theorem pure (h : Undo old s) : Safe old s (Except.ok s) := ⟨h, Carries.refl s⟩

theorem bind {m : Except Panic Editing} {k : Editing → Except Panic Editing} (h : Safe old s m)
    (hk : ∀ s', Undo old s' → Carries s s' → Safe old s' (k s')) : Safe old s (m >>= k) :=
  Settles.bind h fun s' ⟨hu, hc⟩ => (hk s' hu hc).mono fun _ ⟨hu', hc'⟩ => ⟨hu', hc.trans hc'⟩

theorem after {t : Editing} {m : Except Panic Editing} (hc : Carries s t) (h : Safe old t m) :
    Safe old s m :=
  Settles.mono h fun _ ⟨hu, hc'⟩ => ⟨hu, hc.trans hc'⟩

theorem read {α : Type} {m : Except Panic α} {k : α → Except Panic Editing} {Q : α → Prop}
    (h : Settles m Q fun _ => True) (hk : ∀ a, Q a → Safe old s (k a)) : Safe old s (m >>= k) :=
  Settles.bind h hk

theorem foldlM {β : Type} {f : Editing → β → Except Panic Editing} {xs : List β} (h : Undo old s)
    (hf : ∀ x ∈ xs, ∀ s', Undo old s' → Safe old s' (f s' x)) : Safe old s (xs.foldlM f s) := by
  induction xs generalizing s with
  | nil => exact Safe.pure h
  | cons x xs ih =>
    rw [List.foldlM_cons]
    exact (hf x List.mem_cons_self s h).bind fun s' hu _ =>
      ih hu fun y hy => hf y (List.mem_cons_of_mem x hy)

end Safe

namespace Editing

variable {old : MappedNetlist} {s : Editing}

/-! Saving rows. -/

theorem saveNet_safe (h : Undo old s) (net : NetId) : Settles (s.saveNet net)
    (fun s' => (Undo old s' ∧ Carries s s') ∧
      (net < old.nets.length → (s'.applied.oldNets.lookup net).isSome)) fun _ => True := by
  rw [saveNet]
  split_ifs with hlt
  · apply Settles.bind (rowAt_settles _ net)
    intro slot hslot
    rw [h.netLen] at hlt
    refine ⟨⟨{ h with nets := h.nets.save hlt hslot }, ?_⟩, fun _ => lookup_saveOnce_self _ _ _⟩
    exact { Carries.refl s with nets := fun i hi => isSome_lookup_saveOnce hi slot }
  · exact ⟨⟨h, Carries.refl s⟩, fun hc => absurd (h.netLen ▸ hc) hlt⟩

theorem saveNetPins_safe (h : Undo old s) (net : NetId) : Settles (s.saveNetPins net)
    (fun s' => (Undo old s' ∧ Carries s s') ∧
      (net < old.netPins.length → (s'.applied.oldNetPins.lookup net).isSome)) fun _ => True := by
  rw [saveNetPins]
  split_ifs with hlt
  · apply Settles.bind (rowAt_settles _ net)
    intro pins hpins
    rw [h.netLen, ← h.old.netPins] at hlt
    refine ⟨⟨{ h with netPins := h.netPins.save hlt hpins }, ?_⟩, fun _ => lookup_saveOnce_self _ _ _⟩
    exact { Carries.refl s with netPins := fun i hi => isSome_lookup_saveOnce hi pins }
  · exact ⟨⟨h, Carries.refl s⟩, fun hc => absurd (h.netLen ▸ h.old.netPins ▸ hc) hlt⟩

theorem savePinLinks_safe (h : Undo old s) (pin : PinId) : Settles (s.savePinLinks pin)
    (fun s' => (Undo old s' ∧ Carries s s') ∧
      (pin < old.pinLinks.length → (s'.applied.oldPinLinks.lookup pin).isSome)) fun _ => True := by
  rw [savePinLinks]
  split_ifs with hlt
  · apply Settles.bind (rowAt_settles _ pin)
    intro links hlinks
    rw [h.connectionLen, ← h.old.pinLinks] at hlt
    refine ⟨⟨{ h with pinLinks := h.pinLinks.save hlt hlinks }, ?_⟩, fun _ => lookup_saveOnce_self _ _ _⟩
    exact { Carries.refl s with pinLinks := fun i hi => isSome_lookup_saveOnce hi links }
  · exact ⟨⟨h, Carries.refl s⟩, fun hc => absurd (h.connectionLen ▸ h.old.pinLinks ▸ hc) hlt⟩

/-- A row of `old` is saved; the slot of a new cell never is. -/
theorem saveCell_safe (h : Undo old s) {cell : CellId} (hcell : cell < old.cells.length) :
    Settles (s.saveCell cell) (fun s' => (Undo old s' ∧ Carries s s') ∧
      (s'.applied.oldCells.lookup cell).isSome) fun _ => True := by
  apply Settles.bind (rowAt_settles _ cell)
  intro slot hslot
  refine ⟨⟨{ h with cells := h.cells.save hcell hslot }, ?_⟩, lookup_saveOnce_self _ _ _⟩
  exact { Carries.refl s with cells := fun i hi => isSome_lookup_saveOnce hi slot }

theorem saveConnection_safe (h : Undo old s) {pin : PinId} (hpin : pin < old.connections.length) :
    Settles (s.saveConnection pin) (fun s' => (Undo old s' ∧ Carries s s') ∧
      (s'.applied.oldConnections.lookup pin).isSome) fun _ => True := by
  apply Settles.bind (rowAt_settles _ pin)
  intro connection hconnection
  refine ⟨⟨{ h with connections := h.connections.save hpin hconnection }, ?_⟩,
    lookup_saveOnce_self _ _ _⟩
  exact { Carries.refl s with connections := fun i hi => isSome_lookup_saveOnce hi connection }

/-! Writing rows. -/

theorem modifyLinks_safe (h : Undo old s) {pin : PinId} (f : PinLinks → PinLinks)
    (hsaved : pin < old.pinLinks.length → (s.applied.oldPinLinks.lookup pin).isSome) :
    Safe old s (s.modifyLinks pin f) := by
  apply Settles.bind (modifyRow_settles _ pin f)
  rintro _ rfl
  have hcurrent : Aligned { s.netlist with pinLinks := s.netlist.pinLinks.modify pin f } :=
    { h.current with pinLinks := (List.length_modify ..).trans h.current.pinLinks }
  exact ⟨{ h with pinLinks := h.pinLinks.modify hsaved f, current := hcurrent }, .of_applied rfl⟩

theorem modifyNetPins_safe (h : Undo old s) {net : NetId} (f : NetPins → NetPins)
    (hsaved : net < old.netPins.length → (s.applied.oldNetPins.lookup net).isSome) :
    Safe old s (s.modifyNetPins net f) := by
  apply Settles.bind (modifyRow_settles _ net f)
  rintro _ rfl
  have hcurrent : Aligned { s.netlist with netPins := s.netlist.netPins.modify net f } :=
    { h.current with netPins := (List.length_modify ..).trans h.current.netPins }
  exact ⟨{ h with netPins := h.netPins.modify hsaved f, current := hcurrent }, .of_applied rfl⟩

theorem modifyNet_safe (h : Undo old s) {net : NetId} (f : NetSlot → NetSlot)
    (hsaved : net < old.nets.length → (s.applied.oldNets.lookup net).isSome) :
    Safe old s (s.modifyNet net f) := by
  apply Settles.bind (modifyRow_settles _ net f)
  rintro _ rfl
  have hcurrent : Aligned { s.netlist with nets := s.netlist.nets.modify net f } :=
    { h.current with netPins := h.current.netPins.trans (List.length_modify ..).symm }
  exact ⟨{ h with nets := h.nets.modify hsaved f, current := hcurrent }, .of_applied rfl⟩

theorem modifyCell_safe (h : Undo old s) {cell : CellId} (f : CellSlot → CellSlot)
    (hsaved : (s.applied.oldCells.lookup cell).isSome) : Safe old s (s.modifyCell cell f) := by
  apply Settles.bind (modifyRow_settles _ cell f)
  rintro _ rfl
  have hcurrent : Aligned { s.netlist with cells := s.netlist.cells.modify cell f } := { h.current with }
  exact ⟨{ h with cells := h.cells.modify (fun _ => hsaved) f, current := hcurrent }, .of_applied rfl⟩

theorem modifyConnection_safe (h : Undo old s) {pin : PinId} (f : PinConnection → PinConnection)
    (hsaved : (s.applied.oldConnections.lookup pin).isSome) : Safe old s (s.modifyConnection pin f) := by
  apply Settles.bind (modifyRow_settles _ pin f)
  rintro _ rfl
  have hcurrent : Aligned { s.netlist with connections := s.netlist.connections.modify pin f } :=
    { h.current with
      pinLinks := h.current.pinLinks.trans (List.length_modify ..).symm
      pinOwners := h.current.pinOwners.trans (List.length_modify ..).symm }
  exact ⟨{ h with connections := h.connections.modify (fun _ => hsaved) f, current := hcurrent },
    .of_applied rfl⟩

/-- A row saved by the first step may be written by the rest. -/
theorem save_bind {m : Except Panic Editing} {k : Editing → Except Panic Editing} {P : Editing → Prop}
    (h : Settles m (fun s' => (Undo old s' ∧ Carries s s') ∧ P s') fun _ => True)
    (hk : ∀ s', Undo old s' → Carries s s' → P s' → Safe old s' (k s')) : Safe old s (m >>= k) :=
  Settles.bind h fun s' ⟨⟨hu, hc⟩, hp⟩ => (hk s' hu hc hp).mono fun _ ⟨hu', hc'⟩ => ⟨hu', hc.trans hc'⟩

theorem writeNeighbour_safe (h : Undo old s) {net : NetId} (neighbour : Option PinId)
    (f : PinLinks → PinLinks) (g : NetPins → NetPins)
    (hnet : net < old.netPins.length → (s.applied.oldNetPins.lookup net).isSome) :
    Safe old s (s.writeNeighbour neighbour f net g) := by
  cases neighbour with
  | some pin => exact save_bind (savePinLinks_safe h pin) fun s' hu _ hsaved => modifyLinks_safe hu f hsaved
  | none => exact modifyNetPins_safe h g hnet

theorem unlinkPin_safe (h : Undo old s) (pin : PinId) : Safe old s (s.unlinkPin pin) := by
  apply Safe.read (rowAt_settles _ pin)
  intro connection _
  cases connection.signal with
  | constant _ => exact trivial
  | net net =>
    apply Safe.read (rowAt_settles _ pin)
    intro links _
    apply save_bind (saveNetPins_safe h net)
    intro s hu _ hnet
    apply save_bind (savePinLinks_safe hu pin)
    intro s hu hc hpin
    replace hnet := fun hlt => hc.netPins net (hnet hlt)
    apply Safe.bind (writeNeighbour_safe hu links.previous _ _ hnet)
    intro s hu hc
    replace hnet := fun hlt => hc.netPins net (hnet hlt)
    replace hpin := fun hlt => hc.pinLinks pin (hpin hlt)
    apply Safe.bind (writeNeighbour_safe hu links.next _ _ hnet)
    intro s hu hc
    exact modifyLinks_safe hu _ fun hlt => hc.pinLinks pin (hpin hlt)

theorem linkPin_safe (h : Undo old s) (net : NetId) (pin : PinId) : Safe old s (s.linkPin net pin) := by
  apply Safe.read (rowAt_settles _ net)
  intro pins _
  apply save_bind (saveNetPins_safe h net)
  intro s hu _ hnet
  apply save_bind (savePinLinks_safe hu pin)
  intro s hu hc hpin
  replace hnet := fun hlt => hc.netPins net (hnet hlt)
  apply Safe.bind (writeNeighbour_safe hu pins.tail _ _ hnet)
  intro s hu hc
  replace hnet := fun hlt => hc.netPins net (hnet hlt)
  apply Safe.bind (modifyLinks_safe hu _ fun hlt => hc.pinLinks pin (hpin hlt))
  intro s hu hc
  exact modifyNetPins_safe hu _ fun hlt => hc.netPins net (hnet hlt)

theorem touchSignalNet_safe (h : Undo old s) (signal : ConnectionSignal) (revision : Nat) :
    Safe old s (s.touchSignalNet signal revision) := by
  cases signal with
  | constant _ => exact Safe.pure h
  | net net => exact save_bind (saveNet_safe h net) fun s' hu _ hsaved => modifyNet_safe hu _ hsaved

theorem detachPin_safe (h : Undo old s) (signal : ConnectionSignal) (pin : PinId) :
    Safe old s (s.detachPin signal pin) := by
  cases signal with
  | constant _ => exact Safe.pure h
  | net _ => exact unlinkPin_safe h pin

theorem attachPin_safe (h : Undo old s) (signal : ConnectionSignal) (pin : PinId) :
    Safe old s (s.attachPin signal pin) := by
  cases signal with
  | constant _ => exact Safe.pure h
  | net net => exact linkPin_safe h net pin

/-! Operations. -/

variable {interned : List (String × NameId)} {revision : Nat}

theorem removePin_safe (h : Undo old s) (pin : PinId) : Safe old s (removePin revision s pin) := by
  rw [removePin]
  split_ifs
  · exact trivial
  apply Safe.read (rowAt_settles _ pin)
  intro connection _
  apply Safe.bind (detachPin_safe h connection.signal pin)
  exact fun s' hu _ => touchSignalNet_safe hu _ revision

theorem addPin_safe (h : Undo old s) (id : CellId)
    (connection : String × Option Nat × ConnectionSignal) :
    Safe old s (addPin interned revision id connection s) := by
  obtain ⟨pin, libraryPin, signal⟩ := connection
  rw [addPin]
  split_ifs
  · exact trivial
  apply Safe.read (expectSome_settles _ _)
  intro name _
  have hpushed : Undo old (s.pushPin id ⟨name, libraryPin, signal⟩) :=
    { h with
      connections := h.connections.push _
      pinLinks := h.pinLinks.push _
      pinOwners := h.pinOwners.trans (List.prefix_append _ _)
      current :=
        { netPins := h.current.netPins
          pinLinks := by simp [pushPin, h.current.pinLinks]
          pinOwners := by simp [pushPin, h.current.pinOwners] } }
  have hcarries : Carries s (s.pushPin id ⟨name, libraryPin, signal⟩) := .of_applied rfl
  apply Safe.after hcarries
  apply Safe.bind (attachPin_safe hpushed signal _)
  exact fun s' hu _ => touchSignalNet_safe hu _ revision

/-- The cells and pins an operation writes are cells and pins of `old`. -/
def Known (old : MappedNetlist) : ResolvedOperation → Prop
  | .removeCell cell | .replaceCell cell _ _ | .renameCell cell _ => cell < old.cells.length
  | .reconnectPin pin _ => (old.pinOwner pin).isSome
  | _ => True

theorem pinOwner_eq_some {n : MappedNetlist} {pin : PinId} {owner : CellId}
    (h : n.pinOwner pin = some owner) : n.pinOwners[pin]? = some owner ∧
      ∃ slot, n.cells[owner]? = some slot ∧ slot.live = true ∧
        slot.cell.connectionStart ≤ pin ∧ pin < slot.cell.connectionEnd := by
  obtain ⟨o, ho, hrest⟩ := Option.bind_eq_some_iff.mp h
  obtain ⟨cell, hcell, hrange⟩ := Option.bind_eq_some_iff.mp hrest
  split_ifs at hrange with hr
  cases hrange
  obtain ⟨slot, hslot, rfl⟩ := Option.map_eq_some_iff.mp hcell
  obtain ⟨hslot, hlive⟩ := Option.filter_eq_some_iff.mp hslot
  exact ⟨ho, slot, hslot, hlive, hr⟩

theorem commit_safe (h : Undo old s) {operation : ResolvedOperation} (hknown : Known old operation) :
    Safe old s (commit interned revision s operation) := by
  cases operation with
  | addNet id name =>
    simp only [commit]
    split_ifs
    · exact trivial
    apply Safe.read (settles_trivial _)
    intro name _
    have hcurrent : Aligned (s.pushNet ⟨name, true, revision⟩).netlist :=
      { h.current with netPins := by simp [pushNet, h.current.netPins] }
    exact ⟨{ h with nets := h.nets.push _, netPins := h.netPins.push _, current := hcurrent },
      .of_applied rfl⟩
  | addCell id spec connections =>
    simp only [commit]
    split_ifs
    · exact trivial
    apply Safe.read (settles_trivial _)
    intro _ _
    apply Safe.bind (Safe.foldlM h fun connection _ s' hu => addPin_safe hu id connection)
    intro s hu _
    apply Safe.read (settles_trivial _)
    intro _ _
    apply Safe.read (settles_trivial _)
    intro name _
    apply Safe.read (settles_trivial _)
    intro cellType _
    exact ⟨{ hu with cells := hu.cells.push _, current := { hu.current with } }, .of_applied rfl⟩
  | removeCell cell =>
    simp only [commit]
    apply save_bind (saveCell_safe h hknown)
    intro s hu _ hsaved
    apply Safe.read (rowAt_settles _ cell)
    intro slot _
    apply Safe.bind (Safe.foldlM hu fun pin _ s' hu' => removePin_safe hu' pin)
    intro s hu hc
    exact modifyCell_safe hu _ (hc.cells cell hsaved)
  | removeNet net =>
    exact save_bind (saveNet_safe h net) fun s' hu _ hsaved => modifyNet_safe hu _ hsaved
  | reconnectPin pin signal =>
    obtain ⟨oldOwner, holdOwner⟩ := Option.isSome_iff_exists.mp hknown
    obtain ⟨howner, slot, hslot, -⟩ := pinOwner_eq_some holdOwner
    have hpin : pin < old.connections.length := by
      rw [← h.old.pinOwners]
      exact (List.getElem?_eq_some_iff.mp howner).1
    simp only [commit]
    apply save_bind (saveConnection_safe h hpin)
    intro s hu _ hsaved
    apply Safe.read (rowAt_settles _ pin)
    intro connection _
    apply Safe.bind (detachPin_safe hu connection.signal pin)
    intro s hu hc
    apply Safe.bind (modifyConnection_safe hu _ (hc.connections pin hsaved))
    intro s hu _
    apply Safe.bind (attachPin_safe hu signal pin)
    intro s hu _
    apply Safe.read (expectSome_settles _ _)
    intro owner hcurrent
    have hsame : owner = oldOwner := by
      obtain ⟨rest, hrest⟩ := hu.pinOwners
      have hat := (pinOwner_eq_some hcurrent).1
      rw [← hrest, List.getElem?_append_left (List.getElem?_eq_some_iff.mp howner).1, howner] at hat
      exact (Option.some.inj hat).symm
    have hcell : owner < old.cells.length := hsame ▸ (List.getElem?_eq_some_iff.mp hslot).1
    apply save_bind (saveCell_safe hu hcell)
    intro s hu _ hsaved
    apply Safe.bind (modifyCell_safe hu _ hsaved)
    intro s hu _
    apply Safe.bind (touchSignalNet_safe hu connection.signal revision)
    exact fun s hu _ => touchSignalNet_safe hu signal revision
  | replaceCell cell cellType libraryCell =>
    simp only [commit]
    apply save_bind (saveCell_safe h hknown)
    intro s hu _ hsaved
    apply Safe.read (expectSome_settles _ _)
    intro name _
    exact modifyCell_safe hu _ hsaved
  | renameCell cell name =>
    simp only [commit]
    apply save_bind (saveCell_safe h hknown)
    intro s hu _ hsaved
    apply Safe.read (expectSome_settles _ _)
    intro name _
    exact modifyCell_safe hu _ hsaved
  | renameNet net name =>
    simp only [commit]
    apply save_bind (saveNet_safe h net)
    intro s hu _ hsaved
    have hrenamed : Undo old { s with applied := { s.applied with
        renamedNets := insertKey net s.applied.renamedNets } } := { hu with }
    have hcarries : Carries s { s with applied := { s.applied with
        renamedNets := insertKey net s.applied.renamedNets } } := { Carries.refl s with }
    apply Safe.after hcarries
    apply Safe.read (settles_trivial _)
    intro name _
    exact modifyNet_safe hrenamed _ hsaved

theorem retainRenamed_safe (h : Undo old s) : Safe old s s.retainRenamed := by
  apply Safe.read (settles_trivial _)
  intro kept _
  exact ⟨{ h with }, { Carries.refl s with }⟩

theorem commits_safe (h : Undo old s) {operations : List ResolvedOperation}
    (hknown : ∀ operation ∈ operations, Known old operation) :
    Safe old s (operations.foldlM (commit interned revision) s) :=
  Safe.foldlM h fun operation hmem _ hu => commit_safe hu (hknown operation hmem)

end Editing

/-! Interning. -/

theorem internNames_spec (names : List String) (t : NameTable) (interned : List (String × NameId))
    (h : ∀ entry ∈ interned, t.resolve entry.2 = some entry.1) :
    t.Extends (internNames t interned names).1 ∧ ∀ result,
      (internNames t interned names).2 = .ok result →
        (∀ entry ∈ result, (internNames t interned names).1.resolve entry.2 = some entry.1) ∧
        (∀ name, (interned.lookup name).isSome → (result.lookup name).isSome) ∧
        ∀ name ∈ names, (result.lookup name).isSome := by
  induction names generalizing t interned with
  | nil =>
    refine ⟨.refl t, ?_⟩
    rintro _ ⟨⟩
    exact ⟨h, fun _ hname => hname, nofun⟩
  | cons name names ih =>
    rw [internNames]
    split_ifs with hknown
    · obtain ⟨hextends, hresult⟩ := ih t interned h
      refine ⟨hextends, fun result hr => ?_⟩
      obtain ⟨hids, hold, hnew⟩ := hresult result hr
      refine ⟨hids, hold, fun other hother => ?_⟩
      rcases List.mem_cons.mp hother with rfl | hother
      · exact hold _ hknown
      · exact hnew other hother
    · cases hintern : t.intern name with
      | error error => exact ⟨.refl t, nofun⟩
      | ok result =>
        obtain ⟨id, u⟩ := result
        obtain ⟨hextends, hid⟩ := NameTable.intern_ok hintern
        have hentries : ∀ entry ∈ (name, id) :: interned, u.resolve entry.2 = some entry.1 := by
          intro entry hentry
          rcases List.mem_cons.mp hentry with rfl | hentry
          · exact hid
          · exact hextends.resolve (h entry hentry)
        obtain ⟨hrest, hresult⟩ := ih u _ hentries
        refine ⟨hextends.trans hrest, fun result hr => ?_⟩
        obtain ⟨hids, hold, hnew⟩ := hresult result hr
        have hname : (result.lookup name).isSome := by
          apply hold
          rw [lookup_cons, if_pos rfl]
          rfl
        refine ⟨hids, fun other hother => ?_, fun other hother => ?_⟩
        · apply hold
          rw [lookup_cons]
          split_ifs
          · rfl
          · exact hother
        · rcases List.mem_cons.mp hother with rfl | hother
          · exact hname
          · exact hnew other hother

/-- The names of the prepared operations, interned into `names`. -/
structure Interned (n : MappedNetlist) (p : PreparedDelta) (names : NameTable)
    (interned : List (String × NameId)) : Prop where
  extends' : n.names.Extends names
  ids : ∀ entry ∈ interned, names.resolve entry.2 = some entry.1
  known : ∀ name ∈ operationNames p.resolved.operations, (interned.lookup name).isSome

/-- A delta that passes the checks and whose names can be interned. -/
def Accepted (n : MappedNetlist) (delta : RegionDelta) : Prop :=
  ∃ p names interned, n.prepare delta = .ok p ∧
    internNames n.names [] (operationNames p.resolved.operations) = (names, .ok interned)

/-- An application is rejected, or it commits what it prepared. -/
theorem applyRegionDelta_cases (n : MappedNetlist) (delta : RegionDelta) :
    (∃ stop, n.prepare delta = .error stop ∧ n.applyRegionDelta delta = (.error stop, n)) ∨
    (∃ error, ¬Accepted n delta ∧
      n.applyRegionDelta delta = (.error (.conflict (.invalid (.name error))), n)) ∨
    ∃ p names interned, Accepted n delta ∧ Prepared n delta p ∧ Interned n p names interned ∧
      n.applyRegionDelta delta = match n.commitDelta p names interned with
        | .ok (applied, n') => (.ok applied, n')
        | .error panic => (.error (.panic panic), n) := by
  rw [MappedNetlist.applyRegionDelta]
  cases hprepare : n.prepare delta with
  | error stop => exact .inl ⟨stop, rfl, rfl⟩
  | ok p =>
    have hp : Prepared n delta p := (prepare_settles n delta).ok hprepare
    obtain ⟨hextends, hresult⟩ := internNames_spec (operationNames p.resolved.operations) n.names [] nofun
    cases hnames : internNames n.names [] (operationNames p.resolved.operations) with
    | mk names result =>
      rw [hnames] at hextends hresult
      right
      cases result with
      | error error =>
        have hback : names.rollback n.names.checkpoint = .ok n.names := hextends.rollback
        refine .inl ⟨error, ?_, by simp only [hnames, hback]⟩
        rintro ⟨q, names', interned, hq, hinterned⟩
        cases hprepare.symm.trans hq
        cases hnames.symm.trans hinterned
      | ok interned =>
        obtain ⟨hids, -, hknown⟩ := hresult interned rfl
        refine .inr ⟨p, names, interned, ⟨p, names, interned, hprepare, hnames⟩, hp,
          ⟨hextends, hids, hknown⟩, ?_⟩
        cases hcommit : n.commitDelta p names interned with
        | ok _ => simp only [hnames, hcommit]
        | error _ => simp only [hnames, hcommit]

theorem applyRegionDelta_ok {n n' : MappedNetlist} {delta : RegionDelta} {applied : AppliedRegionDelta}
    (h : n.applyRegionDelta delta = (.ok applied, n')) :
    ∃ p names interned, Prepared n delta p ∧ Interned n p names interned ∧
      n.commitDelta p names interned = .ok (applied, n') := by
  rcases applyRegionDelta_cases n delta with
    ⟨stop, -, hrun⟩ | ⟨error, -, hrun⟩ | ⟨p, names, interned, -, hp, hi, hrun⟩
  · rw [hrun] at h
    cases h
  · rw [hrun] at h
    cases h
  · refine ⟨p, names, interned, hp, hi, ?_⟩
    rw [hrun] at h
    cases hcommit : n.commitDelta p names interned with
    | error panic => rw [hcommit] at h; cases h
    | ok result => rw [hcommit] at h; cases h; rfl

/-! The undo record of a whole application. -/

theorem OperationValid.known {n : MappedNetlist} {snapshot : RegionSnapshot} {newNets : List NetId}
    (hcurrent : Current n snapshot) {operation : ResolvedOperation}
    (h : OperationValid n snapshot newNets operation) : Editing.Known n operation := by
  have hcell {cell : CellId} (hc : snapshot.containsCell cell = true) : cell < n.cells.length := by
    obtain ⟨slot, hslot, -⟩ := hcurrent.cell hc
    exact (List.getElem?_eq_some_iff.mp hslot).1
  cases operation with
  | removeCell cell => exact hcell h.1
  | replaceCell cell _ _ | renameCell cell _ => exact hcell h
  | reconnectPin pin signal =>
    obtain ⟨owner, -, howner, -⟩ := h
    exact Option.isSome_iff_exists.mpr ⟨owner, howner⟩
  | _ => trivial

theorem eq_of_frame {m n : MappedNetlist} (h : m.frame = n.frame) : m = { n with
    nets := m.nets, cells := m.cells, connections := m.connections, pinOwners := m.pinOwners
    pinLinks := m.pinLinks, netPins := m.netPins } := by
  cases m
  cases n
  simpa [MappedNetlist.frame] using h

/-- Rolling back writes the whole record over the netlist. -/
theorem Undo.rollback {n : MappedNetlist} {names : NameTable} (hnames : n.names.Extends names)
    {p : PreparedDelta} {s : Editing} (h : Undo { n with names } s)
    (hheader : Carries ⟨{ n with names }, n.beginApplied p⟩ s) :
    ({ s.netlist with
      liveNetCount := p.netCount
      liveCellCount := p.cellCount
      editRevision := p.revision } : MappedNetlist).rollbackRegionDelta s.applied = (.ok (), n) := by
  have hheader := hheader.header
  have hgeneration : s.applied.generation = n.generation := congrArg AppliedRegionDelta.generation hheader
  have hcommitted : s.applied.committedRevision = p.revision :=
    congrArg AppliedRegionDelta.committedRevision hheader
  have hprevious : s.applied.previousRevision = n.editRevision :=
    congrArg AppliedRegionDelta.previousRevision hheader
  have hnets : s.applied.previousNetCount = n.liveNetCount :=
    congrArg AppliedRegionDelta.previousNetCount hheader
  have hcells : s.applied.previousCellCount = n.liveCellCount :=
    congrArg AppliedRegionDelta.previousCellCount hheader
  have hcheckpoint : s.applied.names = n.names.checkpoint := congrArg AppliedRegionDelta.names hheader
  have hframe := eq_of_frame h.frame
  have howners : s.netlist.pinOwners.take s.applied.oldConnectionLen = n.pinOwners := by
    have hlen : s.applied.oldConnectionLen = n.pinOwners.length := h.connectionLen.trans h.old.pinOwners.symm
    rw [hlen]
    exact (List.prefix_iff_eq_take.mp h.pinOwners).symm
  have hrestored : ({ s.netlist with
      liveNetCount := p.netCount
      liveCellCount := p.cellCount
      editRevision := p.revision } : MappedNetlist).restoreTables s.applied =
        .ok { n with names, editRevision := p.revision } := by
    have hc := h.connections.restore
    have hce := h.cells.restore
    have hn := h.nets.restore
    have hnp := h.netPins.restore
    have hpl := h.pinLinks.restore
    rw [← h.connectionLen] at hc
    rw [← h.cellLen] at hce
    rw [← h.netLen] at hn
    rw [h.old.netPins, ← h.netLen] at hnp
    rw [h.old.pinLinks, ← h.connectionLen] at hpl
    simp only [MappedNetlist.restoreTables, hc, hce, hn, hnp, hpl, howners, hnets, hcells, bind,
      Except.bind, pure, Except.pure]
    rw [hframe]
  rw [MappedNetlist.rollbackRegionDelta, if_neg (by rw [hgeneration, hframe]; exact fun hne => hne rfl),
    if_neg (by rw [hcommitted]; exact fun hne => hne rfl), hrestored]
  dsimp only
  rw [hcheckpoint, hnames.rollback]
  dsimp only
  rw [hprevious]

theorem commitDelta_settles {n : MappedNetlist} (hn : Aligned n) {delta : RegionDelta}
    {p : PreparedDelta} (hp : Prepared n delta p) {names : NameTable}
    {interned : List (String × NameId)} (hi : Interned n p names interned) :
    Settles (n.commitDelta p names interned) (fun r =>
      Aligned r.2 ∧ r.2.rollbackRegionDelta r.1 = (.ok (), n)) fun _ => True := by
  have hknown : ∀ operation ∈ p.resolved.operations, Editing.Known { n with names } operation :=
    fun operation hmem => OperationValid.known hp.current (hp.valid operation hmem)
  have hstart : Undo { n with names } ⟨{ n with names }, n.beginApplied p⟩ :=
    ⟨.refl _, .refl _, .refl _, .refl _, .refl _, List.prefix_rfl, rfl, rfl, rfl, rfl, { hn with },
      { hn with }⟩
  apply Settles.bind (Editing.commits_safe hstart hknown)
  rintro s ⟨hu, hc⟩
  apply Settles.bind (Editing.retainRenamed_safe hu)
  rintro s ⟨hu, hc'⟩
  exact ⟨{ hu.current with }, hu.rollback hi.extends' (hc.trans hc')⟩

/-! Stacks of applications. -/

/-- The undo records of the deltas applied since `n`, the last one on top. -/
inductive Stacked (n : MappedNetlist) : List AppliedRegionDelta → MappedNetlist → Prop
  | nil : Stacked n [] n
  | apply {stack : List AppliedRegionDelta} {m m' : MappedNetlist} {delta : RegionDelta}
      {applied : AppliedRegionDelta} : Stacked n stack m →
      m.applyRegionDelta delta = (.ok applied, m') → Stacked n (applied :: stack) m'

def rollbackAll (n : MappedNetlist) : List AppliedRegionDelta → Except Stop MappedNetlist
  | [] => .ok n
  | applied :: stack =>
    match n.rollbackRegionDelta applied with
    | (.ok (), n) => rollbackAll n stack
    | (.error stop, _) => .error stop

theorem rollback_apply {n n' : MappedNetlist} (hn : Aligned n) {delta : RegionDelta}
    {applied : AppliedRegionDelta} (h : n.applyRegionDelta delta = (.ok applied, n')) :
    Aligned n' ∧ n'.rollbackRegionDelta applied = (.ok (), n) := by
  obtain ⟨p, names, interned, hp, hi, hcommit⟩ := applyRegionDelta_ok h
  exact (commitDelta_settles hn hp hi).ok hcommit

theorem rollback_stacked {n m : MappedNetlist} (hn : Aligned n) {stack : List AppliedRegionDelta}
    (h : Stacked n stack m) : Aligned m ∧ rollbackAll m stack = .ok n := by
  induction h with
  | nil => exact ⟨hn, rfl⟩
  | apply _ hrun ih =>
    obtain ⟨haligned, hback⟩ := rollback_apply ih.1 hrun
    refine ⟨haligned, ?_⟩
    rw [rollbackAll, hback]
    exact ih.2

/-- An immediate rollback restores the netlist a delta was applied to, and rolling
back a stack of deltas from the top restores the first one. -/
theorem rollback_restores {n : MappedNetlist} (hn : Aligned n) :
    (∀ delta applied n', n.applyRegionDelta delta = (.ok applied, n') →
      n'.rollbackRegionDelta applied = (.ok (), n)) ∧
    ∀ stack m, Stacked n stack m → rollbackAll m stack = .ok n :=
  ⟨fun _ _ _ h => (rollback_apply hn h).2, fun _ _ h => (rollback_stacked hn h).2⟩

/-- One inverter from net `a` to net `y`. -/
def inverter : MappedNetlist where
  generation := 0
  editRevision := 0
  published := false
  name := 0
  names := ⟨["top", "a", "y", "u1", "INV", "A", "Y"], [], by decide⟩
  nets := [⟨some 1, true, 0⟩, ⟨some 2, true, 0⟩]
  liveNetCount := 2
  ports := []
  portNets := []
  cells := [⟨⟨3, 4, none, 0, 2⟩, true, 0⟩]
  liveCellCount := 1
  connections := [⟨5, none, .net 0⟩, ⟨6, none, .net 1⟩]
  pinOwners := [0, 0]
  pinLinks := [⟨none, none⟩, ⟨none, none⟩]
  netPins := [⟨some 0, some 0⟩, ⟨some 1, some 1⟩]
  designInstances := []
  designConnections := []
  designConnectionSignals := []
  constantDrivers := []
  externalNets := []

/-- Drives net `y` through a second inverter. -/
def buffered : RegionDelta where
  snapshot := ⟨0, [(0, 0)], [(0, 0), (1, 0)]⟩
  identity := 0
  operations := [.addNet ⟨0, 0⟩ (some "m"), .reconnectPin 1 (.newNet ⟨0, 0⟩),
    .addCell ⟨0, 0⟩ ⟨"u2", "INV", none, [("A", none, .newNet ⟨0, 0⟩), ("Y", none, .net 1)]⟩]
  nextTempNet := 1
  nextTempCell := 1
  tempNets := by decide
  tempCells := by decide

theorem inverter_rolled_back : ∃ applied n', inverter.applyRegionDelta buffered = (.ok applied, n') ∧
    n'.rollbackRegionDelta applied = (.ok (), inverter) ∧ rollbackAll n' [applied] = .ok inverter := by
  have haligned : Aligned inverter := ⟨rfl, rfl, rfl⟩
  obtain ⟨hback, hstack⟩ := rollback_restores haligned
  have hok : (inverter.applyRegionDelta buffered).1.isOk = true := by decide +kernel
  cases hrun : inverter.applyRegionDelta buffered with
  | mk result n' =>
    rw [hrun] at hok
    cases result with
    | error _ => cases hok
    | ok applied =>
      exact ⟨applied, n', rfl, hback buffered applied n' hrun,
        hstack [applied] n' (.apply .nil hrun)⟩

end Opto.Mapped
