import Opto.Mapped.Commit

/-!
# Operations one by one

The effect of every operation on a wired netlist, and when it can fail.
-/

namespace Opto.Mapped

def idOf (interned : List (String × NameId)) (name : String) : NameId := (interned.lookup name).getD 0

theorem nameId_eq {interned : List (String × NameId)} {name : String}
    (h : (interned.lookup name).isSome) : Editing.nameId interned name = .ok (idOf interned name) := by
  obtain ⟨id, hid⟩ := Option.isSome_iff_exists.mp h
  rw [Editing.nameId, idOf, hid]
  rfl

theorem nameIds_eq {interned : List (String × NameId)} {name : Option String}
    (h : ∀ x ∈ name, (interned.lookup x).isSome) :
    name.mapM (Editing.nameId interned) = .ok (name.map (idOf interned)) := by
  cases name with
  | none => rfl
  | some x =>
    rw [Option.mapM_some, nameId_eq (h x rfl)]
    rfl

/-- The slots an operation names are the slots it was planned for. -/
def Fits (c : Contents) : ResolvedOperation → Prop
  | .addNet id _ => id = c.nets.length
  | .addCell id spec connections => id = c.cells.length ∧
    c.connections.length + connections.length ≤ U32_MAX ∧
      connections.map (·.1) = spec.connections.map (·.1)
  | .removeCell cell => ∃ x, c.cells[cell]? = some (x, true)
  | .removeNet net | .renameNet net _ => net < c.nets.length
  | .reconnectPin pin _ => pin < c.connections.length
  | .replaceCell cell _ _ | .renameCell cell _ => cell < c.cells.length

/-- Pins of living cells are connected to nets that are there. -/
def Ready (c : Contents) : ResolvedOperation → Prop
  | .addCell _ _ connections =>
    ∀ connection ∈ connections, ∀ net, connection.2.2 = .net net → net < c.nets.length
  | .reconnectPin pin signal => c.Live pin ∧ ∀ net, signal = .net net → net < c.nets.length
  | _ => True

structure Performed (interned : List (String × NameId)) (revision : Nat) (n : MappedNetlist)
    (rows : Rows) (operation : ResolvedOperation) (n' : MappedNetlist) : Prop where
  ready : Ready n.contents operation
  contents : n'.contents = n.contents.apply (idOf interned) operation
  wired : ∃ rows', Wired n' rows' ∧ Stepped revision n rows n' rows'

namespace Editing

variable {s : Editing} {rows : Rows} {interned : List (String × NameId)} {revision : Nat}

/-! Nets. -/

theorem addNet_edits (h : Wired s.netlist rows) {name : Option String}
    (hname : ∀ x ∈ name, (interned.lookup x).isSome) :
    Edits s (commit interned revision s (.addNet s.netlist.nets.length name))
      (Performed interned revision s.netlist rows (.addNet s.netlist.nets.length name)) False := by
  simp only [commit]
  rw [if_neg (not_not.mpr rfl)]
  apply Edits.read rfl
  apply Edits.read (nameIds_eq hname)
  apply Edits.pure
  have hcontents : (s.pushNet ⟨name.map (idOf interned), true, revision⟩).netlist.contents =
      s.netlist.contents.apply (idOf interned) (.addNet s.netlist.nets.length name) :=
    congrArg (fun nets => { s.netlist.contents with nets }) List.map_append
  refine ⟨trivial, hcontents, rows,
    ⟨?_, h.pins, h.capacity, ?_, ⟨?_, ?_, h.threaded.apart, h.threaded.idle⟩, ?_⟩, ?_⟩
  · simp [pushNet, h.nets]
  · rw [hcontents]
    exact h.formed.apply _ _ fun _ _ _ he => by cases he
  · intro net pins hpins
    rcases concat_getElem? hpins with hpins | ⟨rfl, rfl⟩
    · exact h.threaded.chain net pins hpins
    · rw [h.threaded.outside _ (Nat.le_refl _)]
      exact ⟨rfl, rfl, List.nodup_nil, trivial⟩
  · intro net hle
    apply h.threaded.outside net
    simp only [pushNet, List.length_append] at hle
    exact (Nat.le_add_right _ _).trans hle
  · intro pin net
    rw [hcontents]
    exact h.attached pin net
  · refine { Stepped.refl revision s.netlist rows with nets := ?_, newNets := ?_ }
    · intro net slot hslot
      refine ⟨slot, ?_, .inl ⟨rfl, rfl⟩⟩
      simp only [pushNet]
      rw [List.getElem?_append_left (List.getElem?_eq_some_iff.mp hslot).1]
      exact hslot
    · intro net slot hle hslot
      rcases concat_getElem? hslot with hslot | ⟨-, rfl⟩
      · exact absurd (List.getElem?_eq_some_iff.mp hslot).1 (Nat.not_lt.mpr hle)
      · rfl

/-- Writing a net keeps the wiring. -/
theorem writeNet_performed (h : Wired s.netlist rows) {operation : ResolvedOperation} {net : NetId}
    {f : NetSlot → NetSlot} {g : Option NameId × Bool → Option NameId × Bool}
    (hf : ∀ slot, ((f slot).name, (f slot).live) = g (slot.name, slot.live))
    (hversion : ∀ slot, (f slot).version = revision)
    (hready : Ready s.netlist.contents operation)
    (happly : s.netlist.contents.apply (idOf interned) operation =
      { s.netlist.contents with nets := s.netlist.contents.nets.modify net g }) :
    Performed interned revision s.netlist rows operation
      { s.netlist with nets := s.netlist.nets.modify net f } := by
  have hcontents := contents_modifyNet (n := s.netlist) hf net
  refine ⟨hready, hcontents.trans happly.symm, rows, ⟨?_, h.pins, h.capacity, ?_, h.threaded.congr rfl rfl, ?_⟩, ?_⟩
  · exact h.nets.trans (List.length_modify ..).symm
  · rw [hcontents]
    exact ⟨h.formed.owners, h.formed.contiguous, h.formed.owned⟩
  · intro pin net
    rw [hcontents]
    exact h.attached pin net
  · exact .modifyNet hversion net

theorem removeNet_edits (h : Wired s.netlist rows) {net : NetId} (hnet : net < s.netlist.nets.length) :
    Edits s (commit interned revision s (.removeNet net))
      (Performed interned revision s.netlist rows (.removeNet net)) False := by
  apply Edits.bind (saveNet_edits hnet)
  intro s' hs
  rw [← hs] at h hnet ⊢
  apply Edits.mono (modifyNet_edits hnet _)
  rintro _ rfl
  apply writeNet_performed h (g := fun x => (x.1, false))
  exacts [fun _ => rfl, fun _ => rfl, trivial, rfl]

/-! Cells. -/

/-- Writing a cell keeps the wiring. -/
theorem writeCell_performed (h : Wired s.netlist rows) {operation : ResolvedOperation} {cell : CellId}
    {f : CellSlot → CellSlot} {g : MappedCell × Bool → MappedCell × Bool}
    (hf : ∀ slot, ((f slot).cell, (f slot).live) = g (slot.cell, slot.live))
    (hversion : ∀ slot, (f slot).version = revision) (hlive : ∀ x, (g x).2 = x.2)
    (hready : Ready s.netlist.contents operation)
    (happly : s.netlist.contents.apply (idOf interned) operation =
      { s.netlist.contents with cells := s.netlist.contents.cells.modify cell g })
    (hadd : ∀ id spec connections, operation ≠ .addCell id spec connections) :
    Performed interned revision s.netlist rows operation
      { s.netlist with cells := s.netlist.cells.modify cell f } := by
  have hcontents := (contents_modifyCell (n := s.netlist) hf cell).trans happly.symm
  refine ⟨hready, hcontents, rows, ⟨h.nets, h.pins, h.capacity, ?_, h.threaded.congr rfl rfl, ?_⟩, ?_⟩
  · rw [hcontents]
    exact h.formed.apply _ _ fun id spec connections he => absurd he (hadd id spec connections)
  · intro pin net
    rw [hcontents, happly, h.attached]
    exact and_congr_left fun _ => (Contents.live_modify hlive pin).symm
  · exact .modifyCell hversion cell

theorem replaceCell_edits (h : Wired s.netlist rows) {cell : CellId}
    (hcell : cell < s.netlist.cells.length) {cellType : String} (libraryCell : Option Nat)
    (hname : (interned.lookup cellType).isSome) :
    Edits s (commit interned revision s (.replaceCell cell cellType libraryCell))
      (Performed interned revision s.netlist rows (.replaceCell cell cellType libraryCell)) False := by
  apply Edits.bind (saveCell_edits hcell)
  intro s' hs
  rw [← hs] at h hcell ⊢
  apply Edits.read (nameId_eq hname)
  apply Edits.mono (modifyCell_edits hcell _)
  rintro _ rfl
  apply writeCell_performed h
    (g := fun x => ({ x.1 with cellType := idOf interned cellType, libraryCell }, x.2))
  exacts [fun _ => rfl, fun _ => rfl, fun _ => rfl, trivial, rfl, nofun]

theorem renameCell_edits (h : Wired s.netlist rows) {cell : CellId}
    (hcell : cell < s.netlist.cells.length) {name : String} (hname : (interned.lookup name).isSome) :
    Edits s (commit interned revision s (.renameCell cell name))
      (Performed interned revision s.netlist rows (.renameCell cell name)) False := by
  apply Edits.bind (saveCell_edits hcell)
  intro s' hs
  rw [← hs] at h hcell ⊢
  apply Edits.read (nameId_eq hname)
  apply Edits.mono (modifyCell_edits hcell _)
  rintro _ rfl
  apply writeCell_performed h (g := fun x => ({ x.1 with name := idOf interned name }, x.2))
  exacts [fun _ => rfl, fun _ => rfl, fun _ => rfl, trivial, rfl, nofun]

theorem removeCell_edits (h : Wired s.netlist rows) {cell : CellId} {x : MappedCell}
    (hcell : s.netlist.contents.cells[cell]? = some (x, true)) :
    Edits s (commit interned revision s (.removeCell cell))
      (Performed interned revision s.netlist rows (.removeCell cell)) False := by
  obtain ⟨slot, hslot, rfl, hlive⟩ := cells_contents.mp hcell
  apply Edits.bind (saveCell_edits (List.getElem?_eq_some_iff.mp hslot).1)
  intro s' hs
  rw [← hs] at h hcell hslot ⊢
  apply Edits.read (rowAt_eq hslot)
  have hmem := h.formed.mem_range' hcell
  apply Edits.bind (removePins_edits h List.nodup_range'
    (fun pin hpin => ⟨cell, slot.cell, (hmem pin).mp hpin, hcell⟩) revision)
  rintro t ⟨rows', hthreaded, hcontents, hnets, hlinks, hends, hrows, hstepped⟩
  have hlength : t.netlist.cells.length = s'.netlist.cells.length := by
    have hcells := congrArg (fun c : Contents => c.cells.length) hcontents
    simpa [MappedNetlist.contents] using hcells
  have hlt : cell < t.netlist.cells.length := hlength ▸ (List.getElem?_eq_some_iff.mp hslot).1
  apply Edits.mono (modifyCell_edits hlt _)
  rintro _ rfl
  have hremoved : ({ t.netlist with cells := t.netlist.cells.modify cell fun slot =>
      { slot with live := false, version := revision } } : MappedNetlist).contents =
      s'.netlist.contents.apply (idOf interned) (.removeCell cell) := by
    rw [contents_modifyCell (g := fun x => (x.1, false)) fun _ => rfl, hcontents]
    rfl
  have hconnections : t.netlist.connections = s'.netlist.connections :=
    congrArg Contents.connections hcontents
  refine ⟨trivial, hremoved, rows', ⟨?_, ?_, ?_, ?_, hthreaded.congr rfl rfl, ?_⟩, ?_⟩
  · exact hends.trans (h.nets.trans hnets.symm)
  · exact hlinks.trans (h.pins.trans (congrArg List.length hconnections.symm))
  · exact (congrArg List.length hconnections).trans_le h.capacity
  · rw [hremoved]
    exact h.formed.apply _ _ fun _ _ _ he => by cases he
  · intro pin net
    rw [hremoved, hrows, h.attached, hmem, Contents.Attached, Contents.Attached,
      Contents.live_removeCell, and_right_comm]
    rfl
  · apply hstepped.trans
    apply Stepped.modifyCell
    exact fun _ => rfl

/-! Reconnecting a pin. -/

/-- Neither list operations nor connections decide who owns a pin. -/
def OwnersKept (s : Editing) (m : Except Panic Editing) : Prop :=
  Settles m (fun s' => s'.netlist.cells = s.netlist.cells ∧
    s'.netlist.pinOwners = s.netlist.pinOwners) fun _ => True

theorem OwnersKept.bind {m : Except Panic Editing} {k : Editing → Except Panic Editing}
    (h : OwnersKept s m) (hk : ∀ s', OwnersKept s' (k s')) : OwnersKept s (m >>= k) :=
  Settles.bind h fun s' ⟨hc, ho⟩ => Settles.mono (hk s') fun _ ⟨hc', ho'⟩ => ⟨hc'.trans hc, ho'.trans ho⟩

theorem OwnersKept.read {α : Type} {m : Except Panic α} {k : α → Except Panic Editing}
    (hk : ∀ a, OwnersKept s (k a)) : OwnersKept s (m >>= k) :=
  Settles.bind (settles_trivial m) fun a _ => hk a

theorem saveNetPins_kept (net : NetId) : OwnersKept s (s.saveNetPins net) := by
  rw [saveNetPins]
  split_ifs
  · exact OwnersKept.read fun _ => ⟨rfl, rfl⟩
  · exact ⟨rfl, rfl⟩

theorem savePinLinks_kept (pin : PinId) : OwnersKept s (s.savePinLinks pin) := by
  rw [savePinLinks]
  split_ifs
  · exact OwnersKept.read fun _ => ⟨rfl, rfl⟩
  · exact ⟨rfl, rfl⟩

theorem modifyLinks_kept (pin : PinId) (f : PinLinks → PinLinks) : OwnersKept s (s.modifyLinks pin f) :=
  OwnersKept.read fun _ => ⟨rfl, rfl⟩

theorem modifyNetPins_kept (net : NetId) (f : NetPins → NetPins) :
    OwnersKept s (s.modifyNetPins net f) := OwnersKept.read fun _ => ⟨rfl, rfl⟩

theorem saveConnection_kept (pin : PinId) : OwnersKept s (s.saveConnection pin) :=
  OwnersKept.read fun _ => ⟨rfl, rfl⟩

theorem modifyConnection_kept (pin : PinId) (f : PinConnection → PinConnection) :
    OwnersKept s (s.modifyConnection pin f) := OwnersKept.read fun _ => ⟨rfl, rfl⟩

theorem writeNeighbour_kept (neighbour : Option PinId) (f : PinLinks → PinLinks) (net : NetId)
    (g : NetPins → NetPins) : OwnersKept s (s.writeNeighbour neighbour f net g) := by
  cases neighbour with
  | none => exact modifyNetPins_kept net g
  | some pin => exact (savePinLinks_kept pin).bind fun _ => modifyLinks_kept pin f

theorem detachPin_kept (signal : ConnectionSignal) (pin : PinId) :
    OwnersKept s (s.detachPin signal pin) := by
  cases signal with
  | constant _ => exact ⟨rfl, rfl⟩
  | net _ =>
    apply OwnersKept.read
    intro connection
    cases connection.signal with
    | constant _ => exact trivial
    | net net =>
      apply OwnersKept.read
      intro links
      exact (saveNetPins_kept net).bind fun _ => (savePinLinks_kept pin).bind fun _ =>
        (writeNeighbour_kept ..).bind fun _ => (writeNeighbour_kept ..).bind fun _ =>
          modifyLinks_kept pin _

theorem attachPin_kept (signal : ConnectionSignal) (pin : PinId) :
    OwnersKept s (s.attachPin signal pin) := by
  cases signal with
  | constant _ => exact ⟨rfl, rfl⟩
  | net net =>
    apply OwnersKept.read
    intro pins
    exact (saveNetPins_kept net).bind fun _ => (savePinLinks_kept pin).bind fun _ =>
      (writeNeighbour_kept ..).bind fun _ => (modifyLinks_kept pin _).bind fun _ =>
        modifyNetPins_kept net _

/-- The pin of a removed cell is not reconnected. -/
theorem reconnectPin_ownerless {pin : PinId} (h : s.netlist.pinOwner pin = none)
    (signal : ConnectionSignal) :
    Settles (commit interned revision s (.reconnectPin pin signal)) (fun _ => False) fun _ => True := by
  simp only [commit]
  apply Settles.bind (saveConnection_kept pin)
  rintro s₁ ⟨hcells₁, howners₁⟩
  apply Settles.bind (settles_trivial _)
  intro old _
  apply Settles.bind (detachPin_kept old.signal pin)
  rintro s₂ ⟨hcells₂, howners₂⟩
  apply Settles.bind (modifyConnection_kept pin _)
  rintro s₃ ⟨hcells₃, howners₃⟩
  apply Settles.bind (attachPin_kept signal pin)
  rintro s₄ ⟨hcells₄, howners₄⟩
  have hnone : s₄.netlist.pinOwner pin = none := by
    rw [← h]
    simp only [MappedNetlist.pinOwner, MappedNetlist.cell, hcells₄, hcells₃, hcells₂, hcells₁, howners₄,
      howners₃, howners₂, howners₁]
  rw [hnone]
  exact trivial

/-- The rows once a pin is off its old net and on its new one. -/
theorem reconnected_attached {n : MappedNetlist} (h : Wired n rows) {pin : PinId}
    (hlive : n.contents.Live pin) {old : PinConnection} (hconnection : n.connections[pin]? = some old)
    {signal : ConnectionSignal} (ids : String → NameId) (p : PinId) (net : NetId) :
    p ∈ (rows.detach old.signal pin).attach signal pin net ↔
      (n.contents.apply ids (.reconnectPin pin signal)).Attached p net := by
  rw [Rows.mem_attach, Rows.mem_detach (h.threaded.nodup net), h.attached]
  by_cases hp : p = pin
  · subst hp
    have hgone : ¬(n.contents.Attached p net ∧ ¬(old.signal = .net net ∧ p = p)) := by
      rintro ⟨⟨-, c, hc, he⟩, hne⟩
      cases hconnection.symm.trans hc
      exact hne ⟨he, rfl⟩
    have hrow : (n.contents.apply ids (.reconnectPin p signal)).connections[p]? =
        some { old with signal } := by
      simp only [Contents.apply, List.getElem?_modify_eq]
      exact congrArg (Option.map _) hconnection
    rw [or_iff_right hgone]
    constructor
    · rintro ⟨he, _⟩
      exact ⟨hlive, _, hrow, he⟩
    · rintro ⟨-, c, hc, he⟩
      cases hrow.symm.trans hc
      exact ⟨he, rfl⟩
  · have hrow : (n.contents.apply ids (.reconnectPin pin signal)).connections[p]? =
        n.contents.connections[p]? := List.getElem?_modify_ne _ _ (Ne.symm hp)
    rw [Contents.Attached, Contents.Attached, hrow]
    simp only [hp, and_false, not_false_eq_true, and_true, or_false]
    rfl

/-- A reconnection stamps the owner of the pin and the nets it leaves and joins. -/
theorem reconnected_stepped {n m : MappedNetlist} {pin : PinId} {owner : CellId}
    {old signal : ConnectionSignal} (hnets : m.nets = n.nets) (hcells : m.cells = n.cells)
    (howners : m.pinOwners = n.pinOwners)
    (hconnections : m.connections = n.connections.modify pin fun c => { c with signal })
    (howner : n.pinOwners[pin]? = some owner) :
    Stepped revision n rows
      (({ m with cells := m.cells.modify owner fun slot =>
        { slot with version := revision } } : MappedNetlist).touched old revision |>.touched signal
          revision) ((rows.detach old pin).attach signal pin) where
  owners := by
    rw [touched_pinOwners, touched_pinOwners]
    exact howners ▸ List.prefix_rfl
  nets := by
    intro net slot hnet
    rw [← hnets] at hnet
    by_cases hsignal : signal = .net net
    · subst hsignal
      rw [touched_self]
      by_cases hs : old = .net net
      · rw [hs, touched_self, hnet]
        exact ⟨_, rfl, .inr rfl⟩
      · rw [touched_of_ne revision hs, hnet]
        exact ⟨_, rfl, .inr rfl⟩
    · rw [touched_of_ne revision hsignal]
      by_cases hs : old = .net net
      · rw [hs, touched_self, hnet]
        exact ⟨_, rfl, .inr rfl⟩
      · rw [touched_of_ne revision hs]
        exact ⟨slot, hnet, .inl ⟨rfl, (Rows.attach_of_ne hsignal).trans (Rows.detach_of_ne hs)⟩⟩
  newNets := by
    intro net slot hle hnet
    have hin := (List.getElem?_eq_some_iff.mp hnet).1
    rw [touched_length, touched_length] at hin
    exact absurd (hnets ▸ hin) (Nat.not_lt.mpr hle)
  cells := by
    intro other slot hother
    rw [touched_cells, touched_cells]
    dsimp only
    rw [hcells]
    by_cases he : owner = other
    · subst he
      rw [List.getElem?_modify_eq, hother]
      exact ⟨_, rfl, .inr rfl⟩
    · rw [List.getElem?_modify_ne _ _ he]
      refine ⟨slot, hother, .inl ⟨rfl, fun p hp => ?_⟩⟩
      rw [touched_connections, touched_connections]
      dsimp only
      rw [hconnections]
      apply List.getElem?_modify_ne
      rintro rfl
      exact he (Option.some.inj (howner.symm.trans hp))
  newCells := by
    intro other slot hle hother
    have hin := (List.getElem?_eq_some_iff.mp hother).1
    rw [touched_cells, touched_cells] at hin
    dsimp only at hin
    rw [List.length_modify, hcells] at hin
    exact absurd hin (Nat.not_lt.mpr hle)

theorem reconnectPin_edits (h : Wired s.netlist rows) {pin : PinId}
    (hpin : pin < s.netlist.connections.length) (signal : ConnectionSignal) :
    Edits s (commit interned revision s (.reconnectPin pin signal))
      (Performed interned revision s.netlist rows (.reconnectPin pin signal))
      (¬Ready s.netlist.contents (.reconnectPin pin signal)) := by
  by_cases hlive : s.netlist.contents.Live pin
  case neg =>
    have hnone : s.netlist.pinOwner pin = none := by
      rw [live_iff h.formed] at hlive
      exact Option.not_isSome_iff_eq_none.mp hlive
    have hfails : Settles (commit interned revision s (.reconnectPin pin signal)) (fun _ => False)
        fun _ => True := reconnectPin_ownerless hnone signal
    apply Settles.weaken (Settles.mono hfails fun _ hf => hf.elim)
    exact fun _ _ hready => hlive hready.1
  simp only [commit]
  apply Edits.bind (saveConnection_edits hpin).weaken
  intro s₀ hs
  rw [← hs] at h hpin hlive ⊢
  have hconnection := List.getElem?_eq_getElem hpin
  generalize s₀.netlist.connections[pin] = old at hconnection
  apply Edits.read (rowAt_eq hconnection)
  have hon : ∀ net, old.signal = .net net → pin ∈ rows net := fun net he =>
    (h.attached pin net).mpr ⟨hlive, old, hconnection, he⟩
  apply Edits.bind (detachPin_edits h.threaded hconnection hon).weaken
  rintro s₁ ⟨hrelinked, hdetached⟩
  apply Edits.bind (modifyConnection_edits (by rw [hrelinked.connections]; exact hpin) _).weaken
  intro s₂ h₂
  have hfree : ∀ net, pin ∉ rows.detach old.signal pin net := by
    intro net hmem
    obtain ⟨hmem, hne⟩ := (Rows.mem_detach (h.threaded.nodup net)).mp hmem
    obtain ⟨-, c, hc, he⟩ := (h.attached pin net).mp hmem
    cases hconnection.symm.trans hc
    exact hne ⟨he, rfl⟩
  have hthreaded : Threaded s₂.netlist (rows.detach old.signal pin) := by
    rw [h₂]
    exact hdetached.congr rfl rfl
  have hends : s₂.netlist.netPins.length = s₀.netlist.nets.length := by
    rw [h₂]
    exact hrelinked.netPins.trans h.nets
  by_cases hnets : ∀ net, signal = .net net → net < s₀.netlist.nets.length
  case neg =>
    simp only [not_forall, Nat.not_lt] at hnets
    obtain ⟨net, rfl, hnet⟩ := hnets
    rw [attachPin, linkPin_unknown (hends.trans_le hnet)]
    intro hready
    have hlt := hready.2 net rfl
    simp only [MappedNetlist.contents, List.length_map] at hlt
    exact absurd hlt (Nat.not_lt.mpr hnet)
  have hlinks : pin < s₂.netlist.pinLinks.length := by
    rw [h₂]
    exact (hrelinked.pinLinks.trans h.pins).symm ▸ hpin
  apply Edits.bind (attachPin_edits hthreaded (fun net he => hends ▸ hnets net he) hlinks hfree).weaken
  rintro s₃ ⟨hrelinked', hattached⟩
  have hcontents : s₃.netlist.contents =
      s₀.netlist.contents.apply (idOf interned) (.reconnectPin pin signal) := by
    rw [hrelinked'.contents, h₂]
    exact congrArg (fun c : Contents => { c with
      connections := c.connections.modify pin fun x => { x with signal } }) hrelinked.contents
  have hformed : s₃.netlist.contents.Formed := by
    rw [hcontents]
    exact h.formed.apply _ _ fun _ _ _ he => by cases he
  have hcells : s₃.netlist.cells = s₀.netlist.cells := by
    rw [hrelinked'.cells, h₂]
    exact hrelinked.cells
  have howners : s₃.netlist.pinOwners = s₀.netlist.pinOwners := congrArg Contents.pinOwners hcontents
  have hconnections : s₃.netlist.connections =
      s₀.netlist.connections.modify pin fun c => { c with signal } :=
    congrArg Contents.connections hcontents
  have hslots : s₃.netlist.nets = s₀.netlist.nets := by
    rw [hrelinked'.netSlots, h₂]
    exact hrelinked.netSlots
  have hready : Ready s₀.netlist.contents (.reconnectPin pin signal) := by
    refine ⟨hlive, fun net he => ?_⟩
    rw [MappedNetlist.contents, List.length_map]
    exact hnets net he
  obtain ⟨owner, cell, hpinOwner, hcell⟩ := hlive
  obtain ⟨slot, hslot, -, hslotLive⟩ := cells_contents.mp hcell
  have howner : s₃.netlist.pinOwner pin = some owner :=
    (pinOwner_iff hformed).mpr ⟨howners ▸ hpinOwner, slot, hcells ▸ hslot, hslotLive⟩
  have hlt : owner < s₃.netlist.cells.length := hcells ▸ (List.getElem?_eq_some_iff.mp hslot).1
  apply Edits.read (m := expectSome (s₃.netlist.pinOwner pin) _) (by rw [howner]; rfl)
  apply Edits.bind (saveCell_edits hlt).weaken
  intro s₄ h₄
  apply Edits.bind (modifyCell_edits (h₄ ▸ hlt) _).weaken
  intro s₅ h₅
  rw [h₄] at h₅
  have hslots₅ : s₅.netlist.nets = s₀.netlist.nets := by rw [h₅]; exact hslots
  have hold : ∀ net, old.signal = .net net → net < s₅.netlist.nets.length := by
    intro net he
    rw [hslots₅, ← h.nets]
    exact h.threaded.net_lt (hon net he)
  apply Edits.bind (touchSignalNet_edits hold revision).weaken
  intro s₆ h₆
  have hnew : ∀ net, signal = .net net → net < s₆.netlist.nets.length := by
    intro net he
    rw [h₆, touched_length, hslots₅]
    exact hnets net he
  apply Edits.mono (touchSignalNet_edits hnew revision).weaken
  rintro _ rfl
  rw [h₆]
  have hcontents₅ : s₅.netlist.contents = s₃.netlist.contents := by
    rw [h₅]
    have hmodify := contents_modifyCell (n := s₃.netlist)
      (f := fun slot => { slot with version := revision }) (g := id) (fun _ => rfl) owner
    rw [hmodify, List.modify_id]
  have hthreaded₅ : Threaded s₅.netlist ((rows.detach old.signal pin).attach signal pin) := by
    rw [h₅]
    exact hattached.congr rfl rfl
  have hfinal : ((s₅.netlist.touched old.signal revision).touched signal revision).contents =
      s₀.netlist.contents.apply (idOf interned) (.reconnectPin pin signal) := by
    rw [touched_contents, touched_contents, hcontents₅, hcontents]
  have hstepped : Stepped revision s₀.netlist rows
      (({ s₃.netlist with cells := s₃.netlist.cells.modify owner fun slot =>
        { slot with version := revision } } : MappedNetlist).touched old.signal revision |>.touched signal
          revision) ((rows.detach old.signal pin).attach signal pin) :=
    reconnected_stepped hslots hcells howners hconnections hpinOwner
  refine ⟨hready, hfinal, (rows.detach old.signal pin).attach signal pin,
    ⟨?_, ?_, ?_, ?_, (hthreaded₅.touched revision).touched revision, ?_⟩, h₅ ▸ hstepped⟩
  · rw [touched_netPins, touched_netPins, touched_length, touched_length, hslots₅, h₅]
    exact hrelinked'.netPins.trans hends
  · rw [touched_pinLinks, touched_pinLinks, touched_connections, touched_connections, h₅]
    dsimp only
    rw [hrelinked'.pinLinks, h₂, hconnections, List.length_modify]
    exact hrelinked.pinLinks.trans h.pins
  · rw [touched_connections, touched_connections, h₅]
    dsimp only
    rw [hconnections, List.length_modify]
    exact h.capacity
  · rw [hfinal]
    exact h.formed.apply _ _ fun _ _ _ he => by cases he
  · intro p net
    rw [hfinal]
    exact reconnected_attached h hready.1 hconnection _ p net

/-! Adding a cell. -/

def rowOf (interned : List (String × NameId)) (x : String × Option Nat × ConnectionSignal) :
    PinConnection := ⟨idOf interned x.1, x.2.1, x.2.2⟩

/-- The netlist `n'` once the pins `done` of the new cell `id` are there. -/
structure PinsAdded (interned : List (String × NameId)) (revision : Nat) (n : MappedNetlist) (rows : Rows)
    (id : CellId) (done : List (String × Option Nat × ConnectionSignal)) (n' : MappedNetlist)
    (rows' : Rows) : Prop where
  known : ∀ x ∈ done, ∀ net, x.2.2 = .net net → net < n.nets.length
  threaded : Threaded n' rows'
  contents : n'.contents = { n.contents with
    connections := n.connections ++ done.map (rowOf interned)
    pinOwners := n.pinOwners ++ List.replicate done.length id }
  nets : n'.nets.length = n.nets.length
  netPins : n'.netPins.length = n.netPins.length
  pinLinks : n'.pinLinks.length = n'.connections.length
  mem : ∀ pin net, pin ∈ rows' net ↔ pin ∈ rows net ∨ n.connections.length ≤ pin ∧
    ∃ connection, n'.connections[pin]? = some connection ∧ connection.signal = .net net
  stepped : Stepped revision n rows n' rows'

theorem pushPin_threaded (h : Threaded s.netlist rows) (id : CellId) (connection : PinConnection) :
    Threaded (s.pushPin id connection).netlist rows where
  chain := by
    intro net pins hnet
    apply (h.chain net pins hnet).congr
    intro p hp
    exact List.getElem?_append_left (h.pin_lt hp)
  outside := h.outside
  apart := h.apart
  idle := by
    intro p links hp hlinks
    rcases concat_getElem? hlinks with hlinks | ⟨-, rfl⟩
    · exact h.idle p links hp hlinks
    · rfl

theorem pushPin_stepped (howners : s.netlist.pinOwners.length = s.netlist.connections.length)
    (id : CellId) (connection : PinConnection) :
    Stepped revision s.netlist rows (s.pushPin id connection).netlist rows := by
  refine { Stepped.refl revision s.netlist rows with
    owners := List.prefix_append _ _, cells := ?_ }
  intro cell slot hslot
  refine ⟨slot, hslot, .inl ⟨rfl, fun pin hpin => ?_⟩⟩
  exact List.getElem?_append_left (howners ▸ (List.getElem?_eq_some_iff.mp hpin).1)

theorem addPin_edits {n : MappedNetlist} (hn : Wired n rows) {id : CellId}
    {done : List (String × Option Nat × ConnectionSignal)} {rows' : Rows}
    (h : PinsAdded interned revision n rows id done s.netlist rows')
    {x : String × Option Nat × ConnectionSignal} (hname : (interned.lookup x.1).isSome)
    (hcapacity : n.connections.length + done.length + 1 ≤ U32_MAX) :
    Edits s (addPin interned revision id x s)
      (fun n' => ∃ rows'', PinsAdded interned revision n rows id (done ++ [x]) n' rows'')
      (¬∀ net, x.2.2 = .net net → net < n.nets.length) := by
  have hconnections : s.netlist.connections = n.connections ++ done.map (rowOf interned) :=
    congrArg Contents.connections h.contents
  have howners : s.netlist.pinOwners = n.pinOwners ++ List.replicate done.length id :=
    congrArg Contents.pinOwners h.contents
  have hlength : s.netlist.connections.length = n.connections.length + done.length := by
    simp [hconnections]
  have hownersLength : s.netlist.pinOwners.length = s.netlist.connections.length := by
    have hsame : n.pinOwners.length = n.connections.length := hn.formed.owners
    simp [howners, hconnections, hsame]
  obtain ⟨pin, libraryPin, signal⟩ := x
  dsimp only at hname ⊢
  rw [addPin]
  dsimp only
  rw [if_neg (by rw [hlength]; exact Nat.not_lt.mpr hcapacity)]
  apply Edits.read rfl
  apply Edits.read (nameId_eq hname)
  have hpushed := pushPin_threaded h.threaded id ⟨idOf interned pin, libraryPin, signal⟩
  have hstep : Stepped revision s.netlist rows' _ rows' :=
    pushPin_stepped hownersLength id ⟨idOf interned pin, libraryPin, signal⟩
  have hlinks : s.netlist.connections.length <
      (s.pushPin id ⟨idOf interned pin, libraryPin, signal⟩).netlist.pinLinks.length := by
    simp [pushPin, h.pinLinks]
  have hfresh : ∀ net, s.netlist.connections.length ∉ rows' net := fun net hmem =>
    absurd (h.threaded.pin_lt hmem) (by rw [h.pinLinks]; exact Nat.lt_irrefl _)
  by_cases hnets : ∀ net, signal = .net net → net < n.nets.length
  case neg =>
    simp only [not_forall, Nat.not_lt] at hnets
    obtain ⟨net, rfl, hnet⟩ := hnets
    have hends : s.netlist.netPins.length ≤ net := by
      rw [h.netPins, hn.nets]
      exact hnet
    have hunknown : linkPin net s.netlist.connections.length
        (s.pushPin id ⟨idOf interned pin, libraryPin, .net net⟩) = .error .index := by
      apply linkPin_unknown
      exact hends
    rw [attachPin, hunknown]
    exact fun hready => absurd (hready net rfl) (Nat.not_lt.mpr hnet)
  have hin : ∀ net, signal = .net net → net < s.netlist.netPins.length := by
    intro net he
    rw [h.netPins, hn.nets]
    exact hnets net he
  apply Edits.after (s := s) (t := s.pushPin id ⟨idOf interned pin, libraryPin, signal⟩) rfl
  apply Edits.bind (attachPin_edits hpushed hin hlinks hfresh).weaken
  rintro t ⟨hrelinked, hthreaded⟩
  have htouch : ∀ net, signal = .net net → net < t.netlist.nets.length := by
    intro net he
    rw [hrelinked.netSlots]
    exact (hnets net he).trans_eq h.nets.symm
  apply Edits.mono (touchSignalNet_edits htouch revision).weaken
  rintro _ rfl
  have hknown : ∀ y ∈ done ++ [(pin, libraryPin, signal)], ∀ net, y.2.2 = .net net →
      net < n.nets.length := by
    intro y hy
    rcases List.mem_append.mp hy with hy | hy
    · exact h.known y hy
    · rw [List.mem_singleton.mp hy]
      exact hnets
  refine ⟨rows'.attach signal s.netlist.connections.length, hknown, hthreaded.touched revision, ?_, ?_,
    ?_, ?_, ?_, h.stepped.trans (hstep.trans (hrelinked.stepped revision fun net hne => Rows.attach_of_ne hne))⟩
  · rw [touched_contents, hrelinked.contents]
    have hnew : (s.pushPin id ⟨idOf interned pin, libraryPin, signal⟩).netlist.contents =
        { s.netlist.contents with
          connections := s.netlist.connections ++ [⟨idOf interned pin, libraryPin, signal⟩]
          pinOwners := s.netlist.pinOwners ++ [id] } := rfl
    rw [hnew, h.contents, hconnections, howners, List.map_append, List.length_append,
      List.length_singleton, List.replicate_succ', List.append_assoc, List.append_assoc]
    rfl
  · rw [touched_length, hrelinked.netSlots]
    exact h.nets
  · rw [touched_netPins, hrelinked.netPins]
    exact h.netPins
  · rw [touched_pinLinks, touched_connections, hrelinked.pinLinks, hrelinked.connections]
    simp [pushPin, h.pinLinks]
  · intro p net
    rw [Rows.mem_attach, h.mem, touched_connections, hrelinked.connections, or_assoc]
    apply or_congr_right
    have hat : (s.pushPin id ⟨idOf interned pin, libraryPin, signal⟩).netlist.connections =
        s.netlist.connections ++ [⟨idOf interned pin, libraryPin, signal⟩] := rfl
    rw [hat]
    constructor
    · rintro (⟨hle, c, hc, he⟩ | ⟨he, rfl⟩)
      · refine ⟨hle, c, ?_, he⟩
        rw [List.getElem?_append_left (List.getElem?_eq_some_iff.mp hc).1]
        exact hc
      · refine ⟨by rw [hlength]; exact Nat.le_add_right _ _, _, List.getElem?_concat_length, he⟩
    · rintro ⟨hle, c, hc, he⟩
      rcases concat_getElem? hc with hc | ⟨hp, rfl⟩
      · exact .inl ⟨hle, c, hc, he⟩
      · exact .inr ⟨he, hp⟩

/-- A new cell brings its own pins to life and no others. -/
theorem addCell_live {c : Contents} (h : c.Formed) (ids : String → NameId) (spec : CellSpec)
    (connections : List (String × Option Nat × ConnectionSignal)) (pin : PinId) :
    (c.apply ids (.addCell c.cells.length spec connections)).Live pin ↔
      c.Live pin ∨ c.connections.length ≤ pin ∧ pin < c.connections.length + connections.length := by
  have howners : c.pinOwners.length = c.connections.length := h.owners
  rcases Nat.lt_or_ge pin c.connections.length with hlt | hge
  · rw [or_iff_left fun hr => absurd hlt (Nat.not_lt.mpr hr.1)]
    have hkept : (c.apply ids (.addCell c.cells.length spec connections)).pinOwners[pin]? =
        c.pinOwners[pin]? := List.getElem?_append_left (howners ▸ hlt)
    apply Contents.live_congr hkept
    intro owner howner
    obtain ⟨x, hx, -⟩ := h.owner howner
    exact congrArg (Option.map _) (List.getElem?_append_left (List.getElem?_eq_some_iff.mp hx).1)
  · have hold : ¬c.Live pin := fun ⟨_, _, howner, _⟩ =>
      absurd (List.getElem?_eq_some_iff.mp howner).1 (Nat.not_lt.mpr (howners ▸ hge))
    rw [or_iff_right hold, and_iff_right hge]
    constructor
    · rintro ⟨owner, cell, howner, -⟩
      have hin := (List.getElem?_eq_some_iff.mp howner).1
      simp only [Contents.apply, List.length_append, List.length_replicate, howners] at hin
      exact hin
    · intro hlt
      refine ⟨c.cells.length, _, ?_, List.getElem?_concat_length⟩
      simp only [Contents.apply]
      rw [List.getElem?_append_right (howners ▸ hge), List.getElem?_replicate, howners,
        if_pos (Nat.sub_lt_left_of_lt_add hge hlt)]

theorem addCell_attached {c : Contents} (h : c.Formed) (ids : String → NameId) (spec : CellSpec)
    (connections : List (String × Option Nat × ConnectionSignal)) (pin : PinId) (net : NetId) :
    (c.apply ids (.addCell c.cells.length spec connections)).Attached pin net ↔
      c.Attached pin net ∨ c.connections.length ≤ pin ∧ ∃ connection,
        (c.apply ids (.addCell c.cells.length spec connections)).connections[pin]? = some connection ∧
          connection.signal = .net net := by
  rw [Contents.Attached, Contents.Attached, addCell_live h]
  rcases Nat.lt_or_ge pin c.connections.length with hlt | hge
  · have hconnections : (c.apply ids (.addCell c.cells.length spec connections)).connections[pin]? =
        c.connections[pin]? := List.getElem?_append_left hlt
    have hnew : ¬c.connections.length ≤ pin := Nat.not_le.mpr hlt
    rw [hconnections, or_iff_left fun hr => hnew hr.1, or_iff_left fun hr => hnew hr.1]
  · have hold : ¬c.Live pin := fun ⟨_, _, howner, _⟩ =>
      absurd (List.getElem?_eq_some_iff.mp howner).1 (Nat.not_lt.mpr (h.owners ▸ hge))
    rw [or_iff_right hold, or_iff_right fun hr => hold hr.1, and_assoc]
    apply and_congr_right
    intro _
    apply and_iff_right_of_imp
    rintro ⟨connection, hc, -⟩
    have hin := (List.getElem?_eq_some_iff.mp hc).1
    simp only [Contents.apply, List.length_append, List.length_map] at hin
    exact hin

/-- The pins of a new cell, before the cell has its slot. -/
theorem addPins_edits (h : Wired s.netlist rows) {id : CellId} {spec : CellSpec}
    {connections : List (String × Option Nat × ConnectionSignal)}
    (hcapacity : s.netlist.connections.length + connections.length ≤ U32_MAX)
    (hpins : ∀ x ∈ connections, (interned.lookup x.1).isSome) :
    Edits s (connections.foldlM (fun s connection => addPin interned revision id connection s) s)
      (fun n' => ∃ rows', PinsAdded interned revision s.netlist rows id connections n' rows')
      (¬Ready s.netlist.contents (.addCell id spec connections)) := by
  apply Edits.foldlM (fun done n' => ∃ rows', PinsAdded interned revision s.netlist rows id done n' rows')
  · refine ⟨rows, nofun, h.threaded, ?_, rfl, rfl, h.pins, fun pin net => ?_, .refl ..⟩
    · simp [MappedNetlist.contents]
    · refine ⟨.inl, fun hr => hr.resolve_right ?_⟩
      rintro ⟨hle, connection, hconnection, -⟩
      exact absurd (List.getElem?_eq_some_iff.mp hconnection).1 (Nat.not_lt.mpr hle)
  · rintro done x rest rfl t ⟨rows', hadded⟩
    have hx : x ∈ done ++ x :: rest := List.mem_append_right _ List.mem_cons_self
    have hroom : s.netlist.connections.length + done.length + 1 ≤ U32_MAX := by
      rw [List.length_append, List.length_cons] at hcapacity
      omega
    apply Settles.weaken (addPin_edits h hadded (hpins x hx) hroom)
    intro _ hunknown hready
    apply hunknown
    intro net he
    have hnet := hready x hx net he
    rwa [MappedNetlist.contents, List.length_map] at hnet

theorem addCell_edits (h : Wired s.netlist rows) {spec : CellSpec}
    {connections : List (String × Option Nat × ConnectionSignal)}
    (hcapacity : s.netlist.connections.length + connections.length ≤ U32_MAX)
    (hname : (interned.lookup spec.name).isSome) (htype : (interned.lookup spec.cellType).isSome)
    (hpins : ∀ x ∈ connections, (interned.lookup x.1).isSome) :
    Edits s (commit interned revision s (.addCell s.netlist.cells.length spec connections))
      (Performed interned revision s.netlist rows (.addCell s.netlist.cells.length spec connections))
      (¬Ready s.netlist.contents (.addCell s.netlist.cells.length spec connections)) := by
  have hstart : s.netlist.connections.length ≤ U32_MAX := (Nat.le_add_right _ _).trans hcapacity
  simp only [commit]
  rw [if_neg (not_not.mpr rfl)]
  apply Edits.read rfl
  apply Edits.read (if_neg (Nat.not_lt.mpr hstart))
  apply Edits.bind (addPins_edits h hcapacity hpins)
  rintro t ⟨rows', hadded⟩
  have hconnections : t.netlist.connections = s.netlist.connections ++ connections.map (rowOf interned) :=
    congrArg Contents.connections hadded.contents
  have hlength : t.netlist.connections.length = s.netlist.connections.length + connections.length := by
    simp [hconnections]
  have hcells : t.netlist.cells.length = s.netlist.cells.length := by
    have hmap := congrArg (fun c : Contents => c.cells.length) hadded.contents
    simpa [MappedNetlist.contents] using hmap
  apply Edits.read (if_neg (by rw [hlength]; exact Nat.not_lt.mpr hcapacity))
  apply Edits.read (nameId_eq hname)
  apply Edits.read (nameId_eq htype)
  refine ⟨?_, rfl⟩
  have hcontents : (t.pushCell ⟨⟨idOf interned spec.name, idOf interned spec.cellType, spec.libraryCell,
      s.netlist.connections.length, t.netlist.connections.length⟩, true, revision⟩).netlist.contents =
      s.netlist.contents.apply (idOf interned)
        (.addCell s.netlist.contents.cells.length spec connections) := by
    have hpushed : (t.pushCell ⟨⟨idOf interned spec.name, idOf interned spec.cellType, spec.libraryCell,
        s.netlist.connections.length, t.netlist.connections.length⟩, true, revision⟩).netlist.contents =
        { t.netlist.contents with cells := t.netlist.contents.cells ++
          [(⟨idOf interned spec.name, idOf interned spec.cellType, spec.libraryCell,
            s.netlist.connections.length, t.netlist.connections.length⟩, true)] } :=
      congrArg (fun cells => { t.netlist.contents with cells }) List.map_append
    rw [hpushed, hadded.contents, hlength]
    simp [Contents.apply, MappedNetlist.contents, rowOf]
  have hsame : s.netlist.contents.cells.length = s.netlist.cells.length := List.length_map _
  have hready : Ready s.netlist.contents (.addCell s.netlist.cells.length spec connections) := by
    intro x hx net he
    rw [MappedNetlist.contents, List.length_map]
    exact hadded.known x hx net he
  refine ⟨hready, hsame ▸ hcontents, rows', ⟨?_, hadded.pinLinks, ?_, ?_, hadded.threaded.congr rfl rfl, ?_⟩, ?_⟩
  · exact hadded.netPins.trans (h.nets.trans hadded.nets.symm)
  · exact hlength.trans_le hcapacity
  · rw [hcontents]
    apply h.formed.apply
    rintro _ _ _ ⟨⟩
    rfl
  · intro pin net
    have hnew : ∀ connection : PinConnection, t.netlist.connections[pin]? = some connection ↔
        (s.netlist.contents.apply (idOf interned) (.addCell s.netlist.contents.cells.length spec
          connections)).connections[pin]? = some connection := by
      intro connection
      rw [hconnections]
      rfl
    rw [hcontents, addCell_attached h.formed, hadded.mem, h.attached]
    exact or_congr_right (and_congr_right fun _ => exists_congr fun c => and_congr_left fun _ => hnew c)
  · apply hadded.stepped.trans
    refine { Stepped.refl revision t.netlist rows' with cells := ?_, newCells := ?_ }
    · intro cell slot hslot
      refine ⟨slot, ?_, .inl ⟨rfl, fun _ _ => rfl⟩⟩
      exact (List.getElem?_append_left (List.getElem?_eq_some_iff.mp hslot).1).trans hslot
    · intro cell slot hle hslot
      rcases concat_getElem? hslot with hslot | ⟨-, rfl⟩
      · exact absurd (List.getElem?_eq_some_iff.mp hslot).1 (Nat.not_lt.mpr hle)
      · rfl

/-! Any operation. -/

/-- The nets recorded as renamed after an operation. -/
def renamedAfter (operation : ResolvedOperation) (renamed : List NetId) : List NetId :=
  match operation with
  | .renameNet net _ => insertKey net renamed
  | _ => renamed

theorem renameNet_settles (h : Wired s.netlist rows) {net : NetId} (hnet : net < s.netlist.nets.length)
    {name : Option String} (hname : ∀ x ∈ name, (interned.lookup x).isSome) :
    Settles (commit interned revision s (.renameNet net name)) (fun s' =>
      Performed interned revision s.netlist rows (.renameNet net name) s'.netlist ∧
        s'.applied.renamedNets = insertKey net s.applied.renamedNets) fun _ => False := by
  apply Settles.bind (saveNet_edits hnet)
  rintro s' ⟨hs, hr⟩
  rw [← hs] at h hnet ⊢
  apply Settles.bind (r := name.mapM (nameId interned)) (Q := (· = name.map (idOf interned)))
  · rw [nameIds_eq hname]
    exact rfl
  rintro _ rfl
  apply Settles.mono (modifyNet_edits (s := { s' with applied := { s'.applied with
    renamedNets := insertKey net s'.applied.renamedNets } }) hnet _)
  rintro t ⟨ht, hr'⟩
  refine ⟨?_, hr'.trans (by rw [← hr])⟩
  rw [ht]
  apply writeNet_performed h (g := fun x => (name.map (idOf interned), x.2))
  exacts [fun _ => rfl, fun _ => rfl, trivial, rfl]

/-- An operation that fits does what it should, or it is not ready and fails. -/
theorem commit_settles (revision : Nat) (h : Wired s.netlist rows) {operation : ResolvedOperation}
    (hfits : Fits s.netlist.contents operation)
    (hnames : ∀ name ∈ operationNames [operation], (interned.lookup name).isSome) :
    Settles (commit interned revision s operation) (fun s' =>
      Performed interned revision s.netlist rows operation s'.netlist ∧
        s'.applied.renamedNets = renamedAfter operation s.applied.renamedNets)
      fun _ => ¬Ready s.netlist.contents operation := by
  have hnets : s.netlist.contents.nets.length = s.netlist.nets.length := List.length_map _
  have hcells : s.netlist.contents.cells.length = s.netlist.cells.length := List.length_map _
  cases operation with
  | addNet id name =>
    obtain rfl : id = _ := hfits.trans hnets
    apply Edits.weaken (addNet_edits h fun x hx => hnames x ?_)
    simpa [operationNames] using hx
  | addCell id spec connections =>
    obtain ⟨hid, hcapacity, hpins⟩ := hfits
    obtain rfl : id = _ := hid.trans hcells
    apply addCell_edits h hcapacity
    · exact hnames _ (by simp [operationNames])
    · exact hnames _ (by simp [operationNames])
    · intro x hx
      apply hnames
      simp only [operationNames, List.flatMap_cons, List.flatMap_nil, List.append_nil, List.mem_cons,
        ← hpins]
      exact .inr (.inr (List.mem_map_of_mem hx))
  | removeCell cell =>
    obtain ⟨x, hx⟩ := hfits
    exact (removeCell_edits h hx).weaken
  | removeNet net => exact (removeNet_edits h (hfits.trans_eq hnets)).weaken
  | reconnectPin pin signal => exact reconnectPin_edits h hfits signal
  | replaceCell cell cellType libraryCell =>
    apply Edits.weaken (replaceCell_edits h (hfits.trans_eq hcells) libraryCell (hnames _ ?_))
    simp [operationNames]
  | renameCell cell name =>
    apply Edits.weaken (renameCell_edits h (hfits.trans_eq hcells) (hnames _ ?_))
    simp [operationNames]
  | renameNet net name =>
    apply Settles.weaken (renameNet_settles h (hfits.trans_eq hnets) fun x hx => hnames x ?_)
    · exact fun _ hf => hf.elim
    · simpa [operationNames] using hx

end Editing

end Opto.Mapped
