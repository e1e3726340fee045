import Opto.Mapped.Contents

/-!
# What an operation does

On a wired netlist an operation acts on the contents as planned, keeps the netlist
wired, and stamps every net and cell it changes with the revision it commits. It
fails only when it connects a pin to a net that is not there yet, or reconnects a
pin whose owner is gone.
-/

namespace Opto.Mapped

/-- The tables agree in length, and the links thread the attached pins of every net. -/
structure Wired (n : MappedNetlist) (rows : Rows) : Prop where
  nets : n.netPins.length = n.nets.length
  pins : n.pinLinks.length = n.connections.length
  capacity : n.connections.length ≤ U32_MAX
  formed : n.contents.Formed
  threaded : Threaded n rows
  attached : ∀ pin net, pin ∈ rows net ↔ n.contents.Attached pin net

/-- Whatever differs between two netlists carries `revision`. -/
structure Stepped (revision : Nat) (n : MappedNetlist) (rows : Rows) (n' : MappedNetlist)
    (rows' : Rows) : Prop where
  owners : n.pinOwners <+: n'.pinOwners
  nets : ∀ (net : NetId) (slot : NetSlot), n.nets[net]? = some slot → ∃ slot', n'.nets[net]? = some slot' ∧
    (slot' = slot ∧ rows' net = rows net ∨ slot'.version = revision)
  newNets : ∀ (net : NetId) (slot : NetSlot), n.nets.length ≤ net → n'.nets[net]? = some slot →
    slot.version = revision
  cells : ∀ (cell : CellId) (slot : CellSlot), n.cells[cell]? = some slot →
    ∃ slot', n'.cells[cell]? = some slot' ∧ (slot' = slot ∧ (∀ pin : PinId,
      n.pinOwners[pin]? = some cell → n'.connections[pin]? = n.connections[pin]?) ∨
        slot'.version = revision)
  newCells : ∀ (cell : CellId) (slot : CellSlot), n.cells.length ≤ cell → n'.cells[cell]? = some slot →
    slot.version = revision

namespace Stepped

variable {revision : Nat} {n m k : MappedNetlist} {rows rows' rows'' : Rows}

theorem refl (revision : Nat) (n : MappedNetlist) (rows : Rows) : Stepped revision n rows n rows where
  owners := List.prefix_rfl
  nets _ slot h := ⟨slot, h, .inl ⟨rfl, rfl⟩⟩
  newNets _ _ hle h := absurd (List.getElem?_eq_some_iff.mp h).1 (Nat.not_lt.mpr hle)
  cells _ slot h := ⟨slot, h, .inl ⟨rfl, fun _ _ => rfl⟩⟩
  newCells _ _ hle h := absurd (List.getElem?_eq_some_iff.mp h).1 (Nat.not_lt.mpr hle)

theorem ownersAt (h : Stepped revision n rows m rows') {pin : PinId} {owner : CellId}
    (hpin : n.pinOwners[pin]? = some owner) : m.pinOwners[pin]? = some owner := by
  obtain ⟨rest, hrest⟩ := h.owners
  rw [← hrest, List.getElem?_append_left (List.getElem?_eq_some_iff.mp hpin).1]
  exact hpin

theorem trans (h : Stepped revision n rows m rows') (h' : Stepped revision m rows' k rows'') :
    Stepped revision n rows k rows'' where
  owners := h.owners.trans h'.owners
  nets := by
    intro net slot hslot
    obtain ⟨slot', hslot', hsame⟩ := h.nets net slot hslot
    obtain ⟨slot'', hslot'', hsame'⟩ := h'.nets net slot' hslot'
    refine ⟨slot'', hslot'', ?_⟩
    rcases hsame' with ⟨rfl, hrows⟩ | hversion
    · exact hsame.imp_left fun ⟨he, hr⟩ => ⟨he, hrows.trans hr⟩
    · exact .inr hversion
  newNets := by
    intro net slot hle hslot
    rcases Nat.lt_or_ge net m.nets.length with hlt | hge
    · have hmid := List.getElem?_eq_getElem hlt
      obtain ⟨slot', hslot', hsame⟩ := h'.nets net _ hmid
      rw [hslot] at hslot'
      cases hslot'
      rcases hsame with ⟨rfl, -⟩ | hversion
      · exact h.newNets net _ hle hmid
      · exact hversion
    · exact h'.newNets net slot hge hslot
  cells := by
    intro cell slot hslot
    obtain ⟨slot', hslot', hsame⟩ := h.cells cell slot hslot
    obtain ⟨slot'', hslot'', hsame'⟩ := h'.cells cell slot' hslot'
    refine ⟨slot'', hslot'', ?_⟩
    rcases hsame' with ⟨rfl, hpins⟩ | hversion
    · exact hsame.imp_left fun ⟨he, hp⟩ => ⟨he, fun pin hpin =>
        (hpins pin (h.ownersAt hpin)).trans (hp pin hpin)⟩
    · exact .inr hversion
  newCells := by
    intro cell slot hle hslot
    rcases Nat.lt_or_ge cell m.cells.length with hlt | hge
    · have hmid := List.getElem?_eq_getElem hlt
      obtain ⟨slot', hslot', hsame⟩ := h'.cells cell _ hmid
      rw [hslot] at hslot'
      cases hslot'
      rcases hsame with ⟨rfl, -⟩ | hversion
      · exact h.newCells cell _ hle hmid
      · exact hversion
    · exact h'.newCells cell slot hge hslot

end Stepped

/-! Touching a net. -/

theorem map_modify_of_eq {α β : Type} {f : α → α} {g : α → β} (h : ∀ x, g (f x) = g x) (xs : List α)
    (i : Nat) : (xs.modify i f).map g = xs.map g := by
  apply List.ext_getElem?
  intro j
  rw [List.getElem?_map, List.getElem?_map, List.getElem?_modify]
  cases xs[j]? with
  | none => rfl
  | some x =>
    apply congrArg some
    dsimp only
    split_ifs
    · exact h x
    · rfl

def MappedNetlist.touched (n : MappedNetlist) (signal : ConnectionSignal) (revision : Nat) :
    MappedNetlist :=
  match signal with
  | .constant _ => n
  | .net net => { n with nets := n.nets.modify net fun slot => { slot with version := revision } }

section touched

variable (n : MappedNetlist) (signal : ConnectionSignal) (revision : Nat)

@[simp] theorem touched_contents : (n.touched signal revision).contents = n.contents := by
  cases signal with
  | constant _ => rfl
  | net net =>
    have hnets : (n.touched (.net net) revision).nets.map (fun slot => (slot.name, slot.live)) =
        n.nets.map fun slot => (slot.name, slot.live) := by
      apply map_modify_of_eq
      exact fun _ => rfl
    exact congrArg (fun nets => (⟨nets, _, _, _⟩ : Contents)) hnets

@[simp] theorem touched_cells : (n.touched signal revision).cells = n.cells := by cases signal <;> rfl
@[simp] theorem touched_connections : (n.touched signal revision).connections = n.connections := by
  cases signal <;> rfl
@[simp] theorem touched_pinOwners : (n.touched signal revision).pinOwners = n.pinOwners := by
  cases signal <;> rfl
@[simp] theorem touched_pinLinks : (n.touched signal revision).pinLinks = n.pinLinks := by
  cases signal <;> rfl
@[simp] theorem touched_netPins : (n.touched signal revision).netPins = n.netPins := by
  cases signal <;> rfl

@[simp] theorem touched_length : (n.touched signal revision).nets.length = n.nets.length := by
  cases signal with
  | constant _ => rfl
  | net _ => exact List.length_modify ..

variable {n signal}

theorem touched_of_ne {net : NetId} (h : signal ≠ .net net) :
    (n.touched signal revision).nets[net]? = n.nets[net]? := by
  cases signal with
  | constant _ => rfl
  | net other => exact List.getElem?_modify_ne _ _ fun he => h (he ▸ rfl)

theorem touched_self (net : NetId) : (n.touched (.net net) revision).nets[net]? =
    (n.nets[net]?).map fun slot => { slot with version := revision } := List.getElem?_modify_eq ..

theorem Threaded.touched {rows : Rows} (h : Threaded n rows) :
    Threaded (n.touched signal revision) rows := h.congr (by simp) (by simp)

end touched

namespace Relinked

variable {n n' : MappedNetlist}

theorem refl (n : MappedNetlist) : Relinked n n := ⟨rfl, rfl, rfl⟩

theorem contents (h : Relinked n n') : n'.contents = n.contents := by rw [h.rest]; rfl
theorem netSlots (h : Relinked n n') : n'.nets = n.nets := by rw [h.rest]
theorem cells (h : Relinked n n') : n'.cells = n.cells := by rw [h.rest]
theorem connections (h : Relinked n n') : n'.connections = n.connections := by rw [h.rest]
theorem pinOwners (h : Relinked n n') : n'.pinOwners = n.pinOwners := by rw [h.rest]

/-- A net whose row changes is touched. -/
theorem stepped (h : Relinked n n') {rows rows' : Rows} {signal : ConnectionSignal} (revision : Nat)
    (hrows : ∀ net, signal ≠ .net net → rows' net = rows net) :
    Stepped revision n rows (n'.touched signal revision) rows' where
  owners := by
    have howners : (n'.touched signal revision).pinOwners = n.pinOwners :=
      (touched_pinOwners ..).trans h.pinOwners
    exact howners ▸ List.prefix_rfl
  nets := by
    intro net slot hslot
    by_cases hnet : signal = .net net
    · subst hnet
      rw [touched_self, h.netSlots, hslot]
      exact ⟨_, rfl, .inr rfl⟩
    · rw [touched_of_ne revision hnet, h.netSlots]
      exact ⟨slot, hslot, .inl ⟨rfl, hrows net hnet⟩⟩
  newNets := by
    intro net slot hle hslot
    have hlt := (List.getElem?_eq_some_iff.mp hslot).1
    rw [touched_length, h.netSlots] at hlt
    exact absurd hlt (Nat.not_lt.mpr hle)
  cells := by
    intro cell slot hslot
    rw [touched_cells, h.cells]
    refine ⟨slot, hslot, .inl ⟨rfl, fun pin _ => ?_⟩⟩
    rw [touched_connections, h.connections]
  newCells := by
    intro cell slot hle hslot
    rw [touched_cells, h.cells] at hslot
    exact absurd (List.getElem?_eq_some_iff.mp hslot).1 (Nat.not_lt.mpr hle)

end Relinked

/-! Rows of a pin that comes or goes. -/

namespace Rows

def detach (rows : Rows) (signal : ConnectionSignal) (pin : PinId) : Rows :=
  match signal with
  | .constant _ => rows
  | .net net => rows.put net ((rows net).erase pin)

def attach (rows : Rows) (signal : ConnectionSignal) (pin : PinId) : Rows :=
  match signal with
  | .constant _ => rows
  | .net net => rows.put net (rows net ++ [pin])

variable {rows : Rows} {signal : ConnectionSignal} {pin p : PinId} {net : NetId}

theorem detach_of_ne (h : signal ≠ .net net) : rows.detach signal pin net = rows net := by
  cases signal with
  | constant _ => rfl
  | net other => exact rows.put_of_ne (fun he => h (congrArg _ he.symm)) _

theorem attach_of_ne (h : signal ≠ .net net) : rows.attach signal pin net = rows net := by
  cases signal with
  | constant _ => rfl
  | net other => exact rows.put_of_ne (fun he => h (congrArg _ he.symm)) _

theorem mem_detach (h : (rows net).Nodup) :
    p ∈ rows.detach signal pin net ↔ p ∈ rows net ∧ ¬(signal = .net net ∧ p = pin) := by
  by_cases hs : signal = .net net
  · subst hs
    rw [detach, put_self, h.mem_erase_iff, and_comm]
    simp
  · rw [detach_of_ne hs]
    simp [hs]

theorem mem_attach : p ∈ rows.attach signal pin net ↔ p ∈ rows net ∨ signal = .net net ∧ p = pin := by
  by_cases hs : signal = .net net
  · subst hs
    rw [attach, put_self, List.mem_append, List.mem_singleton]
    simp
  · rw [attach_of_ne hs]
    simp [hs]

end Rows

namespace Editing

variable {s : Editing} {rows : Rows} {revision : Nat}

theorem touchSignalNet_edits {signal : ConnectionSignal}
    (h : ∀ net, signal = .net net → net < s.netlist.nets.length) (revision : Nat) :
    Edits s (s.touchSignalNet signal revision) (· = s.netlist.touched signal revision) False := by
  cases signal with
  | constant _ => exact Edits.pure rfl
  | net net =>
    have hnet := h net rfl
    apply Edits.bind (saveNet_edits hnet)
    intro s' hs
    rw [← hs] at hnet ⊢
    exact modifyNet_edits hnet _

theorem detachPin_edits (h : Threaded s.netlist rows) {pin : PinId} {connection : PinConnection}
    (hconnection : s.netlist.connections[pin]? = some connection)
    (hpin : ∀ net, connection.signal = .net net → pin ∈ rows net) :
    Edits s (s.detachPin connection.signal pin) (fun n' => Relinked s.netlist n' ∧
      Threaded n' (rows.detach connection.signal pin)) False := by
  cases hs : connection.signal with
  | constant _ => exact Edits.pure ⟨.refl _, h⟩
  | net net => exact unlinkPin_edits h hconnection hs (hpin net hs)

theorem attachPin_edits (h : Threaded s.netlist rows) {signal : ConnectionSignal} {pin : PinId}
    (hnet : ∀ net, signal = .net net → net < s.netlist.netPins.length)
    (hlt : pin < s.netlist.pinLinks.length) (hpin : ∀ net, pin ∉ rows net) :
    Edits s (s.attachPin signal pin) (fun n' => Relinked s.netlist n' ∧
      Threaded n' (rows.attach signal pin)) False := by
  cases signal with
  | constant _ => exact Edits.pure ⟨.refl _, h⟩
  | net net => exact linkPin_edits h (hnet net rfl) hlt hpin

/-! Removing a cell. -/

theorem removePin_edits (h : Threaded s.netlist rows)
    (hlen : s.netlist.netPins.length = s.netlist.nets.length) {pin : PinId}
    (hcapacity : pin + 1 ≤ U32_MAX) {connection : PinConnection}
    (hconnection : s.netlist.connections[pin]? = some connection)
    (hpin : ∀ net, connection.signal = .net net → pin ∈ rows net) (revision : Nat) :
    Edits s (removePin revision s pin) (fun n' => ∃ m, Relinked s.netlist m ∧
      n' = m.touched connection.signal revision ∧
      Threaded n' (rows.detach connection.signal pin)) False := by
  rw [removePin, if_neg (Nat.not_lt.mpr hcapacity)]
  apply Edits.read rfl
  apply Edits.read (rowAt_eq hconnection)
  apply Edits.bind (detachPin_edits h hconnection hpin)
  rintro s' ⟨hrelinked, hthreaded⟩
  have hnets : ∀ net, connection.signal = .net net → net < s'.netlist.nets.length := by
    intro net hs
    rw [hrelinked.netSlots, ← hlen]
    exact h.net_lt (hpin net hs)
  apply Edits.mono (touchSignalNet_edits hnets revision)
  rintro _ rfl
  exact ⟨_, hrelinked, rfl, hthreaded.touched revision⟩

/-- The pins of a cell come off their nets one by one. -/
theorem removePins_edits (h : Wired s.netlist rows) {pins : List PinId} (hnodup : pins.Nodup)
    (hlive : ∀ pin ∈ pins, s.netlist.contents.Live pin) (revision : Nat) :
    Edits s (pins.foldlM (removePin revision) s) (fun n' => ∃ rows', Threaded n' rows' ∧
      n'.contents = s.netlist.contents ∧ n'.nets.length = s.netlist.nets.length ∧
      n'.pinLinks.length = s.netlist.pinLinks.length ∧ n'.netPins.length = s.netlist.netPins.length ∧
      (∀ pin net, pin ∈ rows' net ↔ pin ∈ rows net ∧ pin ∉ pins) ∧
      Stepped revision s.netlist rows n' rows') False := by
  apply Edits.foldlM (fun done n' => ∃ rows', Threaded n' rows' ∧
    n'.contents = s.netlist.contents ∧ n'.nets.length = s.netlist.nets.length ∧
    n'.pinLinks.length = s.netlist.pinLinks.length ∧ n'.netPins.length = s.netlist.netPins.length ∧
    (∀ pin net, pin ∈ rows' net ↔ pin ∈ rows net ∧ pin ∉ done) ∧
    Stepped revision s.netlist rows n' rows')
  · exact ⟨rows, h.threaded, rfl, rfl, rfl, rfl, fun pin net => by simp, .refl ..⟩
  · rintro done pin rest rfl t ⟨rows', hthreaded, hcontents, hnets, hlinks, hends, hmem, hstepped⟩
    have hnot : pin ∉ done := fun hd =>
      (List.nodup_append.mp hnodup).2.2 pin hd pin List.mem_cons_self rfl
    have hpin := hlive pin (List.mem_append_right _ List.mem_cons_self)
    have hlt : pin < s.netlist.connections.length := by
      obtain ⟨owner, _, howner, -⟩ := hpin
      exact h.formed.owners ▸ (List.getElem?_eq_some_iff.mp howner).1
    have hconnection := List.getElem?_eq_getElem hlt
    generalize s.netlist.connections[pin] = connection at hconnection
    have hcurrent : t.netlist.connections[pin]? = some connection :=
      (congrArg (fun c : Contents => c.connections[pin]?) hcontents).trans hconnection
    have hon : ∀ net, connection.signal = .net net → pin ∈ rows' net := fun net hs =>
      (hmem pin net).mpr ⟨(h.attached pin net).mpr ⟨hpin, connection, hconnection, hs⟩, hnot⟩
    have hcapacity : pin + 1 ≤ U32_MAX := Nat.le_trans hlt h.capacity
    have hsame : t.netlist.netPins.length = t.netlist.nets.length :=
      hends.trans (h.nets.trans hnets.symm)
    apply Edits.mono (removePin_edits hthreaded hsame hcapacity hcurrent hon revision)
    rintro _ ⟨m, hrelinked, rfl, hthreaded'⟩
    refine ⟨_, hthreaded', ?_, ?_, ?_, ?_, ?_, ?_⟩
    · rw [touched_contents, hrelinked.contents, hcontents]
    · rw [touched_length, hrelinked.netSlots, hnets]
    · rw [touched_pinLinks, hrelinked.pinLinks, hlinks]
    · rw [touched_netPins, hrelinked.netPins, hends]
    · intro p net
      rw [Rows.mem_detach (hthreaded.nodup net), hmem, List.mem_append, List.mem_singleton, not_or,
        and_assoc]
      refine and_congr_right fun hp => and_congr_right fun _ => ?_
      constructor
      · rintro hne rfl
        obtain ⟨-, c, hc, hs⟩ := (h.attached p net).mp hp
        cases hconnection.symm.trans hc
        exact hne ⟨hs, rfl⟩
      · exact fun hne he => hne he.2
    · exact hstepped.trans (hrelinked.stepped revision fun net hne => Rows.detach_of_ne hne)

end Editing

/-! Writing single slots. -/

theorem map_modify_comm {α β : Type} {f : α → α} {f' : β → β} {g : α → β} (h : ∀ x, g (f x) = f' (g x))
    (xs : List α) (i : Nat) : (xs.modify i f).map g = (xs.map g).modify i f' := by
  apply List.ext_getElem?
  intro j
  rw [List.getElem?_map, List.getElem?_modify, List.getElem?_modify, List.getElem?_map]
  cases xs[j]? with
  | none => rfl
  | some x =>
    apply congrArg some
    dsimp only
    split_ifs
    · exact h x
    · rfl

section slots

variable {n : MappedNetlist} {rows : Rows} {revision : Nat}

theorem contents_modifyCell {f : CellSlot → CellSlot} {g : MappedCell × Bool → MappedCell × Bool}
    (h : ∀ slot, ((f slot).cell, (f slot).live) = g (slot.cell, slot.live)) (cell : CellId) :
    ({ n with cells := n.cells.modify cell f } : MappedNetlist).contents =
      { n.contents with cells := n.contents.cells.modify cell g } :=
  congrArg (fun cells => { n.contents with cells }) (map_modify_comm h n.cells cell)

theorem contents_modifyNet {f : NetSlot → NetSlot}
    {g : Option NameId × Bool → Option NameId × Bool}
    (h : ∀ slot, ((f slot).name, (f slot).live) = g (slot.name, slot.live)) (net : NetId) :
    ({ n with nets := n.nets.modify net f } : MappedNetlist).contents =
      { n.contents with nets := n.contents.nets.modify net g } :=
  congrArg (fun nets => { n.contents with nets }) (map_modify_comm h n.nets net)

theorem Stepped.modifyCell {f : CellSlot → CellSlot} (h : ∀ slot, (f slot).version = revision)
    (cell : CellId) :
    Stepped revision n rows { n with cells := n.cells.modify cell f } rows := by
  refine { refl revision n rows with cells := ?_, newCells := ?_ }
  · intro other slot hslot
    by_cases he : cell = other
    · subst he
      exact ⟨f slot, by rw [List.getElem?_modify_eq, hslot]; rfl, .inr (h slot)⟩
    · refine ⟨slot, ?_, .inl ⟨rfl, fun _ _ => rfl⟩⟩
      rw [List.getElem?_modify_ne _ _ he]
      exact hslot
  · intro other slot hle hslot
    have hlt := (List.getElem?_eq_some_iff.mp hslot).1
    rw [List.length_modify] at hlt
    exact absurd hlt (Nat.not_lt.mpr hle)

theorem Stepped.modifyNet {f : NetSlot → NetSlot} (h : ∀ slot, (f slot).version = revision)
    (net : NetId) : Stepped revision n rows { n with nets := n.nets.modify net f } rows := by
  refine { refl revision n rows with nets := ?_, newNets := ?_ }
  · intro other slot hslot
    by_cases he : net = other
    · subst he
      exact ⟨f slot, by rw [List.getElem?_modify_eq, hslot]; rfl, .inr (h slot)⟩
    · refine ⟨slot, ?_, .inl ⟨rfl, rfl⟩⟩
      rw [List.getElem?_modify_ne _ _ he]
      exact hslot
  · intro other slot hle hslot
    have hlt := (List.getElem?_eq_some_iff.mp hslot).1
    rw [List.length_modify] at hlt
    exact absurd hlt (Nat.not_lt.mpr hle)

/-- A slot appended to a table is new. -/
theorem concat_getElem? {α : Type} {xs : List α} {x y : α} {i : Nat} (h : (xs ++ [x])[i]? = some y) :
    xs[i]? = some y ∨ i = xs.length ∧ y = x := by
  rcases Nat.lt_trichotomy i xs.length with hlt | rfl | hgt
  · rw [List.getElem?_append_left hlt] at h
    exact .inl h
  · rw [List.getElem?_concat_length] at h
    exact .inr ⟨rfl, (Option.some.inj h).symm⟩
  · have hi := (List.getElem?_eq_some_iff.mp h).1
    rw [List.length_append, List.length_singleton] at hi
    omega

end slots

end Opto.Mapped
