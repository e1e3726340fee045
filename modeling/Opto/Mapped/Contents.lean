import Opto.Mapped.Rollback
import Opto.Mapped.Wiring

/-!
# The contents of a netlist

What a netlist says apart from its versions and its links: the nets and cells of
every slot, and the connections with their owners. Operations act on contents by
appending rows and by overwriting single rows.
-/

namespace Opto.Mapped

structure Contents where
  nets : List (Option NameId × Bool)
  cells : List (MappedCell × Bool)
  connections : List PinConnection
  pinOwners : List CellId

def MappedNetlist.contents (n : MappedNetlist) : Contents where
  nets := n.nets.map fun slot => (slot.name, slot.live)
  cells := n.cells.map fun slot => (slot.cell, slot.live)
  connections := n.connections
  pinOwners := n.pinOwners

def Contents.apply (ids : String → NameId) (c : Contents) : ResolvedOperation → Contents
  | .addNet _ name => { c with nets := c.nets ++ [(name.map ids, true)] }
  | .addCell id spec connections => { c with
      cells := c.cells ++ [(⟨ids spec.name, ids spec.cellType, spec.libraryCell, c.connections.length,
        c.connections.length + connections.length⟩, true)]
      connections := c.connections ++ connections.map fun x => ⟨ids x.1, x.2.1, x.2.2⟩
      pinOwners := c.pinOwners ++ List.replicate connections.length id }
  | .removeCell cell => { c with cells := c.cells.modify cell fun x => (x.1, false) }
  | .removeNet net => { c with nets := c.nets.modify net fun x => (x.1, false) }
  | .reconnectPin pin signal => { c with
      connections := c.connections.modify pin fun x => { x with signal } }
  | .replaceCell cell cellType libraryCell => { c with
      cells := c.cells.modify cell fun x => ({ x.1 with cellType := ids cellType, libraryCell }, x.2) }
  | .renameCell cell name => { c with
      cells := c.cells.modify cell fun x => ({ x.1 with name := ids name }, x.2) }
  | .renameNet net name => { c with nets := c.nets.modify net fun x => (name.map ids, x.2) }

/-! Ranges. -/

/-- Ranges that follow one another from `first` to `last`. -/
def Contiguous : Nat → List (Nat × Nat) → Nat → Prop
  | first, [], last => first = last
  | first, range :: ranges, last => range.1 = first ∧ range.1 ≤ range.2 ∧ Contiguous range.2 ranges last

namespace Contiguous

variable {first last k : Nat} {ranges : List (Nat × Nat)}

theorem le (h : Contiguous first ranges last) : first ≤ last := by
  induction ranges generalizing first with
  | nil => exact Nat.le_of_eq h
  | cons range ranges ih =>
    obtain ⟨rfl, hrange, hrest⟩ := h
    exact hrange.trans (ih hrest)

theorem concat (h : Contiguous first ranges last) (hle : last ≤ k) :
    Contiguous first (ranges ++ [(last, k)]) k := by
  induction ranges generalizing first with
  | nil => exact ⟨(h : first = last).symm, hle, rfl⟩
  | cons range ranges ih =>
    obtain ⟨hfirst, hrange, hrest⟩ := h
    exact ⟨hfirst, hrange, ih hrest⟩

theorem bounds (h : Contiguous first ranges last) {range : Nat × Nat} (hmem : range ∈ ranges) :
    range.1 ≤ range.2 ∧ range.2 ≤ last := by
  induction ranges generalizing first with
  | nil => cases hmem
  | cons head ranges ih =>
    obtain ⟨-, hrange, hrest⟩ := h
    rcases List.mem_cons.mp hmem with rfl | hmem
    · exact ⟨hrange, hrest.le⟩
    · exact ih hrest hmem

theorem cover (h : Contiguous first ranges last) {i : Nat} (hfirst : first ≤ i) (hlast : i < last) :
    ∃ (k : Nat) (range : Nat × Nat), ranges[k]? = some range ∧ range.1 ≤ i ∧ i < range.2 := by
  induction ranges generalizing first with
  | nil => exact absurd hlast (Nat.not_lt.mpr ((h : first = last) ▸ hfirst))
  | cons range ranges ih =>
    obtain ⟨rfl, hrange, hrest⟩ := h
    rcases Nat.lt_or_ge i range.2 with hi | hi
    · exact ⟨0, range, rfl, hfirst, hi⟩
    · obtain ⟨k, found, hk, hin⟩ := ih hrest hi
      exact ⟨k + 1, found, hk, hin⟩

end Contiguous

/-! Owners. -/

namespace Contents

def ranges (c : Contents) : List (Nat × Nat) :=
  c.cells.map fun x => (x.1.connectionStart, x.1.connectionEnd)

/-- A pin of a cell that lives. -/
def Live (c : Contents) (pin : PinId) : Prop :=
  ∃ (owner : CellId) (cell : MappedCell), c.pinOwners[pin]? = some owner ∧
    c.cells[owner]? = some (cell, true)

def Attached (c : Contents) (pin : PinId) (net : NetId) : Prop :=
  c.Live pin ∧ ∃ connection, c.connections[pin]? = some connection ∧ connection.signal = .net net

/-- The cells own the connections, range by range. -/
structure Formed (c : Contents) : Prop where
  owners : c.pinOwners.length = c.connections.length
  contiguous : Contiguous 0 c.ranges c.connections.length
  owned : ∀ (cell : CellId) (x : MappedCell × Bool), c.cells[cell]? = some x →
    ∀ pin : PinId, x.1.connectionStart ≤ pin → pin < x.1.connectionEnd → c.pinOwners[pin]? = some cell

namespace Formed

variable {c : Contents}

theorem range (h : Formed c) {cell : CellId} {x : MappedCell × Bool} (hx : c.cells[cell]? = some x) :
    x.1.connectionStart ≤ x.1.connectionEnd ∧ x.1.connectionEnd ≤ c.connections.length :=
  h.contiguous.bounds (List.mem_map_of_mem (List.mem_of_getElem? hx))

theorem owner (h : Formed c) {pin : PinId} {owner : CellId} (hpin : c.pinOwners[pin]? = some owner) :
    ∃ x, c.cells[owner]? = some x ∧ x.1.connectionStart ≤ pin ∧ pin < x.1.connectionEnd := by
  have hlt : pin < c.connections.length := h.owners ▸ (List.getElem?_eq_some_iff.mp hpin).1
  obtain ⟨cell, range, hrange, hfirst, hlast⟩ := h.contiguous.cover (Nat.zero_le pin) hlt
  rw [ranges, List.getElem?_map] at hrange
  obtain ⟨x, hx, rfl⟩ := Option.map_eq_some_iff.mp hrange
  have hcell := h.owned cell x hx pin hfirst hlast
  rw [hpin] at hcell
  cases hcell
  exact ⟨x, hx, hfirst, hlast⟩

/-- Rewriting cells in place keeps their ranges. -/
theorem modify (h : Formed c) {connections : List PinConnection}
    {cells : List (MappedCell × Bool)} (hlen : connections.length = c.connections.length)
    (hcells : ∀ i : Nat, (cells[i]?).map (fun x => (x.1.connectionStart, x.1.connectionEnd)) =
      (c.cells[i]?).map fun x => (x.1.connectionStart, x.1.connectionEnd)) :
    Formed { c with cells, connections } where
  owners := by rw [hlen]; exact h.owners
  contiguous := by
    have hranges : ({ c with cells, connections } : Contents).ranges = c.ranges := by
      apply List.ext_getElem?
      intro i
      rw [ranges, ranges, List.getElem?_map, List.getElem?_map]
      exact hcells i
    rw [hranges, hlen]
    exact h.contiguous
  owned := by
    intro cell x hx pin hfirst hlast
    have hrange := hcells cell
    rw [hx] at hrange
    obtain ⟨y, hy, heq⟩ := Option.map_eq_some_iff.mp hrange.symm
    have hstart : y.1.connectionStart = x.1.connectionStart := congrArg Prod.fst heq
    have hend : y.1.connectionEnd = x.1.connectionEnd := congrArg Prod.snd heq
    exact h.owned cell y hy pin (hstart ▸ hfirst) (hend ▸ hlast)

/-- A new cell takes the connections after the ones there are. -/
theorem push (h : Formed c) {cell : MappedCell} (live : Bool) (added : List PinConnection)
    (hstart : cell.connectionStart = c.connections.length)
    (hend : cell.connectionEnd = c.connections.length + added.length) :
    Formed { c with
      cells := c.cells ++ [(cell, live)]
      connections := c.connections ++ added
      pinOwners := c.pinOwners ++ List.replicate added.length c.cells.length } where
  owners := by simp [h.owners]
  contiguous := by
    have hranges := h.contiguous.concat (Nat.le_add_right _ added.length)
    simpa [ranges, hstart, hend] using hranges
  owned := by
    intro owner x hx pin hfirst hlast
    dsimp only at hx ⊢
    rw [List.getElem?_append] at hx
    split_ifs at hx with hold
    · have hlt : pin < c.pinOwners.length := h.owners ▸ hlast.trans_le (h.range hx).2
      rw [List.getElem?_append_left hlt]
      exact h.owned owner x hx pin hfirst hlast
    · have hnew : owner = c.cells.length := by
        have hlt := (List.getElem?_eq_some_iff.mp hx).1
        rw [List.length_singleton] at hlt
        exact Nat.le_antisymm (Nat.le_of_sub_eq_zero (Nat.lt_one_iff.mp hlt)) (Nat.le_of_not_lt hold)
      rw [hnew, Nat.sub_self] at hx
      cases hx
      rw [hstart] at hfirst
      rw [hend] at hlast
      rw [List.getElem?_append_right (h.owners ▸ hfirst), List.getElem?_replicate, h.owners,
        if_pos (Nat.sub_lt_left_of_lt_add hfirst hlast), hnew]

theorem apply (h : Formed c) (ids : String → NameId) (operation : ResolvedOperation)
    (hid : ∀ id spec connections, operation = .addCell id spec connections → id = c.cells.length) :
    Formed (c.apply ids operation) := by
  have keep {cell : CellId} {f : MappedCell × Bool → MappedCell × Bool}
      (hf : ∀ x, ((f x).1.connectionStart, (f x).1.connectionEnd) =
        (x.1.connectionStart, x.1.connectionEnd)) :
      Formed { c with cells := c.cells.modify cell f } := by
    apply h.modify rfl
    intro i
    rw [List.getElem?_modify]
    cases c.cells[i]? with
    | none => rfl
    | some x =>
      apply congrArg some
      dsimp only
      split_ifs
      · exact hf x
      · rfl
  cases operation with
  | addCell id spec connections =>
    obtain rfl := hid id spec connections rfl
    have hpush := @push c h ⟨ids spec.name, ids spec.cellType, spec.libraryCell,
      c.connections.length, c.connections.length + connections.length⟩ true
      (connections.map fun x => ⟨ids x.1, x.2.1, x.2.2⟩) rfl (by rw [List.length_map])
    rwa [List.length_map] at hpush
  | removeCell cell | replaceCell cell cellType libraryCell | renameCell cell name =>
    exact keep fun _ => rfl
  | reconnectPin pin signal => exact h.modify (List.length_modify ..) fun _ => rfl
  | _ => exact ⟨h.owners, h.contiguous, h.owned⟩

end Formed

/-! Pins of living cells. -/

variable {c : Contents}

theorem live_congr {c' : Contents} {pin : PinId} (howners : c'.pinOwners[pin]? = c.pinOwners[pin]?)
    (hcells : ∀ owner : CellId, c.pinOwners[pin]? = some owner →
      (c'.cells[owner]?).map (·.2) = (c.cells[owner]?).map (·.2)) : c'.Live pin ↔ c.Live pin := by
  have hlive {d : Contents} : d.Live pin ↔
      ∃ owner, d.pinOwners[pin]? = some owner ∧ (d.cells[owner]?).map (·.2) = some true := by
    constructor
    · rintro ⟨owner, cell, hpin, hcell⟩
      exact ⟨owner, hpin, by rw [hcell]; rfl⟩
    · rintro ⟨owner, hpin, hcell⟩
      obtain ⟨⟨cell, live⟩, hcell, rfl⟩ := Option.map_eq_some_iff.mp hcell
      exact ⟨owner, cell, hpin, hcell⟩
  rw [hlive, hlive, howners]
  refine exists_congr fun owner => and_congr_right fun hpin => ?_
  rw [hcells owner hpin]

theorem live_modify {cell : CellId} {f : MappedCell × Bool → MappedCell × Bool}
    (hf : ∀ x, (f x).2 = x.2) (pin : PinId) :
    ({ c with cells := c.cells.modify cell f } : Contents).Live pin ↔ c.Live pin := by
  apply live_congr
  · rfl
  intro owner _
  rw [List.getElem?_modify]
  cases c.cells[owner]? with
  | none => rfl
  | some x =>
    apply congrArg some
    dsimp only
    split_ifs
    · exact hf x
    · rfl

theorem live_removeCell (ids : String → NameId) (cell : CellId) (pin : PinId) :
    (c.apply ids (.removeCell cell)).Live pin ↔ c.Live pin ∧ c.pinOwners[pin]? ≠ some cell := by
  by_cases hcell : c.pinOwners[pin]? = some cell
  · refine ⟨?_, fun h => absurd hcell h.2⟩
    rintro ⟨owner, x, hpin, hx⟩
    cases hcell.symm.trans hpin
    simp only [Contents.apply, List.getElem?_modify_eq] at hx
    obtain ⟨y, -, hy⟩ := Option.map_eq_some_iff.mp hx
    cases hy
  · rw [and_iff_left hcell]
    apply live_congr
    · rfl
    intro owner hpin
    have hne : cell ≠ owner := fun he => hcell (he ▸ hpin)
    simp only [Contents.apply, List.getElem?_modify_ne _ _ hne]

/-- The pins of a cell are the ones it owns. -/
theorem Formed.mem_range' (h : c.Formed) {cell : CellId} {x : MappedCell × Bool}
    (hx : c.cells[cell]? = some x) (pin : PinId) :
    pin ∈ List.range' x.1.connectionStart (x.1.connectionEnd - x.1.connectionStart) ↔
      c.pinOwners[pin]? = some cell := by
  have hrange := (h.range hx).1
  rw [List.mem_range'_1, Nat.add_sub_cancel' hrange]
  constructor
  · exact fun ⟨hfirst, hlast⟩ => h.owned cell x hx pin hfirst hlast
  · intro hpin
    obtain ⟨y, hy, hin⟩ := h.owner hpin
    rw [hx] at hy
    cases hy
    exact hin

end Contents

theorem cells_contents {n : MappedNetlist} {cell : CellId} {x : MappedCell} {live : Bool} :
    n.contents.cells[cell]? = some (x, live) ↔
      ∃ slot, n.cells[cell]? = some slot ∧ slot.cell = x ∧ slot.live = live := by
  rw [MappedNetlist.contents, List.getElem?_map, Option.map_eq_some_iff]
  simp only [Prod.mk.injEq]

theorem pinOwner_iff {n : MappedNetlist} (h : n.contents.Formed) {pin : PinId} {owner : CellId} :
    n.pinOwner pin = some owner ↔ n.pinOwners[pin]? = some owner ∧
      ∃ slot, n.cells[owner]? = some slot ∧ slot.live = true := by
  constructor
  · intro howner
    obtain ⟨hpin, slot, hslot, hlive, -⟩ := Editing.pinOwner_eq_some howner
    exact ⟨hpin, slot, hslot, hlive⟩
  · rintro ⟨hpin, slot, hslot, hlive⟩
    obtain ⟨⟨x, live⟩, hx, hrange⟩ := h.owner hpin
    obtain ⟨slot', hslot', rfl, -⟩ := cells_contents.mp hx
    rw [hslot] at hslot'
    cases hslot'
    rw [MappedNetlist.pinOwner, hpin, Option.bind_some, MappedNetlist.cell, hslot, Option.filter_some,
      if_pos hlive, Option.map_some, Option.bind_some, if_pos hrange]

theorem live_iff {n : MappedNetlist} (h : n.contents.Formed) {pin : PinId} :
    n.contents.Live pin ↔ (n.pinOwner pin).isSome := by
  rw [Option.isSome_iff_exists]
  constructor
  · rintro ⟨owner, cell, hpin, hcell⟩
    obtain ⟨slot, hslot, -, hlive⟩ := cells_contents.mp hcell
    exact ⟨owner, (pinOwner_iff h).mpr ⟨hpin, slot, hslot, hlive⟩⟩
  · rintro ⟨owner, howner⟩
    obtain ⟨hpin, slot, hslot, hlive⟩ := (pinOwner_iff h).mp howner
    exact ⟨owner, slot.cell, hpin, cells_contents.mpr ⟨slot, hslot, rfl, hlive⟩⟩

end Opto.Mapped
