import Opto.Mapped.Rejection

/-!
# Valid netlists

The invariants a netlist has outside of a transaction: the wiring, the names, and
the references to live nets. What a list of operations does to the contents of a
valid netlist keeps them as long as no operation gives a blank name and no pin is
left on a net that is removed.
-/

namespace Opto.Mapped

/-- A name that is more than white space. -/
def NameTable.Names (t : NameTable) (id : NameId) : Prop :=
  ∃ name, t.resolve id = some name ∧ isBlank name = false

theorem NameTable.Names.extend {t u : NameTable} {id : NameId} (h : t.Names id) (hextends : t.Extends u) :
    u.Names id := h.imp fun _ hn => ⟨hextends.resolve hn.1, hn.2⟩

/-- The nets that ports, constant drivers and retained occurrences refer to. -/
def MappedNetlist.boundaryNets (n : MappedNetlist) : List NetId :=
  n.portNets ++ n.constantDrivers.map (·.1) ++ n.designConnectionSignals.filterMap fun signal =>
    match signal with
    | .net net => some net
    | .constant _ => none

/-- The ports and the retained occurrences, which no delta writes. -/
structure Boundary (n : MappedNetlist) : Prop where
  name : n.names.Names n.name
  ports : Contiguous 0 (n.ports.map fun port => (port.netStart, port.netEnd)) n.portNets.length
  portBits : ∀ port ∈ n.ports, port.netStart < port.netEnd
  portNames : ∀ port ∈ n.ports, n.names.Names port.name
  portsOnce : (n.ports.map (·.name)).Nodup
  instances : Contiguous 0 (n.designInstances.map fun row => (row.connectionStart, row.connectionEnd))
    n.designConnections.length
  instanceNames : ∀ row ∈ n.designInstances, n.names.Names row.name ∧ n.names.Names row.module
  instancesOnce : (n.designInstances.map (·.name)).Nodup
  bindings : Contiguous 0 (n.designConnections.map fun row => (row.signalStart, row.signalEnd))
    n.designConnectionSignals.length
  bindingBits : ∀ row ∈ n.designConnections, row.signalStart < row.signalEnd
  bindingNames : ∀ row ∈ n.designConnections, n.names.Names row.port
  bindingsOnce : ∀ row ∈ n.designInstances, ∀ ports,
    slice n.designConnections row.connectionStart row.connectionEnd = some ports →
      (ports.map (·.port)).Nodup
  indexed : ∀ net ∈ n.boundaryNets, n.isExternalNet net = true

/-- Names of nets, of living cells and of their pins. -/
structure Labelled (t : NameTable) (c : Contents) : Prop where
  nets : ∀ x ∈ c.nets, ∀ id, x.1 = some id → t.Names id
  cells : ∀ x ∈ c.cells, x.2 = true → t.Names x.1.name ∧ t.Names x.1.cellType
  pins : ∀ (pin : PinId) (x : PinConnection), c.Live pin → c.connections[pin]? = some x → t.Names x.pin
  pinsOnce : ∀ (cell : CellId) (pin pin' : PinId) (x x' : PinConnection), c.Live pin →
    c.pinOwners[pin]? = some cell → c.pinOwners[pin']? = some cell → c.connections[pin]? = some x →
      c.connections[pin']? = some x' → x.pin = x'.pin → pin = pin'

/-- No pin refers to a removed net. -/
def Referenced (c : Contents) : Prop :=
  ∀ pin net, c.Attached pin net → ∃ name, c.nets[net]? = some (name, true)

/-- Living cells have different names, none of them the name of a retained occurrence. -/
structure Distinct (c : Contents) (retained : List NameId) : Prop where
  cells : ∀ (i j : CellId) (x y : MappedCell), c.cells[i]? = some (x, true) →
    c.cells[j]? = some (y, true) → x.name = y.name → i = j
  retained : ∀ (i : CellId) (x : MappedCell), c.cells[i]? = some (x, true) → x.name ∉ retained

/-- What `validate_connectivity`, `validate_references`, `validate_unique_names` and the
live-count and external-net checks establish. -/
structure Valid (n : MappedNetlist) : Prop where
  wired : ∃ rows, Wired n rows
  netCapacity : n.nets.length ≤ U32_MAX
  cellCapacity : n.cells.length ≤ U32_MAX
  netCount : n.liveNetCount = n.contents.nets.countP (·.2)
  cellCount : n.liveCellCount = n.contents.cells.countP (·.2)
  named : Named n.names n.contents
  labelled : Labelled n.names n.contents
  referenced : Referenced n.contents
  distinct : Distinct n.contents (n.designInstances.map (·.name))
  boundary : Boundary n
  boundaryLive : ∀ net ∈ n.boundaryNets, n.isLiveNet net = true

/-! Labels. -/

namespace Labelled

variable {t : NameTable} {c : Contents} {ids : String → NameId}

theorem extend {u : NameTable} (h : Labelled t c) (hextends : t.Extends u) : Labelled u c where
  nets x hx id hid := (h.nets x hx id hid).extend hextends
  cells x hx hlive := ⟨(h.cells x hx hlive).1.extend hextends, (h.cells x hx hlive).2.extend hextends⟩
  pins pin x hlive hx := (h.pins pin x hlive hx).extend hextends
  pinsOnce := h.pinsOnce

/-- Rewriting cells keeps the labels of the pins that are still alive. -/
theorem writeCell (h : Labelled t c) {cell : CellId} {f : MappedCell × Bool → MappedCell × Bool}
    (hf : ∀ x, (f x).2 = true → x.2 = true ∧
      (t.Names x.1.name ∧ t.Names x.1.cellType → t.Names (f x).1.name ∧ t.Names (f x).1.cellType))
    (hlive : ∀ pin, ({ c with cells := c.cells.modify cell f } : Contents).Live pin → c.Live pin) :
    Labelled t { c with cells := c.cells.modify cell f } where
  nets := h.nets
  cells := by
    intro x hx hl
    rcases Named.mem_modify hx with hx | ⟨y, hy, rfl⟩
    · exact h.cells x hx hl
    · obtain ⟨hold, hnames⟩ := hf y hl
      exact hnames (h.cells y hy hold)
  pins pin x hl hx := h.pins pin x (hlive pin hl) hx
  pinsOnce cell pin pin' x x' hl := h.pinsOnce cell pin pin' x x' (hlive pin hl)

theorem writeNet (h : Labelled t c) {net : NetId} {f : Option NameId × Bool → Option NameId × Bool}
    (hf : ∀ x, (∀ id, x.1 = some id → t.Names id) → ∀ id, (f x).1 = some id → t.Names id) :
    Labelled t { c with nets := c.nets.modify net f } where
  nets := by
    intro x hx
    rcases Named.mem_modify hx with hx | ⟨y, hy, rfl⟩
    · exact h.nets x hx
    · exact hf y (h.nets y hy)
  cells := h.cells
  pins := h.pins
  pinsOnce := h.pinsOnce

/-- A pin of a new cell has a name of the specification, and the pins are told apart by it. -/
theorem addCell (h : Labelled t c) (hformed : c.Formed) {spec : CellSpec}
    {connections : List (String × Option Nat × ConnectionSignal)} (hname : t.Names (ids spec.name))
    (htype : t.Names (ids spec.cellType)) (hpins : ∀ x ∈ connections, t.Names (ids x.1))
    (honce : (connections.map fun x => ids x.1).Nodup) :
    Labelled t (c.apply ids (.addCell c.cells.length spec connections)) := by
  have howners : c.pinOwners.length = c.connections.length := hformed.owners
  have hlive := Editing.addCell_live hformed ids spec connections
  have old_row {pin : PinId} {x : PinConnection} (hlt : pin < c.connections.length)
      (hx : (c.apply ids (.addCell c.cells.length spec connections)).connections[pin]? = some x) :
      c.connections[pin]? = some x := by
    rwa [Contents.apply, List.getElem?_append_left hlt] at hx
  have old_owner {pin : PinId} {cell : CellId} (hlt : pin < c.connections.length)
      (hcell : (c.apply ids (.addCell c.cells.length spec connections)).pinOwners[pin]? = some cell) :
      c.pinOwners[pin]? = some cell := by
    rwa [Contents.apply, List.getElem?_append_left (howners ▸ hlt)] at hcell
  have new_row {pin : PinId} {x : PinConnection} (hge : c.connections.length ≤ pin)
      (hx : (c.apply ids (.addCell c.cells.length spec connections)).connections[pin]? = some x) :
      ∃ y, connections[pin - c.connections.length]? = some y ∧ x.pin = ids y.1 := by
    rw [Contents.apply, List.getElem?_append_right hge, List.getElem?_map] at hx
    obtain ⟨y, hy, rfl⟩ := Option.map_eq_some_iff.mp hx
    exact ⟨y, hy, rfl⟩
  have new_owner {pin : PinId} {cell : CellId} (hge : c.connections.length ≤ pin)
      (hcell : (c.apply ids (.addCell c.cells.length spec connections)).pinOwners[pin]? = some cell) :
      cell = c.cells.length := by
    rw [Contents.apply, List.getElem?_append_right (howners ▸ hge)] at hcell
    exact List.eq_of_mem_replicate (List.mem_of_getElem? hcell)
  constructor
  · exact h.nets
  · intro x hx hl
    rcases List.mem_append.mp hx with hx | hx
    · exact h.cells x hx hl
    · rw [List.mem_singleton.mp hx]
      exact ⟨hname, htype⟩
  · intro pin x hl hx
    rcases Nat.lt_or_ge pin c.connections.length with hlt | hge
    · have hold := ((hlive pin).mp hl).resolve_right fun hnew => absurd hlt (Nat.not_lt.mpr hnew.1)
      exact h.pins pin x hold (old_row hlt hx)
    · obtain ⟨y, hy, hname⟩ := new_row hge hx
      rw [hname]
      exact hpins y (List.mem_of_getElem? hy)
  · intro cell pin pin' x x' hl hcell hcell' hx hx' heq
    -- pins on different sides of the boundary have different owners
    have apart {p q : PinId} (hp : p < c.connections.length) (hq : c.connections.length ≤ q)
        (hcp : (c.apply ids (.addCell c.cells.length spec connections)).pinOwners[p]? = some cell)
        (hcq : (c.apply ids (.addCell c.cells.length spec connections)).pinOwners[q]? = some cell) :
        False := by
      obtain ⟨y, hy, -⟩ := hformed.owner (old_owner hp hcp)
      exact absurd (lt_of_row hy) (Nat.not_lt.mpr (new_owner hq hcq).ge)
    rcases Nat.lt_or_ge pin c.connections.length with hlt | hge
    · rcases Nat.lt_or_ge pin' c.connections.length with hlt' | hge'
      · have hold := ((hlive pin).mp hl).resolve_right fun hnew => absurd hlt (Nat.not_lt.mpr hnew.1)
        exact h.pinsOnce cell pin pin' x x' hold (old_owner hlt hcell) (old_owner hlt' hcell')
          (old_row hlt hx) (old_row hlt' hx') heq
      · exact (apart hlt hge' hcell hcell').elim
    · rcases Nat.lt_or_ge pin' c.connections.length with hlt' | hge'
      · exact (apart hlt' hge hcell' hcell).elim
      · obtain ⟨y, hy, hname⟩ := new_row hge hx
        obtain ⟨y', hy', hname'⟩ := new_row hge' hx'
        have hrow {i : Nat} {z} (hz : connections[i]? = some z) :
            (connections.map fun x => ids x.1)[i]? = some (ids z.1) := by
          rw [List.getElem?_map, hz]
          rfl
        have hindex := (List.getElem?_inj (lt_of_row (hrow hy)) honce).mp
          ((hrow hy).trans ((congrArg some (hname.symm.trans (heq.trans hname'))).trans (hrow hy').symm))
        have hsub : pin - c.connections.length = pin' - c.connections.length := hindex
        rw [← Nat.sub_add_cancel hge, hsub, Nat.sub_add_cancel hge']

theorem apply (h : Labelled t c) (hformed : c.Formed) {operation : ResolvedOperation}
    (hfits : Fits c operation) (honce : ∀ id spec connections, operation = .addCell id spec connections →
      (connections.map fun x => ids x.1).Nodup)
    (hids : ∀ name ∈ operationNames [operation], t.Names (ids name)) :
    Labelled t (c.apply ids operation) := by
  have hkeep {f : MappedCell × Bool → MappedCell × Bool} (cell : CellId) (hf : ∀ x, (f x).2 = x.2)
      (pin : PinId) (hl : ({ c with cells := c.cells.modify cell f } : Contents).Live pin) : c.Live pin :=
    (Contents.live_modify hf pin).mp hl
  cases operation with
  | addNet id name =>
    refine { h with nets := fun x hx => ?_ }
    rcases List.mem_append.mp hx with hx | hx
    · exact h.nets x hx
    · rw [List.mem_singleton.mp hx]
      intro id hid
      obtain ⟨string, rfl, rfl⟩ := Option.map_eq_some_iff.mp hid
      exact hids string (by simp [operationNames])
  | addCell id spec connections =>
    obtain ⟨rfl, -, hpins⟩ := hfits
    apply h.addCell hformed
    · exact hids _ (by simp [operationNames])
    · exact hids _ (by simp [operationNames])
    · intro x hx
      apply hids
      have hname : x.1 ∈ spec.connections.map (·.1) := hpins ▸ List.mem_map_of_mem hx
      simp only [operationNames, List.flatMap_cons, List.flatMap_nil, List.append_nil, List.mem_cons]
      exact .inr (.inr hname)
    · exact honce _ spec connections rfl
  | removeCell cell =>
    apply h.writeCell
    · exact fun x hx => by cases hx
    · exact fun pin hl => ((Contents.live_removeCell ids cell pin).mp hl).1
  | removeNet net => exact h.writeNet fun _ hx => hx
  | reconnectPin pin signal =>
    have hold {p : PinId} {x : PinConnection}
        (hx : (c.connections.modify pin fun x => { x with signal })[p]? = some x) :
        ∃ y, c.connections[p]? = some y ∧ x.pin = y.pin := by
      rw [List.getElem?_modify] at hx
      obtain ⟨y, hy, rfl⟩ := Option.map_eq_some_iff.mp hx
      refine ⟨y, hy, ?_⟩
      split_ifs <;> rfl
    refine { h with pins := fun p x hl hx => ?_, pinsOnce := fun cell p p' x x' hl hc hc' hx hx' he => ?_ }
    · obtain ⟨y, hy, hname⟩ := hold hx
      rw [hname]
      exact h.pins p y hl hy
    · obtain ⟨y, hy, hname⟩ := hold hx
      obtain ⟨y', hy', hname'⟩ := hold hx'
      exact h.pinsOnce cell p p' y y' hl hc hc' hy hy' (hname.symm.trans (he.trans hname'))
  | replaceCell cell cellType libraryCell =>
    apply h.writeCell
    · exact fun x hx => ⟨hx, fun hnames => ⟨hnames.1, hids _ (by simp [operationNames])⟩⟩
    · exact hkeep cell fun _ => rfl
  | renameCell cell name =>
    apply h.writeCell
    · exact fun x hx => ⟨hx, fun hnames => ⟨hids _ (by simp [operationNames]), hnames.2⟩⟩
    · exact hkeep cell fun _ => rfl
  | renameNet net name =>
    apply h.writeNet
    intro x _ id hid
    obtain ⟨string, rfl, rfl⟩ := Option.map_eq_some_iff.mp hid
    exact hids string (by simp [operationNames])

end Labelled

/-! Live slots. -/

theorem countP_modify_keep {α : Type} {p : α → Bool} {f : α → α} (hf : ∀ x, p (f x) = p x) (xs : List α)
    (i : Nat) : (xs.modify i f).countP p = xs.countP p := by
  have hmap := map_modify_of_eq hf xs i
  have hcount (ys : List α) : (ys.map p).countP id = ys.countP p := List.countP_map
  rw [← hcount, hmap, hcount]

theorem countP_modify_clear {α : Type} {p : α → Bool} {f : α → α} (hf : ∀ x, p (f x) = false)
    {xs : List α} {i : Nat} {x : α} (hx : xs[i]? = some x) (hp : p x = true) :
    (xs.modify i f).countP p + 1 = xs.countP p := by
  induction xs generalizing i with
  | nil => cases hx
  | cons y ys ih =>
    cases i with
    | zero =>
      cases hx
      rw [List.modify_zero_cons, List.countP_cons_of_pos hp, List.countP_cons_of_neg (by simp [hf])]
    | succ i =>
      rw [List.modify_succ_cons, List.countP_cons, List.countP_cons, ← ih hx]
      omega

namespace Contents

variable {c : Contents} {ids : String → NameId} {operation : ResolvedOperation}

/-- What every operation preserves when its turn comes. -/
theorem run_split (invariant : List ResolvedOperation → Contents → Prop)
    {operations : List ResolvedOperation} (h : invariant [] c)
    (hstep : ∀ done operation rest, operations = done ++ operation :: rest →
      invariant done (c.run ids done) →
        invariant (done ++ [operation]) ((c.run ids done).apply ids operation)) :
    invariant operations (c.run ids operations) := foldl_split invariant h hstep

theorem apply_liveNets (ids : String → NameId) (h : ∀ net, operation = .removeNet net →
    ∃ x, c.nets[net]? = some x ∧ x.2 = true) :
    (c.apply ids operation).nets.countP (·.2) + [operation].countP ResolvedOperation.removesNet =
      c.nets.countP (·.2) + ([operation].filterMap ResolvedOperation.newNet).length := by
  cases operation with
  | removeNet net =>
    obtain ⟨x, hx, hlive⟩ := h net rfl
    exact countP_modify_clear (f := fun y => (y.1, false)) (fun _ => rfl) hx hlive
  | renameNet net name =>
    exact countP_modify_keep (f := fun y => (name.map ids, y.2)) (fun _ => rfl) c.nets net
  | addNet id name => exact List.countP_append
  | _ => rfl

theorem apply_liveCells (ids : String → NameId) (h : ∀ cell, operation = .removeCell cell →
    ∃ x, c.cells[cell]? = some x ∧ x.2 = true) :
    (c.apply ids operation).cells.countP (·.2) + [operation].countP ResolvedOperation.removesCell =
      c.cells.countP (·.2) + ([operation].filterMap ResolvedOperation.newCell).length := by
  cases operation with
  | removeCell cell =>
    obtain ⟨x, hx, hlive⟩ := h cell rfl
    exact countP_modify_clear (f := fun y => (y.1, false)) (fun _ => rfl) hx hlive
  | replaceCell cell cellType libraryCell =>
    exact countP_modify_keep (p := fun y : MappedCell × Bool => y.2)
      (f := fun y => ({ y.1 with cellType := ids cellType, libraryCell }, y.2)) (fun _ => rfl) c.cells cell
  | renameCell cell name =>
    exact countP_modify_keep (p := fun y : MappedCell × Bool => y.2)
      (f := fun y => ({ y.1 with name := ids name }, y.2)) (fun _ => rfl) c.cells cell
  | addCell id spec connections => exact List.countP_append
  | _ => rfl

end Contents

section Delta

variable {n : MappedNetlist} {delta : RegionDelta} {p : PreparedDelta} {rows : Rows}
  {ids : String → NameId} {names : NameTable}

namespace Prepared

theorem netBefore (hp : Prepared n delta p) (ids : String → NameId)
    {done rest : List ResolvedOperation} {net : NetId}
    (hsplit : p.resolved.operations = done ++ .removeNet net :: rest) :
    ∃ x, (n.contents.run ids done).nets[net]? = some x ∧ x.2 = true := by
  have hmem : .removeNet net ∈ p.resolved.operations :=
    hsplit ▸ List.mem_append_right _ List.mem_cons_self
  obtain ⟨name, hx⟩ := hp.current.netRow (hp.valid _ hmem)
  refine ⟨_, Contents.run_net ids hx done, (Contents.netAfter_live ..).mpr ⟨rfl, fun hin => ?_⟩⟩
  exact not_written hp.netsOnce hsplit rfl _ hin rfl

/-- The live nets are the ones there were, without the removed and with the added ones. -/
theorem liveNets (hp : Prepared n delta p) (ids : String → NameId) :
    (n.contents.run ids p.resolved.operations).nets.countP (·.2) +
        p.resolved.operations.countP ResolvedOperation.removesNet =
      n.contents.nets.countP (·.2) +
        (p.resolved.operations.filterMap ResolvedOperation.newNet).length := by
  apply Contents.run_split fun done c => c.nets.countP (·.2) + done.countP ResolvedOperation.removesNet =
    n.contents.nets.countP (·.2) + (done.filterMap ResolvedOperation.newNet).length
  · rfl
  intro done operation rest hsplit hdone
  have hstep := Contents.apply_liveNets ids fun net he =>
    hp.netBefore ids (he ▸ hsplit : p.resolved.operations = done ++ .removeNet net :: rest)
  rw [List.countP_append, List.filterMap_append, List.length_append]
  omega

theorem liveCells (hp : Prepared n delta p) (ids : String → NameId) :
    (n.contents.run ids p.resolved.operations).cells.countP (·.2) +
        p.resolved.operations.countP ResolvedOperation.removesCell =
      n.contents.cells.countP (·.2) +
        (p.resolved.operations.filterMap ResolvedOperation.newCell).length := by
  apply Contents.run_split fun done c => c.cells.countP (·.2) +
    done.countP ResolvedOperation.removesCell =
      n.contents.cells.countP (·.2) + (done.filterMap ResolvedOperation.newCell).length
  · rfl
  intro done operation rest hsplit hdone
  have hstep := Contents.apply_liveCells ids fun cell he => by
    obtain ⟨x, hx⟩ := hp.fits ids (he ▸ hsplit : p.resolved.operations = done ++ .removeCell cell :: rest)
    exact ⟨_, hx, rfl⟩
  rw [List.countP_append, List.filterMap_append, List.length_append]
  omega

theorem formed (hp : Prepared n delta p) (hformed : n.contents.Formed) (ids : String → NameId)
    {done rest : List ResolvedOperation} (hsplit : p.resolved.operations = done ++ rest) :
    (n.contents.run ids done).Formed := by
  apply Contents.run_split fun _ c => c.Formed
  · exact hformed
  intro before operation after hdone hbefore
  apply hbefore.apply
  intro id spec connections he
  have hfits := hp.fits ids (hsplit.trans (congrArg (· ++ rest) hdone |>.trans (List.append_assoc ..)))
  rw [he] at hfits
  exact hfits.1

/-- The labels stay as long as no operation gives a blank name. -/
theorem labelled (hp : Prepared n delta p) (hformed : n.contents.Formed)
    (h : Labelled n.names n.contents) (hextends : n.names.Extends names)
    (hids : ∀ name ∈ operationNames p.resolved.operations, names.resolve (ids name) = some name)
    (hblank : ∀ name ∈ operationNames p.resolved.operations, isBlank name = false) :
    Labelled names (n.contents.run ids p.resolved.operations) := by
  apply Contents.run_split fun _ c => Labelled names c
  · exact h.extend hextends
  intro done operation rest hsplit hdone
  have hmem : operation ∈ p.resolved.operations := hsplit ▸ List.mem_append_right _ List.mem_cons_self
  have hgiven : ∀ name ∈ operationNames [operation], name ∈ operationNames p.resolved.operations := by
    intro name hname
    rw [hsplit, operationNames, List.flatMap_append, List.flatMap_cons]
    apply List.mem_append_right
    apply List.mem_append_left
    simpa [operationNames] using hname
  apply hdone.apply (hp.formed hformed ids hsplit) (hp.fits ids hsplit)
  · rintro id spec connections rfl
    have hpins := hp.resolved.pinNames _ hmem
    have hnodup := (hp.valid _ hmem).1
    have hmap : (connections.map fun x => ids x.1) = (connections.map (·.1)).map ids := by
      rw [List.map_map]
      rfl
    rw [hmap]
    apply hnodup.map_on
    intro x hx y hy heq
    have hname {z : String} (hz : z ∈ connections.map (·.1)) : names.resolve (ids z) = some z := by
      apply hids
      apply hgiven
      rw [hpins] at hz
      simp only [operationNames, List.flatMap_cons, List.flatMap_nil, List.append_nil, List.mem_cons]
      exact .inr (.inr hz)
    exact Option.some_inj.mp ((hname hx).symm.trans ((congrArg names.resolve heq).trans (hname hy)))
  · exact fun name hname => ⟨name, hids name (hgiven name hname), hblank name (hgiven name hname)⟩

end Prepared

end Delta

end Opto.Mapped
