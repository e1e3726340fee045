import Opto.Mapped.Final

/-!
# Atomic deltas

Applying a delta to a valid netlist either fails and leaves the netlist as it was,
or ends in a valid netlist, as long as no connection is made before its net or
after its cell, and no pin and no name is left behind that should not be there.
-/

namespace Opto.Mapped

/-! What a delta asks for. -/

namespace RegionOperation

def references : RegionOperation → List ConnectionRef
  | .addCell _ spec => spec.connections.map (·.2.2)
  | .reconnectPin _ signal => [signal]
  | _ => []

def names : RegionOperation → List String
  | .addNet _ name | .renameNet _ name => name.toList
  | .addCell _ spec => spec.name :: spec.cellType :: spec.connections.map (·.1)
  | .replaceCell _ cellType _ => [cellType]
  | .renameCell _ name => [name]
  | .removeCell _ | .removeNet _ | .reconnectPin _ _ => []

end RegionOperation

/-- The net of a connection is there after the operations `done`. -/
def Added (n : MappedNetlist) (done : List RegionOperation) : ConnectionRef → Prop
  | .net net => net < n.nets.length + (done.filterMap RegionOperation.tempNet).length
  | .newNet id => id ∈ done.filterMap RegionOperation.tempNet
  | .constant _ => True

/-- Nets are added before they are connected, and pins are reconnected before their cells go. -/
structure Timely (n : MappedNetlist) (delta : RegionDelta) : Prop where
  earlier : ∀ done operation rest, delta.operations = done ++ operation :: rest →
    ∀ signal ∈ operation.references, Added n done signal
  alive : ∀ done pin signal rest owner, delta.operations = done ++ .reconnectPin pin signal :: rest →
    n.pinOwner pin = some owner → .removeCell owner ∉ done

/-- Besides, no pin that stays is put on a removed net, and no name is blank. -/
structure Clean (n : MappedNetlist) (delta : RegionDelta) : Prop extends Timely n delta where
  detached : ∀ net pin owner, .removeNet net ∈ delta.operations →
    .reconnectPin pin (.net net) ∈ delta.operations → n.pinOwner pin = some owner →
      .removeCell owner ∈ delta.operations
  named : ∀ name ∈ delta.operations.flatMap RegionOperation.names, isBlank name = false

/-! Requested and resolved operations. -/

section Resolution

variable {addedNets : List (TempNetId × NetId)} {addedCells : List (TempCellId × CellId)}

/-- A resolved operation and the one it comes from. -/
def Resolves (addedNets : List (TempNetId × NetId)) (operation : RegionOperation) :
    ResolvedOperation → Prop
  | .addNet _ name => ∃ id, operation = .addNet id name
  | .addCell _ spec connections => (∃ id, operation = .addCell id spec) ∧
    List.Forall₂ (fun x y => resolveSignal addedNets x.2.2 = .ok y.2.2) spec.connections connections
  | .removeCell cell => operation = .removeCell cell
  | .removeNet net => operation = .removeNet net
  | .reconnectPin pin signal => ∃ ref, operation = .reconnectPin pin ref ∧
    resolveSignal addedNets ref = .ok signal
  | .replaceCell cell cellType libraryCell => operation = .replaceCell cell cellType libraryCell
  | .renameCell cell name => operation = .renameCell cell name
  | .renameNet net name => operation = .renameNet net name

theorem resolveOperation_resolves (operation : RegionOperation) :
    Settles (resolveOperation addedNets addedCells operation) (Resolves addedNets operation)
      fun _ => True := by
  cases operation with
  | addNet id name =>
    apply Settles.bind (orPanic_settles (expectSome_settles _ _))
    exact fun _ _ => ⟨id, rfl⟩
  | addCell id spec =>
    apply Settles.bind (orPanic_settles (expectSome_settles _ _))
    intro final _
    apply Settles.bind (Settles.mapM (R := fun x y => resolveSignal addedNets x.2.2 = .ok y.2.2)
      fun x _ => by
        apply Settles.bind (settles_trivial (resolveSignal addedNets x.2.2)).self
        exact fun _ h => h.1)
    exact fun _ hall => ⟨⟨id, rfl⟩, hall⟩
  | reconnectPin pin ref =>
    apply Settles.bind (settles_trivial (resolveSignal addedNets ref)).self
    exact fun _ h => ⟨ref, rfl, h.1⟩
  | _ => exact rfl

/-- An operation without references is resolved to itself. -/
theorem Resolves.tempNet {operation : RegionOperation} {resolved : ResolvedOperation}
    (h : Resolves addedNets operation resolved) : resolved.newNet.isSome = operation.tempNet.isSome := by
  cases resolved with
  | addNet final name =>
    obtain ⟨id, rfl⟩ := h
    rfl
  | addCell final spec connections =>
    obtain ⟨⟨id, rfl⟩, -⟩ := h
    rfl
  | reconnectPin pin signal =>
    obtain ⟨ref, rfl, -⟩ := h
    rfl
  | _ =>
    cases h
    rfl

theorem Resolves.names {operation : RegionOperation} {resolved : ResolvedOperation}
    (h : Resolves addedNets operation resolved) : operationNames [resolved] = operation.names := by
  cases resolved with
  | addNet final name =>
    obtain ⟨id, rfl⟩ := h
    simp [operationNames, RegionOperation.names]
  | addCell final spec connections =>
    obtain ⟨⟨id, rfl⟩, -⟩ := h
    simp [operationNames, RegionOperation.names]
  | reconnectPin pin signal =>
    obtain ⟨ref, rfl, -⟩ := h
    rfl
  | _ =>
    cases h
    simp [operationNames, RegionOperation.names]

end Resolution

variable {n : MappedNetlist} {delta : RegionDelta} {p : PreparedDelta} {rows : Rows}
  {r : ResolvedDelta}

namespace Planned

theorem resolves (h : Planned n delta r) :
    List.Forall₂ (Resolves r.addedNets) delta.operations r.operations :=
  h.operations.imp fun operation _ hok => (resolveOperation_resolves operation).ok hok

theorem names_eq {done : List RegionOperation} {done' : List ResolvedOperation}
    (h : List.Forall₂ (Resolves r.addedNets) done done') :
    operationNames done' = done.flatMap RegionOperation.names := by
  induction h with
  | nil => rfl
  | cons hr _ ih =>
    rw [List.flatMap_cons, ← ih, ← hr.names]
    simp [operationNames]

theorem removeCell_iff {done : List RegionOperation} {done' : List ResolvedOperation}
    (h : List.Forall₂ (Resolves r.addedNets) done done') (cell : CellId) :
    .removeCell cell ∈ done' ↔ .removeCell cell ∈ done := by
  constructor
  · intro hmem
    obtain ⟨operation, hop, rfl⟩ := exists_of_mem_right h hmem
    exact hop
  · intro hmem
    obtain ⟨resolved, hres, hr⟩ := exists_of_mem_left h hmem
    cases resolved with
    | removeCell other =>
      cases hr
      exact hres
    | addNet final name => cases hr.choose_spec
    | addCell final spec connections => cases hr.1.choose_spec
    | reconnectPin pin signal => cases hr.choose_spec.1
    | _ => cases hr

/-- The identifier of an added net follows the ones added before it. -/
theorem added_iff (h : Planned n delta r) {done rest : List RegionOperation}
    (hsplit : delta.operations = done ++ rest) {ref : ConnectionRef} {signal : ConnectionSignal}
    (hresolve : resolveSignal r.addedNets ref = .ok signal) :
    (∀ net, signal = .net net → net < n.nets.length + (done.filterMap RegionOperation.tempNet).length) ↔
      Added n done ref := by
  cases ref with
  | net net =>
    cases hresolve
    exact ⟨fun hlt => hlt net rfl, by rintro hlt _ ⟨⟩; exact hlt⟩
  | constant value =>
    cases hresolve
    exact ⟨fun _ => trivial, by rintro - _ ⟨⟩⟩
  | newNet id =>
    rw [resolveSignal] at hresolve
    split at hresolve
    · rename_i final hfinal
      cases hresolve
      obtain ⟨i, hi⟩ := List.mem_iff_getElem?.mp (mem_of_lookup hfinal)
      have hkey : (delta.operations.filterMap RegionOperation.tempNet)[i]? = some id := by
        rw [← h.netKeys, List.getElem?_map, hi]
        rfl
      have hid : final = n.nets.length + i := by
        have hat : (r.addedNets.map (·.2))[i]? = some final := by
          rw [List.getElem?_map, hi]
          rfl
        rw [h.netIds, List.getElem?_range' (lt_of_row hi), Nat.one_mul] at hat
        exact (Option.some_inj.mp hat).symm
      have hnodup : (delta.operations.filterMap RegionOperation.tempNet).Nodup := by
        rw [delta.tempNets]
        exact List.nodup_range.map fun a b he => by injection he
      rw [hsplit, List.filterMap_append] at hkey hnodup
      have hlast : (∀ net, ConnectionSignal.net final = .net net →
          net < n.nets.length + (done.filterMap RegionOperation.tempNet).length) ↔
            i < (done.filterMap RegionOperation.tempNet).length := by
        rw [hid]
        constructor
        · exact fun hlt => Nat.lt_of_add_lt_add_left (hlt _ rfl)
        · rintro hlt _ ⟨⟩
          exact Nat.add_lt_add_left hlt _
      rw [hlast]
      exact index_lt_iff hnodup hkey
    · cases hresolve

theorem removeNet_iff (h : Planned n delta r) (net : NetId) :
    .removeNet net ∈ r.operations ↔ .removeNet net ∈ delta.operations := by
  constructor
  · intro hmem
    obtain ⟨operation, hop, rfl⟩ := exists_of_mem_right h.resolves hmem
    exact hop
  · intro hmem
    obtain ⟨resolved, hres, hr⟩ := exists_of_mem_left h.operations hmem
    cases hr
    exact hres

/-- Only the old number of an old net is resolved to it. -/
theorem reconnectPin_iff (h : Planned n delta r) (pin : PinId) {net : NetId} (hold : net < n.nets.length) :
    .reconnectPin pin (.net net) ∈ r.operations ↔ .reconnectPin pin (.net net) ∈ delta.operations := by
  constructor
  · intro hmem
    obtain ⟨operation, hop, ref, rfl, hresolve⟩ := exists_of_mem_right h.resolves hmem
    cases ref with
    | net other =>
      cases hresolve
      exact hop
    | constant value => cases hresolve
    | newNet id =>
      have hlookup : r.addedNets.lookup id = some net := by
        rw [resolveSignal] at hresolve
        split at hresolve
        · cases hresolve
          assumption
        · cases hresolve
      have hid : net ∈ r.addedNets.map (·.2) := List.mem_map_of_mem (mem_of_lookup hlookup)
      rw [h.netIds, List.mem_range'_1] at hid
      exact absurd hold (Nat.not_lt.mpr hid.1)
  · intro hmem
    obtain ⟨resolved, hres, hr⟩ := exists_of_mem_left h.operations hmem
    cases hr
    exact hres

theorem newNets_length {done : List RegionOperation} {done' : List ResolvedOperation}
    (h : List.Forall₂ (Resolves r.addedNets) done done') :
    (done'.filterMap ResolvedOperation.newNet).length =
      (done.filterMap RegionOperation.tempNet).length := by
  rw [List.length_filterMap_eq_countP, List.length_filterMap_eq_countP]
  induction h with
  | nil => rfl
  | cons hr _ ih => rw [List.countP_cons, List.countP_cons, ih, hr.tempNet]

end Planned

/-- Ready as the operations are requested: the nets are there, and the cell still is. -/
theorem Prepared.ready_iff (hp : Prepared n delta p) (hw : Wired n rows) (ids : String → NameId)
    {done rest : List RegionOperation} {done' : List ResolvedOperation} {operation : RegionOperation}
    {resolved : ResolvedOperation} (hsplit : delta.operations = done ++ operation :: rest)
    (hdone : List.Forall₂ (Resolves p.resolved.addedNets) done done')
    (hop : Resolves p.resolved.addedNets operation resolved) (hmem : resolved ∈ p.resolved.operations) :
    Ready (n.contents.run ids done') resolved ↔
      (∀ signal ∈ operation.references, Added n done signal) ∧
        ∀ pin signal owner, operation = .reconnectPin pin signal → n.pinOwner pin = some owner →
          .removeCell owner ∉ done := by
  have hlength : (n.contents.run ids done').nets.length =
      n.nets.length + (done.filterMap RegionOperation.tempNet).length := by
    rw [Contents.run_nets_length, Planned.newNets_length hdone]
    exact congrArg (· + _) (List.length_map _)
  cases resolved with
  | addCell final spec connections =>
    obtain ⟨⟨id, rfl⟩, hall⟩ := hop
    rw [Ready, hlength, and_iff_left (by rintro _ _ _ ⟨⟩)]
    constructor
    · intro hready signal hsignal
      obtain ⟨x, hx, rfl⟩ := List.mem_map.mp hsignal
      obtain ⟨y, hy, hresolve⟩ := exists_of_mem_left hall hx
      exact (hp.planned.added_iff hsplit hresolve).mp (hready y hy)
    · intro hadded y hy
      obtain ⟨x, hx, hresolve⟩ := exists_of_mem_right hall hy
      exact (hp.planned.added_iff hsplit hresolve).mpr (hadded _ (List.mem_map_of_mem hx))
  | reconnectPin pin signal =>
    obtain ⟨ref, rfl, hresolve⟩ := hop
    obtain ⟨owner, _, howner, -⟩ := hp.valid _ hmem
    obtain ⟨hpin, slot, hslot, hlive⟩ := (pinOwner_iff hw.formed).mp howner
    have hrow := cells_contents.mpr ⟨slot, hslot, rfl, hlive⟩
    rw [Ready, hlength, Contents.run_live ids hpin hrow, and_iff_right rfl, Planned.removeCell_iff hdone,
      and_comm, hp.planned.added_iff hsplit hresolve]
    apply and_congr
    · exact ⟨fun h _ hx => List.mem_singleton.mp hx ▸ h, fun h => h ref List.mem_cons_self⟩
    · constructor
      · rintro h _ _ other ⟨⟩ hother
        cases howner.symm.trans hother
        exact h
      · exact fun h => h pin ref owner rfl howner
  | removeCell cell =>
    cases hop
    exact iff_of_true trivial ⟨nofun, nofun⟩
  | addNet final name =>
    obtain ⟨id, rfl⟩ := hop
    exact iff_of_true trivial ⟨nofun, nofun⟩
  | _ =>
    cases hop
    exact iff_of_true trivial ⟨nofun, nofun⟩

namespace Prepared

/-- No operation is stopped exactly when the delta makes its connections in time. -/
theorem ready_all (hp : Prepared n delta p) (hw : Wired n rows) (ids : String → NameId) :
    (∀ done operation rest, p.resolved.operations = done ++ operation :: rest →
      Ready (n.contents.run ids done) operation) ↔ Timely n delta := by
  have hall := hp.planned.resolves
  constructor
  · intro hready
    have hclean {done rest : List RegionOperation} {operation : RegionOperation}
        (hsplit : delta.operations = done ++ operation :: rest) :
        (∀ signal ∈ operation.references, Added n done signal) ∧
          ∀ pin signal owner, operation = .reconnectPin pin signal → n.pinOwner pin = some owner →
            .removeCell owner ∉ done := by
      rw [hsplit] at hall
      obtain ⟨done', resolved, rest', hsplit', hdone, hop⟩ := split_left hall
      have hmem : resolved ∈ p.resolved.operations :=
        hsplit' ▸ List.mem_append_right _ List.mem_cons_self
      exact (hp.ready_iff hw ids hsplit hdone hop hmem).mp (hready _ _ _ hsplit')
    exact ⟨fun _ _ _ hsplit => (hclean hsplit).1,
      fun _ pin signal _ owner hsplit => (hclean hsplit).2 pin signal owner rfl⟩
  · rintro ⟨hearlier, halive⟩ done resolved rest hsplit
    have hmem : resolved ∈ p.resolved.operations := hsplit ▸ List.mem_append_right _ List.mem_cons_self
    rw [hsplit] at hall
    obtain ⟨done', operation, rest', hsplit', hdone, hop⟩ := split_right hall
    apply (hp.ready_iff hw ids hsplit' hdone hop hmem).mpr
    refine ⟨hearlier _ _ _ hsplit', ?_⟩
    rintro pin signal owner rfl
    exact halive _ pin signal _ owner hsplit'

theorem detached_iff (hp : Prepared n delta p) : Detached n p.resolved.operations ↔
    ∀ net pin owner, .removeNet net ∈ delta.operations →
      .reconnectPin pin (.net net) ∈ delta.operations → n.pinOwner pin = some owner →
        .removeCell owner ∈ delta.operations := by
  have hold {net : NetId} (hmem : .removeNet net ∈ p.resolved.operations) : net < n.nets.length := by
    obtain ⟨name, hname⟩ := hp.writtenNet_old hmem rfl
    exact (lt_of_row hname).trans_eq (List.length_map _)
  constructor
  · intro h net pin owner hremoved hmoved howner
    have hremoved' := (hp.planned.removeNet_iff net).mpr hremoved
    have hmoved' := (hp.planned.reconnectPin_iff pin (hold hremoved')).mpr hmoved
    exact (Planned.removeCell_iff hp.planned.resolves owner).mp (h net pin owner hremoved' hmoved' howner)
  · intro h net pin owner hremoved hmoved howner
    apply (Planned.removeCell_iff hp.planned.resolves owner).mpr
    exact h net pin owner ((hp.planned.removeNet_iff net).mp hremoved)
      ((hp.planned.reconnectPin_iff pin (hold hremoved)).mp hmoved) howner

end Prepared

/-! Valid netlists stay valid. -/

variable {names : NameTable} {interned : List (String × NameId)} {m : MappedNetlist}

/-- The netlist a delta leaves behind, once its counts and its revision are set. -/
def Landed (p : PreparedDelta) (m : MappedNetlist) : MappedNetlist :=
  { m with liveNetCount := p.netCount, liveCellCount := p.cellCount, editRevision := p.revision }

theorem Boundary.landed (h : Boundary n) (hextends : n.names.Extends names) (p : PreparedDelta)
    (hframe : m.frame = ({ n with names } : MappedNetlist).frame) : Boundary (Landed p m) := by
  have hnames {id : NameId} (hid : n.names.Names id) : names.Names id := hid.extend hextends
  rw [eq_of_frame hframe]
  exact ⟨hnames h.name, h.ports, h.portBits, fun port hport => hnames (h.portNames port hport),
    h.portsOnce, h.instances,
    fun row hrow => ⟨hnames (h.instanceNames row hrow).1, hnames (h.instanceNames row hrow).2⟩,
    h.instancesOnce, h.bindings, h.bindingBits, fun row hrow => hnames (h.bindingNames row hrow),
    h.bindingsOnce, h.indexed⟩

namespace Committed

theorem landed_contents (hc : Committed interned { n with names } rows p m) :
    (Landed p m).contents = n.contents.run (idOf interned) p.resolved.operations := hc.contents

theorem landed_names (hc : Committed interned { n with names } rows p m) : (Landed p m).names = names :=
  congrArg MappedNetlist.names hc.frame

theorem landed_boundaryNets (hc : Committed interned { n with names } rows p m) :
    (Landed p m).boundaryNets = n.boundaryNets := by
  rw [eq_of_frame hc.frame]
  rfl

/-- The slots are numbered within 32 bits, and the counts count the live ones. -/
theorem landed_counts (hc : Committed interned { n with names } rows p m) (hv : Valid n)
    (hp : Prepared n delta p) : (Landed p m).nets.length ≤ U32_MAX ∧ (Landed p m).cells.length ≤ U32_MAX ∧
      (Landed p m).liveNetCount = (Landed p m).contents.nets.countP (·.2) ∧
      (Landed p m).liveCellCount = (Landed p m).contents.cells.countP (·.2) := by
  have hnets : (Landed p m).contents.nets.length = (Landed p m).nets.length := List.length_map _
  have hcells : (Landed p m).contents.cells.length = (Landed p m).cells.length := List.length_map _
  have holdNets : n.contents.nets.length = n.nets.length := List.length_map _
  have holdCells : n.contents.cells.length = n.cells.length := List.length_map _
  have hnewNets : (p.resolved.operations.filterMap ResolvedOperation.newNet).length =
      p.resolved.addedNets.length := by rw [hp.resolved.nets, List.length_range']
  have hnewCells : (p.resolved.operations.filterMap ResolvedOperation.newCell).length =
      p.resolved.addedCells.length := by rw [hp.resolved.cells, List.length_range']
  have within {length added : Nat} {α : Type} {entries : List α} (hold : length ≤ U32_MAX)
      (hadded : entries.length = added) (hnew : entries ≠ [] → length + added ≤ U32_MAX) :
      length + added ≤ U32_MAX := by
    cases entries with
    | nil => exact hadded ▸ hold
    | cons _ _ => exact hnew (List.cons_ne_nil _ _)
  rw [hc.landed_contents, Contents.run_nets_length, hnewNets, holdNets] at hnets
  rw [hc.landed_contents, Contents.run_cells_length, hnewCells, holdCells] at hcells
  refine ⟨hnets ▸ within hv.netCapacity rfl hp.resolved.netCapacity,
    hcells ▸ within hv.cellCapacity rfl hp.resolved.cellCapacity, ?_, ?_⟩
  · have hlive := hp.liveNets (idOf interned)
    have hcount := hp.netCount
    rw [hnewNets, ← hv.netCount, ← hcount] at hlive
    rw [hc.landed_contents]
    exact (Nat.add_right_cancel hlive).symm
  · have hlive := hp.liveCells (idOf interned)
    have hcount := hp.cellCount
    rw [hnewCells, ← hv.cellCount, ← hcount] at hlive
    rw [hc.landed_contents]
    exact (Nat.add_right_cancel hlive).symm

/-- A net of the boundary is external, so no operation removes it. -/
theorem landed_boundaryLive (hc : Committed interned { n with names } rows p m) (hv : Valid n)
    (hp : Prepared n delta p) : ∀ net ∈ (Landed p m).boundaryNets, (Landed p m).isLiveNet net = true := by
  intro net hnet
  rw [hc.landed_boundaryNets] at hnet
  obtain ⟨name, hname⟩ := isLiveNet_iff.mp (hv.boundaryLive net hnet)
  rw [isLiveNet_iff, hc.landed_contents]
  refine hp.netLives (.inr ⟨name, hname, fun hremoved => ?_⟩)
  obtain ⟨hexternal, -⟩ := hp.nets net hremoved
  rw [hv.boundary.indexed net hnet] at hexternal
  cases hexternal

theorem landed_valid (hc : Committed interned { n with names } rows p m) (hv : Valid n)
    (hw : Wired n rows) (hp : Prepared n delta p) (hi : Interned n p names interned)
    (hdetached : Detached n p.resolved.operations)
    (hblank : ∀ name ∈ operationNames p.resolved.operations, isBlank name = false) :
    Valid (Landed p m) := by
  have hids : ∀ name ∈ operationNames p.resolved.operations,
      names.resolve (idOf interned name) = some name := fun name hname => hi.resolve hname
  obtain ⟨rows', hwired, -⟩ := hc.wired
  obtain ⟨hnets, hcells, hnetCount, hcellCount⟩ := hc.landed_counts hv hp
  have hinstances : (Landed p m).designInstances = n.designInstances := by
    rw [eq_of_frame hc.frame]
    rfl
  have hnamed : Named names (n.contents.run (idOf interned) p.resolved.operations) :=
    (hv.named.extend hi.extends').run hp.resolved.pinNames fun name hname => ⟨name, hids name hname⟩
  have hlabelled := hp.labelled hw.formed hv.labelled hi.extends' hids hblank
  have hreferenced := hp.referenced (idOf interned) hw hv.referenced hdetached
  have hdistinct := hp.distinct hi.extends' hids hv.named
    (fun row hrow => (hv.boundary.instanceNames row hrow).1.imp fun _ h => h.1) hv.distinct
  rw [← hc.landed_contents] at hnamed hlabelled hreferenced hdistinct
  rw [← hc.landed_names] at hnamed hlabelled
  rw [← hinstances] at hdistinct
  exact ⟨⟨rows', hwired.nets, hwired.pins, hwired.capacity, hwired.formed,
    hwired.threaded.congr rfl rfl, hwired.attached⟩, hnets, hcells, hnetCount, hcellCount, hnamed,
    hlabelled, hreferenced, hdistinct, hv.boundary.landed hi.extends' p hc.frame,
    hc.landed_boundaryLive hv hp⟩

theorem valid_iff (hc : Committed interned { n with names } rows p m) (hv : Valid n)
    (hw : Wired n rows) (hp : Prepared n delta p) (hi : Interned n p names interned) :
    Valid (Landed p m) ↔ Detached n p.resolved.operations ∧
      ∀ name ∈ operationNames p.resolved.operations, isBlank name = false := by
  constructor
  · intro hvalid
    have hreferenced := hvalid.referenced
    have hlabelled := hvalid.labelled
    rw [hc.landed_contents] at hreferenced hlabelled
    rw [hc.landed_names] at hlabelled
    exact ⟨hp.detached hw hreferenced, hp.given hw (fun name hname => hi.resolve hname) hlabelled⟩
  · exact fun ⟨hdetached, hblank⟩ => hc.landed_valid hv hw hp hi hdetached hblank

end Committed

/-! Applying a delta. -/

/-- A conflict leaves the netlist as it was, a success leaves a valid one, and nothing panics. -/
def Atomic (n : MappedNetlist) (delta : RegionDelta) : Prop :=
  match n.applyRegionDelta delta with
  | (.ok _, n') => Valid n'
  | (.error (.conflict _), n') => n' = n
  | (.error (.panic _), _) => False

theorem atomic_iff_clean (hv : Valid n) (delta : RegionDelta) :
    Atomic n delta ↔ (Accepted n delta → Clean n delta) := by
  obtain ⟨rows, hw⟩ := hv.wired
  rcases applyRegionDelta_cases n delta with ⟨stop, hprepare, hrun⟩ | ⟨error, hnot, hrun⟩ |
    ⟨p, names, interned, haccepted, hp, hi, hrun⟩
  · obtain ⟨conflict, rfl⟩ : stop.Conflicts := by
      have hrejects := prepare_rejects hw delta
      rw [Rejects, hprepare] at hrejects
      exact hrejects
    rw [Atomic, hrun]
    refine iff_of_true rfl ?_
    rintro ⟨p, names, interned, hok, -⟩
    cases hprepare.symm.trans hok
  · rw [Atomic, hrun]
    exact iff_of_true rfl fun haccepted => absurd haccepted hnot
  · have hready := hp.ready_all hw (idOf interned)
    have hdetached := hp.detached_iff
    have hnames := Planned.names_eq hp.planned.resolves
    have hcommit := commitDelta_commits hp hw hi
    rw [Atomic, hrun, forall_prop_of_true haccepted]
    cases hresult : n.commitDelta p names interned with
    | error panic =>
      rw [hresult] at hcommit
      obtain ⟨done, operation, rest, hsplit, hblocked⟩ := hcommit
      apply iff_of_false not_false
      intro hclean
      exact hblocked (hready.mpr hclean.toTimely done operation rest hsplit)
    | ok result =>
      obtain ⟨applied, n'⟩ := result
      rw [hresult] at hcommit
      obtain ⟨m, hc, rfl : n' = Landed p m⟩ := hcommit
      have htimely : Timely n delta := hready.mp hc.ready
      dsimp only
      rw [hc.valid_iff hv hw hp hi, hdetached, hnames]
      exact ⟨fun ⟨hstays, hgiven⟩ => ⟨htimely, hstays, hgiven⟩,
        fun hclean => ⟨hclean.detached, hclean.named⟩⟩

/-! The inverter. -/

theorem inverter_names {id : NameId} (hlt : id < 7) : inverter.names.Names id := by
  have hsome : ∀ i < 7, (inverter.names.resolve i).any (fun name => !isBlank name) = true := by
    decide +kernel
  obtain ⟨name, hname, hblank⟩ := (Option.any_eq_true _ _).mp (hsome id hlt)
  exact ⟨name, hname, by simpa using hblank⟩

theorem inverter_labelled : Labelled inverter.names inverter.contents := by
  constructor
  · intro x hx id hid
    apply inverter_names
    simp only [MappedNetlist.contents, inverter, List.map_cons, List.map_nil, List.mem_cons,
      List.not_mem_nil, or_false] at hx
    rcases hx with rfl | rfl <;> cases hid <;> decide
  · intro x hx _
    simp only [MappedNetlist.contents, inverter, List.map_cons, List.map_nil, List.mem_cons,
      List.not_mem_nil, or_false] at hx
    rw [hx]
    exact ⟨inverter_names (by decide), inverter_names (by decide)⟩
  · intro pin x _ hx
    apply inverter_names
    rcases pin with _ | _ | pin <;> cases hx <;> decide
  · intro cell pin pin' x x' _ _ _ hx hx' heq
    rcases pin with _ | _ | pin <;> rcases pin' with _ | _ | pin' <;> cases hx <;> cases hx' <;>
      first | rfl | cases heq

theorem inverter_valid : Valid inverter where
  wired := ⟨_, inverter_wired⟩
  netCapacity := by decide
  cellCapacity := by decide
  netCount := rfl
  cellCount := rfl
  named := inverter_named
  labelled := inverter_labelled
  referenced := by
    rintro pin net ⟨-, connection, hc, hs⟩
    rcases pin with _ | _ | pin <;> cases hc <;> cases hs
    · exact ⟨_, rfl⟩
    · exact ⟨_, rfl⟩
  distinct := by
    refine ⟨fun i j x y hx hy _ => ?_, fun _ _ _ => List.not_mem_nil⟩
    have hi : i < 1 := lt_of_row hx
    have hj : j < 1 := lt_of_row hy
    exact (Nat.lt_one_iff.mp hi).trans (Nat.lt_one_iff.mp hj).symm
  boundary := ⟨inverter_names (by decide), rfl, nofun, nofun, List.nodup_nil, rfl, nofun, List.nodup_nil,
    rfl, nofun, nofun, nofun, nofun⟩
  boundaryLive := nofun

theorem buffered_clean : Clean inverter buffered where
  earlier := by
    intro done operation rest hsplit signal hsignal
    rcases done with _ | ⟨_, _ | ⟨_, _ | ⟨_, _ | ⟨_, done⟩⟩⟩⟩ <;> cases hsplit
    · cases hsignal
    · rw [List.mem_singleton.mp hsignal]
      exact List.mem_cons_self
    · simp only [RegionOperation.references, List.map_cons, List.map_nil, List.mem_cons, List.not_mem_nil,
        or_false] at hsignal
      rcases hsignal with rfl | rfl
      · exact List.mem_cons_self
      · exact Nat.lt_add_right _ (by decide)
  alive := by
    intro done pin signal rest owner hsplit _ hmem
    have hin : .removeCell owner ∈ buffered.operations := hsplit ▸ List.mem_append_left _ hmem
    simp [buffered] at hin
  detached := by
    intro net pin owner hmem
    simp [buffered] at hmem
  named := by decide +kernel

theorem buffered_atomic : Accepted inverter buffered ∧ Atomic inverter buffered := by
  have haccepted : Accepted inverter buffered := by
    rcases applyRegionDelta_cases inverter buffered with ⟨stop, -, hrun⟩ | ⟨error, -, hrun⟩ |
      ⟨p, names, interned, haccepted, -⟩
    · have hok : (inverter.applyRegionDelta buffered).1.isOk = true := by decide +kernel
      rw [hrun] at hok
      cases hok
    · have hok : (inverter.applyRegionDelta buffered).1.isOk = true := by decide +kernel
      rw [hrun] at hok
      cases hok
    · exact haccepted
  exact ⟨haccepted, (atomic_iff_clean inverter_valid buffered).mpr fun _ => buffered_clean⟩

/-- Removes the inverter, then moves its input. -/
def stranded : Except MappedError RegionDelta := do
  let snapshot ← inverter.snapshotRegion [0] [0, 1]
  let delta ← (RegionDelta.new snapshot 0).removeCell 0
  delta.reconnectPin 0 (.net 1)

theorem stranded_panics : ∃ delta, stranded = .ok delta ∧ Valid inverter ∧ inverter.published = false ∧
    (inverter.applyRegionDelta delta).1 = .error (.panic (.expect "validated pin has a live owner")) ∧
      ¬Atomic inverter delta := by
  have hresult : stranded.map (fun delta => (inverter.applyRegionDelta delta).1) =
      .ok (.error (.panic (.expect "validated pin has a live owner"))) := by decide +kernel
  cases hdelta : stranded with
  | error error =>
    rw [hdelta] at hresult
    cases hresult
  | ok delta =>
    rw [hdelta] at hresult
    have hpanic : (inverter.applyRegionDelta delta).1 = _ := Except.ok.inj hresult
    refine ⟨delta, rfl, inverter_valid, rfl, hpanic, ?_⟩
    rw [Atomic]
    cases hrun : inverter.applyRegionDelta delta with
    | mk result n' =>
      rw [hrun] at hpanic
      cases hpanic
      exact not_false

end Opto.Mapped
