import Opto.Mapped.Applied

/-!
# Stale snapshots

A run takes snapshots, applies deltas built on them and rolls deltas back. An
object that carries a version number no rollback has taken back is the object
that was snapshotted, so a delta that is accepted overwrites nothing unseen.
-/

namespace Opto.Mapped

/-! What a snapshot sees of an object. -/

structure CellView where
  slot : CellSlot
  name : Option String
  cellType : Option String
  pins : Option (List PinConnection)
deriving DecidableEq

structure NetView where
  slot : NetSlot
  name : Option String
  pins : Option (List PinId)
deriving DecidableEq

namespace MappedNetlist

def viewCell (n : MappedNetlist) (cell : CellId) : Option CellView :=
  (n.cells[cell]?).map fun slot =>
    ⟨slot, n.names.resolve slot.cell.name, n.names.resolve slot.cell.cellType, n.cellConnections cell⟩

def viewNet (n : MappedNetlist) (net : NetId) : Option NetView :=
  (n.nets[net]?).map fun slot => ⟨slot, slot.name.bind n.names.resolve, n.pinsOnNet net⟩

end MappedNetlist

/-- The objects of a snapshot look the same in two netlists. -/
def Unchanged (m n : MappedNetlist) (snapshot : RegionSnapshot) : Prop :=
  (∀ entry ∈ snapshot.cells, n.viewCell entry.1 = m.viewCell entry.1) ∧
    ∀ entry ∈ snapshot.nets, n.viewNet entry.1 = m.viewNet entry.1

instance (m n : MappedNetlist) (snapshot : RegionSnapshot) : Decidable (Unchanged m n snapshot) :=
  inferInstanceAs (Decidable (_ ∧ _))

/-! Views of wired netlists. -/

variable {n n' : MappedNetlist} {rows rows' : Rows}

theorem walk_segment {links : List PinLinks} {previous : Option PinId} {xs : List PinId}
    (h : Segment links previous xs none) {fuel : Nat} (hfuel : xs.length ≤ fuel) :
    walk links fuel xs.head? = some xs := by
  induction xs generalizing previous fuel with
  | nil => cases fuel <;> rfl
  | cons x xs ih =>
    obtain ⟨hx, hrest⟩ := h
    obtain ⟨fuel, rfl⟩ : ∃ k, fuel = k + 1 := ⟨fuel - 1, by
      rw [List.length_cons] at hfuel
      omega⟩
    rw [List.head?_cons, walk, hx, Option.bind_some]
    dsimp only
    rw [Option.or_none, ih hrest (Nat.le_of_succ_le_succ hfuel)]
    rfl

theorem Wired.pinsOnNet (h : Wired n rows) {net : NetId} {slot : NetSlot}
    (hslot : n.nets[net]? = some slot) :
    n.pinsOnNet net = if slot.live then some (rows net) else none := by
  rw [MappedNetlist.pinsOnNet, hslot, Option.filter_some]
  split_ifs with hlive
  · have hlt : net < n.netPins.length := h.nets.trans_gt (lt_of_row hslot)
    have hchain := h.threaded.chain net _ (List.getElem?_eq_getElem hlt)
    rw [Option.bind_some, List.getElem?_eq_getElem hlt, Option.bind_some, hchain.head]
    exact walk_segment hchain.segment hchain.length_le
  · rfl

/-- One delta later, whatever carries an earlier revision is what it was. -/
structure Renewed (n n' : MappedNetlist) : Prop where
  revision : n'.editRevision = n.editRevision + 1
  cells : ∀ (cell : CellId) (slot : CellSlot), n'.cells[cell]? = some slot →
    slot.version ≤ n.editRevision → n'.viewCell cell = n.viewCell cell
  nets : ∀ (net : NetId) (slot : NetSlot), n'.nets[net]? = some slot →
    slot.version ≤ n.editRevision → n'.viewNet net = n.viewNet net

theorem NameTable.Has.resolve_eq {t u : NameTable} {id : NameId} (h : t.Has id) (hextends : t.Extends u) :
    u.resolve id = t.resolve id := by
  obtain ⟨name, hname⟩ := h
  rw [hname, hextends.resolve hname]

theorem slice_eq {α : Type} {rows rows' : List α} {first last : Nat} (hle : last ≤ rows.length)
    (hle' : last ≤ rows'.length) (h : ∀ i : Nat, first ≤ i → i < last → rows'[i]? = rows[i]?) :
    slice rows' first last = slice rows first last := by
  rw [slice, slice]
  by_cases hfirst : first ≤ last
  · rw [if_pos ⟨hfirst, hle'⟩, if_pos ⟨hfirst, hle⟩]
    apply congrArg some
    apply List.ext_getElem?
    intro i
    rw [List.getElem?_drop, List.getElem?_drop]
    rcases Nat.lt_or_ge (first + i) last with hi | hi
    · rw [List.getElem?_take_of_lt hi, List.getElem?_take_of_lt hi]
      exact h _ (Nat.le_add_right _ _) hi
    · rw [List.getElem?_eq_none (by rw [List.length_take]; omega),
        List.getElem?_eq_none (by rw [List.length_take]; omega)]
  · rw [if_neg fun hr => hfirst hr.1, if_neg fun hr => hfirst hr.1]

theorem cellConnections_eq {cell : CellId} {slot : CellSlot} (h : n.cells[cell]? = some slot) :
    n.cellConnections cell = if slot.live then
      slice n.connections slot.cell.connectionStart slot.cell.connectionEnd else none := by
  rw [MappedNetlist.cellConnections, MappedNetlist.cell, h, Option.filter_some]
  split_ifs <;> rfl

theorem Renewed.of_stepped (h : Wired n rows) (h' : Wired n' rows')
    (hstepped : Stepped (n.editRevision + 1) n rows n' rows') (hnames : n.names.Extends n'.names)
    (hnamed : Named n.names n.contents) (hrevision : n'.editRevision = n.editRevision + 1) :
    Renewed n n' := by
  refine ⟨hrevision, fun cell slot hslot hversion => ?_, fun net slot hslot hversion => ?_⟩
  · rcases Nat.lt_or_ge cell n.cells.length with hlt | hge
    · obtain ⟨slot', hslot', hsame⟩ := hstepped.cells cell _ (List.getElem?_eq_getElem hlt)
      cases hslot.symm.trans hslot'
      rcases hsame with ⟨rfl, hpins⟩ | hnew
      · have hold := List.getElem?_eq_getElem hlt
        generalize n.cells[cell] = slot at *
        have hrow : n.contents.cells[cell]? = some (slot.cell, slot.live) :=
          cells_contents.mpr ⟨slot, hold, rfl, rfl⟩
        have hrow' : n'.contents.cells[cell]? = some (slot.cell, slot.live) :=
          cells_contents.mpr ⟨slot, hslot, rfl, rfl⟩
        have hconnections : n'.cellConnections cell = n.cellConnections cell := by
          rw [cellConnections_eq hslot, cellConnections_eq hold]
          have hslice := slice_eq (h.formed.range hrow).2 (h'.formed.range hrow').2
            fun pin hfirst hlast => hpins pin (h.formed.owned cell _ hrow pin hfirst hlast)
          exact congrArg (fun pins => if slot.live = true then pins else none) hslice
        obtain ⟨hname, htype⟩ := hnamed.cells _ (List.mem_of_getElem? hrow)
        rw [MappedNetlist.viewCell, MappedNetlist.viewCell, hslot, hold, Option.map_some, Option.map_some,
          hconnections, hname.resolve_eq hnames, htype.resolve_eq hnames]
      · exact absurd hversion (by omega)
    · exact absurd hversion (by rw [hstepped.newCells cell slot hge hslot]; omega)
  · rcases Nat.lt_or_ge net n.nets.length with hlt | hge
    · obtain ⟨slot', hslot', hsame⟩ := hstepped.nets net _ (List.getElem?_eq_getElem hlt)
      cases hslot.symm.trans hslot'
      rcases hsame with ⟨rfl, hrows⟩ | hnew
      · have hold := List.getElem?_eq_getElem hlt
        generalize n.nets[net] = slot at *
        have hpins : n'.pinsOnNet net = n.pinsOnNet net := by
          rw [h.pinsOnNet hold, h'.pinsOnNet hslot, hrows]
        have hname : slot.name.bind n'.names.resolve = slot.name.bind n.names.resolve := by
          cases hid : slot.name with
          | none => rfl
          | some id =>
            have hmem : (slot.name, slot.live) ∈ n.contents.nets :=
              List.mem_map_of_mem (List.mem_of_getElem? hold)
            exact (hnamed.nets _ hmem id hid).resolve_eq hnames
        rw [MappedNetlist.viewNet, MappedNetlist.viewNet, hslot, hold, Option.map_some, Option.map_some,
          hpins, hname]
      · exact absurd hversion (by omega)
    · exact absurd hversion (by rw [hstepped.newNets net slot hge hslot]; omega)

/-! Applying a delta. -/

def Sound (n : MappedNetlist) : Prop := (∃ rows, Wired n rows) ∧ Named n.names n.contents

theorem Sound.aligned (h : Sound n) : Aligned n := by
  obtain ⟨⟨rows, hw⟩, -⟩ := h
  exact ⟨hw.nets, hw.pins, hw.formed.owners⟩

theorem commit_renews (h : Sound n) {delta : RegionDelta} {applied : AppliedRegionDelta}
    (hrun : n.applyRegionDelta delta = (.ok applied, n')) : Sound n' ∧ Renewed n n' := by
  obtain ⟨⟨rows, hw⟩, hnamed⟩ := h
  obtain ⟨p, names, interned, hp, hi, hcommit⟩ := applyRegionDelta_ok hrun
  obtain ⟨m, hcommitted, hn'⟩ := (commitDelta_commits hp hw hi).ok hcommit
  dsimp only at hn'
  obtain ⟨rows', hwired, hstepped⟩ := hcommitted.wired
  have hnames : n'.names = names := by
    rw [hn']
    exact congrArg MappedNetlist.names hcommitted.frame
  have hcontents : n'.contents = n.contents.run (idOf interned) p.resolved.operations := by
    rw [hn']
    exact hcommitted.contents
  have hwired' : Wired n' rows' := by
    rw [hn']
    exact ⟨hwired.nets, hwired.pins, hwired.capacity, hwired.formed, hwired.threaded.congr rfl rfl,
      hwired.attached⟩
  have hstepped' : Stepped (n.editRevision + 1) n rows n' rows' := by
    rw [hn', ← hp.revision]
    exact { hstepped with }
  have hnamed' : Named n'.names n'.contents := by
    rw [hnames, hcontents]
    apply (hnamed.extend hi.extends').run hp.resolved.pinNames
    exact fun name hname => ⟨name, hi.resolve hname⟩
  refine ⟨⟨⟨rows', hwired'⟩, hnamed'⟩, .of_stepped hw hwired' hstepped' ?_ hnamed ?_⟩
  · rw [hnames]
    exact hi.extends'
  · rw [hn']
    exact hp.revision

theorem rollback_revision {applied : AppliedRegionDelta}
    (h : n.rollbackRegionDelta applied = (.ok (), n')) : n.editRevision = applied.committedRevision := by
  by_contra hne
  rw [MappedNetlist.rollbackRegionDelta] at h
  split_ifs at h <;> cases h

/-! Runs. -/

/-- A snapshot, the netlist it was taken of, and the lowest revision the netlist was
rolled back to since. The last two are not part of the program. -/
structure Capture where
  snapshot : RegionSnapshot
  netlist : MappedNetlist
  lowest : Nat

/-- A netlist with the snapshots taken of it and the undo records that are still held. -/
structure Session where
  netlist : MappedNetlist
  captures : List Capture
  records : List AppliedRegionDelta

inductive Session.Step : Session → Session → Prop
  | snapshot {s : Session} {cells : List CellId} {nets : List NetId} {snapshot : RegionSnapshot} :
    s.netlist.snapshotRegion cells nets = .ok snapshot →
    Step s { s with captures := ⟨snapshot, s.netlist, s.netlist.editRevision⟩ :: s.captures }
  | apply {s : Session} {capture : Capture} {delta : RegionDelta} {applied : AppliedRegionDelta}
      {n' : MappedNetlist} : capture ∈ s.captures → delta.snapshot = capture.snapshot →
    s.netlist.applyRegionDelta delta = (.ok applied, n') →
    Step s ⟨n', s.captures, applied :: s.records⟩
  | reject {s : Session} {delta : RegionDelta} {conflict : RegionConflict} {n' : MappedNetlist} :
    s.netlist.applyRegionDelta delta = (.error (.conflict conflict), n') → Step s { s with netlist := n' }
  | rollback {s : Session} {applied : AppliedRegionDelta} {result : Except Stop Unit}
      {n' : MappedNetlist} : applied ∈ s.records →
    s.netlist.rollbackRegionDelta applied = (result, n') →
    Step s ⟨n', s.captures.map fun c => { c with lowest := min c.lowest n'.editRevision },
      s.records.erase applied⟩
  | release {s : Session} {applied : AppliedRegionDelta} :
    Step s { s with records := s.records.erase applied }

/-- What the captured netlist says of an object is what `m` says, up to version `limit`. -/
structure Seen (capture : Capture) (m : MappedNetlist) (limit : Nat) : Prop where
  cells : ∀ entry ∈ capture.snapshot.cells, entry.2 ≤ limit →
    m.viewCell entry.1 = capture.netlist.viewCell entry.1 ∧
      ∃ slot, m.cells[entry.1]? = some slot ∧ slot.version = entry.2
  nets : ∀ entry ∈ capture.snapshot.nets, entry.2 ≤ limit →
    m.viewNet entry.1 = capture.netlist.viewNet entry.1 ∧
      ∃ slot, m.nets[entry.1]? = some slot ∧ slot.version = entry.2

/-- `past r` is the netlist that revision `r` was reached with and that a rollback to
`r` would restore. -/
structure History (first : Nat) (s : Session) (past : Nat → MappedNetlist) : Prop where
  current : past s.netlist.editRevision = s.netlist
  first_le : first ≤ s.netlist.editRevision
  revision : ∀ r, first ≤ r → r ≤ s.netlist.editRevision → (past r).editRevision = r
  sound : ∀ r, first ≤ r → r ≤ s.netlist.editRevision → Sound (past r)
  renewed : ∀ r, first ≤ r → r < s.netlist.editRevision → Renewed (past r) (past (r + 1))
  records : ∀ applied ∈ s.records, first < applied.committedRevision ∧
    applied.committedRevision ≤ s.netlist.editRevision ∧
    (past applied.committedRevision).rollbackRegionDelta applied =
      (.ok (), past (applied.committedRevision - 1))
  once : (s.records.map (·.committedRevision)).Nodup
  captures : ∀ capture ∈ s.captures, first ≤ capture.lowest ∧
    capture.lowest ≤ s.netlist.editRevision ∧ Seen capture (past capture.lowest) capture.lowest

theorem cells_of_view {m : MappedNetlist} {cell : CellId} (h : n.viewCell cell = m.viewCell cell) :
    n.cells[cell]? = m.cells[cell]? := by
  have hslot := congrArg (Option.map CellView.slot) h
  simpa [MappedNetlist.viewCell, Function.comp_def] using hslot

theorem nets_of_view {m : MappedNetlist} {net : NetId} (h : n.viewNet net = m.viewNet net) :
    n.nets[net]? = m.nets[net]? := by
  have hslot := congrArg (Option.map NetView.slot) h
  simpa [MappedNetlist.viewNet, Function.comp_def] using hslot

theorem mem_insertEntry {α : Type} {key : Nat} {value : α} {entries : List (Nat × α)} {entry : Nat × α}
    (h : entry ∈ insertEntry key value entries) : entry = (key, value) ∨ entry ∈ entries := by
  rw [insertEntry, List.mem_orderedInsert] at h
  exact h.imp_right fun hmem => (List.mem_filter.mp hmem).1

theorem snapshotRegion_settles (n : MappedNetlist) (cells : List CellId) (nets : List NetId) :
    Settles (n.snapshotRegion cells nets) (Current n) fun _ => True := by
  apply Settles.bind (Settles.foldlM (fun _ entries => ∀ entry ∈ entries, ∃ slot,
    n.cells[entry.1]? = some slot ∧ slot.live = true ∧ slot.version = entry.2) nofun ?_)
  · intro cells hcells
    apply Settles.bind (Settles.foldlM (fun _ entries => ∀ entry ∈ entries, ∃ slot,
      n.nets[entry.1]? = some slot ∧ slot.live = true ∧ slot.version = entry.2) nofun ?_)
    · exact fun nets hnets => ⟨hcells, hnets⟩
    · intro _ id _ entries hentries
      cases hslot : n.nets[id]?.filter (·.live) with
      | none => exact trivial
      | some slot =>
        intro entry hentry
        rcases mem_insertEntry hentry with rfl | hentry
        · obtain ⟨hslot, hlive⟩ := Option.filter_eq_some_iff.mp hslot
          exact ⟨slot, hslot, hlive, rfl⟩
        · exact hentries entry hentry
  · intro _ id _ entries hentries
    cases hslot : n.cells[id]?.filter (·.live) with
    | none => exact trivial
    | some slot =>
      intro entry hentry
      rcases mem_insertEntry hentry with rfl | hentry
      · obtain ⟨hslot, hlive⟩ := Option.filter_eq_some_iff.mp hslot
        exact ⟨slot, hslot, hlive, rfl⟩
      · exact hentries entry hentry

namespace History

variable {first : Nat} {s s' : Session} {past : Nat → MappedNetlist}

/-- What carries a version up to `r` has been the same since revision `r`. -/
theorem cell_since (h : History first s past) {r q : Nat} (hr : first ≤ r) (hrq : r ≤ q)
    (hq : q ≤ s.netlist.editRevision) {cell : CellId} {slot : CellSlot}
    (hslot : (past q).cells[cell]? = some slot) (hversion : slot.version ≤ r) :
    (past q).viewCell cell = (past r).viewCell cell := by
  induction q, hrq using Nat.le_induction generalizing slot with
  | base => rfl
  | succ q hle ih =>
    have hrevision := h.revision q (hr.trans hle) (Nat.le_of_succ_le hq)
    have hstep := (h.renewed q (hr.trans hle) hq).cells cell slot hslot
      (hrevision.symm ▸ hversion.trans hle)
    rw [hstep]
    exact ih (Nat.le_of_succ_le hq) ((cells_of_view hstep).symm.trans hslot) hversion

theorem net_since (h : History first s past) {r q : Nat} (hr : first ≤ r) (hrq : r ≤ q)
    (hq : q ≤ s.netlist.editRevision) {net : NetId} {slot : NetSlot}
    (hslot : (past q).nets[net]? = some slot) (hversion : slot.version ≤ r) :
    (past q).viewNet net = (past r).viewNet net := by
  induction q, hrq using Nat.le_induction generalizing slot with
  | base => rfl
  | succ q hle ih =>
    have hrevision := h.revision q (hr.trans hle) (Nat.le_of_succ_le hq)
    have hstep := (h.renewed q (hr.trans hle) hq).nets net slot hslot
      (hrevision.symm ▸ hversion.trans hle)
    rw [hstep]
    exact ih (Nat.le_of_succ_le hq) ((nets_of_view hstep).symm.trans hslot) hversion

/-- What was seen up to revision `q` was seen up to any revision before. -/
theorem seen_before (h : History first s past) {capture : Capture} {r q : Nat} (hr : first ≤ r)
    (hrq : r ≤ q) (hq : q ≤ s.netlist.editRevision) (hseen : Seen capture (past q) q) :
    Seen capture (past r) r where
  cells := by
    intro entry hentry hversion
    obtain ⟨hview, slot, hslot, hs⟩ := hseen.cells entry hentry (hversion.trans hrq)
    have hsince := h.cell_since hr hrq hq hslot (hs ▸ hversion)
    exact ⟨hsince.symm.trans hview, slot, (cells_of_view hsince).symm.trans hslot, hs⟩
  nets := by
    intro entry hentry hversion
    obtain ⟨hview, slot, hslot, hs⟩ := hseen.nets entry hentry (hversion.trans hrq)
    have hsince := h.net_since hr hrq hq hslot (hs ▸ hversion)
    exact ⟨hsince.symm.trans hview, slot, (nets_of_view hsince).symm.trans hslot, hs⟩

theorem snapshot (h : History first s past) {cells : List CellId} {nets : List NetId}
    {snapshot : RegionSnapshot} (hrun : s.netlist.snapshotRegion cells nets = .ok snapshot) :
    History first { s with
      captures := ⟨snapshot, s.netlist, s.netlist.editRevision⟩ :: s.captures } past := by
  refine { h with captures := fun capture hcapture => ?_ }
  rcases List.mem_cons.mp hcapture with rfl | hcapture
  · have hcurrent := (snapshotRegion_settles s.netlist cells nets).ok hrun
    refine ⟨h.first_le, Nat.le_refl _, ?_⟩
    dsimp only
    rw [h.current]
    refine ⟨fun entry hentry _ => ⟨rfl, ?_⟩, fun entry hentry _ => ⟨rfl, ?_⟩⟩
    · obtain ⟨slot, hslot, -, hversion⟩ := hcurrent.cells entry hentry
      exact ⟨slot, hslot, hversion⟩
    · obtain ⟨slot, hslot, -, hversion⟩ := hcurrent.nets entry hentry
      exact ⟨slot, hslot, hversion⟩
  · exact h.captures capture hcapture

theorem apply (h : History first s past) {delta : RegionDelta} {applied : AppliedRegionDelta}
    (hrun : s.netlist.applyRegionDelta delta = (.ok applied, n')) :
    ∃ past', History first ⟨n', s.captures, applied :: s.records⟩ past' := by
  have hsound := h.sound _ h.first_le (Nat.le_refl _)
  rw [h.current] at hsound
  obtain ⟨hsound', hrenewed⟩ := commit_renews hsound hrun
  obtain ⟨-, hback⟩ := rollback_apply hsound.aligned hrun
  have hcommitted := rollback_revision hback
  have hnext : n'.editRevision = s.netlist.editRevision + 1 := hrenewed.revision
  have hold : ∀ r, r ≤ s.netlist.editRevision →
      (if r = n'.editRevision then n' else past r) = past r := fun r hr => if_neg (by omega)
  have hnew : (if n'.editRevision = n'.editRevision then n' else past n'.editRevision) = n' := if_pos rfl
  refine ⟨fun r => if r = n'.editRevision then n' else past r, ?_⟩
  constructor
  · exact hnew
  · exact h.first_le.trans (by dsimp only; omega)
  · intro r hr hle
    rcases Nat.lt_or_ge s.netlist.editRevision r with hlt | hge
    · obtain rfl : r = n'.editRevision := by
        dsimp only at hle
        omega
      rw [hnew]
    · rw [hold r hge]
      exact h.revision r hr hge
  · intro r hr hle
    rcases Nat.lt_or_ge s.netlist.editRevision r with hlt | hge
    · obtain rfl : r = n'.editRevision := by
        dsimp only at hle
        omega
      rw [hnew]
      exact hsound'
    · rw [hold r hge]
      exact h.sound r hr hge
  · intro r hr hlt
    dsimp only at hlt
    rw [hold r (by omega)]
    rcases Nat.lt_or_ge r s.netlist.editRevision with hin | hge
    · rw [hold (r + 1) hin]
      exact h.renewed r hr hin
    · obtain rfl : r = s.netlist.editRevision := by omega
      rw [← hnext, hnew, h.current]
      exact hrenewed
  · intro record hrecord
    rcases List.mem_cons.mp hrecord with rfl | hrecord
    · refine ⟨by have := h.first_le; omega, by dsimp only; omega, ?_⟩
      rw [← hcommitted, hnew, hold _ (by omega), hback, hnext, Nat.add_sub_cancel, h.current]
    · obtain ⟨hfirst, hle, hrollback⟩ := h.records record hrecord
      refine ⟨hfirst, by dsimp only; omega, ?_⟩
      rw [hold _ hle, hold _ (by omega)]
      exact hrollback
  · rw [List.map_cons, List.nodup_cons]
    refine ⟨fun hmem => ?_, h.once⟩
    obtain ⟨record, hrecord, he⟩ := List.mem_map.mp hmem
    have hle := (h.records record hrecord).2.1
    omega
  · intro capture hcapture
    obtain ⟨hfirst, hle, hseen⟩ := h.captures capture hcapture
    refine ⟨hfirst, by dsimp only; omega, ?_⟩
    rw [hold _ hle]
    exact hseen

theorem release (h : History first s past) (applied : AppliedRegionDelta) :
    History first { s with records := s.records.erase applied } past :=
  { h with
    records := fun record hrecord => h.records record (List.mem_of_mem_erase hrecord)
    once := h.once.sublist (List.erase_sublist.map _) }

/-- A rollback that is refused changes nothing. -/
theorem refuse (h : History first s past) :
    History first { s with captures := s.captures.map fun c =>
      { c with lowest := min c.lowest s.netlist.editRevision } } past := by
  refine { h with captures := fun capture hcapture => ?_ }
  obtain ⟨c, hc, rfl⟩ := List.mem_map.mp hcapture
  obtain ⟨hfirst, hle, hseen⟩ := h.captures c hc
  dsimp only
  rw [Nat.min_eq_left hle]
  exact ⟨hfirst, hle, hseen⟩

theorem restore (h : History first s past) {r : Nat} (hr : first ≤ r)
    (hlt : r < s.netlist.editRevision) {records : List AppliedRegionDelta}
    (hrecords : records.Sublist s.records) (hkept : ∀ record ∈ records, record.committedRevision ≤ r) :
    History first ⟨past r, s.captures.map fun c =>
      { c with lowest := min c.lowest (past r).editRevision }, records⟩ past := by
  have hrevision := h.revision r hr (Nat.le_of_lt hlt)
  constructor
  · exact congrArg past hrevision
  · exact hr.trans_eq hrevision.symm
  · exact fun q hq hle => h.revision q hq (hle.trans (hrevision.trans_le (Nat.le_of_lt hlt)))
  · exact fun q hq hle => h.sound q hq (hle.trans (hrevision.trans_le (Nat.le_of_lt hlt)))
  · exact fun q hq hin => h.renewed q hq (hin.trans (hrevision.trans_lt hlt))
  · intro record hrecord
    obtain ⟨hfirst, -, hback⟩ := h.records record (hrecords.subset hrecord)
    exact ⟨hfirst, (hkept record hrecord).trans_eq hrevision.symm, hback⟩
  · exact h.once.sublist (hrecords.map _)
  · intro capture hcapture
    obtain ⟨c, hc, rfl⟩ := List.mem_map.mp hcapture
    obtain ⟨hfirst, hle, hseen⟩ := h.captures c hc
    dsimp only
    rw [hrevision]
    refine ⟨Nat.le_min.mpr ⟨hfirst, hr⟩, Nat.min_le_right _ _, ?_⟩
    have hbefore := h.seen_before (Nat.le_min.mpr ⟨hfirst, hr⟩) (Nat.min_le_left c.lowest r) hle hseen
    exact ⟨hbefore.cells, hbefore.nets⟩

theorem rollback (h : History first s past) {applied : AppliedRegionDelta} (hmem : applied ∈ s.records)
    {result : Except Stop Unit} (hrun : s.netlist.rollbackRegionDelta applied = (result, n')) :
    History first ⟨n', s.captures.map fun c => { c with lowest := min c.lowest n'.editRevision },
      s.records.erase applied⟩ past := by
  obtain ⟨hfirst, hle, hback⟩ := h.records applied hmem
  by_cases he : s.netlist.editRevision = applied.committedRevision
  · rw [← he, h.current, hrun] at hback
    obtain ⟨-, rfl⟩ := Prod.mk.inj hback
    have hin : first ≤ s.netlist.editRevision - 1 := by omega
    apply h.restore hin (by omega) List.erase_sublist
    intro record hrecord
    rw [h.once.of_map.mem_erase_iff] at hrecord
    have hne : record.committedRevision ≠ applied.committedRevision := fun heq =>
      hrecord.1 (List.inj_on_of_nodup_map h.once hrecord.2 hmem heq)
    have hcurrent := (h.records record hrecord.2).2.1
    omega
  · have hsame : n' = s.netlist := by
      rw [MappedNetlist.rollbackRegionDelta, if_pos he] at hrun
      split_ifs at hrun <;> exact (Prod.mk.inj hrun).2.symm
    rw [hsame]
    exact h.refuse.release applied

end History

theorem applyRegionDelta_conflict {delta : RegionDelta} {conflict : RegionConflict}
    (h : n.applyRegionDelta delta = (.error (.conflict conflict), n')) : n' = n := by
  rcases applyRegionDelta_cases n delta with ⟨stop, -, hrun⟩ | ⟨error, -, hrun⟩ |
    ⟨p, names, interned, -, -, -, hrun⟩
  · exact (Prod.mk.inj (h.symm.trans hrun)).2
  · exact (Prod.mk.inj (h.symm.trans hrun)).2
  · rw [hrun] at h
    cases hcommit : n.commitDelta p names interned with
    | ok result => rw [hcommit] at h; cases h
    | error panic => rw [hcommit] at h; cases h

theorem Session.Step.history {first : Nat} {s s' : Session} {past : Nat → MappedNetlist}
    (h : History first s past) (hstep : Session.Step s s') : ∃ past', History first s' past' := by
  cases hstep with
  | snapshot hrun => exact ⟨past, h.snapshot hrun⟩
  | apply _ _ hrun => exact h.apply hrun
  | reject hrun =>
    rw [applyRegionDelta_conflict hrun]
    exact ⟨past, h⟩
  | rollback hmem hrun => exact ⟨past, h.rollback hmem hrun⟩
  | release => exact ⟨past, h.release _⟩

def Session.Reachable (n : MappedNetlist) (s : Session) : Prop :=
  Relation.ReflTransGen Session.Step ⟨n, [], []⟩ s

theorem Session.Reachable.history (hn : Sound n) {s : Session} (h : Session.Reachable n s) :
    ∃ past, History n.editRevision s past := by
  induction h with
  | refl =>
    have hrefl : ∀ r, n.editRevision ≤ r → r ≤ n.editRevision → r = n.editRevision := fun r hr hle =>
      Nat.le_antisymm hle hr
    exact ⟨fun _ => n, rfl, Nat.le_refl _, fun r hr hle => (hrefl r hr hle).symm, fun _ _ _ => hn,
      fun r hr hlt => absurd hlt (Nat.not_lt.mpr hr), nofun, List.nodup_nil, nofun⟩
  | tail _ hstep ih =>
    obtain ⟨past, h⟩ := ih
    exact hstep.history h

/-- No rollback since the capture went below a version the snapshot holds. -/
structure Capture.Kept (capture : Capture) : Prop where
  cells : ∀ entry ∈ capture.snapshot.cells, entry.2 ≤ capture.lowest
  nets : ∀ entry ∈ capture.snapshot.nets, entry.2 ≤ capture.lowest

/-- An accepted delta whose snapshot was kept overwrites nothing unseen. -/
theorem accepted_unchanged (hn : Sound n) {s : Session} (hreachable : Session.Reachable n s)
    {capture : Capture} (hcapture : capture ∈ s.captures) (hkept : capture.Kept) {delta : RegionDelta}
    (hsnapshot : delta.snapshot = capture.snapshot) {applied : AppliedRegionDelta}
    (hrun : s.netlist.applyRegionDelta delta = (.ok applied, n')) :
    Unchanged capture.netlist s.netlist capture.snapshot := by
  obtain ⟨past, h⟩ := hreachable.history hn
  obtain ⟨hfirst, hle, hseen⟩ := h.captures capture hcapture
  obtain ⟨p, _, _, hp, -, -⟩ := applyRegionDelta_ok hrun
  have hcurrent := hp.current
  rw [hsnapshot, ← h.current] at hcurrent
  rw [← h.current]
  constructor
  · intro entry hentry
    obtain ⟨slot, hslot, -, hversion⟩ := hcurrent.cells entry hentry
    have hold := hkept.cells entry hentry
    have hsince := h.cell_since hfirst hle (Nat.le_refl _) hslot (hversion ▸ hold)
    exact hsince.trans (hseen.cells entry hentry hold).1
  · intro entry hentry
    obtain ⟨slot, hslot, -, hversion⟩ := hcurrent.nets entry hentry
    have hold := hkept.nets entry hentry
    have hsince := h.net_since hfirst hle (Nat.le_refl _) hslot (hversion ▸ hold)
    exact hsince.trans (hseen.nets entry hentry hold).1

/-- Another drive strength for the inverter. -/
def resized (version libraryCell : Nat) : RegionDelta where
  snapshot := ⟨0, [(0, version)], []⟩
  identity := 0
  operations := [.replaceCell 0 "INV" (some libraryCell)]
  nextTempNet := 0
  nextTempCell := 0
  tempNets := rfl
  tempCells := rfl

theorem resize_unchanged : ∃ s capture delta applied n', Session.Reachable inverter s ∧
    capture ∈ s.captures ∧ capture.Kept ∧ delta.snapshot = capture.snapshot ∧
    s.netlist.applyRegionDelta delta = (.ok applied, n') ∧
    Unchanged capture.netlist s.netlist capture.snapshot := by
  have hsound : Sound inverter := ⟨⟨_, inverter_wired⟩, inverter_named⟩
  obtain ⟨record, hrun⟩ := ok_of_isOk inverter (resized 0 1) (by decide +kernel)
  have hsnapshot : inverter.snapshotRegion [0] [] = .ok (resized 0 1).snapshot := by decide +kernel
  have taken : Session.Step ⟨inverter, [], []⟩
      ⟨inverter, [⟨(resized 0 1).snapshot, inverter, 0⟩], []⟩ := .snapshot hsnapshot
  have hreachable := Relation.ReflTransGen.single taken
  have hkept : (⟨(resized 0 1).snapshot, inverter, 0⟩ : Capture).Kept := ⟨by decide, nofun⟩
  exact ⟨_, _, resized 0 1, record, _, hreachable, List.mem_cons_self, hkept, rfl, hrun,
    accepted_unchanged hsound hreachable List.mem_cons_self hkept rfl hrun⟩

/-- Two deltas carry revision 1, the first of them rolled back. -/
theorem stale_accepted : ∃ s capture delta applied n', Sound inverter ∧
    Session.Reachable inverter s ∧ capture ∈ s.captures ∧ delta.snapshot = capture.snapshot ∧
    s.netlist.applyRegionDelta delta = (.ok applied, n') ∧
    ¬Unchanged capture.netlist s.netlist capture.snapshot := by
  have hsound : Sound inverter := ⟨⟨_, inverter_wired⟩, inverter_named⟩
  obtain ⟨record, hweak⟩ := ok_of_isOk inverter (resized 0 1) (by decide +kernel)
  obtain ⟨record', hstrong⟩ := ok_of_isOk inverter (resized 0 2) (by decide +kernel)
  obtain ⟨-, hback⟩ := rollback_apply hsound.aligned hweak
  have hfirst : inverter.snapshotRegion [0] [] = .ok (resized 0 1).snapshot := by decide +kernel
  have hsecond : (inverter.applyRegionDelta (resized 0 1)).2.snapshotRegion [0] [] =
      .ok (resized 1 3).snapshot := by decide +kernel
  obtain ⟨record'', hstale⟩ := ok_of_isOk (inverter.applyRegionDelta (resized 0 2)).2
    (resized 1 3) (by decide +kernel)
  have hdiffers : ¬Unchanged (inverter.applyRegionDelta (resized 0 1)).2
      (inverter.applyRegionDelta (resized 0 2)).2 (resized 1 3).snapshot := by decide +kernel
  generalize (inverter.applyRegionDelta (resized 0 1)).2 = weak at *
  generalize (inverter.applyRegionDelta (resized 0 2)).2 = strong at *
  have taken : Session.Step ⟨inverter, [], []⟩
      ⟨inverter, [⟨(resized 0 1).snapshot, inverter, 0⟩], []⟩ := .snapshot hfirst
  have applied : Session.Step ⟨inverter, [⟨(resized 0 1).snapshot, inverter, 0⟩], []⟩
      ⟨weak, [⟨(resized 0 1).snapshot, inverter, 0⟩], [record]⟩ := .apply List.mem_cons_self rfl hweak
  have retaken : Session.Step ⟨weak, [⟨(resized 0 1).snapshot, inverter, 0⟩], [record]⟩
      ⟨weak, [⟨(resized 1 3).snapshot, weak, weak.editRevision⟩,
        ⟨(resized 0 1).snapshot, inverter, 0⟩], [record]⟩ := .snapshot hsecond
  have undone := Session.Step.rollback (s := ⟨weak, [⟨(resized 1 3).snapshot, weak, weak.editRevision⟩,
    ⟨(resized 0 1).snapshot, inverter, 0⟩], [record]⟩) List.mem_cons_self hback
  have redone := Session.Step.apply (s := ⟨inverter, [⟨(resized 1 3).snapshot, weak,
    min weak.editRevision inverter.editRevision⟩, ⟨(resized 0 1).snapshot, inverter,
      min 0 inverter.editRevision⟩], [record].erase record⟩)
    (List.mem_cons_of_mem _ List.mem_cons_self) (by rfl) hstrong
  have hrun : Session.Reachable inverter _ :=
    ((((Relation.ReflTransGen.single taken).tail applied).tail retaken).tail undone).tail redone
  exact ⟨_, _, resized 1 3, record'', _, hsound, hrun, List.mem_cons_self, rfl, hstale, hdiffers⟩

end Opto.Mapped
