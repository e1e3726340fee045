import Opto.Library.Packing
import Opto.Mapped.Publication
import Opto.Mapped.Staleness
import Opto.Mapped.Validity

/-!
# What publication makes of a netlist

The checks establish that ranges follow one another and that nothing refers to a
removed net. The loops then pack the living slots, and the published netlist has
them in their order with every reference renumbered.
-/

namespace Opto.Mapped

open MappedNetlist

variable {n : MappedNetlist}

/-! What the checks establish. -/

theorem refuse_settles {p : Prop} [Decidable p] (message : String) :
    Settles (refuse p message) (fun _ => ¬p) fun _ => True := by
  rw [refuse]
  split_ifs with h
  · exact trivial
  · exact h

theorem expectOk_settles {α : Type} (value : Option α) (message : String) :
    Settles (expectOk value message) (fun a => value = some a) fun _ => True := by
  cases value with
  | some a => exact rfl
  | none => exact trivial

theorem validateAppendedRanges_settles (ranges : List (Nat × Nat)) (arenaLen : Nat) (kind : String)
    (requireNonempty : Bool) :
    Settles (validateAppendedRanges ranges arenaLen kind requireNonempty)
      (fun _ => Contiguous 0 ranges arenaLen) fun _ => True := by
  rw [validateAppendedRanges]
  have hloop : Settles (ranges.zipIdx.foldlM (fun expectedStart row =>
      if row.1.1 ≠ expectedStart ∨ row.1.2 < row.1.1 ∨ requireNonempty ∧ row.1.2 = row.1.1 then
        invariantError s!"mapped {kind} range {row.2} is not a valid appended arena row"
      else .ok row.1.2) 0)
      (fun last => Contiguous 0 (ranges.zipIdx.map (·.1)) last) fun _ => True := by
    apply Settles.foldlM_split fun (done : List ((Nat × Nat) × Nat)) last =>
      Contiguous 0 (done.map (·.1)) last
    · rfl
    · intro done row rest _ last hdone
      split_ifs with hbad
      · exact trivial
      · rw [not_or, not_or, not_not, Nat.not_lt] at hbad
        obtain ⟨hstart, hle, -⟩ := hbad
        have hrow : row.1 = (last, row.1.2) := Prod.ext hstart rfl
        rw [List.map_append, List.map_singleton, hrow]
        exact hdone.concat (hstart ▸ hle)
  apply Settles.bind hloop
  intro last hlast
  rw [List.zipIdx_map_fst] at hlast
  apply (refuse_settles _).mono
  intro _ hend
  rw [not_not] at hend
  rwa [hend] at hlast

theorem requireLive_settles (source : String) (net : NetId) :
    Settles (n.requireLive source net) (fun _ => n.isLiveNet net = true) fun _ => True := by
  rw [requireLive]
  split_ifs with h
  · exact h
  · exact trivial

/-- The nets a signal refers to satisfy `P`. -/
def ConnectionSignal.All (P : NetId → Prop) : ConnectionSignal → Prop
  | .net id => P id
  | .constant _ => True

theorem requireLiveSignal_settles (source : String) (signal : ConnectionSignal) :
    Settles (n.requireLiveSignal source signal)
      (fun _ => signal.All fun net => n.isLiveNet net = true) fun _ => True := by
  cases signal with
  | net net => exact requireLive_settles source net
  | constant value => exact trivial

theorem validateCell_settles (index : Nat) (slot : CellSlot) :
    Settles (n.validateCell index slot) (fun _ => slot.live = true → ∀ connections,
      slice n.connections slot.cell.connectionStart slot.cell.connectionEnd = some connections →
        ∀ x ∈ connections, x.signal.All fun net => n.isLiveNet net = true) fun _ => True := by
  rw [validateCell]
  apply Settles.bind (settles_trivial _)
  intro cell _
  apply Settles.bind (settles_trivial _)
  intro _ _
  apply Settles.bind (settles_trivial _)
  intro _ _
  apply Settles.bind (expectOk_settles _ _)
  intro connections hslice
  rw [hslice]
  have hpins : Settles (connections.forM fun connection => do
      n.requireName connection.pin "cell pin"
      if slot.live then
        n.requireLiveSignal s!"mapped cell CellId(SlotId({cell}))" connection.signal)
      (fun _ => ∀ x ∈ connections, slot.live = true →
        x.signal.All fun net => n.isLiveNet net = true) fun _ => True := by
    apply Settles.forM
    intro x _
    apply Settles.bind (settles_trivial _)
    intro _ _
    split_ifs with hlive
    · apply (requireLiveSignal_settles _ _).mono
      exact fun _ h _ => h
    · exact fun h => absurd h hlive
  apply hpins.mono
  rintro - hall hlive _ ⟨⟩ x hx
  exact hall x hx hlive

/-- The living rows of a range. -/
theorem slice_eq_some {α : Type} {rows xs : List α} {first last : Nat}
    (h : slice rows first last = some xs) :
    first ≤ last ∧ last ≤ rows.length ∧ xs = (rows.take last).drop first := by
  rw [slice] at h
  split_ifs at h with hin
  exact ⟨hin.1, hin.2, (Option.some_inj.mp h).symm⟩

theorem Contiguous.slice_covers {α : Type} {rows : List α} {ranges : List (Nat × Nat)}
    (h : Contiguous 0 ranges rows.length) {x : α} (hx : x ∈ rows) :
    ∃ range ∈ ranges, ∃ xs, slice rows range.1 range.2 = some xs ∧ x ∈ xs := by
  obtain ⟨i, hi, hix⟩ := List.getElem_of_mem hx
  obtain ⟨k, range, hrange, hfirst, hlast⟩ := h.cover (Nat.zero_le i) hi
  have hmem := List.mem_of_getElem? hrange
  have hbounds := h.bounds hmem
  refine ⟨range, hmem, _, if_pos hbounds, ?_⟩
  apply List.mem_of_getElem? (i := i - range.1)
  rw [List.getElem?_drop, Nat.add_sub_cancel' hfirst, List.getElem?_take_of_lt hlast,
    List.getElem?_eq_getElem hi, hix]

theorem validatePort_settles (port : MappedPort) :
    Settles (n.validatePort port) (fun _ => ∀ nets, slice n.portNets port.netStart port.netEnd =
      some nets → ∀ net ∈ nets, n.isLiveNet net = true) fun _ => True := by
  rw [validatePort]
  apply Settles.bind (settles_trivial _)
  intro _ _
  apply Settles.bind (expectOk_settles _ _)
  intro nets hslice
  rw [hslice]
  apply Settles.bind (refuse_settles _)
  intro _ _
  have hnets : Settles (nets.forM (n.requireLive "mapped port"))
      (fun _ => ∀ net ∈ nets, n.isLiveNet net = true) fun _ => True :=
    Settles.forM fun net _ => requireLive_settles _ net
  apply hnets.mono
  rintro - hall _ ⟨⟩
  exact hall

theorem validateDesignConnection_settles (index : Nat) (connection : DesignInstanceConnection) :
    Settles (n.validateDesignConnection index connection) (fun _ => ∀ signals,
      slice n.designConnectionSignals connection.signalStart connection.signalEnd = some signals →
        ∀ x ∈ signals, x.All fun net => n.isLiveNet net = true) fun _ => True := by
  rw [validateDesignConnection]
  apply Settles.bind (settles_trivial _)
  intro _ _
  apply Settles.bind (expectOk_settles _ _)
  intro signals hslice
  rw [hslice]
  have hsignals : Settles (signals.forM (n.requireLiveSignal
      s!"mapped design instance DesignInstanceId(DenseId({index}))"))
      (fun _ => ∀ x ∈ signals, x.All fun net => n.isLiveNet net = true) fun _ => True :=
    Settles.forM fun x _ => requireLiveSignal_settles _ x
  apply hsignals.mono
  rintro - hall _ ⟨⟩
  exact hall

theorem validateInstance_settles (index : Nat) (row : MappedDesignInstance) :
    Settles (n.validateInstance index row) (fun _ => ∀ connections,
      slice n.designConnections row.connectionStart row.connectionEnd = some connections →
        ∀ connection ∈ connections, ∀ signals,
          slice n.designConnectionSignals connection.signalStart connection.signalEnd =
            some signals → ∀ x ∈ signals, x.All fun net => n.isLiveNet net = true)
      fun _ => True := by
  rw [validateInstance]
  apply Settles.bind (settles_trivial _)
  intro _ _
  apply Settles.bind (settles_trivial _)
  intro _ _
  apply Settles.bind (expectOk_settles _ _)
  intro connections hslice
  rw [hslice]
  have hall : Settles (connections.forM (n.validateDesignConnection index)) _ fun _ => True :=
    Settles.forM fun connection _ => validateDesignConnection_settles index connection
  apply hall.mono
  rintro - hall _ ⟨⟩
  exact hall

/-- The ranges of a netlist cover their tables, and nothing refers to a removed net. -/
structure Live (n : MappedNetlist) : Prop where
  cells : Contiguous 0 (n.cells.map fun slot =>
    (slot.cell.connectionStart, slot.cell.connectionEnd)) n.connections.length
  pins : ∀ slot ∈ n.cells, slot.live = true → ∀ connections,
    slice n.connections slot.cell.connectionStart slot.cell.connectionEnd = some connections →
      ∀ x ∈ connections, x.signal.All fun net => n.isLiveNet net = true
  boundary : ∀ net ∈ n.boundaryNets, n.isLiveNet net = true

theorem validateReferences_settles : Settles n.validateReferences (fun _ => Live n)
    fun _ => True := by
  rw [validateReferences]
  apply Settles.bind (settles_trivial _)
  intro _ _
  apply Settles.bind (validateAppendedRanges_settles _ _ _ _)
  intro _ hports
  apply Settles.bind (validateAppendedRanges_settles _ _ _ _)
  intro _ hcells
  apply Settles.bind (validateAppendedRanges_settles _ _ _ _)
  intro _ hinstances
  apply Settles.bind (validateAppendedRanges_settles _ _ _ _)
  intro _ hbindings
  apply Settles.bind (settles_trivial _)
  intro _ _
  apply Settles.bind (Settles.forM fun port _ => validatePort_settles port)
  intro _ hportNets
  apply Settles.bind (Settles.forM fun driver _ => requireLive_settles _ driver.1)
  intro _ hdrivers
  apply Settles.bind (Settles.forM fun row _ => validateCell_settles row.2 row.1)
  intro _ hpins
  have hlast : Settles (n.designInstances.zipIdx.forM fun row => n.validateInstance row.2 row.1)
      _ fun _ => True := Settles.forM fun row _ => validateInstance_settles row.2 row.1
  apply hlast.mono
  intro _ hsignals
  constructor
  · exact hcells
  · intro slot hslot
    rw [← List.zipIdx_map_fst 0 n.cells] at hslot
    obtain ⟨row, hrow, rfl⟩ := List.mem_map.mp hslot
    exact hpins row hrow
  · intro net hnet
    rw [boundaryNets, List.mem_append, List.mem_append] at hnet
    rcases hnet with (hnet | hnet) | hnet
    · obtain ⟨range, hrange, nets, hslice, hin⟩ := hports.slice_covers hnet
      obtain ⟨port, hport, rfl⟩ := List.mem_map.mp hrange
      exact hportNets port hport nets hslice net hin
    · obtain ⟨driver, hdriver, rfl⟩ := List.mem_map.mp hnet
      exact hdrivers driver hdriver
    · obtain ⟨signal, hsignal, hnet⟩ := List.mem_filterMap.mp hnet
      obtain ⟨range, hrange, signals, hslice, hin⟩ := hbindings.slice_covers hsignal
      obtain ⟨connection, hconnection, rfl⟩ := List.mem_map.mp hrange
      obtain ⟨range, hrange, connections, hslice', hin'⟩ := hinstances.slice_covers hconnection
      obtain ⟨row, hrow, rfl⟩ := List.mem_map.mp hrange
      rw [← List.zipIdx_map_fst 0 n.designInstances] at hrow
      obtain ⟨indexed, hindexed, rfl⟩ := List.mem_map.mp hrow
      have hlive := hsignals indexed hindexed connections hslice' connection hin' signals hslice
        signal hin
      cases signal with
      | net other =>
        cases hnet
        exact hlive
      | constant value => cases hnet

/-- Marking adds nothing but the marked nets. -/
theorem mark_settles {marks : List Bool} {nets : List NetId} {P : NetId → Prop}
    (message : NetId → String) (h : ∀ i, marks[i]? = some true → P i) (hnets : ∀ net ∈ nets, P net) :
    Settles (nets.foldlM (fun (referenced : List Bool) net =>
      if net < referenced.length then Except.ok (referenced.set net true)
      else invariantError (message net)) marks)
      (fun marks' => ∀ i, marks'[i]? = some true → P i) fun _ => True := by
  apply Settles.foldlM (fun (_ : List NetId) (marks' : List Bool) =>
    ∀ i, marks'[i]? = some true → P i) h
  intro _ net hnet marks' hmarks
  split_ifs
  · intro i hi
    by_cases he : net = i
    · exact he ▸ hnets net hnet
    · rw [List.getElem?_set_ne he] at hi
      exact hmarks i hi
  · exact trivial

theorem validateExternalNetIndex_settles : Settles n.validateExternalNetIndex
    (fun _ => ∀ net ∈ n.externalNets, net ∈ n.boundaryNets) fun _ => True := by
  rw [validateExternalNetIndex]
  apply Settles.bind (refuse_settles _)
  intro _ _
  have hnone (i : Nat) : (List.replicate n.nets.length false)[i]? = some true →
      i ∈ n.boundaryNets := by
    rw [List.getElem?_replicate]
    split_ifs <;> simp
  apply Settles.bind (mark_settles _ hnone fun net hnet => List.mem_append_left _
    (List.mem_append_left _ hnet))
  intro ports hports
  apply Settles.bind (mark_settles _ hports fun net hnet => List.mem_append_left _
    (List.mem_append_right _ hnet))
  intro drivers hdrivers
  apply Settles.bind (mark_settles _ hdrivers fun net hnet => List.mem_append_right _ hnet)
  intro marks hmarks
  apply Settles.bind (Q := fun left => (∀ i : Nat, left[i]? = some true → i ∈ n.boundaryNets) ∧
    ∀ net ∈ n.externalNets, net ∈ n.boundaryNets)
  · apply Settles.foldlM (fun (done : List NetId) (left : List Bool) =>
      (∀ i, left[i]? = some true → i ∈ n.boundaryNets) ∧ ∀ net ∈ done, net ∈ n.boundaryNets)
    · exact ⟨hmarks, by simp⟩
    · rintro done net - left ⟨hleft, hdone⟩
      cases hnet : left[net]? with
      | none => exact trivial
      | some marked =>
        cases marked with
        | false => exact trivial
        | true =>
          refine ⟨fun i hi => hleft i ?_, fun other hother => ?_⟩
          · by_cases he : net = i
            · rw [← he, List.getElem?_set_self (List.getElem?_eq_some_iff.mp hnet).1] at hi
              cases hi
            · rwa [List.getElem?_set_ne he] at hi
          · rcases List.mem_append.mp hother with hother | hother
            · exact hdone other hother
            · exact List.mem_singleton.mp hother ▸ hleft net hnet
  rintro left ⟨-, hexternal⟩
  apply (refuse_settles _).mono
  exact fun _ _ => hexternal

theorem validateConnectivity_settles : Settles n.validateConnectivity
    (fun _ => n.pinOwners.length = n.connections.length ∧
      n.pinLinks.length = n.connections.length ∧ n.netPins.length = n.nets.length)
    fun _ => True := by
  rw [validateConnectivity]
  apply Settles.bind (refuse_settles _)
  intro _ hlengths
  rw [not_or, not_or, not_not, not_not, not_not] at hlengths
  apply (settles_trivial _).mono
  exact fun _ _ => ⟨hlengths.1.symm, hlengths.2.1.symm, hlengths.2.2.symm⟩

/-! New numbers. -/

/-- Living slots are numbered in their order; the others have no number. -/
structure Numbering (live : List Bool) (remap : List Nat) : Prop where
  length : remap.length = live.length
  kept : ∀ i j : Nat, (positions live)[j]? = some i → remap[i]? = some j ∧ j < REMOVED_SLOT
  removed : ∀ i : Nat, live[i]? = some false → remap[i]? = some REMOVED_SLOT

theorem publicationRemap_settles (live : List Bool) (kind : String) :
    Settles (publicationRemap live kind) (Numbering live) fun _ => True := by
  rw [publicationRemap]
  have hloop : Settles (live.zipIdx.foldlM (fun (state : List Nat × Nat) row =>
      if row.1 then do
        let next ← idFromIndex kind state.2
        .ok (state.1.set row.2 next, next + 1)
      else .ok state) (List.replicate live.length REMOVED_SLOT, 0))
      (fun state => state.1.length = live.length ∧
        (∀ i j : Nat, (positions (live.take live.length))[j]? = some i →
          state.1[i]? = some j ∧ j < REMOVED_SLOT) ∧
        (∀ i : Nat, i < live.length → i ∉ positions (live.take live.length) →
          state.1[i]? = some REMOVED_SLOT) ∧
        state.2 = (positions (live.take live.length)).length) fun _ => True := by
    apply Settles.foldlM_zipIdx fun k (state : List Nat × Nat) =>
      state.1.length = live.length ∧
        (∀ i j : Nat, (positions (live.take k))[j]? = some i →
          state.1[i]? = some j ∧ j < REMOVED_SLOT) ∧
        (∀ i : Nat, i < live.length → i ∉ positions (live.take k) →
          state.1[i]? = some REMOVED_SLOT) ∧
        state.2 = (positions (live.take k)).length
    · refine ⟨List.length_replicate, fun i j h => by simp [positions] at h, fun i hi _ => ?_, rfl⟩
      rw [List.getElem?_replicate, if_pos hi]
    · rintro k flag hflag ⟨remap, next⟩ ⟨hlen, hkept, hremoved, rfl⟩
      have hk : k < live.length := (List.getElem?_eq_some_iff.mp hflag).1
      have hpositions := positions_take_succ hflag
      cases flag with
      | false =>
        rw [if_neg Bool.false_ne_true, List.append_nil] at hpositions
        rw [hpositions]
        exact ⟨hlen, hkept, hremoved, rfl⟩
      | true =>
        rw [if_pos rfl] at hpositions ⊢
        rw [idFromIndex]
        split_ifs with hfits
        · rw [hpositions]
          have hold {i j : Nat} (h : (positions (live.take k))[j]? = some i) : i ≠ k := by
            rintro rfl
            have hi := mem_positions.mp (List.mem_of_getElem? h)
            rw [List.getElem?_take, if_neg (Nat.lt_irrefl _)] at hi
            cases hi
          refine ⟨by rw [List.length_set, hlen], fun i j h => ?_, fun i hi h => ?_, by
            rw [List.length_append]; rfl⟩
          · rcases Nat.lt_or_ge j (positions (live.take k)).length with hj | hj
            · rw [List.getElem?_append_left hj] at h
              rw [List.getElem?_set_ne (Ne.symm (hold h))]
              exact hkept i j h
            · rw [List.getElem?_append_right hj] at h
              have hj' := (List.getElem?_eq_some_iff.mp h).1
              rw [List.length_singleton, Nat.lt_one_iff] at hj'
              have hj : j = (positions (live.take k)).length := by omega
              rw [hj'] at h
              cases h
              rw [hj, List.getElem?_set_self (hlen ▸ hk)]
              exact ⟨rfl, Nat.lt_of_succ_le hfits⟩
          · rw [List.mem_append, not_or, List.mem_singleton] at h
            rw [List.getElem?_set_ne (Ne.symm h.2)]
            exact hremoved i hi h.1
        · exact trivial
  apply Settles.bind hloop
  rintro ⟨remap, next⟩ ⟨hlen, hkept, hremoved, -⟩
  rw [List.take_length] at hkept hremoved
  refine ⟨hlen, hkept, fun i hi => hremoved i (List.getElem?_eq_some_iff.mp hi).1 fun h => ?_⟩
  rw [mem_positions, hi] at h
  cases h

/-- The slots of the living nets, in their order. -/
def MappedNetlist.netIds (n : MappedNetlist) : List NetId := positions (n.nets.map (·.live))

theorem mem_netIds {net : NetId} : net ∈ n.netIds ↔ n.isLiveNet net = true := by
  rw [netIds, mem_positions, List.getElem?_map, isLiveNet, Option.any_eq_true]
  simp only [Option.map_eq_some_iff]

theorem cellIds_eq (n : MappedNetlist) : n.cellIds = positions (n.cells.map (·.live)) := by
  rw [cellIds, positions, List.length_map]
  apply List.filter_congr
  intro cell _
  rw [List.getElem?_map]
  cases n.cells[cell]? with
  | none => rfl
  | some slot => cases h : slot.live <;> simp [h]

/-- A signal and what it became: constants stay, and a net is renumbered. -/
def SignalMoved (n : MappedNetlist) : ConnectionSignal → ConnectionSignal → Prop
  | .net net, .net net' => n.netIds[net']? = some net
  | .constant value, .constant value' => value' = value
  | _, _ => False

section Remapped

variable {remap : List Nat}

theorem remappedNet_settles (h : Numbering (n.nets.map (·.live)) remap) {net : NetId}
    (hlive : n.isLiveNet net = true) : Settles (remappedNet remap net)
      (fun net' => n.netIds[net']? = some net) fun _ => False := by
  obtain ⟨j, hj⟩ := List.mem_iff_getElem?.mp (mem_netIds.mpr hlive)
  obtain ⟨hremap, hlt⟩ := h.kept net j hj
  rw [remappedNet, rowAt_eq hremap]
  show Settles (if j + 1 ≤ U32_MAX then _ else _) _ _
  rw [if_pos (show j + 1 ≤ U32_MAX from hlt)]
  exact hj

theorem remappedSignal_settles (h : Numbering (n.nets.map (·.live)) remap)
    {signal : ConnectionSignal} (hlive : signal.All fun net => n.isLiveNet net = true) :
    Settles (remappedSignal remap signal) (SignalMoved n signal) fun _ => False := by
  cases signal with
  | constant value => exact rfl
  | net net =>
    apply Settles.bind (remappedNet_settles h hlive)
    exact fun _ hnet => hnet

theorem remapBoundaryNets_settles (h : Numbering (n.nets.map (·.live)) remap)
    (hlive : ∀ net ∈ n.boundaryNets, n.isLiveNet net = true)
    (hexternal : ∀ net ∈ n.externalNets, net ∈ n.boundaryNets) :
    Settles (n.remapBoundaryNets remap) (fun m =>
      m = { n with
        portNets := m.portNets
        designConnectionSignals := m.designConnectionSignals
        constantDrivers := m.constantDrivers
        externalNets := m.externalNets } ∧
      List.Forall₂ (fun net net' => n.netIds[net']? = some net) n.portNets m.portNets ∧
      List.Forall₂ (SignalMoved n) n.designConnectionSignals m.designConnectionSignals ∧
      List.Forall₂ (fun driver driver' => n.netIds[driver'.1]? = some driver.1 ∧
        driver'.2 = driver.2) n.constantDrivers m.constantDrivers ∧
      List.Forall₂ (fun net net' => n.netIds[net']? = some net) n.externalNets m.externalNets)
      fun _ => False := by
  rw [remapBoundaryNets]
  apply Settles.bind (Settles.mapM fun net hnet => remappedNet_settles h (hlive net
    (List.mem_append_left _ (List.mem_append_left _ hnet))))
  intro portNets hports
  apply Settles.bind (Settles.mapM fun signal hsignal => remappedSignal_settles h ?_)
  · intro signals hsignals
    have hdriver (driver : NetId × Bool) (hdriver : driver ∈ n.constantDrivers) :
        Settles (do
          let net ← remappedNet remap driver.1
          return (net, driver.2))
          (fun driver' => n.netIds[driver'.1]? = some driver.1 ∧ driver'.2 = driver.2)
          fun _ => False := by
      apply Settles.bind (remappedNet_settles h (hlive driver.1 (List.mem_append_left _
        (List.mem_append_right _ (List.mem_map_of_mem hdriver)))))
      exact fun _ hnet => ⟨hnet, rfl⟩
    apply Settles.bind (Settles.mapM hdriver)
    intro drivers hdrivers
    apply Settles.bind (Settles.mapM fun net hnet => remappedNet_settles h
      (hlive net (hexternal net hnet)))
    intro external hexternal
    exact ⟨rfl, hports, hsignals, hdrivers, hexternal⟩
  · cases signal with
    | constant value => trivial
    | net net =>
      exact hlive net (List.mem_append_right _ (List.mem_filterMap.mpr ⟨_, hsignal, rfl⟩))

end Remapped

theorem setRow_settles {α : Type} {rows : List α} {i : Nat} (h : i < rows.length) (row : α) :
    Settles (setRow rows i row) (· = rows.set i row) fun _ => False := by
  rw [setRow, if_pos h]
  exact rfl

/-- The numbers tell which slots live. -/
theorem Numbering.target {live : List Bool} {remap : List Nat} (h : Numbering live remap)
    {k target : Nat} (hk : remap[k]? = some target) :
    live[k]? = some (decide (target ≠ REMOVED_SLOT)) ∧
      (target ≠ REMOVED_SLOT → (positions live)[target]? = some k) := by
  have hlt : k < live.length := h.length ▸ (List.getElem?_eq_some_iff.mp hk).1
  cases hflag : live[k] with
  | false =>
    have hrow : live[k]? = some false := by rw [List.getElem?_eq_getElem hlt, hflag]
    cases hk.symm.trans (h.removed k hrow)
    exact ⟨by simpa using hrow, fun hne => absurd rfl hne⟩
  | true =>
    have hrow : live[k]? = some true := by rw [List.getElem?_eq_getElem hlt, hflag]
    obtain ⟨j, hj⟩ := List.mem_iff_getElem?.mp (mem_positions.mpr hrow)
    obtain ⟨hremap, hfits⟩ := h.kept k j hj
    cases hk.symm.trans hremap
    have hne : target ≠ REMOVED_SLOT := Nat.ne_of_lt hfits
    exact ⟨by simpa [hne] using hrow, fun _ => hj⟩

theorem compactNetSlots_settles {remap : List Nat} (h : Numbering (n.nets.map (·.live)) remap)
    (hpins : n.netPins.length = n.nets.length) : Settles (n.compactNetSlots remap) (fun m =>
      m = { n with
        nets := m.nets
        netPins := List.replicate m.nets.length ⟨none, none⟩
        liveNetCount := m.nets.length } ∧
      List.Forall₂ (fun net slot => ∃ old, n.nets[net]? = some old ∧ slot = ⟨old.name, true, 0⟩)
        n.netIds m.nets) fun _ => False := by
  rw [compactNetSlots]
  have hloop : Settles (remap.zipIdx.foldlM moveNet (n.nets, 0))
      (fun state => ∃ packed, Packing n.nets state.1 remap.length packed ∧
        state.2 = packed.length ∧
        List.Forall₂ (fun net slot => ∃ old, n.nets[net]? = some old ∧ slot = ⟨old.name, true, 0⟩)
          (positions ((n.nets.map (·.live)).take remap.length)) packed) fun _ => False := by
    apply Settles.foldlM_zipIdx fun k (state : List NetSlot × Nat) => ∃ packed,
      Packing n.nets state.1 k packed ∧ state.2 = packed.length ∧
        List.Forall₂ (fun net slot => ∃ old, n.nets[net]? = some old ∧ slot = ⟨old.name, true, 0⟩)
          (positions ((n.nets.map (·.live)).take k)) packed
    · exact ⟨[], .start n.nets, rfl, .nil⟩
    · rintro k target hk ⟨nets, write⟩ ⟨packed, hpacking, rfl, hkept⟩
      obtain ⟨hflag, -⟩ := h.target hk
      have hlt : k < n.nets.length := by
        rw [← List.length_map (f := fun slot : NetSlot => slot.live)]
        exact (List.getElem?_eq_some_iff.mp hflag).1
      rw [positions_take_succ hflag, moveNet]
      by_cases htarget : target = REMOVED_SLOT
      · rw [if_pos htarget, decide_eq_false (not_not.mpr htarget), if_neg Bool.false_ne_true,
          List.append_nil]
        exact ⟨packed, hpacking.skip (Nat.le_succ k), rfl, hkept⟩
      · rw [if_neg htarget, decide_eq_true htarget, if_pos rfl]
        have hrow : nets[k]? = some n.nets[k] := by
          rw [hpacking.row (Nat.le_refl k), List.getElem?_eq_getElem hlt]
        rw [rowAt_eq hrow]
        apply Settles.bind (setRow_settles (hpacking.lt hlt) _)
        rintro _ rfl
        refine ⟨_, hpacking.keep hlt _, ?_, ?_⟩
        · rw [List.length_append]
          rfl
        · exact List.rel_append hkept (.cons ⟨_, List.getElem?_eq_getElem hlt, rfl⟩ .nil)
  apply Settles.bind hloop
  rintro ⟨nets, write⟩ ⟨packed, hpacking, rfl, hkept⟩
  have hlen : remap.length = (n.nets.map (·.live)).length := h.length
  rw [hlen, List.take_length] at hkept
  have hle : packed.length ≤ n.netPins.length := by
    have hle := hpacking.le
    rw [hlen, List.length_map] at hle
    exact hpins ▸ hle
  refine ⟨?_, ?_⟩
  · dsimp only
    rw [hpacking.take, List.map_const', List.length_take, Nat.min_eq_left hle]
  · dsimp only
    rw [hpacking.take]
    exact hkept

/-! Moving pins. -/

theorem appendPin_settles {netPins : List NetPins} {pinLinks : List PinLinks} {net : NetId}
    {pin : PinId} {pins : NetPins} (hpins : netPins[net]? = some pins)
    (hpin : pin < pinLinks.length)
    (htail : ∀ tail, pins.tail = some tail → tail < pinLinks.length ∧ tail ≠ pin) :
    Settles (appendPin netPins pinLinks net pin) (fun r => r =
      (netPins.modify net fun pins =>
        ⟨if pins.tail.isSome then pins.head else some pin, some pin⟩,
        linkLast pinLinks pins.tail pin)) fun _ => False := by
  have hnet := (List.getElem?_eq_some_iff.mp hpins).1
  have hmodify {ends : NetPins} {f : NetPins → NetPins} (hf : f pins = ends) :
      netPins.set net ends = netPins.modify net f := by
    apply List.ext_getElem?
    intro i
    by_cases he : net = i
    · subst he
      rw [List.getElem?_set_self hnet, List.getElem?_modify_eq, hpins, ← hf]
      rfl
    · rw [List.getElem?_set_ne he, List.getElem?_modify_ne _ _ he]
  rw [appendPin, rowAt_eq hpins]
  apply Settles.bind (setRow_settles hpin _)
  rintro _ rfl
  cases hlast : pins.tail with
  | none =>
    apply Settles.bind (setRow_settles hnet _)
    rintro _ rfl
    refine Prod.ext (hmodify (by rw [hlast]; rfl)) ?_
    apply List.ext_getElem?
    intro i
    rw [linkLast, modifyAt]
    by_cases he : pin = i
    · subst he
      rw [List.getElem?_set_self hpin, List.getElem?_modify_eq, List.getElem?_eq_getElem hpin]
      rfl
    · rw [List.getElem?_set_ne he, List.getElem?_modify_ne _ _ he]
  | some tail =>
    obtain ⟨hlt, hne⟩ := htail tail hlast
    have hrow : (pinLinks.set pin ⟨some tail, none⟩)[tail]? = some pinLinks[tail] := by
      rw [List.getElem?_set_ne (Ne.symm hne), List.getElem?_eq_getElem hlt]
    dsimp only
    rw [rowAt_eq hrow]
    apply Settles.bind (setRow_settles (by rwa [List.length_set]) _)
    rintro _ rfl
    apply Settles.bind (setRow_settles hnet _)
    rintro _ rfl
    refine Prod.ext (hmodify (by rw [hlast]; rfl)) ?_
    apply List.ext_getElem?
    intro i
    by_cases hi : tail = i
    · subst hi
      rw [getElem?_linkLast_tail hne, List.getElem?_set_self (by rwa [List.length_set]),
        List.getElem?_eq_getElem hlt]
      rfl
    · rw [List.getElem?_set_ne hi]
      by_cases he : pin = i
      · subst he
        rw [List.getElem?_set_self hpin, getElem?_linkLast_self _ hpin]
      · rw [List.getElem?_set_ne he, getElem?_linkLast_of_ne he fun hs => hi (Option.some_inj.mp hs)]

/-- A new pin without links. -/
theorem Threaded.idlePin {rows : Rows} (h : Threaded n rows) :
    Threaded { n with pinLinks := n.pinLinks ++ [⟨none, none⟩] } rows where
  chain net pins hpins := (h.chain net pins hpins).congr fun _ hx =>
    List.getElem?_append_left (h.pin_lt hx)
  outside := h.outside
  apart := h.apart
  idle pin links hpin hlinks := by
    rw [List.getElem?_append] at hlinks
    split_ifs at hlinks
    · exact h.idle pin links hpin hlinks
    · exact List.mem_singleton.mp (List.mem_of_getElem? hlinks)

/-- The pins before `read` are done with, and `pins` with their owners are what was kept. -/
structure Moving (n : MappedNetlist) (read : Nat) (pins : List PinConnection)
    (movedOwners : List CellId) (rows : Rows) (state : Repacking) : Prop where
  rest : state.netlist = { n with
    cells := state.netlist.cells
    connections := state.netlist.connections
    pinOwners := state.netlist.pinOwners
    pinLinks := state.netlist.pinLinks
    netPins := state.netlist.netPins }
  write : state.writePin = pins.length
  connections : Packing n.connections state.netlist.connections read pins
  owners : Packing n.pinOwners state.netlist.pinOwners read movedOwners
  owned : movedOwners.length = pins.length
  links : state.netlist.pinLinks.length = n.connections.length
  nets : state.netlist.netPins.length = n.netPins.length
  threaded : Threaded { state.netlist with
    pinLinks := state.netlist.pinLinks.take pins.length } rows
  attached : ∀ pin net : Nat, pin ∈ rows net ↔
    ∃ x, pins[pin]? = some x ∧ x.signal = .net net

/-- A pin and what it became. -/
def PinMoved (R : ConnectionSignal → ConnectionSignal → Prop) (x y : PinConnection) : Prop :=
  y.pin = x.pin ∧ y.libraryPin = x.libraryPin ∧ R x.signal y.signal

section Moving

variable {read : Nat} {pins : List PinConnection} {movedOwners : List CellId} {rows : Rows}
  {state : Repacking} {nets : List Nat} {R : ConnectionSignal → ConnectionSignal → Prop}

theorem Moving.skip (h : Moving n read pins movedOwners rows state) {read' : Nat}
    (hread : read ≤ read') : Moving n read' pins movedOwners rows state :=
  { h with connections := h.connections.skip hread, owners := h.owners.skip hread }

theorem Moving.write_tables (h : Moving n read pins movedOwners rows state)
    (connections : List PinConnection) (pinOwners : List CellId) (pinLinks : List PinLinks)
    (netPins : List NetPins) :
    { state.netlist with connections, pinOwners, pinLinks, netPins } =
      { n with cells := state.netlist.cells, connections, pinOwners, pinLinks, netPins } := by
  rw [h.rest]

theorem attached_concat {connection : PinConnection}
    (hattached : ∀ pin net : Nat, pin ∈ rows net ↔
      ∃ x, pins[pin]? = some x ∧ x.signal = .net net) (pin net : Nat) :
    (∃ x, (pins ++ [connection])[pin]? = some x ∧ x.signal = .net net) ↔
      pin ∈ rows net ∨ pin = pins.length ∧ connection.signal = .net net := by
  rw [hattached]
  constructor
  · rintro ⟨x, hx, hsignal⟩
    rw [List.getElem?_append] at hx
    split_ifs at hx with hlt
    · exact .inl ⟨x, hx, hsignal⟩
    · have hpin := (List.getElem?_eq_some_iff.mp hx).1
      rw [List.length_singleton] at hpin
      cases List.mem_singleton.mp (List.mem_of_getElem? hx)
      exact .inr ⟨by omega, hsignal⟩
  · rintro (⟨x, hx, hsignal⟩ | ⟨rfl, hsignal⟩)
    · exact ⟨x, by rwa [List.getElem?_append_left (List.getElem?_eq_some_iff.mp hx).1], hsignal⟩
    · exact ⟨connection, by rw [List.getElem?_concat_length], hsignal⟩

theorem movePin_settles (h : Moving n read pins movedOwners rows state) {x : PinConnection}
    (hx : n.connections[read]? = some x) (howners : n.pinOwners.length = n.connections.length)
    (hfits : pins.length + 1 ≤ U32_MAX)
    (hsignal : Settles (remappedSignal nets x.signal)
      (fun y => R x.signal y ∧ y.All (· < n.netPins.length)) fun _ => False) (owner : CellId) :
    Settles (movePin nets owner state read) (fun state' => ∃ y rows', PinMoved R x y ∧
      Moving n (read + 1) (pins ++ [y]) (movedOwners ++ [owner]) rows' state' ∧
      state'.netlist.cells = state.netlist.cells ∧ state'.writeCell = state.writeCell)
      fun _ => False := by
  have hread : read < n.connections.length := (List.getElem?_eq_some_iff.mp hx).1
  have hrow : state.netlist.connections[read]? = some x := by
    rw [h.connections.row (Nat.le_refl read), hx]
  have hconnections := h.connections.lt hread
  have howner := h.owners.lt (howners ▸ hread)
  have hlink : pins.length < state.netlist.pinLinks.length := by
    rw [h.links]
    exact Nat.lt_of_le_of_lt h.connections.le hread
  have hfree (net : NetId) : pins.length ∉ rows net := by
    rw [h.attached]
    rintro ⟨y, hy, -⟩
    exact absurd (List.getElem?_eq_some_iff.mp hy).1 (Nat.lt_irrefl _)
  have htaken := take_set_succ hlink (⟨none, none⟩ : PinLinks)
  have hidle := h.threaded.idlePin
  dsimp only at hidle
  rw [← htaken] at hidle
  have hlength (y : PinConnection) : (pins ++ [y]).length = pins.length + 1 := List.length_append
  rw [movePin, rowAt_eq hrow, h.write]
  apply Settles.bind hsignal
  rintro signal ⟨hR, hnet⟩
  apply Settles.bind (setRow_settles hconnections _)
  rintro _ rfl
  apply Settles.bind (setRow_settles (h.owned ▸ howner) _)
  rintro _ rfl
  apply Settles.bind (setRow_settles hlink _)
  rintro _ rfl
  have hmoved : PinMoved R x { x with signal } := ⟨rfl, rfl, hR⟩
  have hpacked := h.connections.keep hread { x with signal }
  have hpackedOwners := h.owners.keep (howners ▸ hread) owner
  rw [h.owned] at hpackedOwners
  cases signal with
  | constant value =>
    refine ⟨_, rows, hmoved, ?_, rfl, rfl⟩
    constructor
    · exact h.write_tables _ _ _ _
    · exact (hlength _).symm
    · exact hpacked
    · exact hpackedOwners
    · rw [List.length_append, h.owned, hlength]
      rfl
    · rw [List.length_set, h.links]
    · exact h.nets
    · rw [hlength]
      exact hidle.congr rfl rfl
    · intro pin net
      rw [attached_concat h.attached]
      simp
  | net net =>
    have hlt : net < state.netlist.netPins.length := h.nets ▸ hnet
    have hpins := List.getElem?_eq_getElem hlt
    have hchain := h.threaded.chain net _ hpins
    have hlinks : ((state.netlist.pinLinks.set pins.length ⟨none, none⟩).take
        (pins.length + 1)).length = pins.length + 1 := by
      rw [List.length_take, List.length_set, Nat.min_eq_left hlink]
    have htail (tail : PinId) (ht : state.netlist.netPins[net].tail = some tail) :
        tail < pins.length := by
      rw [hchain.tail] at ht
      have hmem := (h.attached tail net).mp (List.mem_of_getLast? ht)
      obtain ⟨y, hy, -⟩ := hmem
      exact (List.getElem?_eq_some_iff.mp hy).1
    have hroom : pins.length < ((state.netlist.pinLinks.set pins.length ⟨none, none⟩).take
        (pins.length + 1)).length := by
      rw [hlinks]
      exact Nat.lt_succ_self _
    have happend := appendPin_settles hpins hroom fun tail ht =>
      ⟨Nat.lt_trans (htail tail ht) hroom, Nat.ne_of_lt (htail tail ht)⟩
    have hid : (idFromIndex "pin ID" pins.length).mapError (fun _ =>
        Panic.expect "preflighted dense pin ID must fit") = .ok pins.length := by
      rw [idFromIndex, if_pos hfits]
      rfl
    rw [hid]
    apply Settles.bind happend
    rintro _ rfl
    have hlinked := hidle.link hfree hroom hpins
    refine ⟨_, rows.put net (rows net ++ [pins.length]), hmoved, ?_, rfl, rfl⟩
    constructor
    · exact h.write_tables _ _ _ _
    · exact (hlength _).symm
    · exact hpacked
    · exact hpackedOwners
    · rw [List.length_append, h.owned, hlength]
      rfl
    · dsimp only
      rw [List.length_append, length_linkLast, List.length_drop, hlinks, List.length_set, h.links]
      exact Nat.add_sub_cancel' (h.links ▸ hlink)
    · exact (List.length_modify ..).trans h.nets
    · rw [hlength]
      dsimp only
      rw [List.take_left' (by rw [length_linkLast, hlinks])]
      exact hlinked.congr rfl rfl
    · intro pin other
      rw [attached_concat h.attached]
      by_cases he : other = net
      · subst he
        simp
      · rw [rows.put_of_ne he]
        simp [Ne.symm he]

theorem movePins_settles (h : Moving n read pins movedOwners rows state) {count : Nat}
    (hcount : read + count ≤ n.connections.length)
    (howners : n.pinOwners.length = n.connections.length)
    (hfits : pins.length + count ≤ U32_MAX)
    (hsignal : ∀ x ∈ (n.connections.drop read).take count,
      Settles (remappedSignal nets x.signal)
        (fun y => R x.signal y ∧ y.All (· < n.netPins.length)) fun _ => False) (owner : CellId) :
    Settles ((List.range' read count).foldlM (movePin nets owner) state) (fun state' =>
      ∃ moved rows', List.Forall₂ (PinMoved R) ((n.connections.drop read).take count) moved ∧
        Moving n (read + count) (pins ++ moved) (movedOwners ++ List.replicate count owner) rows'
          state' ∧
        state'.netlist.cells = state.netlist.cells ∧ state'.writeCell = state.writeCell)
      fun _ => False := by
  induction count generalizing read pins movedOwners rows state with
  | zero =>
    refine ⟨[], rows, by rw [List.take_zero]; exact .nil, ?_, rfl, rfl⟩
    rwa [List.append_nil, List.replicate_zero, List.append_nil]
  | succ count ih =>
    have hlt : read < n.connections.length := Nat.lt_of_lt_of_le (by omega) hcount
    have hdrop : (n.connections.drop read).take (count + 1) =
        n.connections[read] :: (n.connections.drop (read + 1)).take count := by
      rw [List.drop_eq_getElem_cons hlt, List.take_succ_cons]
    rw [hdrop] at hsignal ⊢
    rw [List.range'_succ, List.foldlM_cons]
    apply Settles.bind (movePin_settles h (List.getElem?_eq_getElem hlt) howners (by omega)
      (hsignal _ List.mem_cons_self) owner)
    rintro next ⟨y, rows', hy, hmoving, hcells, hwrite⟩
    have hrest := ih hmoving (by omega) (by rw [List.length_append, List.length_singleton]; omega)
      fun x hx => hsignal x (List.mem_cons_of_mem _ hx)
    apply hrest.mono
    rintro last ⟨moved, rows'', hall, hmoving', hcells', hwrite'⟩
    refine ⟨y :: moved, rows'', .cons hy hall, ?_, hcells'.trans hcells, hwrite'.trans hwrite⟩
    rw [List.append_assoc, List.append_assoc, Nat.add_assoc, Nat.add_comm 1 count] at hmoving'
    exact hmoving'

/-- A cell and what it became; its pins are among `pins`. -/
def CellMoved (R : ConnectionSignal → ConnectionSignal → Prop) (n : MappedNetlist)
    (pins : List PinConnection) (cell : CellId) (slot : CellSlot) : Prop :=
  ∃ old, n.cells[cell]? = some old ∧ slot = ⟨{ old.cell with
      connectionStart := slot.cell.connectionStart
      connectionEnd := slot.cell.connectionEnd }, true, 0⟩ ∧
    slot.cell.connectionEnd ≤ pins.length ∧
    List.Forall₂ (PinMoved R)
      ((n.connections.take old.cell.connectionEnd).drop old.cell.connectionStart)
      ((pins.take slot.cell.connectionEnd).drop slot.cell.connectionStart)

theorem CellMoved.extend {cell : CellId} {slot : CellSlot} (h : CellMoved R n pins cell slot)
    (added : List PinConnection) : CellMoved R n (pins ++ added) cell slot := by
  obtain ⟨old, hold, hslot, hle, hpins⟩ := h
  refine ⟨old, hold, hslot, ?_, ?_⟩
  · rw [List.length_append]
    exact Nat.le_add_right_of_le hle
  · rwa [List.take_append_of_le_length hle]

/-- How many pins a cell has if it lives. -/
def livePins (slot : CellSlot) : Nat :=
  if slot.live then slot.cell.connectionEnd - slot.cell.connectionStart else 0

/-- The cells before `k` and the pins before `read` are done with. -/
structure CellsMoved (R : ConnectionSignal → ConnectionSignal → Prop) (n : MappedNetlist) (k : Nat)
    (read : Nat) (slots : List CellSlot) (pins : List PinConnection) (movedOwners : List CellId)
    (rows : Rows) (state : Repacking) : Prop where
  moving : Moving n read pins movedOwners rows state
  ranges : Contiguous read ((n.cells.drop k).map fun slot =>
    (slot.cell.connectionStart, slot.cell.connectionEnd)) n.connections.length
  cells : Packing n.cells state.netlist.cells k slots
  writeCell : state.writeCell = slots.length
  formed : Contents.Formed ⟨[], slots.map fun slot => (slot.cell, slot.live), pins, movedOwners⟩
  kept : List.Forall₂ (CellMoved R n pins) (positions ((n.cells.map (·.live)).take k)) slots
  fits : pins.length + ((n.cells.drop k).map livePins).sum ≤ U32_MAX

theorem Moving.setCells (h : Moving n read pins movedOwners rows state) (cells : List CellSlot)
    (writeCell : Nat) : Moving n read pins movedOwners rows
      { state with netlist := { state.netlist with cells }, writeCell } :=
  { h with
    rest := by
      have hrest := h.rest
      exact congrArg (fun m => { m with cells }) hrest
    threaded := h.threaded.congr rfl rfl }

variable {slots : List CellSlot} {remap : List Nat} {k : Nat}

theorem pinPosition_eq {writePin : Nat} (h : writePin ≤ U32_MAX) :
    pinPosition writePin = .ok writePin := if_pos h

theorem moveCell_settles (h : CellsMoved R n k read slots pins movedOwners rows state)
    (hremap : Numbering (n.cells.map (·.live)) remap) {target : Nat} (hk : remap[k]? = some target)
    (howners : n.pinOwners.length = n.connections.length)
    (hsignal : ∀ slot ∈ n.cells, slot.live = true →
      ∀ x ∈ (n.connections.take slot.cell.connectionEnd).drop slot.cell.connectionStart,
        Settles (remappedSignal nets x.signal)
          (fun y => R x.signal y ∧ y.All (· < n.netPins.length)) fun _ => False) :
    Settles (moveCell nets state (target, k)) (fun state' => ∃ read' slots' pins' owners' rows',
      CellsMoved R n (k + 1) read' slots' pins' owners' rows' state') fun _ => False := by
  obtain ⟨hflag, hposition⟩ := hremap.target hk
  obtain ⟨slot, hslot, hlive⟩ := List.getElem?_map .. ▸ hflag |> Option.map_eq_some_iff.mp
  have hlt := (List.getElem?_eq_some_iff.mp hslot).1
  have hmem := List.mem_of_getElem? hslot
  have hdrop : n.cells.drop k = slot :: n.cells.drop (k + 1) := by
    rw [List.drop_eq_getElem_cons hlt, (List.getElem?_eq_some_iff.mp hslot).2]
  have hranges := h.ranges
  have hfits := h.fits
  rw [hdrop, List.map_cons] at hranges hfits
  obtain ⟨hstart, hle, hranges⟩ := hranges
  dsimp only at hstart hle hranges
  have hpositions := positions_take_succ hflag
  rw [moveCell]
  by_cases htarget : target = REMOVED_SLOT
  · rw [decide_eq_false (not_not.mpr htarget), if_neg Bool.false_ne_true, List.append_nil] at hpositions
    rw [if_pos htarget]
    refine ⟨slot.cell.connectionEnd, slots, pins, movedOwners, rows, ?_⟩
    constructor
    · exact h.moving.skip (hstart ▸ hle)
    · exact hranges
    · exact h.cells.skip (Nat.le_succ k)
    · exact h.writeCell
    · exact h.formed
    · rw [hpositions]
      exact h.kept
    · rw [List.sum_cons] at hfits
      omega
  · rw [decide_eq_true htarget] at hlive
    rw [decide_eq_true htarget, if_pos rfl] at hpositions
    rw [if_neg htarget]
    have hnumber : target = slots.length := by
      have hprefix : positions ((n.cells.map (·.live)).take k) ++ [k] <+:
          positions (n.cells.map (·.live)) := by
        rw [← hpositions]
        conv_rhs => rw [← List.take_append_drop (k + 1) (n.cells.map (·.live))]
        exact positions_prefix _ _
      have hlength := h.kept.length_eq
      obtain ⟨rest, hrest⟩ := hprefix
      have hat : (positions (n.cells.map (·.live)))[slots.length]? = some k := by
        rw [← hrest, ← hlength, List.getElem?_append_left (by simp), List.getElem?_concat_length]
      have htarget := hposition htarget
      exact (List.getElem?_inj (List.getElem?_eq_some_iff.mp htarget).1
        (positions_nodup _)).mp (htarget.trans hat.symm)
    have hwidth : livePins slot = slot.cell.connectionEnd - slot.cell.connectionStart :=
      if_pos hlive
    rw [List.sum_cons, hwidth] at hfits
    have hrow : state.netlist.cells[k]? = some slot := by
      rw [h.cells.row (Nat.le_refl k), hslot]
    have hid : (idFromIndex "cell ID" target).mapError (fun _ =>
        Panic.expect "preflighted dense cell ID must fit") = .ok target := by
      have hfits := (hremap.kept k target (hposition htarget)).2
      rw [idFromIndex, if_pos (show target + 1 ≤ U32_MAX from hfits)]
      rfl
    rw [rowAt_eq hrow, hid, h.moving.write, pinPosition_eq (by omega)]
    have hcount : read + (slot.cell.connectionEnd - slot.cell.connectionStart) =
        slot.cell.connectionEnd := by
      rw [← hstart]
      exact Nat.add_sub_cancel' hle
    have hrows : (n.connections.take slot.cell.connectionEnd).drop slot.cell.connectionStart =
        (n.connections.drop read).take (slot.cell.connectionEnd - slot.cell.connectionStart) := by
      rw [List.drop_take, hstart]
    have hin : read + (slot.cell.connectionEnd - slot.cell.connectionStart) ≤
        n.connections.length := by
      rw [hcount]
      exact hranges.le
    have hmoved := movePins_settles h.moving hin howners (by omega)
      (fun x hx => hsignal slot hmem hlive x (hrows ▸ hx)) target
    have hpinIds : List.range' slot.cell.connectionStart
        (slot.cell.connectionEnd - slot.cell.connectionStart) =
          List.range' read (slot.cell.connectionEnd - slot.cell.connectionStart) := by
      rw [hstart]
    rw [← hpinIds] at hmoved
    apply Settles.bind hmoved
    rintro next ⟨moved, rows', hpins, hmoving, hcells, hwrite⟩
    have hcountMoved : moved.length = slot.cell.connectionEnd - slot.cell.connectionStart := by
      rw [← hpins.length_eq, List.length_take, List.length_drop, Nat.min_eq_left]
      omega
    have hlength : (pins ++ moved).length = pins.length + moved.length := List.length_append
    have hlast (last : CellSlot) : (slots ++ [last]).length = slots.length + 1 :=
      List.length_append
    have hend : pinPosition next.writePin = .ok (pins ++ moved).length := by
      rw [hmoving.write, pinPosition_eq (by omega)]
    rw [hend, hcells, hwrite, h.writeCell]
    apply Settles.bind (setRow_settles (h.cells.lt hlt) _)
    rintro _ rfl
    refine ⟨read + (slot.cell.connectionEnd - slot.cell.connectionStart),
      slots ++ [⟨{ slot.cell with
        connectionStart := pins.length, connectionEnd := (pins ++ moved).length }, true, 0⟩],
      pins ++ moved, movedOwners ++ List.replicate
        (slot.cell.connectionEnd - slot.cell.connectionStart) target, rows', ?_⟩
    constructor
    · exact hmoving.setCells _ _
    · rwa [hcount]
    · exact h.cells.keep hlt _
    · exact (hlast _).symm
    · rw [List.map_append, ← hcountMoved]
      have hpush := @Contents.Formed.push _ h.formed ⟨slot.cell.name, slot.cell.cellType,
        slot.cell.libraryCell, pins.length, (pins ++ moved).length⟩ true moved rfl hlength
      rw [List.length_map, ← hnumber] at hpush
      exact hpush
    · rw [hpositions]
      refine List.rel_append (h.kept.imp fun _ _ hkept => hkept.extend moved) (.cons ?_ .nil)
      refine ⟨slot, hslot, rfl, Nat.le_refl _, ?_⟩
      dsimp only
      rw [List.take_length, List.drop_left, hrows]
      exact hpins
    · omega

theorem moving_start (hnets : n.netPins = List.replicate n.nets.length ⟨none, none⟩)
    (hlinks : n.pinLinks.length = n.connections.length) :
    Moving n 0 [] [] (fun _ => []) ⟨n, 0, 0⟩ where
  rest := rfl
  write := rfl
  connections := .start n.connections
  owners := .start n.pinOwners
  owned := rfl
  links := hlinks
  nets := rfl
  threaded :=
    { chain := by
        intro net ends hends
        rw [hnets, List.getElem?_replicate] at hends
        split_ifs at hends
        cases hends
        exact ⟨rfl, rfl, List.nodup_nil, trivial⟩
      outside := fun _ _ => rfl
      apart := fun _ _ _ h => by cases h
      idle := fun pin links _ h => by
        rw [List.length_nil, List.take_zero] at h
        cases h }
  attached := by simp

/-- Once every cell is moved the lists of pins are exact. -/
theorem CellsMoved.wired
    (h : CellsMoved R n n.cells.length read slots pins movedOwners rows state)
    (hnets : n.netPins.length = n.nets.length) : Wired { state.netlist with
      cells := slots
      connections := pins
      pinOwners := movedOwners
      pinLinks := state.netlist.pinLinks.take pins.length
      liveCellCount := slots.length } rows where
  nets := by
    have hrest := congrArg MappedNetlist.nets h.moving.rest
    exact h.moving.nets.trans (hnets.trans (congrArg List.length hrest.symm))
  pins := by
    dsimp only
    rw [List.length_take, h.moving.links, Nat.min_eq_left]
    have hle := h.moving.connections.front.length_le
    rwa [h.moving.connections.length] at hle
  capacity := Nat.le_trans (Nat.le_add_right _ _) h.fits
  formed := ⟨h.formed.owners, h.formed.contiguous, h.formed.owned⟩
  threaded := h.moving.threaded.congr rfl rfl
  attached := by
    intro pin net
    rw [h.moving.attached]
    constructor
    · rintro ⟨x, hx, hsignal⟩
      have hlt : pin < movedOwners.length := by
        rw [h.moving.owned]
        exact (List.getElem?_eq_some_iff.mp hx).1
      obtain ⟨y, hy, -⟩ := h.formed.owner (List.getElem?_eq_getElem hlt)
      refine ⟨⟨movedOwners[pin], y.1, List.getElem?_eq_getElem hlt, ?_⟩, x, hx, hsignal⟩
      obtain ⟨slot, hslot, rfl⟩ := Option.map_eq_some_iff.mp (List.getElem?_map .. ▸ hy)
      obtain ⟨cell, -, hmoved⟩ := exists_of_mem_right h.kept (List.mem_of_getElem? hslot)
      obtain ⟨old, -, hlive, -⟩ := hmoved
      rw [MappedNetlist.contents, List.getElem?_map]
      dsimp only
      rw [hslot, Option.map_some, congrArg CellSlot.live hlive]
    · rintro ⟨-, x, hx, hsignal⟩
      exact ⟨x, hx, hsignal⟩

theorem compactCellSlots_settles (hremap : Numbering (n.cells.map (·.live)) remap)
    (howners : n.pinOwners.length = n.connections.length)
    (hlinks : n.pinLinks.length = n.connections.length)
    (hnets : n.netPins = List.replicate n.nets.length ⟨none, none⟩)
    (hranges : Contiguous 0 (n.cells.map fun slot =>
      (slot.cell.connectionStart, slot.cell.connectionEnd)) n.connections.length)
    (hfits : (n.cells.map livePins).sum ≤ U32_MAX)
    (hsignal : ∀ slot ∈ n.cells, slot.live = true →
      ∀ x ∈ (n.connections.take slot.cell.connectionEnd).drop slot.cell.connectionStart,
        Settles (remappedSignal nets x.signal)
          (fun y => R x.signal y ∧ y.All (· < n.netPins.length)) fun _ => False) :
    Settles (n.compactCellSlots remap nets) (fun m =>
      m = { n with
        cells := m.cells
        connections := m.connections
        pinOwners := m.pinOwners
        pinLinks := m.pinLinks
        netPins := m.netPins
        liveCellCount := m.cells.length } ∧
      (∃ rows, Wired m rows) ∧
      List.Forall₂ (CellMoved R n m.connections) n.cellIds m.cells) fun _ => False := by
  rw [compactCellSlots]
  have hloop : Settles (remap.zipIdx.foldlM (moveCell nets) ⟨n, 0, 0⟩)
      (fun state => ∃ read slots pins movedOwners rows,
        CellsMoved R n remap.length read slots pins movedOwners rows state) fun _ => False := by
    apply Settles.foldlM_zipIdx fun k state => ∃ read slots pins movedOwners rows,
      CellsMoved R n k read slots pins movedOwners rows state
    · refine ⟨0, [], [], [], fun _ => [], ?_⟩
      constructor
      · exact moving_start hnets hlinks
      · exact hranges
      · exact .start n.cells
      · rfl
      · exact ⟨rfl, rfl, fun _ _ h => by cases h⟩
      · exact .nil
      · rwa [List.length_nil, Nat.zero_add]
    · rintro k target hk state ⟨read, slots, pins, movedOwners, rows, h⟩
      exact moveCell_settles h hremap hk howners hsignal
  apply Settles.bind hloop
  rintro state ⟨read, slots, pins, movedOwners, rows, h⟩
  have hlength : remap.length = n.cells.length := by
    rw [hremap.length, List.length_map]
  rw [hlength] at h
  have hcells : state.netlist.cells.take state.writeCell = slots := by
    rw [h.writeCell, h.cells.take]
  have hconnections : state.netlist.connections.take state.writePin = pins := by
    rw [h.moving.write, h.moving.connections.take]
  have howners' : state.netlist.pinOwners.take state.writePin = movedOwners := by
    rw [h.moving.write, ← h.moving.owned, h.moving.owners.take]
  have hkept := h.kept
  rw [← List.length_map (f := fun slot : CellSlot => slot.live), List.take_length,
    ← cellIds_eq] at hkept
  have hwired := h.wired (by rw [hnets, List.length_replicate])
  show _ ∧ _ ∧ _
  simp only [hcells, hconnections, howners']
  simp only [h.writeCell, h.moving.write]
  refine ⟨?_, ⟨rows, hwired⟩, hkept⟩
  have hrest := h.moving.rest
  exact congrArg (fun m : MappedNetlist => { m with
    cells := slots
    connections := pins
    pinOwners := movedOwners
    pinLinks := state.netlist.pinLinks.take pins.length
    netPins := state.netlist.netPins
    liveCellCount := slots.length }) hrest

end Moving

/-! The published netlist. -/

/-- What a successful preparation establishes. -/
structure Publishable (n : MappedNetlist) (plan : PublicationPlan) : Prop where
  live : Live n
  external : ∀ net ∈ n.externalNets, net ∈ n.boundaryNets
  owners : n.pinOwners.length = n.connections.length
  links : n.pinLinks.length = n.connections.length
  netPins : n.netPins.length = n.nets.length
  nets : Numbering (n.nets.map (·.live)) plan.nets
  cells : Numbering (n.cells.map (·.live)) plan.cells
  pins : (n.cells.map livePins).sum ≤ U32_MAX
  source : plan.sourceGeneration = n.generation
  revision : plan.publicationRevision = n.editRevision + 1

theorem sum_livePins (cells : List CellSlot) : (cells.map livePins).sum =
    ((cells.filter (·.live)).map fun slot =>
      slot.cell.connectionEnd - slot.cell.connectionStart).sum := by
  induction cells with
  | nil => rfl
  | cons slot cells ih =>
    rw [List.map_cons, List.sum_cons, ih, livePins, List.filter_cons]
    cases slot.live with
    | true => rfl
    | false => simp

theorem pinCount_settles (cells : List CellSlot) :
    Settles (cells.foldlM (fun count slot =>
      let pins := slot.cell.connectionEnd - slot.cell.connectionStart
      if count + pins ≤ USIZE_MAX then Except.ok (count + pins)
      else .error (MappedError.capacity "pin connection arena")) 0)
      (fun count => count = (cells.map fun slot =>
        slot.cell.connectionEnd - slot.cell.connectionStart).sum) fun _ => True := by
  apply Settles.foldlM fun (done : List CellSlot) count => count = (done.map fun slot =>
    slot.cell.connectionEnd - slot.cell.connectionStart).sum
  · rfl
  · rintro done slot - count rfl
    dsimp only
    split_ifs
    · rw [List.map_append, List.sum_append, List.map_singleton, List.sum_singleton]
      exact rfl
    · exact trivial

theorem checkPinCount_settles (pinCount : Nat) :
    Settles (checkPinCount pinCount) (fun _ => pinCount ≤ U32_MAX) fun _ => True := by
  rw [checkPinCount]
  split_ifs with h
  · exact h ▸ Nat.zero_le _
  · rw [idFromIndex]
    split_ifs with hfits
    · exact Nat.sub_one_add_one h ▸ hfits
    · exact trivial

section Prepare

variable {nextGeneration : Nat}

/-- The error is returned, unless the generations are exhausted. -/
def Returned (nextGeneration : Nat) (stop : PublicationStop) : Prop :=
  ∀ panic, stop = .panic panic → U64_MAX ≤ nextGeneration

theorem returned_settles {α : Type} {r : Except MappedError α} {Q : α → Prop}
    (h : Settles r Q fun _ => True) :
    Settles (r.mapError .error) Q (Returned nextGeneration) :=
  h.mapError fun _ _ _ hpanic => by cases hpanic

theorem preparePublication_settles : Settles (n.preparePublication nextGeneration)
    (fun plan => Publishable n plan ∧ plan.targetGeneration = nextGeneration)
    (Returned nextGeneration) := by
  rw [preparePublication]
  apply Settles.bind (returned_settles (refuse_settles _))
  intro _ _
  apply Settles.bind (returned_settles (settles_trivial _))
  intro _ _
  apply Settles.bind (returned_settles validateReferences_settles)
  intro _ hlive
  apply Settles.bind (returned_settles validateExternalNetIndex_settles)
  intro _ hexternal
  apply Settles.bind (returned_settles validateConnectivity_settles)
  rintro _ ⟨howners, hlinks, hnetPins⟩
  apply Settles.bind (returned_settles (settles_trivial _))
  intro _ _
  apply Settles.bind (returned_settles (refuse_settles _))
  intro _ _
  apply Settles.bind (returned_settles (publicationRemap_settles _ _))
  intro nets hnets
  apply Settles.bind (returned_settles (publicationRemap_settles _ _))
  intro cells hcells
  apply Settles.bind (returned_settles (pinCount_settles _))
  intro pinCount hcount
  apply Settles.bind (returned_settles (checkPinCount_settles pinCount))
  intro _ hfits
  rw [freshGeneration]
  split_ifs with hgeneration
  · refine ⟨⟨hlive, hexternal, howners, hlinks, hnetPins, hnets, hcells, ?_, rfl, rfl⟩, rfl⟩
    rwa [sum_livePins, ← hcount]
  · intro panic _
    exact Nat.le_of_lt_succ (Nat.not_le.mp hgeneration)

end Prepare

/-- Cell `cell` of `n` and cell `cell'` of `n'` agree in name, type and, pin by pin, in name and
net. -/
def CellCopied (n n' : MappedNetlist) (cell cell' : CellId) : Prop :=
  ∃ old new pins pins', n.cell cell = some old ∧ n'.cell cell' = some new ∧
    new = { old with connectionStart := new.connectionStart, connectionEnd := new.connectionEnd } ∧
    n.cellConnections cell = some pins ∧ n'.cellConnections cell' = some pins' ∧
    List.Forall₂ (PinMoved (SignalMoved n)) pins pins'

/-- The living part of `n`, renumbered. -/
structure Repacked (n : MappedNetlist) (remap : MappedCellRemap) (n' : MappedNetlist) : Prop where
  published : n'.published = true
  revision : n'.editRevision = n.editRevision + 1
  nets : List.Forall₂ (fun net slot => ∃ old, n.nets[net]? = some old ∧
    slot = ⟨old.name, true, 0⟩) n.netIds n'.nets
  netCount : n'.liveNetCount = n'.nets.length
  cellCount : n'.liveCellCount = n'.cells.length
  cells : n'.cells.length = n.cellIds.length ∧
    ∀ slot ∈ n'.cells, slot.live = true ∧ slot.version = 0
  copied : ∀ (cell cell' : CellId), n.cellIds[cell']? = some cell → CellCopied n n' cell cell'
  owned : ∀ pin < n'.connections.length, (n'.pinOwner pin).isSome
  pins : ∀ net < n'.nets.length, ∃ row, n'.pinsOnNet net = some row ∧ row.Nodup ∧
    ∀ pin, pin ∈ row ↔ ∃ x, n'.connection pin = some x ∧ x.signal = .net net
  names : n'.name = n.name ∧ n'.names = n.names
  ports : n'.ports = n.ports ∧
    List.Forall₂ (fun net net' => n.netIds[net']? = some net) n.portNets n'.portNets
  instances : n'.designInstances = n.designInstances ∧ n'.designConnections = n.designConnections ∧
    List.Forall₂ (SignalMoved n) n.designConnectionSignals n'.designConnectionSignals
  drivers : List.Forall₂ (fun driver driver' => n.netIds[driver'.1]? = some driver.1 ∧
    driver'.2 = driver.2) n.constantDrivers n'.constantDrivers
  external : List.Forall₂ (fun net net' => n.netIds[net']? = some net) n.externalNets n'.externalNets
  sent : ∀ cell cell', remap.cell cell = some cell' ↔ n.cellIds[cell']? = some cell
  sentCount : remap.cells.length = n.cells.length ∧ remap.cellCount = n'.cells.length
  generations : remap.sourceGeneration = n.generation ∧
    remap.targetGeneration = n'.generation

theorem Numbering.index {live : List Bool} {remap : List Nat} (h : Numbering live remap)
    (cell cell' : Nat) :
    ((remap[cell]?).bind fun index => if index ≠ REMOVED_SLOT then some index else none) =
      some cell' ↔ (positions live)[cell']? = some cell := by
  constructor
  · intro hcell
    obtain ⟨index, hindex, hcell⟩ := Option.bind_eq_some_iff.mp hcell
    split_ifs at hcell with hne
    cases hcell
    exact (h.target hindex).2 hne
  · intro hcell
    obtain ⟨hindex, hlt⟩ := h.kept cell cell' hcell
    rw [hindex, Option.bind_some, if_pos (Nat.ne_of_lt hlt)]

theorem SignalMoved.fits {signal signal' : ConnectionSignal} (h : SignalMoved n signal signal') :
    signal'.All (· < n.netIds.length) := by
  cases signal' with
  | constant value => trivial
  | net net' =>
    cases signal with
    | constant value => cases h
    | net net => exact (List.getElem?_eq_some_iff.mp h).1

/-- A step that cannot fail. -/
theorem orPanics_outcome {α β : Type} {r : Except Panic α} {k : α → Publishing β}
    {s : MappedNetlist} {Q : α → Prop} {Q' : β → MappedNetlist → Prop}
    {E : PublicationStop → MappedNetlist → Prop} (h : Settles r Q fun _ => False)
    (hk : ∀ a, Q a → Outcome s (k a) Q' E) : Outcome s (orPanics r >>= k) Q' E := by
  cases r with
  | ok a => exact hk a h
  | error e => exact h.elim

theorem slice_of_bounds {α : Type} {rows : List α} {first last : Nat}
    (h : first ≤ last ∧ last ≤ rows.length) :
    slice rows first last = some ((rows.take last).drop first) := if_pos h

theorem connection_eq_some (h : n.contents.Formed) {pin : PinId} {x : PinConnection} :
    n.connection pin = some x ↔ n.contents.Live pin ∧ n.connections[pin]? = some x := by
  rw [live_iff h, connection]
  cases n.pinOwner pin <;> simp

/-- The parts of a netlist that the loops write, once they are done. -/
structure Loops (n m : MappedNetlist) (rows : Rows) : Prop where
  wired : Wired m rows
  nets : List.Forall₂ (fun net slot => ∃ old, n.nets[net]? = some old ∧
    slot = ⟨old.name, true, 0⟩) n.netIds m.nets
  cells : List.Forall₂ (CellMoved (SignalMoved n) n m.connections) n.cellIds m.cells

namespace Loops

variable {m : MappedNetlist} {rows : Rows}

theorem cell (h : Loops n m rows) {cell' : CellId} {slot : CellSlot}
    (hslot : m.cells[cell']? = some slot) : slot.live = true ∧ slot.version = 0 := by
  obtain ⟨cell, -, old, -, hold, -⟩ := exists_of_mem_right h.cells (List.mem_of_getElem? hslot)
  exact ⟨congrArg CellSlot.live hold, congrArg CellSlot.version hold⟩

theorem live (h : Loops n m rows) {pin : PinId} (hpin : pin < m.connections.length) :
    m.contents.Live pin := by
  have hlt : pin < m.contents.pinOwners.length := h.wired.formed.owners ▸ hpin
  obtain ⟨⟨x, live⟩, hx, -⟩ := h.wired.formed.owner (List.getElem?_eq_getElem hlt)
  obtain ⟨slot, hslot, rfl, rfl⟩ := cells_contents.mp hx
  exact ⟨_, _, List.getElem?_eq_getElem hlt, cells_contents.mpr ⟨slot, hslot, rfl, (h.cell hslot).1⟩⟩

theorem pins (h : Loops n m rows) {net : NetId} (hnet : net < m.nets.length) :
    ∃ row, m.pinsOnNet net = some row ∧ row.Nodup ∧
      ∀ pin, pin ∈ row ↔ ∃ x, m.connection pin = some x ∧ x.signal = .net net := by
  have hslot := List.getElem?_eq_getElem hnet
  obtain ⟨_, -, old, -, hold⟩ := exists_of_mem_right h.nets (List.mem_of_getElem? hslot)
  have hrow := h.wired.pinsOnNet hslot
  rw [if_pos (congrArg NetSlot.live hold)] at hrow
  refine ⟨rows net, hrow, h.wired.threaded.nodup net, fun pin => ?_⟩
  rw [h.wired.attached, Contents.Attached]
  simp only [connection_eq_some h.wired.formed, and_assoc, exists_and_left]
  rfl

theorem copied (h : Loops n m rows) (hlive : Live n) {cell cell' : CellId}
    (hcell : n.cellIds[cell']? = some cell) : CellCopied n m cell cell' := by
  have hlt : cell' < m.cells.length := h.cells.length_eq ▸ (List.getElem?_eq_some_iff.mp hcell).1
  have hslot := List.getElem?_eq_getElem hlt
  obtain ⟨found, hfound, old, hold, hmoved, hle, hpins⟩ := exists_of_getElem?_right h.cells hslot
  cases hcell.symm.trans hfound
  have holdLive : old.live = true := by
    have hmem := List.mem_of_getElem? hcell
    rw [cellIds_eq, mem_positions, List.getElem?_map, hold] at hmem
    exact Option.some_inj.mp hmem
  have hnew : m.cell cell' = some m.cells[cell'].cell := by
    rw [MappedNetlist.cell, hslot, Option.filter_some, if_pos (h.cell hslot).1]
    rfl
  have hbefore : n.cell cell = some old.cell := by
    rw [MappedNetlist.cell, hold, Option.filter_some, if_pos holdLive]
    rfl
  have hrange := hlive.cells.bounds (List.mem_map_of_mem (List.mem_of_getElem? hold))
  have hrange' := h.wired.formed.range (cells_contents.mpr ⟨_, hslot, rfl, rfl⟩)
  refine ⟨old.cell, m.cells[cell'].cell, _, _, hbefore, hnew, congrArg CellSlot.cell hmoved, ?_, ?_,
    hpins⟩
  · rw [cellConnections, hbefore, Option.bind_some, slice_of_bounds hrange]
  · rw [cellConnections, hnew, Option.bind_some]
    exact slice_of_bounds hrange'

end Loops

theorem finalize_repacks (n : MappedNetlist) (nextGeneration : Nat) :
    Outcome n (finalizeForPublication nextGeneration)
      (fun remap n' => Repacked n remap n' ∧ n'.generation = nextGeneration)
      (fun stop n' => n' = n ∧ Returned nextGeneration stop) := by
  refine Outcome.get ?_
  have hprepare := @preparePublication_settles n nextGeneration
  cases hplan : n.preparePublication nextGeneration with
  | error stop =>
    rw [hplan] at hprepare
    exact ⟨rfl, hprepare⟩
  | ok plan =>
    rw [hplan] at hprepare
    obtain ⟨hready, hgeneration⟩ := hprepare
    apply orPanics_outcome (remapBoundaryNets_settles hready.nets hready.live.boundary
      hready.external)
    rintro m₁ ⟨h₁, hports, hsignals, hdrivers, hexternal⟩
    have hnets₁ : m₁.nets = n.nets := by rw [h₁]
    have hpins₁ : m₁.netPins = n.netPins := by rw [h₁]
    apply Outcome.set
    apply orPanics_outcome (compactNetSlots_settles (hnets₁ ▸ hready.nets)
      (by rw [hnets₁, hpins₁]; exact hready.netPins))
    rintro m₂ ⟨h₂, hnets⟩
    rw [netIds, hnets₁] at hnets
    apply Outcome.set
    have hcells₂ : m₂.cells = n.cells := by rw [h₂, h₁]
    have hconnections₂ : m₂.connections = n.connections := by rw [h₂, h₁]
    have howners₂ : m₂.pinOwners = n.pinOwners := by rw [h₂, h₁]
    have hlinks₂ : m₂.pinLinks = n.pinLinks := by rw [h₂, h₁]
    have hnetPins₂ : m₂.netPins = List.replicate m₂.nets.length ⟨none, none⟩ :=
      congrArg MappedNetlist.netPins h₂
    have hwidth : m₂.netPins.length = n.netIds.length := by
      rw [hnetPins₂, List.length_replicate]
      exact hnets.length_eq.symm
    have hpins : ∀ slot ∈ m₂.cells, slot.live = true →
        ∀ x ∈ (m₂.connections.take slot.cell.connectionEnd).drop slot.cell.connectionStart,
          Settles (remappedSignal plan.nets x.signal)
            (fun y => SignalMoved n x.signal y ∧ y.All (· < m₂.netPins.length))
            fun _ => False := by
      intro slot hslot hlive x hx
      rw [hcells₂] at hslot
      rw [hconnections₂] at hx
      have hrange := hready.live.cells.bounds (List.mem_map_of_mem hslot)
      have hsignal := hready.live.pins slot hslot hlive _ (slice_of_bounds hrange) x hx
      apply (remappedSignal_settles hready.nets hsignal).mono
      exact fun y hy => ⟨hy, hwidth ▸ hy.fits⟩
    apply orPanics_outcome (compactCellSlots_settles (hcells₂ ▸ hready.cells)
      (by rw [howners₂, hconnections₂]; exact hready.owners)
      (by rw [hlinks₂, hconnections₂]; exact hready.links) hnetPins₂
      (by rw [hcells₂, hconnections₂]; exact hready.live.cells)
      (by rw [hcells₂]; exact hready.pins) hpins)
    rintro m₃ ⟨h₃, ⟨rows, hwired⟩, hcells⟩
    have hloops : Loops n m₃ rows := by
      constructor
      · exact hwired
      · rw [h₃]
        exact hnets
      · rw [cellIds_eq, hcells₂, ← cellIds_eq] at hcells
        apply hcells.imp
        rintro cell slot ⟨old, hold, hslot, hle, hpins⟩
        rw [hcells₂] at hold
        rw [hconnections₂] at hpins
        exact ⟨old, hold, hslot, hle, hpins⟩
    apply Outcome.set
    have hfinal : Loops n { m₃ with
        generation := plan.targetGeneration
        editRevision := plan.publicationRevision
        published := true } rows := { hloops with
          wired := { hwired with threaded := hwired.threaded.congr rfl rfl } }
    refine ⟨?_, hgeneration⟩
    constructor
    · exact rfl
    · exact hready.revision
    · exact hfinal.nets
    · rw [h₃, h₂]
    · rw [h₃]
    · refine ⟨hfinal.cells.length_eq.symm, fun slot hslot => ?_⟩
      obtain ⟨i, hi⟩ := List.mem_iff_getElem?.mp hslot
      exact hfinal.cell hi
    · exact fun cell cell' => hfinal.copied hready.live
    · exact fun pin hpin => (live_iff hfinal.wired.formed).mp (hfinal.live hpin)
    · exact fun net => hfinal.pins
    · rw [h₃, h₂, h₁]
      exact ⟨rfl, rfl⟩
    · rw [h₃, h₂]
      exact ⟨by rw [h₁], hports⟩
    · rw [h₃, h₂]
      exact ⟨by rw [h₁], by rw [h₁], hsignals⟩
    · rw [h₃, h₂]
      exact hdrivers
    · rw [h₃, h₂]
      exact hexternal
    · intro cell cell'
      rw [cellIds_eq]
      exact hready.cells.index cell cell'
    · refine ⟨?_, rfl⟩
      rw [hready.cells.length, List.length_map]
    · exact ⟨hready.source, rfl⟩

/-- A removed net and a removed cell come before the ones that stay. -/
def tombstoned : MappedNetlist := { inverter with
  nets := [⟨none, false, 1⟩, ⟨some 1, true, 0⟩, ⟨some 2, true, 0⟩]
  cells := [⟨⟨3, 4, none, 0, 2⟩, false, 1⟩, ⟨⟨3, 4, none, 2, 4⟩, true, 0⟩]
  connections := [⟨5, none, .net 0⟩, ⟨6, none, .net 0⟩, ⟨5, none, .net 1⟩, ⟨6, none, .net 2⟩]
  pinOwners := [0, 0, 1, 1]
  pinLinks := List.replicate 4 ⟨none, none⟩
  netPins := [⟨none, none⟩, ⟨some 2, some 2⟩, ⟨some 3, some 3⟩] }

example : (match (finalizeForPublication 1).run tombstoned with
    | .ok remap n' => decide (remap.cells = [REMOVED_SLOT, 0] ∧ n'.cells = [⟨⟨3, 4, none, 0, 2⟩, true, 0⟩] ∧
        n'.connections = [⟨5, none, .net 0⟩, ⟨6, none, .net 1⟩] ∧ n'.pinsOnNet 1 = some [1])
    | .error _ _ => false) = true := by decide +kernel

end Opto.Mapped
