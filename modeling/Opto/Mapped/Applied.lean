import Opto.Mapped.Operations

/-!
# Whole deltas

The contents after a list of operations, row by row: a slot that is there keeps
its number, and each of its fields holds what was last written to it. The
operations of a prepared delta fit the slots they were planned for.
-/

namespace Opto.Mapped

namespace Contents

variable (ids : String → NameId)

def run (c : Contents) (operations : List ResolvedOperation) : Contents :=
  operations.foldl (Contents.apply ids) c

def netAfter (net : NetId) (x : Option NameId × Bool) : ResolvedOperation → Option NameId × Bool
  | .removeNet other => if other = net then (x.1, false) else x
  | .renameNet other name => if other = net then (name.map ids, x.2) else x
  | _ => x

def cellAfter (cell : CellId) (x : MappedCell × Bool) : ResolvedOperation → MappedCell × Bool
  | .removeCell other => if other = cell then (x.1, false) else x
  | .replaceCell other cellType libraryCell =>
    if other = cell then ({ x.1 with cellType := ids cellType, libraryCell }, x.2) else x
  | .renameCell other name => if other = cell then ({ x.1 with name := ids name }, x.2) else x
  | _ => x

def connectionAfter (pin : PinId) (x : PinConnection) : ResolvedOperation → PinConnection
  | .reconnectPin other signal => if other = pin then { x with signal } else x
  | _ => x

variable {ids} {c : Contents}

/-! Lengths. -/

theorem run_nets_length (operations : List ResolvedOperation) : (c.run ids operations).nets.length =
    c.nets.length + (operations.filterMap ResolvedOperation.newNet).length := by
  induction operations generalizing c with
  | nil => rfl
  | cons operation operations ih =>
    rw [run, List.foldl_cons, ← run, ih, List.filterMap_cons]
    cases operation with
    | addNet id name =>
      simp only [apply, ResolvedOperation.newNet, List.length_append, List.length_cons, List.length_nil]
      omega
    | _ => simp [apply, ResolvedOperation.newNet]

theorem run_cells_length (operations : List ResolvedOperation) : (c.run ids operations).cells.length =
    c.cells.length + (operations.filterMap ResolvedOperation.newCell).length := by
  induction operations generalizing c with
  | nil => rfl
  | cons operation operations ih =>
    rw [run, List.foldl_cons, ← run, ih, List.filterMap_cons]
    cases operation with
    | addCell id spec connections =>
      simp only [apply, ResolvedOperation.newCell, List.length_append, List.length_cons, List.length_nil]
      omega
    | _ => simp [apply, ResolvedOperation.newCell]

theorem run_connections_length (operations : List ResolvedOperation) :
    (c.run ids operations).connections.length =
      c.connections.length + (operations.map ResolvedOperation.newPins).sum := by
  induction operations generalizing c with
  | nil => rfl
  | cons operation operations ih =>
    rw [run, List.foldl_cons, ← run, ih, List.map_cons, List.sum_cons, ← Nat.add_assoc]
    cases operation <;> simp [apply, ResolvedOperation.newPins]

theorem run_append (operations operations' : List ResolvedOperation) :
    c.run ids (operations ++ operations') = (c.run ids operations).run ids operations' :=
  List.foldl_append

/-! Rows. -/

theorem modify_row {α : Type} {rows : List α} {i j : Nat} {x : α} (h : rows[i]? = some x) (f : α → α) :
    (rows.modify j f)[i]? = some (if j = i then f x else x) := by
  rw [List.getElem?_modify, h]
  rfl

theorem append_row {α : Type} {rows : List α} {i : Nat} {x : α} (h : rows[i]? = some x) (more : List α) :
    (rows ++ more)[i]? = some x := by
  rw [List.getElem?_append_left (List.getElem?_eq_some_iff.mp h).1]
  exact h

theorem apply_net {net : NetId} {x : Option NameId × Bool} (h : c.nets[net]? = some x)
    (operation : ResolvedOperation) :
    (c.apply ids operation).nets[net]? = some (netAfter ids net x operation) := by
  cases operation with
  | addNet id name => exact append_row h _
  | removeNet other | renameNet other name => exact modify_row h _
  | _ => exact h

theorem apply_cell {cell : CellId} {x : MappedCell × Bool} (h : c.cells[cell]? = some x)
    (operation : ResolvedOperation) :
    (c.apply ids operation).cells[cell]? = some (cellAfter ids cell x operation) := by
  cases operation with
  | addCell id spec connections => exact append_row h _
  | removeCell other | replaceCell other cellType libraryCell | renameCell other name =>
    exact modify_row h _
  | _ => exact h

theorem apply_connection {pin : PinId} {x : PinConnection} (h : c.connections[pin]? = some x)
    (operation : ResolvedOperation) :
    (c.apply ids operation).connections[pin]? = some (connectionAfter pin x operation) := by
  cases operation with
  | addCell id spec connections => exact append_row h _
  | reconnectPin other signal => exact modify_row h _
  | _ => exact h

theorem run_net (ids : String → NameId) {net : NetId} {x : Option NameId × Bool}
    (h : c.nets[net]? = some x) (operations : List ResolvedOperation) :
    (c.run ids operations).nets[net]? = some (operations.foldl (netAfter ids net) x) :=
  foldl_row Contents.nets (fun _ operation _ _ hx => apply_net hx operation) h operations

theorem run_cell (ids : String → NameId) {cell : CellId} {x : MappedCell × Bool}
    (h : c.cells[cell]? = some x) (operations : List ResolvedOperation) :
    (c.run ids operations).cells[cell]? = some (operations.foldl (cellAfter ids cell) x) :=
  foldl_row Contents.cells (fun _ operation _ _ hx => apply_cell hx operation) h operations

theorem run_connection (ids : String → NameId) {pin : PinId} {x : PinConnection}
    (h : c.connections[pin]? = some x) (operations : List ResolvedOperation) :
    (c.run ids operations).connections[pin]? = some (operations.foldl (connectionAfter pin) x) :=
  foldl_row Contents.connections (fun _ operation _ _ hx => apply_connection hx operation) h
    operations

/-! Fields. -/

theorem netAfter_live (ids : String → NameId) (net : NetId) (x : Option NameId × Bool)
    (operations : List ResolvedOperation) :
    (operations.foldl (netAfter ids net) x).2 = true ↔
      x.2 = true ∧ .removeNet net ∉ operations := by
  induction operations generalizing x with
  | nil => simp
  | cons operation operations ih =>
    rw [List.foldl_cons, ih, List.mem_cons, not_or, ← and_assoc]
    apply and_congr_left
    intro _
    cases operation <;> simp only [netAfter, reduceCtorEq, not_false_eq_true, and_true]
    · split_ifs with he
      · simp [he]
      · simp [Ne.symm he]
    · split_ifs <;> rfl

theorem cellAfter_live (ids : String → NameId) (cell : CellId) (x : MappedCell × Bool)
    (operations : List ResolvedOperation) :
    (operations.foldl (cellAfter ids cell) x).2 = true ↔
      x.2 = true ∧ .removeCell cell ∉ operations := by
  induction operations generalizing x with
  | nil => simp
  | cons operation operations ih =>
    rw [List.foldl_cons, ih, List.mem_cons, not_or, ← and_assoc]
    apply and_congr_left
    intro _
    cases operation <;> simp only [cellAfter, reduceCtorEq, not_false_eq_true, and_true]
    · split_ifs with he
      · simp [he]
      · simp [Ne.symm he]
    all_goals split_ifs <;> rfl

end Contents

/-! Fitting. -/

variable {n : MappedNetlist} {delta : RegionDelta} {p : PreparedDelta}

theorem eq_of_range' {xs ys : List Nat} {y first length : Nat}
    (h : xs ++ y :: ys = List.range' first length) : y = first + xs.length := by
  have hat : (xs ++ y :: ys)[xs.length]? = some y := by simp
  rw [h] at hat
  obtain ⟨hlt, hy⟩ := List.getElem?_eq_some_iff.mp hat
  rw [← hy, List.getElem_range', Nat.one_mul]

theorem not_written {κ : Type} {key : ResolvedOperation → Option κ} {operations done rest}
    {operation : ResolvedOperation} (hnodup : (operations.filterMap key).Nodup)
    (hsplit : operations = done ++ operation :: rest) {i : κ} (hi : key operation = some i) :
    ∀ other ∈ done, key other ≠ some i := (key_once (hsplit ▸ hnodup) hi).1

theorem Current.cellRow {snapshot : RegionSnapshot} (h : Current n snapshot) {cell : CellId}
    (hcell : snapshot.containsCell cell = true) : ∃ x, n.contents.cells[cell]? = some (x, true) := by
  obtain ⟨slot, hslot, hlive⟩ := h.cell hcell
  exact ⟨slot.cell, cells_contents.mpr ⟨slot, hslot, rfl, hlive⟩⟩

theorem Current.netRow {snapshot : RegionSnapshot} (h : Current n snapshot) {net : NetId}
    (hnet : snapshot.containsNet net = true) : ∃ name, n.contents.nets[net]? = some (name, true) := by
  obtain ⟨slot, hslot, hlive⟩ := h.net hnet
  refine ⟨slot.name, ?_⟩
  rw [MappedNetlist.contents, List.getElem?_map, hslot, ← hlive]
  rfl

theorem lt_of_row {α : Type} {rows : List α} {i : Nat} {x : α} (h : rows[i]? = some x) :
    i < rows.length := (List.getElem?_eq_some_iff.mp h).1

theorem Prepared.fits (hp : Prepared n delta p) (ids : String → NameId)
    {done rest : List ResolvedOperation} {operation : ResolvedOperation}
    (hsplit : p.resolved.operations = done ++ operation :: rest) :
    Fits (n.contents.run ids done) operation := by
  have hmem : operation ∈ p.resolved.operations := hsplit ▸ List.mem_append_right _ List.mem_cons_self
  have hvalid := hp.valid operation hmem
  have hcell {cell : CellId} (hc : delta.snapshot.containsCell cell = true) :
      cell < (n.contents.run ids done).cells.length := by
    obtain ⟨x, hx⟩ := hp.current.cellRow hc
    exact lt_of_row (Contents.run_cell ids hx done)
  have hnet {net : NetId} (hc : delta.snapshot.containsNet net = true) :
      net < (n.contents.run ids done).nets.length := by
    obtain ⟨name, hx⟩ := hp.current.netRow hc
    exact lt_of_row (Contents.run_net ids hx done)
  cases operation with
  | addNet id name =>
    have hids := hp.resolved.nets
    rw [hsplit, List.filterMap_append, List.filterMap_cons] at hids
    rw [Fits, Contents.run_nets_length, MappedNetlist.contents, List.length_map]
    exact eq_of_range' hids
  | addCell id spec connections =>
    have hids := hp.resolved.cells
    rw [hsplit, List.filterMap_append, List.filterMap_cons] at hids
    have hpins := hp.resolved.pins
    rw [hsplit, List.map_append, List.map_cons, List.sum_append, List.sum_cons] at hpins
    refine ⟨?_, ?_, hp.resolved.pinNames _ hmem⟩
    · rw [Contents.run_cells_length, MappedNetlist.contents, List.length_map]
      exact eq_of_range' hids
    · rw [Contents.run_connections_length]
      have hconnections : n.contents.connections.length = n.connections.length := rfl
      simp only [ResolvedOperation.newPins] at hpins ⊢
      omega
  | removeCell cell =>
    obtain ⟨x, hx⟩ := hp.current.cellRow hvalid.1
    refine ⟨_, (Contents.run_cell ids hx done).trans (congrArg some (Prod.ext rfl ?_))⟩
    apply (Contents.cellAfter_live ..).mpr
    exact ⟨rfl, fun hin => not_written hp.cellsOnce hsplit rfl _ hin rfl⟩
  | removeNet net | renameNet net name => exact hnet hvalid
  | reconnectPin pin signal =>
    obtain ⟨_, connection, -, -, hconnection, -⟩ := hvalid
    exact lt_of_row (Contents.run_connection ids (c := n.contents) hconnection done)
  | replaceCell cell cellType libraryCell | renameCell cell name => exact hcell hvalid

/-! Named netlists. -/

def NameTable.Has (t : NameTable) (id : NameId) : Prop := ∃ name, t.resolve id = some name

/-- Every name identifier is one of the name table's. -/
structure Named (t : NameTable) (c : Contents) : Prop where
  nets : ∀ x ∈ c.nets, ∀ id, x.1 = some id → t.Has id
  cells : ∀ x ∈ c.cells, t.Has x.1.name ∧ t.Has x.1.cellType
  pins : ∀ x ∈ c.connections, t.Has x.pin

namespace Named

variable {t u : NameTable} {c : Contents}

theorem extend (h : Named t c) (hextends : t.Extends u) : Named u c := by
  have hhas {id : NameId} (hid : t.Has id) : u.Has id := hid.imp fun _ => hextends.resolve
  exact ⟨fun x hx id hid => hhas (h.nets x hx id hid),
    fun x hx => ⟨hhas (h.cells x hx).1, hhas (h.cells x hx).2⟩, fun x hx => hhas (h.pins x hx)⟩

theorem mem_modify {α : Type} {xs : List α} {i : Nat} {f : α → α} {y : α} (h : y ∈ xs.modify i f) :
    y ∈ xs ∨ ∃ x ∈ xs, y = f x := by
  obtain ⟨j, hj⟩ := List.mem_iff_getElem?.mp h
  rw [List.getElem?_modify] at hj
  obtain ⟨x, hx, rfl⟩ := Option.map_eq_some_iff.mp hj
  split_ifs
  · exact .inr ⟨x, List.mem_of_getElem? hx, rfl⟩
  · exact .inl (List.mem_of_getElem? hx)

theorem apply (h : Named t c) {ids : String → NameId} {operation : ResolvedOperation}
    (hpins : operation.PinNames) (hids : ∀ name ∈ operationNames [operation], t.Has (ids name)) :
    Named t (c.apply ids operation) := by
  cases operation with
  | addNet id name =>
    refine { h with nets := fun x hx => ?_ }
    rcases List.mem_append.mp hx with hx | hx
    · exact h.nets x hx
    · rw [List.mem_singleton.mp hx]
      intro id hid
      obtain ⟨string, rfl, rfl⟩ := Option.map_eq_some_iff.mp hid
      exact hids string (by simp [operationNames])
  | addCell id spec connections =>
    refine { h with cells := fun x hx => ?_, pins := fun x hx => ?_ }
    · rcases List.mem_append.mp hx with hx | hx
      · exact h.cells x hx
      · rw [List.mem_singleton.mp hx]
        exact ⟨hids _ (by simp [operationNames]), hids _ (by simp [operationNames])⟩
    · rcases List.mem_append.mp hx with hx | hx
      · exact h.pins x hx
      · obtain ⟨connection, hmem, rfl⟩ := List.mem_map.mp hx
        apply hids
        have hname : connection.1 ∈ spec.connections.map (·.1) := hpins ▸ List.mem_map_of_mem hmem
        simp only [operationNames, List.flatMap_cons, List.flatMap_nil, List.append_nil, List.mem_cons]
        exact .inr (.inr hname)
  | removeCell cell =>
    refine { h with cells := fun x hx => ?_ }
    rcases mem_modify hx with hx | ⟨y, hy, rfl⟩
    · exact h.cells x hx
    · exact h.cells y hy
  | removeNet net =>
    refine { h with nets := fun x hx => ?_ }
    rcases mem_modify hx with hx | ⟨y, hy, rfl⟩
    · exact h.nets x hx
    · exact h.nets y hy
  | reconnectPin pin signal =>
    refine { h with pins := fun x hx => ?_ }
    rcases mem_modify hx with hx | ⟨y, hy, rfl⟩
    · exact h.pins x hx
    · exact h.pins y hy
  | replaceCell cell cellType libraryCell =>
    refine { h with cells := fun x hx => ?_ }
    rcases mem_modify hx with hx | ⟨y, hy, rfl⟩
    · exact h.cells x hx
    · exact ⟨(h.cells y hy).1, hids _ (by simp [operationNames])⟩
  | renameCell cell name =>
    refine { h with cells := fun x hx => ?_ }
    rcases mem_modify hx with hx | ⟨y, hy, rfl⟩
    · exact h.cells x hx
    · exact ⟨hids _ (by simp [operationNames]), (h.cells y hy).2⟩
  | renameNet net name =>
    refine { h with nets := fun x hx => ?_ }
    rcases mem_modify hx with hx | ⟨y, -, rfl⟩
    · exact h.nets x hx
    · intro id hid
      obtain ⟨string, rfl, rfl⟩ := Option.map_eq_some_iff.mp hid
      exact hids string (by simp [operationNames])

theorem run (h : Named t c) {ids : String → NameId} {operations : List ResolvedOperation}
    (hpins : ∀ operation ∈ operations, operation.PinNames)
    (hids : ∀ name ∈ operationNames operations, t.Has (ids name)) : Named t (c.run ids operations) := by
  induction operations generalizing c with
  | nil => exact h
  | cons operation operations ih =>
    apply ih
    · apply h.apply (hpins operation List.mem_cons_self)
      intro name hname
      apply hids
      rw [operationNames, List.flatMap_cons]
      apply List.mem_append_left
      simpa [operationNames] using hname
    · exact fun other hmem => hpins other (List.mem_cons_of_mem _ hmem)
    · intro name hname
      apply hids
      rw [operationNames, List.flatMap_cons]
      exact List.mem_append_right _ hname

end Named

/-- The identifier of an interned name resolves to it. -/
theorem Interned.resolve {n : MappedNetlist} {p : PreparedDelta} {names : NameTable}
    {interned : List (String × NameId)} (h : Interned n p names interned) {name : String}
    (hname : name ∈ operationNames p.resolved.operations) :
    names.resolve (idOf interned name) = some name := by
  obtain ⟨id, hid⟩ := Option.isSome_iff_exists.mp (h.known name hname)
  have hmem := mem_of_lookup hid
  rw [idOf, hid]
  exact h.ids _ hmem

/-! Committing. -/

variable {names : NameTable} {interned : List (String × NameId)}

/-- What a successful commit leaves behind. -/
structure Committed (interned : List (String × NameId)) (n : MappedNetlist) (rows : Rows)
    (p : PreparedDelta) (n' : MappedNetlist) : Prop where
  ready : ∀ done operation rest, p.resolved.operations = done ++ operation :: rest →
    Ready (n.contents.run (idOf interned) done) operation
  contents : n'.contents = n.contents.run (idOf interned) p.resolved.operations
  frame : n'.frame = n.frame
  wired : ∃ rows', Wired n' rows' ∧ Stepped p.revision n rows n' rows'

/-- The netlist in the middle of a commit, after the operations `done`. -/
structure Committing (interned : List (String × NameId)) (n : MappedNetlist) (rows : Rows)
    (revision : Nat) (done : List ResolvedOperation) (s : Editing) : Prop where
  ready : ∀ before operation rest, done = before ++ operation :: rest →
    Ready (n.contents.run (idOf interned) before) operation
  contents : s.netlist.contents = n.contents.run (idOf interned) done
  wired : ∃ rows', Wired s.netlist rows' ∧ Stepped revision n rows s.netlist rows'
  undo : Undo n s
  renamed : ∀ net ∈ s.applied.renamedNets, (s.applied.oldNets.lookup net).isSome

/-- Some operation is not ready when its turn comes. -/
def Blocked (interned : List (String × NameId)) (n : MappedNetlist) (p : PreparedDelta) : Prop :=
  ∃ done operation rest, p.resolved.operations = done ++ operation :: rest ∧
    ¬Ready (n.contents.run (idOf interned) done) operation

theorem renameNet_saved {old : MappedNetlist} {s : Editing} (h : Undo old s) {net : NetId}
    (hnet : net < old.nets.length) (name : Option String) (revision : Nat) :
    Settles (Editing.commit interned revision s (.renameNet net name))
      (fun s' => (s'.applied.oldNets.lookup net).isSome) fun _ => True := by
  apply Settles.bind (Editing.saveNet_safe h net)
  rintro s' ⟨⟨hu, -⟩, hsaved⟩
  apply Settles.bind (settles_trivial _)
  intro _ _
  apply Settles.mono (Editing.modifyNet_safe (s := { s' with applied := { s'.applied with
    renamedNets := insertKey net s'.applied.renamedNets } }) { hu with } _ hsaved)
  exact fun _ ⟨_, hcarries⟩ => hcarries.nets net (hsaved hnet)

theorem Committing.step {m : MappedNetlist} (hn : n.contents = m.contents) (hp : Prepared m delta p)
    (hnames : ∀ name ∈ operationNames p.resolved.operations, (interned.lookup name).isSome)
    {rows : Rows} {done rest : List ResolvedOperation} {operation : ResolvedOperation}
    (hsplit : done ++ operation :: rest = p.resolved.operations) {s : Editing}
    (hknown : Editing.Known n operation)
    (h : Committing interned n rows p.revision done s) :
    Settles (Editing.commit interned p.revision s operation)
      (Committing interned n rows p.revision (done ++ [operation])) fun _ => Blocked interned n p := by
  obtain ⟨rows', hwired, hstepped⟩ := h.wired
  have hmem : operation ∈ p.resolved.operations := hsplit ▸ List.mem_append_right _ List.mem_cons_self
  have hfits : Fits s.netlist.contents operation := by
    rw [h.contents, hn]
    exact hp.fits _ hsplit.symm
  have hinterned : ∀ name ∈ operationNames [operation], (interned.lookup name).isSome := by
    intro name hname
    apply hnames
    rw [← hsplit, operationNames, List.flatMap_append, List.flatMap_cons]
    apply List.mem_append_right
    apply List.mem_append_left
    simpa [operationNames] using hname
  have hrenamed : Settles (Editing.commit interned p.revision s operation) (fun s' => ∀ net name,
      operation = .renameNet net name → (s'.applied.oldNets.lookup net).isSome) fun _ => True := by
    cases operation with
    | renameNet net name =>
      obtain ⟨x, hx⟩ := hp.current.netRow (hp.valid _ hmem)
      have hlt : net < n.nets.length := by
        rw [← hn] at hx
        simpa [MappedNetlist.contents] using lt_of_row hx
      apply Settles.mono (renameNet_saved h.undo hlt name p.revision)
      rintro s' hs _ _ ⟨⟩
      exact hs
    | _ => exact Settles.mono (settles_trivial _) fun _ _ _ _ he => by cases he
  have hstep := Editing.commit_settles p.revision hwired hfits hinterned
  have hsafe : Safe n s (Editing.commit interned p.revision s operation) :=
    Editing.commit_safe h.undo hknown
  apply Settles.weaken (Settles.mono ((hstep.andOk hsafe).andOk hrenamed) ?_)
  · exact fun _ hnot => ⟨done, operation, rest, hsplit.symm, h.contents ▸ hnot⟩
  · rintro s' ⟨⟨⟨⟨hready, hcontents, rows'', hwired', hstepped'⟩, hnets⟩, hundo, hcarries⟩, hsaved⟩
    refine ⟨?_, ?_, ⟨rows'', hwired', hstepped.trans hstepped'⟩, hundo, ?_⟩
    · intro before other after heq
      rcases List.eq_nil_or_concat' after with rfl | ⟨after, last, rfl⟩
      · obtain ⟨rfl, hlast⟩ := List.append_inj' heq rfl
        cases hlast
        exact h.contents ▸ hready
      · rw [← List.cons_append, ← List.append_assoc] at heq
        exact h.ready before other after (List.append_inj' heq rfl).1
    · rw [hcontents, h.contents, Contents.run, Contents.run, List.foldl_append]
      rfl
    · intro net hnet
      rw [hnets] at hnet
      cases operation with
      | renameNet other name =>
        rcases mem_insertKey.mp hnet with rfl | hnet
        · exact hsaved net name rfl
        · exact hcarries.nets net (h.renamed net hnet)
      | _ => exact hcarries.nets net (h.renamed net hnet)

theorem retainRenamed_settles {s : Editing}
    (h : ∀ net ∈ s.applied.renamedNets, ∃ row, s.applied.oldNets.lookup net = some row ∧
      net < s.netlist.nets.length) :
    Settles s.retainRenamed (fun s' => s'.netlist = s.netlist) fun _ => False := by
  apply Settles.bind (Settles.filterM fun net hnet => ?_)
  · exact fun _ _ => rfl
  · obtain ⟨row, hrow, hlt⟩ := h net hnet
    rw [hrow, rowAt_lt hlt]
    exact trivial

theorem commitDelta_commits (hp : Prepared n delta p) {rows : Rows} (hw : Wired n rows)
    (hi : Interned n p names interned) :
    Settles (n.commitDelta p names interned) (fun r => ∃ m,
      Committed interned { n with names } rows p m ∧ r.2 = { m with
        liveNetCount := p.netCount, liveCellCount := p.cellCount, editRevision := p.revision })
      fun _ => Blocked interned { n with names } p := by
  have hwired : Wired { n with names } rows :=
    ⟨hw.nets, hw.pins, hw.capacity, hw.formed, hw.threaded.congr rfl rfl, hw.attached⟩
  have haligned : Aligned { n with names } := ⟨hw.nets, hw.pins, hw.formed.owners⟩
  have hstart : Committing interned { n with names } rows p.revision []
      ⟨{ n with names }, n.beginApplied p⟩ :=
    ⟨fun before operation rest he => by simp at he, rfl, ⟨rows, hwired, .refl ..⟩,
      ⟨.refl _, .refl _, .refl _, .refl _, .refl _, List.prefix_rfl, rfl, rfl, rfl, rfl, haligned,
        haligned⟩, nofun⟩
  apply Settles.bind (Settles.foldlM_split (Committing interned { n with names } rows p.revision) hstart
    fun done operation rest hsplit s hs => ?_)
  · intro s hs
    have hlength : n.nets.length ≤ s.netlist.nets.length := hs.undo.nets.length
    apply Settles.bind (Settles.weaken (retainRenamed_settles fun net hnet => ?_) fun _ hf => hf.elim)
    · intro s' hsame
      exact ⟨s.netlist, ⟨hs.ready, hs.contents, hs.undo.frame, hs.wired⟩, by rw [hsame]⟩
    · obtain ⟨row, hrow⟩ := Option.isSome_iff_exists.mp (hs.renamed net hnet)
      have hold := hs.undo.nets.known _ (mem_of_lookup hrow)
      exact ⟨row, hrow, (lt_of_row hold).trans_le hlength⟩
  · have hmem : operation ∈ p.resolved.operations := hsplit ▸ List.mem_append_right _ List.mem_cons_self
    have hknown := OperationValid.known hp.current (hp.valid operation hmem)
    exact Committing.step (n := { n with names }) (m := n) rfl hp hi.known hsplit hknown hs

/-! The inverter. -/

def inverterRows : Rows
  | 0 => [0]
  | 1 => [1]
  | _ => []

theorem mem_inverterRows {net pin : Nat} :
    pin ∈ inverterRows net ↔ net = pin ∧ pin < 2 := by
  rcases net with _ | _ | net <;> simp [inverterRows] <;> omega

theorem inverter_wired : Wired inverter inverterRows := by
  refine ⟨rfl, rfl, by decide, ⟨rfl, ⟨rfl, by decide, rfl⟩, ?_⟩, ⟨?_, ?_, ?_, ?_⟩, ?_⟩
  · intro cell x hx pin _ hlast
    rcases cell with _ | cell
    · cases hx
      rcases pin with _ | _ | pin
      · rfl
      · rfl
      · exact absurd hlast (by simp)
    · cases hx
  · intro net pins hpins
    rcases net with _ | _ | net
    · cases hpins
      exact ⟨rfl, rfl, List.nodup_singleton _, rfl, trivial⟩
    · cases hpins
      exact ⟨rfl, rfl, List.nodup_singleton _, rfl, trivial⟩
    · cases hpins
  · intro net hle
    rcases net with _ | _ | net
    · exact absurd hle (by decide)
    · exact absurd hle (by decide)
    · rfl
  · intro net net' pin hnet hnet'
    exact (mem_inverterRows.mp hnet).1.trans (mem_inverterRows.mp hnet').1.symm
  · intro pin links hfree hlinks
    have hlt : pin < 2 := lt_of_row hlinks
    exact absurd (mem_inverterRows.mpr ⟨rfl, hlt⟩) (hfree pin)
  · intro pin net
    rw [mem_inverterRows]
    constructor
    · rintro ⟨rfl, hlt⟩
      rcases net with _ | _ | net
      · exact ⟨⟨0, _, rfl, rfl⟩, _, rfl, rfl⟩
      · exact ⟨⟨0, _, rfl, rfl⟩, _, rfl, rfl⟩
      · exact absurd hlt (by simp)
    · rintro ⟨-, connection, hc, hs⟩
      rcases pin with _ | _ | pin
      · cases hc
        cases hs
        exact ⟨rfl, by decide⟩
      · cases hc
        cases hs
        exact ⟨rfl, by decide⟩
      · cases hc

theorem inverter_named : Named inverter.names inverter.contents := by
  have hsome : ∀ id < 7, (inverter.names.resolve id).isSome = true := by decide +kernel
  have hhas : ∀ id < 7, inverter.names.Has id := fun id hid => Option.isSome_iff_exists.mp (hsome id hid)
  refine ⟨fun x hx id hid => ?_, fun x hx => ?_, fun x hx => ?_⟩
  · apply hhas
    simp only [MappedNetlist.contents, inverter, List.map_cons, List.map_nil, List.mem_cons,
      List.not_mem_nil, or_false] at hx
    rcases hx with rfl | rfl <;> cases hid <;> decide
  · simp only [MappedNetlist.contents, inverter, List.map_cons, List.map_nil, List.mem_cons,
      List.not_mem_nil, or_false] at hx
    rw [hx]
    exact ⟨hhas _ (by decide), hhas _ (by decide)⟩
  · apply hhas
    simp only [MappedNetlist.contents, inverter, List.mem_cons, List.not_mem_nil, or_false] at hx
    rcases hx with rfl | rfl <;> decide

theorem ok_of_isOk (n : MappedNetlist) (delta : RegionDelta) (h : (n.applyRegionDelta delta).1.isOk = true) :
    ∃ applied, n.applyRegionDelta delta = (.ok applied, (n.applyRegionDelta delta).2) := by
  cases hrun : n.applyRegionDelta delta with
  | mk result n' =>
    rw [hrun] at h
    cases result with
    | ok applied => exact ⟨applied, rfl⟩
    | error _ => cases h

end Opto.Mapped
