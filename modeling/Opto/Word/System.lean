import Opto.Word.Dependencies

/-!
# The equations of a module

A module whose ids are all its own is a system of equations, and appending to it
changes only the nodes that gain a driver. An analysis fits the module it was last
brought up to date with.
-/

namespace Opto.Word

namespace WordModule

def connectsTo (m : WordModule) (signal : Nat) : List Nat :=
  (m.connects.zipIdx.filter (·.1.target.signal = signal)).map (·.2)

def drivenOutside (ports : List Port) (signal : Nat) : Bool :=
  ports.any fun port => port.isExternal && port.signal = signal

def layout (m : WordModule) : Layout where
  drivers := m.connectsTo
  external signal :=
    if signal < m.signals.length then some (drivenOutside m.ports signal) else none

def Has (m : WordModule) : FactNode → Prop
  | .value id => id < m.values.length
  | .signal id => id < m.signals.length

structure Closed (m : WordModule) : Prop where
  ports : ∀ port ∈ m.ports, port.signal < m.signals.length
  references : ∀ value ∈ m.values, ∀ reference, value.kind = .signal reference →
    reference.signal < m.signals.length
  operations : ∀ value ∈ m.values, ∀ operation, value.kind = .operation operation →
    operation < m.operations.length
  inputs : ∀ operation ∈ m.operations, ∀ input ∈ operation.kind.inputs, input < m.values.length
  connects : ∀ connect ∈ m.connects,
    connect.target.signal < m.signals.length ∧ connect.value < m.values.length

theorem lt_of_valueTy {m : WordModule} {id : Nat} {ty : WordType} (h : m.valueTy id = some ty) :
    id < m.values.length := by
  obtain ⟨value, hv, -⟩ := Option.map_eq_some_iff.mp h
  exact (List.getElem?_eq_some_iff.mp hv).1

theorem lt_of_signalTy {m : WordModule} {id : Nat} {ty : WordType} (h : m.signalTy id = some ty) :
    id < m.signals.length := by
  obtain ⟨signal, hs, -⟩ := Option.map_eq_some_iff.mp h
  exact (List.getElem?_eq_some_iff.mp hs).1

theorem signalTy_of_lvalueTy {m : WordModule} {lvalue : LValue} {ty : WordType}
    (h : m.lvalueTy lvalue = some ty) : ∃ ty, m.signalTy lvalue.signal = some ty := by
  obtain ⟨ty, hty, -⟩ := Option.bind_eq_some_iff.mp h
  exact ⟨ty, hty⟩

theorem closed_of_validate {m : WordModule} (h : m.validate = true) : m.Closed := by
  simp only [validate, Bool.and_eq_true, List.all_eq_true] at h
  obtain ⟨⟨⟨hports, hvalues⟩, hoperations⟩, hconnects⟩ := h
  constructor
  · intro port hp
    exact lt_of_signalTy (by simpa using List.all_eq_true.mp hports port hp)
  · intro value hv reference hk
    obtain ⟨i, hi, rfl⟩ := List.getElem_of_mem hv
    have hvalid := hvalues (m.values[i], i) (List.mem_zipIdx_iff_getElem?.mpr (by simp [hi]))
    simp only [validateValue, hk] at hvalid
    cases hty : m.signalTy reference.signal with
    | none => simp [hty] at hvalid
    | some ty => exact lt_of_signalTy hty
  · intro value hv operation hk
    obtain ⟨i, hi, rfl⟩ := List.getElem_of_mem hv
    have hvalid := hvalues (m.values[i], i) (List.mem_zipIdx_iff_getElem?.mpr (by simp [hi]))
    simp only [validateValue, hk] at hvalid
    by_contra hge
    rw [List.getElem?_eq_none (by omega)] at hvalid
    cases hvalid
  · intro operation ho input hinput
    obtain ⟨i, hi, rfl⟩ := List.getElem_of_mem ho
    have hvalid := hoperations (m.operations[i], i) (List.mem_zipIdx_iff_getElem?.mpr (by simp [hi]))
    simp only [validateOperation] at hvalid
    cases hr : m.values[m.operations[i].result]? with
    | none => simp [hr] at hvalid
    | some result =>
      simp only [hr, Bool.and_eq_true, List.all_eq_true, decide_eq_true_eq] at hvalid
      have hlt := hvalid.1.2 input hinput
      have hresult := (List.getElem?_eq_some_iff.mp hr).1
      omega
  · intro connect hc
    have hvalid := hconnects connect hc
    simp only [validateConnect] at hvalid
    cases hty : m.lvalueTy connect.target with
    | none => simp [hty] at hvalid
    | some ty =>
      obtain ⟨sty, hs⟩ := signalTy_of_lvalueTy hty
      have hvalue : m.valueTy connect.value = some ty := by simpa [hty] using hvalid
      exact ⟨lt_of_signalTy hs, lt_of_valueTy hvalue⟩

structure Extends (m m' : WordModule) : Prop where
  ports : m.ports <+: m'.ports
  signals : m.signals <+: m'.signals
  values : m.values <+: m'.values
  operations : m.operations <+: m'.operations
  connects : m.connects <+: m'.connects

theorem Extends.refl (m : WordModule) : m.Extends m :=
  ⟨List.prefix_rfl, List.prefix_rfl, List.prefix_rfl, List.prefix_rfl, List.prefix_rfl⟩

theorem Extends.trans {m m' m'' : WordModule} (h : m.Extends m') (h' : m'.Extends m'') :
    m.Extends m'' :=
  ⟨h.ports.trans h'.ports, h.signals.trans h'.signals, h.values.trans h'.values,
    h.operations.trans h'.operations, h.connects.trans h'.connects⟩

theorem Extends.has {m m' : WordModule} (h : m.Extends m') {node : FactNode} (hn : m.Has node) :
    m'.Has node := by
  cases node with
  | value id => exact Nat.lt_of_lt_of_le hn h.values.length_le
  | signal id => exact Nat.lt_of_lt_of_le hn h.signals.length_le

variable {m : WordModule}

theorem nodeWidth_isSome (node : FactNode) : (nodeWidth m node).isSome ↔ m.Has node := by
  cases node <;> simp [nodeWidth, Has]

theorem lt_of_mem_connectsTo {signal index : Nat} (h : index ∈ m.connectsTo signal) :
    ∃ connect, m.connects[index]? = some connect ∧ connect.target.signal = signal := by
  obtain ⟨⟨connect, i⟩, hm, rfl⟩ := List.mem_map.mp h
  obtain ⟨hm, hs⟩ := List.mem_filter.mp hm
  exact ⟨connect, List.mem_zipIdx_iff_getElem?.mp hm, by simpa using hs⟩

theorem Closed.dependencies (h : m.Closed) {node : FactNode} (hn : m.Has node) :
    ∃ ds, nodeDependencies m m.layout node = some ds ∧ ∀ d ∈ ds, m.Has d := by
  cases node with
  | value id =>
    have hlt : id < m.values.length := hn
    obtain ⟨value, hv⟩ : ∃ value, m.values[id]? = some value :=
      ⟨m.values[id], List.getElem?_eq_getElem hlt⟩
    have hmem := List.mem_of_getElem? hv
    simp only [nodeDependencies, hv, Option.bind_eq_bind, Option.bind_some]
    cases hk : value.kind with
    | constant bits => exact ⟨[], rfl, fun d hd => by cases hd⟩
    | signal reference =>
      exact ⟨_, rfl, fun d hd => List.mem_singleton.mp hd ▸ h.references _ hmem reference hk⟩
    | operation operation =>
      have ho := h.operations _ hmem operation hk
      simp only [List.getElem?_eq_getElem ho, Option.bind_some]
      refine ⟨_, rfl, fun d hd => ?_⟩
      obtain ⟨input, hinput, rfl⟩ := List.mem_map.mp hd
      exact h.inputs _ (List.getElem_mem ho) input hinput
  | signal id =>
    have hexternal : m.layout.external id = some (drivenOutside m.ports id) := if_pos hn
    simp only [nodeDependencies, hexternal, Option.bind_eq_bind, Option.bind_some]
    split_ifs
    · exact ⟨[], rfl, fun d hd => by cases hd⟩
    · obtain ⟨ds, hds⟩ := mapM_isSome (m.layout.drivers id)
        (fun index => (m.connects[index]?).map fun connect => FactNode.value connect.value)
        fun index hi => by
          obtain ⟨connect, hc, -⟩ := lt_of_mem_connectsTo hi
          rw [hc]; rfl
      refine ⟨ds, hds, fun d hd => ?_⟩
      obtain ⟨index, -, hindex⟩ := exists_of_mem_right (forall₂_of_mapM hds) hd
      obtain ⟨connect, hc, rfl⟩ := Option.map_eq_some_iff.mp hindex
      exact (h.connects connect (List.mem_of_getElem? hc)).2

/-! Appending. -/

variable {m' : WordModule}

theorem getElem?_prefix_row {α : Type} {xs ys : List α} (h : xs <+: ys) {i : Nat}
    (hi : i < xs.length) : ys[i]? = xs[i]? := by
  obtain ⟨tail, rfl⟩ := h
  exact List.getElem?_append_left hi

/-- The signals that gained a driver. -/
def gained (m m' : WordModule) : List Nat :=
  (m'.connects.drop m.connects.length).map (·.target.signal) ++
    ((m'.ports.drop m.ports.length).filter Port.isExternal).map (·.signal)

theorem Extends.valueTy (h : m.Extends m') {id : Nat} (hid : id < m.values.length) :
    m.valueTy id = m'.valueTy id := by
  rw [WordModule.valueTy, WordModule.valueTy, getElem?_prefix_row h.values hid]

theorem Extends.connectsTo (h : m.Extends m') (signal : Nat) :
    m'.connectsTo signal = m.connectsTo signal ++
      (((m'.connects.zipIdx.drop m.connects.length).filter
        (·.1.target.signal = signal)).map (·.2)) := by
  obtain ⟨tail, ht⟩ := h.connects
  have hlen : (m.connects.zipIdx).length = m.connects.length := List.length_zipIdx
  rw [WordModule.connectsTo, WordModule.connectsTo, ← ht, List.zipIdx_append, List.drop_left' hlen,
    List.filter_append, List.map_append]

theorem Extends.connectsTo_of_not_gained (h : m.Extends m') {signal : Nat}
    (hs : signal ∉ m.gained m') : m'.connectsTo signal = m.connectsTo signal := by
  rw [h.connectsTo, List.append_right_eq_self, List.map_eq_nil_iff, List.filter_eq_nil_iff]
  intro entry he hsignal
  apply hs
  rw [gained, List.mem_append]
  left
  rw [← of_decide_eq_true hsignal]
  apply List.mem_map_of_mem (f := fun connect : Connect => connect.target.signal)
  have hmap := List.mem_map_of_mem (f := Prod.fst) he
  rwa [List.map_drop, List.zipIdx_map_fst] at hmap

theorem Extends.external_of_not_gained (h : m.Extends m') {signal : Nat}
    (hs : signal < m.signals.length) (hg : signal ∉ m.gained m') :
    m.layout.external signal = m'.layout.external signal := by
  have hs' := Nat.lt_of_lt_of_le hs h.signals.length_le
  obtain ⟨tail, ht⟩ := h.ports
  have htail : drivenOutside tail signal = false := by
    rw [drivenOutside, List.any_eq_false]
    intro port hp hboth
    rw [Bool.and_eq_true, decide_eq_true_eq] at hboth
    apply hg
    rw [gained, List.mem_append, ← ht, List.drop_left]
    exact .inr (List.mem_map.mpr ⟨port, List.mem_filter.mpr ⟨hp, hboth.1⟩, hboth.2⟩)
  have hany : drivenOutside m'.ports signal = drivenOutside m.ports signal := by
    rw [← ht, drivenOutside, List.any_append]
    exact (congrArg _ htail).trans (Bool.or_false _)
  simp only [WordModule.layout, if_pos hs, if_pos hs', hany]

theorem Extends.sameNode_at (h : m.Extends m') (hc : m.Closed) {node : FactNode} (hn : m.Has node)
    {layout : Layout} (hl : ∀ id, node = .signal id →
      m.layout.drivers id = layout.drivers id ∧ m.layout.external id = layout.external id) :
    SameNode m m' m.layout layout node := by
  cases node with
  | value id =>
    refine ⟨(getElem?_prefix_row h.values hn).symm, fun value operation hv hk => ?_⟩
    have ho := hc.operations value (List.mem_of_getElem? hv) operation hk
    refine ⟨(getElem?_prefix_row h.operations ho).symm, fun stored hs input hi => ?_⟩
    exact h.valueTy (hc.inputs stored (List.mem_of_getElem? hs) input hi)
  | signal id =>
    obtain ⟨hdrivers, hexternal⟩ := hl id rfl
    refine ⟨(getElem?_prefix_row h.signals hn).symm, hdrivers, hexternal, fun index hi => ?_⟩
    obtain ⟨connect, hconnect, -⟩ := lt_of_mem_connectsTo hi
    rw [getElem?_prefix_row h.connects (List.getElem?_eq_some_iff.mp hconnect).1]

/-- A module answers for its own nodes as before when it is extended. -/
theorem Extends.sameNode (h : m.Extends m') (hc : m.Closed) {node : FactNode} (hn : m.Has node) :
    SameNode m m' m.layout m.layout node :=
  h.sameNode_at hc hn fun _ _ => ⟨rfl, rfl⟩

theorem Extends.sameNode_of_not_gained (h : m.Extends m') (hc : m.Closed) {node : FactNode}
    (hn : m.Has node) (hg : ∀ id, node = .signal id → id ∉ m.gained m') :
    SameNode m m' m.layout m'.layout node := by
  apply h.sameNode_at hc hn
  rintro id rfl
  exact ⟨(h.connectsTo_of_not_gained (hg id rfl)).symm, h.external_of_not_gained hn (hg id rfl)⟩

/-! The equations. -/

def blank (m : WordModule) (node : FactNode) : FactRange :=
  .unknown ((nodeWidth m node).getD 0)

/-- A fact that cannot be evaluated is left blank. -/
def equation (m : WordModule) (facts : FactNode → FactRange) (node : FactNode) : FactRange :=
  ((nodeDependencies m m.layout node).bind fun _ =>
    evaluateNode m m.layout (fun d => some (facts d)) node).getD (m.blank node)

def system (m : WordModule) : Memo.System FactNode FactRange where
  deps := dependencies m m.layout
  reads := nodeReads m m.layout
  blank := m.blank
  eval := m.equation
  reads_subset node := by
    rw [nodeReads]
    split_ifs
    · exact List.nil_subset _
    · exact List.Subset.refl _
  eval_congr f g node h := by
    rw [equation, equation]
    cases hd : nodeDependencies m m.layout node with
    | none => rfl
    | some ds =>
      rw [Option.bind_some, Option.bind_some, evaluateNode_congr SameNode.refl (by simp [hd])
        fun d hd => congrArg some (h d hd)]

end WordModule

end Opto.Word
