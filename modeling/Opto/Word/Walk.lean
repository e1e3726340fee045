import Opto.Word.System

/-!
# The depth-first walk

A walk leaves every node it enters with a fact that follows from the others, leaves
the facts there were as they are, and never runs out of steps.
-/

namespace Opto.Word

open Memo (System)

namespace KnownBitsAnalysis

variable {a : KnownBitsAnalysis} {m : WordModule} {node d : FactNode} {state : FactState}
  {facts : FactRange}

/-- The facts that are computed. -/
def table (a : KnownBitsAnalysis) (node : FactNode) : Option FactRange :=
  (a.nodeState node).bind fun
    | .computed facts => some facts
    | .computing | .uncomputed => none

theorem table_eq_some : a.table node = some facts ↔ a.nodeState node = some (.computed facts) := by
  rw [table]
  cases h : a.nodeState node with
  | none => simp
  | some state => cases state <;> simp

structure Fits (a : KnownBitsAnalysis) (m : WordModule) : Prop where
  values : a.values.length = m.values.length
  signals : a.signals.length = m.signals.length
  layout : a.layout = m.layout
  observedConnects : a.drivers.observedConnects = m.connects.length
  observedPorts : a.observedPorts = m.ports.length

theorem Fits.has (h : a.Fits m) : m.Has node ↔ ∃ state, a.nodeState node = some state := by
  cases node with
  | value id =>
    rw [WordModule.Has, ← h.values]
    constructor
    · exact fun hlt => ⟨_, List.getElem?_eq_getElem hlt⟩
    · rintro ⟨_, hs⟩
      exact (List.getElem?_eq_some_iff.mp hs).1
  | signal id =>
    rw [WordModule.Has, ← h.signals]
    constructor
    · exact fun hlt => ⟨_, List.getElem?_eq_getElem hlt⟩
    · rintro ⟨_, hs⟩
      exact (List.getElem?_eq_some_iff.mp hs).1

theorem Fits.has_of_table (h : a.Fits m) (ht : a.table node = some facts) : m.Has node :=
  h.has.mpr ⟨_, table_eq_some.mp ht⟩

def put (a : KnownBitsAnalysis) : FactNode → FactState → KnownBitsAnalysis
  | .value id, state => { a with values := a.values.set id state }
  | .signal id, state => { a with signals := a.signals.set id state }

theorem Fits.setNodeState (h : a.Fits m) (hn : m.Has node) :
    a.setNodeState node state = some (a.put node state) := by
  cases node with
  | value id => exact if_pos (h.values ▸ hn)
  | signal id => exact if_pos (h.signals ▸ hn)

theorem Fits.put (h : a.Fits m) : (a.put node state).Fits m := by
  cases node with
  | value id => exact ⟨by rw [← h.values]; exact List.length_set, h.2, h.3, h.4, h.5⟩
  | signal id => exact ⟨h.1, by rw [← h.signals]; exact List.length_set, h.3, h.4, h.5⟩

theorem Fits.nodeState_put (h : a.Fits m) (hn : m.Has node) :
    (a.put node state).nodeState node = some state := by
  cases node with
  | value id => exact List.getElem?_set_self (h.values ▸ hn)
  | signal id => exact List.getElem?_set_self (h.signals ▸ hn)

theorem nodeState_put_ne (hne : d ≠ node) : (a.put node state).nodeState d = a.nodeState d := by
  cases node with
  | value id =>
    cases d with
    | value d => exact List.getElem?_set_ne fun he => hne (congrArg _ he.symm)
    | signal d => rfl
  | signal id =>
    cases d with
    | value d => rfl
    | signal d => exact List.getElem?_set_ne fun he => hne (congrArg _ he.symm)

theorem table_put_ne (hne : d ≠ node) : (a.put node state).table d = a.table d := by
  rw [table, table, nodeState_put_ne hne]

@[simp] theorem dependents_put : (a.put node state).dependents = a.dependents := by
  cases node <;> rfl

/-! Recording dependencies. -/

section Record


theorem recordDependency_eq (a : KnownBitsAnalysis) (dependency dependent : FactNode) : ∃ added, a.recordDependency dependency dependent =
    { a with dependents := a.dependents ++ added } ∧
      ∀ edge, edge ∈ a.dependents ++ added ↔
        edge ∈ a.dependents ∨ edge = (dependency, dependent) := by
  rw [recordDependency]
  split_ifs with h
  · refine ⟨[], by rw [List.append_nil], fun edge => ?_⟩
    rw [List.append_nil]
    exact ⟨.inl, fun he => he.elim id fun he => he ▸ h⟩
  · exact ⟨_, rfl, fun edge => by rw [List.mem_append, List.mem_singleton]⟩

theorem recordAll_eq (a : KnownBitsAnalysis) (ds : List FactNode) (dependent : FactNode) :
    ∃ added, ds.foldl (fun a d => a.recordDependency d dependent) a =
      { a with dependents := a.dependents ++ added } ∧
        ∀ edge, edge ∈ a.dependents ++ added ↔
          edge ∈ a.dependents ∨ ∃ d ∈ ds, edge = (d, dependent) := by
  induction ds generalizing a with
  | nil =>
    refine ⟨[], by simp, fun edge => by simp⟩
  | cons d ds ih =>
    obtain ⟨first, hfirst, hmem⟩ := recordDependency_eq a d dependent
    obtain ⟨rest, hrest, hmem'⟩ := ih { a with dependents := a.dependents ++ first }
    refine ⟨first ++ rest, ?_, fun edge => ?_⟩
    · rw [List.foldl_cons, hfirst, hrest, List.append_assoc]
    · rw [← List.append_assoc, hmem', hmem]
      simp only [List.mem_cons, exists_eq_or_imp, or_assoc]

end Record

end KnownBitsAnalysis

open KnownBitsAnalysis

/-! Reading facts while walking. -/

section Facts

variable {a : KnownBitsAnalysis} {m : WordModule} {node d : FactNode} {v : FactRange}

theorem blank_eq {width : Nat} (h : nodeWidth m node = some width) :
    m.blank node = .unknown width := by
  rw [WordModule.blank, h, Option.getD_some]

theorem nodeFacts_of_table (h : a.table d = some v) : a.nodeFacts m d = some v := by
  rw [nodeFacts, table_eq_some.mp h]
  rfl

theorem nodeFacts_of_computing (hd : m.Has d) (h : a.nodeState d = some .computing) :
    a.nodeFacts m d = some (m.blank d) := by
  obtain ⟨width, hw⟩ := Option.isSome_iff_exists.mp ((WordModule.nodeWidth_isSome d).mpr hd)
  rw [nodeFacts, h, blank_eq hw]
  simp [hw]

/-- What a walk stores when it leaves a node. -/
def leaving (m : WordModule) (a : KnownBitsAnalysis) (node : FactNode) : FactRange :=
  (evaluateNode m a.layout (a.nodeFacts m) node).getD (.unknown ((nodeWidth m node).getD 0))

theorem leaving_supported (hc : m.Closed) (ha : a.Fits m) (hn : m.Has node)
    (hdeps : ∀ d ∈ m.system.deps node, a.nodeState d ≠ some .uncomputed)
    (hopen : ∀ d, a.nodeState d = some .computing → m.system.Reaches d node) :
    m.system.Supported a.table node (leaving m a node) := by
  obtain ⟨ds, hds, hhas⟩ := hc.dependencies hn
  have hmem : m.system.deps node = ds := by
    change dependencies m m.layout node = ds
    rw [dependencies, hds]
    rfl
  refine ⟨fun d => (a.nodeFacts m d).getD (m.blank d), ?_, fun d hd => ?_⟩
  · change m.equation _ node = _
    rw [WordModule.equation, leaving, hds, Option.bind_some, ha.layout]
    have hagree (d : FactNode) (hd : d ∈ nodeReads m m.layout node) :
        some ((a.nodeFacts m d).getD (m.blank d)) = a.nodeFacts m d := by
      have hd := m.system.reads_subset node hd
      obtain ⟨state, hs⟩ := ha.has.mp (hhas d (hmem ▸ hd))
      cases state with
      | uncomputed => exact absurd hs (hdeps d hd)
      | computing => rw [nodeFacts_of_computing (hhas d (hmem ▸ hd)) hs]; rfl
      | computed v => rw [nodeFacts_of_table (table_eq_some.mpr hs)]; rfl
    rw [evaluateNode_congr SameNode.refl (by simp [hds]) hagree]
    rfl
  · have hd' := m.system.reads_subset node hd
    obtain ⟨state, hs⟩ := ha.has.mp (hhas d (hmem ▸ hd'))
    cases state with
    | uncomputed => exact absurd hs (hdeps d hd')
    | computing =>
      right
      refine ⟨⟨hd, hopen d hs⟩, ?_⟩
      change (a.nodeFacts m d).getD (m.blank d) = m.blank d
      rw [nodeFacts_of_computing (hhas d (hmem ▸ hd')) hs, Option.getD_some]
    | computed v =>
      left
      change a.table d = some ((a.nodeFacts m d).getD (m.blank d))
      rw [table_eq_some.mpr hs, nodeFacts_of_table (table_eq_some.mpr hs), Option.getD_some]

end Facts

end Opto.Word
