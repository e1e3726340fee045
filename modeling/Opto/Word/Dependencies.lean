import Opto.Library.Lists
import Opto.Library.Memo
import Opto.Word.Analysis

/-!
# Which facts a fact is made of

The transfer of a node reads only the facts of its dependencies, and those of a
register, a latch or a tri-state driver not at all. A module is thereby a system of
equations over the facts of its values and signals.
-/

namespace Opto.Word

def OpKind.untracked : OpKind → Bool
  | .triState _ _ | .register _ | .latch _ => true
  | _ => false

section Reads

variable (m : WordModule) (layout : Layout)

def isUntracked : FactNode → Bool
  | .value value => (m.values[value]?).any fun value => match value.kind with
    | .operation operation => (m.operations[operation]?).any (·.kind.untracked)
    | _ => false
  | .signal _ => false

def dependencies (node : FactNode) : List FactNode := (nodeDependencies m layout node).getD []

def nodeReads (node : FactNode) : List FactNode :=
  if isUntracked m node then [] else dependencies m layout node

end Reads

/-- A signal whose drivers are not followed. -/
def isUndriven (m : WordModule) (layout : Layout) (signal : Nat) : Bool :=
  (layout.external signal).getD false || (layout.drivers signal).isEmpty ||
    (layout.drivers signal).any (isDynamic m)

theorem nodeDependencies_signal {m : WordModule} {layout : Layout} {signal : Nat}
    {ds : List FactNode} (h : nodeDependencies m layout (.signal signal) = some ds) :
    (isUndriven m layout signal = true ∧ ds = []) ∨ (isUndriven m layout signal = false ∧
      (layout.drivers signal).mapM (fun index =>
        (m.connects[index]?).map fun connect => FactNode.value connect.value) = some ds) := by
  simp only [nodeDependencies, Option.bind_eq_bind] at h
  obtain ⟨external, he, h⟩ := Option.bind_eq_some_iff.mp h
  simp only [isUndriven, he, Option.getD_some]
  split_ifs at h with hu
  · cases h
    exact .inl ⟨hu, rfl⟩
  · exact .inr ⟨by simpa using hu, h⟩

/-! Modules that agree on a node. -/

section Agreement

variable {m m' : WordModule} {layout layout' : Layout} {node : FactNode}

/-- The two modules hold the same record of the node, with the same types around it. -/
def SameNode (m m' : WordModule) (layout layout' : Layout) : FactNode → Prop
  | .value id => m.values[id]? = m'.values[id]? ∧
    ∀ value operation, m.values[id]? = some value → value.kind = .operation operation →
      m.operations[operation]? = m'.operations[operation]? ∧
        ∀ stored, m.operations[operation]? = some stored →
          ∀ input ∈ stored.kind.inputs, m.valueTy input = m'.valueTy input
  | .signal id => m.signals[id]? = m'.signals[id]? ∧ layout.drivers id = layout'.drivers id ∧
    layout.external id = layout'.external id ∧
      ∀ index ∈ layout.drivers id, m.connects[index]? = m'.connects[index]?

theorem SameNode.refl : SameNode m m layout layout node := by
  cases node with
  | value id => exact ⟨rfl, fun _ _ _ _ => ⟨rfl, fun _ _ _ _ => rfl⟩⟩
  | signal id => exact ⟨rfl, rfl, rfl, fun _ _ => rfl⟩

theorem SameNode.width (h : SameNode m m' layout layout' node) :
    nodeWidth m node = nodeWidth m' node := by
  cases node with
  | value id => rw [nodeWidth, nodeWidth, h.1]
  | signal id => rw [nodeWidth, nodeWidth, h.1]

theorem SameNode.isUndriven {id : Nat} (h : SameNode m m' layout layout' (.signal id)) :
    isUndriven m layout id = isUndriven m' layout' id := by
  obtain ⟨-, hdrivers, hexternal, hconnects⟩ := h
  have hany : (layout.drivers id).any (isDynamic m) = (layout.drivers id).any (isDynamic m') := by
    rw [Bool.eq_iff_iff, List.any_eq_true, List.any_eq_true]
    refine exists_congr fun index => and_congr_right fun hi => ?_
    rw [isDynamic, isDynamic, hconnects index hi]
  rw [Word.isUndriven, Word.isUndriven, ← hdrivers, hany, hexternal]

theorem SameNode.dependencies (h : SameNode m m' layout layout' node) :
    nodeDependencies m layout node = nodeDependencies m' layout' node := by
  cases node with
  | value id =>
    obtain ⟨hvalue, hoperation⟩ := h
    simp only [nodeDependencies, ← hvalue]
    cases hv : m.values[id]? with
    | none => rfl
    | some value =>
      simp only [Option.bind_eq_bind, Option.bind_some]
      cases hk : value.kind with
      | signal | constant => rfl
      | operation operation => simp only [(hoperation value operation hv hk).1]
  | signal id =>
    have hundriven := h.isUndriven
    obtain ⟨-, hdrivers, hexternal, hconnects⟩ := h
    simp only [nodeDependencies, ← hexternal]
    cases he : layout.external id with
    | none => rfl
    | some external =>
      have hcond := hundriven
      simp only [Word.isUndriven, ← hexternal, he, Option.getD_some] at hcond
      simp only [Option.bind_eq_bind, Option.bind_some, ← hdrivers] at hcond ⊢
      rw [hcond]
      rw [mapM_congr fun index hi => by rw [hconnects index hi]]

theorem SameNode.untracked (h : SameNode m m' layout layout' node) :
    isUntracked m node = isUntracked m' node := by
  cases node with
  | signal id => rfl
  | value id =>
    obtain ⟨hvalue, hoperation⟩ := h
    simp only [isUntracked, ← hvalue]
    cases hv : m.values[id]? with
    | none => rfl
    | some value =>
      simp only [Option.any_some]
      cases hk : value.kind with
      | signal | constant => rfl
      | operation operation => simp only [(hoperation value operation hv hk).1]

theorem SameNode.reads (h : SameNode m m' layout layout' node) :
    nodeReads m layout node = nodeReads m' layout' node := by
  rw [nodeReads, nodeReads, h.untracked, Word.dependencies, Word.dependencies, h.dependencies]

end Agreement

section Congr

variable {m m' : WordModule} {layout layout' : Layout}

theorem deriveOperation_congr {f g : Nat → Option FactRange} {kind : OpKind} (ty : WordType)
    (hty : ∀ v ∈ kind.inputs, m.valueTy v = m'.valueTy v)
    (h : kind.untracked = false → ∀ v ∈ kind.inputs, f v = g v) :
    deriveOperation m f ty kind = deriveOperation m' g ty kind := by
  have hvalue {v : Nat} (ht : m.valueTy v = m'.valueTy v) (hv : f v = g v) :
      valueFacts m f v = valueFacts m' g v := by
    rw [valueFacts, valueFacts, hv, ht]
  cases kind with
  | triState | register | latch => rfl
  | concat parts =>
    have hparts : parts.reverse.flatMap (valueFacts m f) =
        parts.reverse.flatMap (valueFacts m' g) := List.flatMap_congr fun v hv =>
      hvalue (hty v (List.mem_reverse.mp hv)) (h rfl v (List.mem_reverse.mp hv))
    simp only [deriveOperation, hparts]
  | _ =>
    have hinputs := fun v hv => hvalue (hty v hv) (h rfl v hv)
    simp only [OpKind.inputs, List.mem_cons, List.not_mem_nil, or_false, forall_eq_or_imp,
      forall_eq] at hinputs hty
    simp only [deriveOperation, hinputs, hty]

theorem evaluateSignal_congr {f g : FactNode → Option FactRange} {signal : Nat}
    {ds : List FactNode} (hsame : SameNode m m' layout layout' (.signal signal))
    (hds : nodeDependencies m layout (.signal signal) = some ds) (h : ∀ d ∈ ds, f d = g d) :
    evaluateSignal m layout f signal = evaluateSignal m' layout' g signal := by
  have hundriven := hsame.isUndriven
  have hwidth := hsame.width
  obtain ⟨-, hdrivers, -, hconnects⟩ := hsame
  simp only [isUndriven] at hundriven
  simp only [evaluateSignal, hwidth, hundriven, ← hdrivers]
  rcases nodeDependencies_signal hds with ⟨hu, -⟩ | ⟨-, hmap⟩
  · simp only [isUndriven, hundriven, ← hdrivers] at hu
    simp only [hu, if_true]
  · congr 1
    funext width
    have hfold := foldlM_congr (layout.drivers signal)
      (fun state index => do
        let connect ← m.connects[index]?
        let source ← f (.value connect.value)
        assignConnect width connect.target.range source state)
      (fun state index => do
        let connect ← m'.connects[index]?
        let source ← g (.value connect.value)
        assignConnect width connect.target.range source state)
      (fun state index hi => by
        obtain ⟨d, hd, hindex⟩ := exists_of_mem_left (forall₂_of_mapM hmap) hi
        obtain ⟨connect, hconnect, rfl⟩ := Option.map_eq_some_iff.mp hindex
        simp only [← hconnects index hi, hconnect, Option.bind_eq_bind, Option.bind_some, h _ hd])
      (List.replicate width false, FactRange.unknown width)
    simp only [hfold]

theorem evaluateNode_congr {f g : FactNode → Option FactRange} {node : FactNode}
    (hsame : SameNode m m' layout layout' node) (hsome : nodeDependencies m layout node ≠ none)
    (h : ∀ d ∈ nodeReads m layout node, f d = g d) :
    evaluateNode m layout f node = evaluateNode m' layout' g node := by
  obtain ⟨ds, hds⟩ := Option.ne_none_iff_exists'.mp hsome
  have hread (hu : isUntracked m node = false) (d : FactNode) (hd : d ∈ ds) : f d = g d := by
    apply h
    rw [nodeReads, hu, dependencies, hds]
    exact hd
  cases node with
  | signal signal => exact evaluateSignal_congr hsame hds (hread rfl)
  | value id =>
    simp only [nodeDependencies, Option.bind_eq_bind] at hds
    obtain ⟨value, hvalue, hds⟩ := Option.bind_eq_some_iff.mp hds
    simp only [isUntracked, hvalue, Option.any_some] at hread
    obtain ⟨hvalues, hoperations⟩ := hsame
    simp only [evaluateNode, ← hvalues, hvalue, Option.bind_eq_bind, Option.bind_some]
    cases hk : value.kind with
    | constant bits => rfl
    | signal reference =>
      simp only [hk] at hds hread
      cases hds
      simp only [hread trivial _ List.mem_cons_self]
    | operation id =>
      obtain ⟨hoperation', htypes⟩ := hoperations value id hvalue hk
      simp only [hk] at hds hread
      obtain ⟨operation, hoperation, hds⟩ := Option.bind_eq_some_iff.mp hds
      cases hds
      simp only [hoperation, Option.any_some] at hread
      simp only [← hoperation', hoperation, Option.bind_some]
      have htypes := htypes operation hoperation
      refine congrArg some (deriveOperation_congr value.ty htypes fun hu v hv => ?_)
      exact hread hu _ (List.mem_map_of_mem hv)

end Congr

end Opto.Word
