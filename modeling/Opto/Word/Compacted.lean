import Opto.Library.Lists
import Opto.Word.Reachable

/-!
# Compaction preserves a module

Every reference a module stores is among its roots or among the operands of a value
it keeps, so the rewriting meets no dead reference once the traversal has succeeded.
The renumbered values compute what they computed before.
-/

namespace Opto.Word

/-! Rewriting references. -/

/-- An operation without its operands. -/
def OpKind.shape (kind : OpKind) : OpKind := Id.run (kind.mapM (M := Id) fun _ => 0)

def Reset.shape (reset : Reset) : Reset := Id.run (reset.mapM (M := Id) fun _ => 0)

def Enable.shape (enable : Enable) : Enable := Id.run (enable.mapM (M := Id) fun _ => 0)

section References

variable {f : Nat → Except WordError Nat} {R : Nat → Nat → Prop} {E : WordError → Prop}

theorem Enable.mapM_settles {enable : Enable} (h : Settles (f enable.value) (R enable.value) E) :
    Settles (enable.mapM f) (fun enable' => enable'.shape = enable.shape ∧
      R enable.value enable'.value) E := by
  apply Settles.bind h
  intro value hvalue
  exact ⟨rfl, hvalue⟩

theorem Reset.mapM_settles {reset : Reset} (h : Settles (f reset.value) (R reset.value) E)
    (hvalue : Settles (f reset.resetValue) (R reset.resetValue) E) :
    Settles (reset.mapM f) (fun reset' => reset'.shape = reset.shape ∧
      R reset.value reset'.value ∧ R reset.resetValue reset'.resetValue) E := by
  apply Settles.bind h
  intro value hv
  apply Settles.bind hvalue
  intro resetValue hr
  exact ⟨rfl, hv, hr⟩

theorem optionM_settles {α : Type} {g : α → Except WordError α} {Q : α → α → Prop} {x : Option α}
    (h : ∀ a ∈ x, Settles (g a) (Q a) E) :
    Settles (optionM g x) (fun y => List.Forall₂ Q x.toList y.toList) E := by
  cases x with
  | none => exact .nil
  | some a =>
    apply Settles.bind (h a rfl)
    intro b hb
    exact .cons hb .nil

theorem Enable.shape_option {x y : Option Enable}
    (h : List.Forall₂ (fun a b => b.shape = a.shape ∧ R a.value b.value) x.toList y.toList) :
    y.map Enable.shape = x.map Enable.shape := by
  cases x with
  | none => cases y with
    | none => rfl
    | some b => cases h
  | some a => cases y with
    | none => cases h
    | some b =>
      cases h with
      | cons hab _ => exact congrArg some hab.1

theorem Enable.values_option {x y : Option Enable}
    (h : List.Forall₂ (fun a b => b.shape = a.shape ∧ R a.value b.value) x.toList y.toList) :
    List.Forall₂ R (x.map (·.value)).toList (y.map (·.value)).toList := by
  rw [Option.toList_map, Option.toList_map, List.forall₂_map_left_iff, List.forall₂_map_right_iff]
  exact h.imp fun _ _ hab => hab.2

theorem OpKind.shape_concat (parts : List Nat) :
    (OpKind.concat parts).shape = .concat (List.replicate parts.length 0) := by
  have hparts : Id.run (parts.mapM (m := Id) fun _ => 0) = List.replicate parts.length 0 := by
    rw [List.idRun_mapM]
    exact List.map_const' ..
  exact congrArg OpKind.concat hparts

theorem Enable.shape_mapM (enable : Option Enable) :
    Id.run (optionM (M := Id) (Enable.mapM (M := Id) fun _ => 0) enable) = enable.map Enable.shape := by
  cases enable <;> rfl

theorem OpKind.shape_register (op : RegisterOp) :
    (OpKind.register op).shape = .register { op with
      d := 0
      clock := 0
      enable := op.enable.map Enable.shape
      resets := op.resets.map Reset.shape } := by
  have hresets : Id.run (op.resets.mapM (m := Id) (Reset.mapM (M := Id) fun _ => 0)) =
      op.resets.map Reset.shape := List.idRun_mapM
  have henable := Enable.shape_mapM op.enable
  rw [← hresets, ← henable]
  rfl

theorem OpKind.shape_latch (op : LatchOp) :
    (OpKind.latch op).shape = .latch { op with
      d := 0
      enable := op.enable.shape
      resets := op.resets.map Reset.shape } := by
  have hresets : Id.run (op.resets.mapM (m := Id) (Reset.mapM (M := Id) fun _ => 0)) =
      op.resets.map Reset.shape := List.idRun_mapM
  rw [← hresets]
  rfl

theorem Reset.mapM_list_settles {resets : List Reset}
    (h : ∀ v ∈ resets.flatMap fun reset => [reset.value, reset.resetValue], Settles (f v) (R v) E) :
    Settles (resets.mapM (Reset.mapM f)) (fun resets' =>
      resets'.map Reset.shape = resets.map Reset.shape ∧
        List.Forall₂ R (resets.flatMap fun reset => [reset.value, reset.resetValue])
          (resets'.flatMap fun reset => [reset.value, reset.resetValue])) E := by
  have hvalue (reset : Reset) (hreset : reset ∈ resets) (v : Nat)
      (hv : v ∈ [reset.value, reset.resetValue]) : Settles (f v) (R v) E :=
    h v (List.mem_flatMap.mpr ⟨reset, hreset, hv⟩)
  apply (Settles.mapM fun reset hreset => Reset.mapM_settles
    (hvalue reset hreset _ (by simp)) (hvalue reset hreset _ (by simp))).mono
  intro resets' hresets
  refine ⟨map_forall₂ (fun _ _ h => h.1) hresets, forall₂_flatMap hresets ?_⟩
  rintro reset reset' ⟨-, hv, hr⟩
  exact .cons hv (.cons hr .nil)

/-- A rewritten operation has the same shape, and its operands are the rewritten operands. -/
theorem OpKind.mapM_settles {kind : OpKind} (h : ∀ v ∈ kind.inputs, Settles (f v) (R v) E) :
    Settles (kind.mapM f) (fun kind' => kind'.shape = kind.shape ∧
      List.Forall₂ R kind.inputs kind'.inputs) E := by
  cases kind with
  | unary op arg =>
    apply Settles.bind (h arg (by simp [inputs]))
    intro a ha
    exact ⟨rfl, .cons ha .nil⟩
  | binary op left right =>
    apply Settles.bind (h left (by simp [inputs]))
    intro a ha
    apply Settles.bind (h right (by simp [inputs]))
    intro b hb
    exact ⟨rfl, .cons ha (.cons hb .nil)⟩
  | mux cond thenValue elseValue =>
    apply Settles.bind (h cond (by simp [inputs]))
    intro a ha
    apply Settles.bind (h thenValue (by simp [inputs]))
    intro b hb
    apply Settles.bind (h elseValue (by simp [inputs]))
    intro c hc
    exact ⟨rfl, .cons ha (.cons hb (.cons hc .nil))⟩
  | triState data enable =>
    apply Settles.bind (h data (by simp [inputs]))
    intro a ha
    apply Settles.bind (Enable.mapM_settles (h enable.value (by simp [inputs])))
    rintro enable' ⟨hshape, hb⟩
    refine ⟨?_, .cons ha (.cons hb .nil)⟩
    exact congrArg (OpKind.triState 0) hshape
  | concat parts =>
    apply Settles.bind (Settles.mapM (R := R) h)
    intro parts' hparts
    refine ⟨?_, hparts⟩
    have hlength : parts.length = parts'.length := hparts.length_eq
    rw [shape_concat, shape_concat, hlength]
  | extract value lsb width =>
    apply Settles.bind (h value (by simp [inputs]))
    intro a ha
    exact ⟨rfl, .cons ha .nil⟩
  | dynamicExtract value offset width =>
    apply Settles.bind (h value (by simp [inputs]))
    intro a ha
    apply Settles.bind (h offset (by simp [inputs]))
    intro b hb
    exact ⟨rfl, .cons ha (.cons hb .nil)⟩
  | dynamicInsert value offset replacement =>
    apply Settles.bind (h value (by simp [inputs]))
    intro a ha
    apply Settles.bind (h offset (by simp [inputs]))
    intro b hb
    apply Settles.bind (h replacement (by simp [inputs]))
    intro c hc
    exact ⟨rfl, .cons ha (.cons hb (.cons hc .nil))⟩
  | cast kind value target =>
    apply Settles.bind (h value (by simp [inputs]))
    intro a ha
    exact ⟨rfl, .cons ha .nil⟩
  | register op =>
    apply Settles.bind (h op.d (by simp [inputs]))
    intro d hd
    apply Settles.bind (h op.clock (by simp [inputs]))
    intro clock hclock
    apply Settles.bind (optionM_settles fun enable henable => Enable.mapM_settles
      (h enable.value (by simp [inputs, Option.mem_def.mp henable])))
    intro enable henable
    apply Settles.bind (Reset.mapM_list_settles fun v hv => h v (by simp [inputs, hv]))
    rintro resets ⟨hshape, hresets⟩
    refine ⟨?_, .cons hd (.cons hclock (List.rel_append ?_ hresets))⟩
    · rw [shape_register, shape_register]
      simp only [hshape, Enable.shape_option henable]
    · exact Enable.values_option henable
  | latch op =>
    apply Settles.bind (h op.d (by simp [inputs]))
    intro d hd
    apply Settles.bind (Enable.mapM_settles (h op.enable.value (by simp [inputs])))
    rintro enable ⟨henable, hvalue⟩
    apply Settles.bind (Reset.mapM_list_settles fun v hv => h v (by simp [inputs, hv]))
    rintro resets ⟨hshape, hresets⟩
    refine ⟨?_, .cons hd (.cons hvalue hresets)⟩
    rw [shape_latch, shape_latch]
    simp only [hshape, henable]

theorem Operation.mapM_settles {operation : Operation}
    (h : ∀ v ∈ operation.result :: operation.kind.inputs, Settles (f v) (R v) E) :
    Settles (operation.mapM f) (fun operation' => operation'.kind.shape = operation.kind.shape ∧
      List.Forall₂ R operation.kind.inputs operation'.kind.inputs ∧
        R operation.result operation'.result) E := by
  apply Settles.bind (OpKind.mapM_settles fun v hv => h v (List.mem_cons_of_mem _ hv))
  rintro kind ⟨hshape, hinputs⟩
  apply Settles.bind (h operation.result List.mem_cons_self)
  intro result hresult
  exact ⟨hshape, hinputs, hresult⟩

end References

/-! Every reference that is rewritten is among the roots. -/

section Roots

variable {f : Nat → Except WordError Nat} {E : WordError → Prop}

/-- A rewriting that may only fail with `E`. -/
abbrev Rewrites {α : Type} (r : Except WordError α) (E : WordError → Prop) : Prop :=
  Settles r (fun _ => True) E

theorem option_rewrites {α : Type} {g : α → Except WordError α} {x : Option α}
    (h : ∀ a ∈ x, Rewrites (g a) E) : Rewrites (optionM g x) E := by
  cases x with
  | none => trivial
  | some a =>
    apply Settles.bind (h a rfl)
    exact fun _ _ => trivial

theorem list_rewrites {α : Type} {g : α → Except WordError α} {xs : List α}
    (h : ∀ a ∈ xs, Rewrites (g a) E) : Rewrites (xs.mapM g) E := by
  apply (Settles.mapM h).mono
  exact fun _ _ => trivial

theorem Enable.rewrites {enable : Enable} (h : Rewrites (f enable.value) E) :
    Rewrites (enable.mapM f) E := by
  apply Settles.bind h
  exact fun _ _ => trivial

theorem Connect.rewrites {connect : Connect} (hvalue : Rewrites (f connect.value) E)
    (hdynamic : ∀ range ∈ connect.target.dynamic, Rewrites (f range.offset) E) :
    Rewrites (connect.mapM f) E := by
  apply Settles.bind hvalue
  intro value _
  apply Settles.bind (option_rewrites fun range hrange => Settles.bind (hdynamic range hrange) ?_)
  · exact fun _ _ => trivial
  · exact fun _ _ => trivial

theorem Instance.rewrites {instance_ : Instance}
    (h : ∀ connection ∈ instance_.connections, Rewrites (f connection.value) E) :
    Rewrites (instance_.mapM f) E := by
  apply Settles.bind (list_rewrites fun connection hconnection =>
    Settles.bind (h connection hconnection) ?_)
  · exact fun _ _ => trivial
  · exact fun _ _ => trivial

theorem MemoryClock.rewrites {clock : MemoryClock} (h : Rewrites (f clock.value) E) :
    Rewrites (clock.mapM f) E := by
  apply Settles.bind h
  exact fun _ _ => trivial

theorem MemoryReadPort.rewrites {port : MemoryReadPort} (h : ∀ v ∈ port.values, Rewrites (f v) E) :
    Rewrites (port.mapM f) E := by
  apply Settles.bind (h port.address (by simp [values]))
  intro address _
  have htiming : Rewrites (port.timing.mapM f) E := by
    cases hport : port.timing with
    | asynchronous => trivial
    | synchronous clock enable disabled =>
      apply Settles.bind (MemoryClock.rewrites (h clock.value (by simp [values, hport])))
      intro clock' _
      apply Settles.bind (option_rewrites fun enable' henable =>
        Enable.rewrites (h enable'.value (by simp [values, hport, Option.mem_def.mp henable])))
      exact fun _ _ => trivial
  apply Settles.bind htiming
  exact fun _ _ => trivial

theorem MemoryWritePort.rewrites {port : MemoryWritePort} (h : ∀ v ∈ port.values, Rewrites (f v) E) :
    Rewrites (port.mapM f) E := by
  apply Settles.bind (h port.address (by simp [values]))
  intro address _
  apply Settles.bind (h port.data (by simp [values]))
  intro data _
  apply Settles.bind (MemoryClock.rewrites (h port.clock.value (by simp [values])))
  intro clock _
  apply Settles.bind (option_rewrites fun enable henable =>
    Enable.rewrites (h enable.value (by simp [values, Option.mem_def.mp henable])))
  intro enable _
  apply Settles.bind (option_rewrites fun mask hmask =>
    Settles.bind (h mask.value (by simp [values, Option.mem_def.mp hmask])) ?_)
  · exact fun _ _ => trivial
  · exact fun _ _ => trivial

theorem Value.rewrites {value : Value}
    (h : ∀ o, value.kind = .operation o → Rewrites (f o) E) : Rewrites (value.mapM f) E := by
  unfold Value.mapM
  split
  · rename_i o hkind
    apply Settles.bind (h o hkind)
    exact fun _ _ => trivial
  · trivial

end Roots

namespace WordModule

variable (m : WordModule) {extra : List Nat} {connect : Connect}

theorem connect_root (h : connect ∈ m.connects) : connect.value ∈ m.rootValues extra := by
  have hmem : connect.value ∈ m.connects.map (·.value) := List.mem_map_of_mem h
  simp only [rootValues, List.mem_append, hmem, true_or]

theorem dynamic_root (h : connect ∈ m.connects) {range : DynamicRange}
    (hrange : range ∈ connect.target.dynamic) : range.offset ∈ m.rootValues extra := by
  have hmem : range.offset ∈ m.connects.filterMap fun connect =>
      connect.target.dynamic.map (·.offset) :=
    List.mem_filterMap.mpr ⟨connect, h, by rw [Option.mem_def.mp hrange]; rfl⟩
  simp only [rootValues, List.mem_append, hmem, true_or, or_true]

theorem instance_root {instance_ : Instance} (h : instance_ ∈ m.instances)
    {connection : InstanceConnection} (hconnection : connection ∈ instance_.connections) :
    connection.value ∈ m.rootValues extra := by
  have hmem : connection.value ∈ (m.instances.flatMap (·.connections)).map (·.value) :=
    List.mem_map_of_mem (List.mem_flatMap.mpr ⟨instance_, h, hconnection⟩)
  simp only [rootValues, List.mem_append, hmem, true_or, or_true]

theorem readPort_root {port : MemoryReadPort} (h : port ∈ m.memoryReadPorts) {v : Nat}
    (hv : v ∈ port.values) : v ∈ m.rootValues extra := by
  have hmem : v ∈ m.memoryReadPorts.flatMap (·.values) := List.mem_flatMap.mpr ⟨port, h, hv⟩
  simp only [rootValues, List.mem_append, hmem, true_or, or_true]

theorem writePort_root {port : MemoryWritePort} (h : port ∈ m.memoryWritePorts) {v : Nat}
    (hv : v ∈ port.values) : v ∈ m.rootValues extra := by
  have hmem : v ∈ m.memoryWritePorts.flatMap (·.values) := List.mem_flatMap.mpr ⟨port, h, hv⟩
  simp only [rootValues, List.mem_append, hmem, true_or, or_true]

end WordModule

theorem takeRows_settles {α β : Type} {old : List α} {order : List Nat} {duplicate : String}
    {rewrite : α → Except WordError β} {E : WordError → Prop} (hnodup : order.Nodup)
    (h : ∀ i ∈ order, ∃ row, old[i]? = some row ∧ Rewrites (rewrite row) E) :
    Settles (takeRows old order duplicate rewrite) (List.Forall₂ (fun i row' => ∃ row,
      old[i]? = some row ∧ rewrite row = .ok row') order) E := by
  unfold takeRows
  apply Settles.bind (Q := fun state => List.Forall₂ (fun i row' => ∃ row,
    old[i]? = some row ∧ rewrite row = .ok row') order state.2)
  · apply Settles.mono (Q := fun state => (∀ i : Nat, i ∉ order → state.1[i]? = old[i]?.map some) ∧
      List.Forall₂ (fun i row' => ∃ row, old[i]? = some row ∧ rewrite row = .ok row') order state.2)
    · apply Settles.foldlM_split (fun done (state : List (Option α) × List β) =>
        (∀ i : Nat, i ∉ done → state.1[i]? = old[i]?.map some) ∧
          List.Forall₂ (fun i row' => ∃ row, old[i]? = some row ∧ rewrite row = .ok row') done state.2)
      · exact ⟨fun i _ => List.getElem?_map, .nil⟩
      · rintro done i rest rfl state ⟨hrest, hdone⟩
        obtain ⟨row, hrow, hrewrite⟩ := h i (by simp)
        have hfresh : i ∉ done := by
          intro hi
          exact (List.nodup_append.mp hnodup).2.2 i hi i (by simp) rfl
        rw [hrest i hfresh, hrow]
        apply Settles.bind hrewrite.self
        rintro row' ⟨hrow', -⟩
        refine ⟨fun j hj => ?_, List.rel_append hdone (.cons ⟨row, hrow, hrow'⟩ .nil)⟩
        simp only [List.mem_append, List.mem_singleton, not_or] at hj
        rw [List.getElem?_set_ne (Ne.symm hj.2), hrest j hj.1]
    · exact fun state h => h.2
  · exact fun state h => h

/-! What values compute. -/

/-- What signals, constants and operations stand for. An operation is told which one it is,
since a register or a latch holds a state of its own. -/
structure Interpretation (β : Type) where
  signal : SignalRef → WordType → β
  constant : List BitVal → WordType → β
  operation : Nat → OpKind → WordType → List β → β

inductive Computes {β : Type} (I : Interpretation β) (m : WordModule) : Nat → β → Prop
  | signal {v : Nat} {reference : SignalRef} {ty : WordType}
      (h : m.values[v]? = some ⟨.signal reference, ty⟩) : Computes I m v (I.signal reference ty)
  | constant {v : Nat} {bits : List BitVal} {ty : WordType}
      (h : m.values[v]? = some ⟨.constant bits, ty⟩) : Computes I m v (I.constant bits ty)
  | operation {v o : Nat} {ty : WordType} {stored : Operation} {xs : List β}
      (h : m.values[v]? = some ⟨.operation o, ty⟩) (hstored : m.operations[o]? = some stored)
      (hlength : xs.length = stored.kind.inputs.length)
      (hxs : ∀ (k i : Nat) (x : β), stored.kind.inputs[k]? = some i → xs[k]? = some x →
        Computes I m i x) : Computes I m v (I.operation o stored.kind.shape ty xs)

/-- Values related by `V` are of one kind and have related operands. -/
structure Matches {β : Type} (I : Interpretation β) (m : WordModule) (I' : Interpretation β)
    (m' : WordModule) (V : Nat → Nat → Prop) : Prop where
  signals : I'.signal = I.signal
  constants : I'.constant = I.constant
  plain : ∀ v w, V v w → ∀ value, m.values[v]? = some value →
    (∀ o, value.kind ≠ .operation o) → m'.values[w]? = some value
  operation : ∀ v w, V v w → ∀ o ty stored, m.values[v]? = some ⟨.operation o, ty⟩ →
    m.operations[o]? = some stored → ∃ o' stored', m'.values[w]? = some ⟨.operation o', ty⟩ ∧
      m'.operations[o']? = some stored' ∧ I'.operation o' = I.operation o ∧
      stored'.kind.shape = stored.kind.shape ∧ List.Forall₂ V stored.kind.inputs stored'.kind.inputs

theorem Computes.transfer {β : Type} {I I' : Interpretation β} {m m' : WordModule}
    {V : Nat → Nat → Prop} (hmatch : Matches I m I' m' V) {v : Nat} {x : β} (h : Computes I m v x)
    {w : Nat} (hw : V v w) : Computes I' m' w x := by
  induction h generalizing w with
  | signal h =>
    rw [← hmatch.signals]
    exact .signal (hmatch.plain _ w hw _ h fun o => nofun)
  | constant h =>
    rw [← hmatch.constants]
    exact .constant (hmatch.plain _ w hw _ h fun o => nofun)
  | operation h hstored hlength _ ih =>
    obtain ⟨o', stored', hw', hstored', hop, hshape, hinputs⟩ :=
      hmatch.operation _ w hw _ _ _ h hstored
    rw [← hop, ← hshape]
    apply Computes.operation hw' hstored' (hlength.trans hinputs.length_eq)
    intro k i' y hi' hy
    obtain ⟨i, hi, hV⟩ := exists_of_getElem?_right hinputs hi'
    exact ih k i y hi hy hV

/-! The compacted module. -/

namespace NetlistRemap

variable (remap : NetlistRemap)

/-- Annotations of what is dropped are dropped. -/
def target : AnnotationTarget → Option AnnotationTarget
  | .value value => (remap.value value).map .value
  | .operation operation => (remap.operation operation).map .operation
  | target => some target

/-- Only the operations are renamed. -/
structure Renames {β : Type} (I I' : Interpretation β) : Prop where
  signals : I'.signal = I.signal
  constants : I'.constant = I.constant
  operations : ∀ o k, remap.operation o = some k → I'.operation k = I.operation o

end NetlistRemap

structure Compacted (m : WordModule) (extra : List Nat) (remap : NetlistRemap) (m' : WordModule) :
    Prop where
  values : ∀ v, (∃ k, remap.value v = some k) ↔ m.Reaches extra v
  operations : ∀ o, (∃ k, remap.operation o = some k) ↔
    ∃ v, m.Reaches extra v ∧ m.producer v = some o
  valueInjective : ∀ v w k, remap.value v = some k → remap.value w = some k → v = w
  operationInjective : ∀ o p k, remap.operation o = some k → remap.operation p = some k → o = p
  valueNumbers : ∀ k, (∃ v, remap.value v = some k) ↔ k < m'.values.length
  operationNumbers : ∀ k, (∃ o, remap.operation o = some k) ↔ k < m'.operations.length
  counts : remap.valueCount = m'.values.length ∧ remap.operationCount = m'.operations.length
  valueRows : ∀ v k, remap.value v = some k → ∃ old new, m.values[v]? = some old ∧
    m'.values[k]? = some new ∧ old.mapM (remapOperation remap.operations) = .ok new
  operationRows : ∀ o k, remap.operation o = some k → ∃ old new, m.operations[o]? = some old ∧
    m'.operations[k]? = some new ∧ old.mapM (remapValue remap.values) = .ok new
  connects : m.connects.mapM (Connect.mapM (remapValue remap.values)) = .ok m'.connects
  instances : m.instances.mapM (Instance.mapM (remapValue remap.values)) = .ok m'.instances
  readPorts : m.memoryReadPorts.mapM (MemoryReadPort.mapM (remapValue remap.values)) =
    .ok m'.memoryReadPorts
  writePorts : m.memoryWritePorts.mapM (MemoryWritePort.mapM (remapValue remap.values)) =
    .ok m'.memoryWritePorts
  annotations : m'.annotations = m.annotations.filterMap fun annotation =>
    (remap.target annotation.target).map fun target => { annotation with target }
  directives : m'.synthesisDirectives = m.synthesisDirectives.filterMap fun directive =>
    (remap.target directive.target).map fun target => { directive with target }
  rest : m' = { m with
    values := m'.values
    operations := m'.operations
    connects := m'.connects
    instances := m'.instances
    memoryReadPorts := m'.memoryReadPorts
    memoryWritePorts := m'.memoryWritePorts
    annotations := m'.annotations
    synthesisDirectives := m'.synthesisDirectives }
  ordered : ∀ (o : Nat) (stored : Operation), m'.operations[o]? = some stored →
    ∀ i ∈ stored.kind.inputs, i < stored.result
  computes : ∀ {β : Type} (I I' : Interpretation β), remap.Renames I I' → ∀ v k,
    remap.value v = some k → ∀ x, Computes I m v x ↔ Computes I' m' k x

theorem remapId_eq_ok {remap : List (Option Nat)} {kind : String} {i k : Nat} :
    remapId remap kind i = .ok k ↔ remap[i]?.join = some k := by
  unfold remapId
  split
  · rename_i id hid
    rw [hid]
    simp
  · rename_i hnone
    simp [hnone, wordError]

theorem remapId_settles {remap : List (Option Nat)} {kind : String} {i : Nat}
    {E : WordError → Prop} (h : ∃ k, remap[i]?.join = some k) :
    Settles (remapId remap kind i) (fun k => remap[i]?.join = some k) E := by
  obtain ⟨k, hk⟩ := h
  rw [remapId_eq_ok.mpr hk]
  exact hk

/-- What a rewritten value is. -/
theorem Value.mapM_ok {remap : List (Option Nat)} {old new : Value}
    (h : old.mapM (remapOperation remap) = .ok new) :
    (∃ o k, old.kind = .operation o ∧ remap[o]?.join = some k ∧ new = ⟨.operation k, old.ty⟩) ∨
      (∀ o, old.kind ≠ .operation o) ∧ new = old := by
  unfold Value.mapM at h
  split at h
  · rename_i o hkind
    cases hk : remapOperation remap o with
    | error e =>
      rw [hk] at h
      cases h
    | ok k =>
      rw [hk] at h
      cases h
      exact .inl ⟨o, k, hkind, remapId_eq_ok.mp hk, rfl⟩
  · rename_i hkind
    cases h
    exact .inr ⟨hkind, rfl⟩

/-- What a rewritten operation is. -/
theorem Operation.mapM_ok {remap : List (Option Nat)} {old new : Operation}
    (h : old.mapM (remapValue remap) = .ok new) : new.kind.shape = old.kind.shape ∧
      List.Forall₂ (fun v k => remap[v]?.join = some k) old.kind.inputs new.kind.inputs ∧
        remap[old.result]?.join = some new.result := by
  have hall : Settles (old.mapM (remapValue remap)) (fun new => new.kind.shape = old.kind.shape ∧
      List.Forall₂ (fun v k => remap[v]?.join = some k) old.kind.inputs new.kind.inputs ∧
        remap[old.result]?.join = some new.result) fun _ => True := by
    apply Operation.mapM_settles
    intro v _
    cases hk : remapValue remap v with
    | error e => trivial
    | ok k => exact remapId_eq_ok.mp hk
  exact hall.ok h

section Rows

variable {m m' : WordModule} {remap : NetlistRemap} {β : Type} {I I' : Interpretation β}

theorem matches_renamed (hren : remap.Renames I I')
    (hvalues : ∀ v k, remap.value v = some k → ∃ old new, m.values[v]? = some old ∧
      m'.values[k]? = some new ∧ old.mapM (remapOperation remap.operations) = .ok new)
    (hoperations : ∀ o k, remap.operation o = some k → ∃ old new, m.operations[o]? = some old ∧
      m'.operations[k]? = some new ∧ old.mapM (remapValue remap.values) = .ok new) :
    Matches I m I' m' fun v k => remap.value v = some k where
  signals := hren.signals
  constants := hren.constants
  plain v k hk value hvalue hplain := by
    obtain ⟨old, new, hold, hnew, hmap⟩ := hvalues v k hk
    rw [hvalue, Option.some_inj] at hold
    subst hold
    rcases Value.mapM_ok hmap with ⟨o, -, hkind, -⟩ | ⟨-, rfl⟩
    · exact absurd hkind (hplain o)
    · exact hnew
  operation v k hk o ty stored hvalue hstored := by
    obtain ⟨old, new, hold, hnew, hmap⟩ := hvalues v k hk
    rw [hvalue, Option.some_inj] at hold
    subst hold
    rcases Value.mapM_ok hmap with ⟨o', p, hkind, hp, rfl⟩ | ⟨hplain, -⟩
    · cases hkind
      obtain ⟨old, new, hold, hnew', hmap⟩ := hoperations o p hp
      rw [hstored, Option.some_inj] at hold
      subst hold
      obtain ⟨hshape, hinputs, -⟩ := Operation.mapM_ok hmap
      exact ⟨p, new, hnew, hnew', hren.operations o p hp, hshape, hinputs⟩
    · exact absurd rfl (hplain o)

theorem renamed_matches (hren : remap.Renames I I')
    (hvalues : ∀ v k, remap.value v = some k → ∃ old new, m.values[v]? = some old ∧
      m'.values[k]? = some new ∧ old.mapM (remapOperation remap.operations) = .ok new)
    (hoperations : ∀ o k, remap.operation o = some k → ∃ old new, m.operations[o]? = some old ∧
      m'.operations[k]? = some new ∧ old.mapM (remapValue remap.values) = .ok new) :
    Matches I' m' I m fun k v => remap.value v = some k where
  signals := hren.signals.symm
  constants := hren.constants.symm
  plain k v hk value hvalue hplain := by
    obtain ⟨old, new, hold, hnew, hmap⟩ := hvalues v k hk
    rw [hvalue, Option.some_inj] at hnew
    subst hnew
    rcases Value.mapM_ok hmap with ⟨o, p, -, -, rfl⟩ | ⟨-, rfl⟩
    · exact absurd rfl (hplain p)
    · exact hold
  operation k v hk p ty stored hvalue hstored := by
    obtain ⟨old, new, hold, hnew, hmap⟩ := hvalues v k hk
    rw [hvalue, Option.some_inj] at hnew
    subst hnew
    rcases Value.mapM_ok hmap with ⟨o, p', hkind, hp, he⟩ | ⟨hplain, he⟩
    · cases he
      obtain ⟨old', new, hold', hnew', hmap⟩ := hoperations o p hp
      rw [hstored, Option.some_inj] at hnew'
      subst hnew'
      obtain ⟨hshape, hinputs, -⟩ := Operation.mapM_ok hmap
      refine ⟨o, old', ?_, hold', (hren.operations o p hp).symm, hshape.symm, hinputs.flip⟩
      rw [hold, ← hkind]
    · exact absurd (congrArg Value.kind he).symm (hplain p)

end Rows

section Assembly

variable {m : WordModule} {extra : List Nat} {reach : Reachability} {s : DenseTopologicalRemap}

theorem Reached.mem_valueOrder (hreach : Reached m extra reach) (hs : Numbered m reach s)
    (hall : ∀ v < m.values.length, reach.values[v]? = some true → v ∈ s.valueOrder) (v : Nat) :
    v ∈ s.valueOrder ↔ m.Reaches extra v := by
  constructor
  · exact fun hv => (hreach.values v).mp (hs.reached v hv)
  · intro hv
    have hmarked := (hreach.values v).mpr hv
    apply hall v _ hmarked
    rw [← hreach.length]
    exact (List.getElem?_eq_some_iff.mp hmarked).1

theorem Numbered.mem_operationOrder (hs : Numbered m reach s)
    (horder : ∀ v, v ∈ s.valueOrder ↔ m.Reaches extra v) (o : Nat) :
    o ∈ s.operationOrder ↔ ∃ v, m.Reaches extra v ∧ m.producer v = some o := by
  rw [hs.producers, List.mem_filterMap]
  simp only [horder]

/-- An operand has a smaller number than the value. -/
theorem Numbered.operand_lt (hs : Numbered m reach s) {o : Nat} {old new : Operation}
    (ho : o ∈ s.operationOrder) (hold : m.operations[o]? = some old)
    (hmap : old.mapM (remapValue s.valueRemap) = .ok new) :
    ∀ i ∈ new.kind.inputs, i < new.result := by
  intro i hi
  rw [hs.producers, List.mem_filterMap] at ho
  obtain ⟨v, hv, ho⟩ := ho
  obtain ⟨stored, hstored, hresult, -⟩ := hs.checked v hv o ho
  rw [hold, Option.some_inj] at hstored
  subst hstored
  obtain ⟨-, hinputs, hnumber⟩ := Operation.mapM_ok hmap
  obtain ⟨d, hd, hdi⟩ := exists_of_mem_right hinputs hi
  rw [hresult, hs.values] at hnumber
  have hdep : d ∈ m.operandsOf v := by
    rw [WordModule.operandsOf_eq ho, WordModule.operands_eq hold]
    exact hd
  obtain ⟨j, hj, hjd⟩ := hs.ordered.lt hnumber hdep
  rw [(hs.values d j).mpr hjd, Option.some_inj] at hdi
  exact hdi ▸ hj

/-- A listed value exists, and so does the number of its operation. -/
theorem Numbered.value_rewrites (hs : Numbered m reach s) (hreach : Reached m extra reach)
    {v : Nat} (hv : v ∈ s.valueOrder) : ∃ value, m.values[v]? = some value ∧
      Rewrites (value.mapM (remapOperation s.operationRemap)) fun _ => False := by
  have hlt : v < m.values.length := by
    rw [← hreach.length]
    exact (List.getElem?_eq_some_iff.mp (hs.reached v hv)).1
  refine ⟨m.values[v], List.getElem?_eq_getElem hlt, Value.rewrites fun o ho => ?_⟩
  have hproducer : m.producer v = some o := by
    rw [WordModule.producer_eq_some]
    exact ⟨m.values[v].ty, by rw [List.getElem?_eq_getElem hlt, ← ho]⟩
  have hmem : o ∈ s.operationOrder := by
    rw [hs.producers, List.mem_filterMap]
    exact ⟨v, hv, hproducer⟩
  exact (remapId_settles (hs.operations.mem_iff.mp hmem)).mono fun _ _ => trivial

theorem Numbered.operation_rewrites (hs : Numbered m reach s) (hreach : Reached m extra reach)
    (horder : ∀ v, v ∈ s.valueOrder ↔ m.Reaches extra v) {o : Nat} (ho : o ∈ s.operationOrder) :
    ∃ stored, m.operations[o]? = some stored ∧
      Rewrites (stored.mapM (remapValue s.valueRemap)) fun _ => False := by
  rw [hs.producers, List.mem_filterMap] at ho
  obtain ⟨v, hv, ho⟩ := ho
  obtain ⟨stored, hstored, hresult, hinputs⟩ := hs.checked v hv o ho
  refine ⟨stored, hstored, ?_⟩
  have hkept (i : Nat) (hi : i ∈ stored.result :: stored.kind.inputs) : i ∈ s.valueOrder := by
    rcases List.mem_cons.mp hi with rfl | hi
    · exact hresult ▸ hv
    · rw [horder, ← hreach.values]
      exact hinputs i hi
  apply (Operation.mapM_settles (R := fun _ _ => True) fun i hi => ?_).mono
  · exact fun _ _ => trivial
  · exact (remapId_settles (hs.values.mem_iff.mp (hkept i hi))).mono fun _ _ => trivial

end Assembly

/-- What the stages of compaction have built when the arenas are put back. -/
theorem Numbered.compacted {m : WordModule} {extra : List Nat} {reach : Reachability}
    {s : DenseTopologicalRemap} (hs : Numbered m reach s)
    (horder : ∀ v, v ∈ s.valueOrder ↔ m.Reaches extra v) {values : List Value}
    {operations : List Operation} {connects : List Connect} {instances : List Instance}
    {memoryReadPorts : List MemoryReadPort} {memoryWritePorts : List MemoryWritePort}
    (hvalues : List.Forall₂ (fun v new => ∃ old, m.values[v]? = some old ∧
      old.mapM (remapOperation s.operationRemap) = .ok new) s.valueOrder values)
    (hoperations : List.Forall₂ (fun o new => ∃ old, m.operations[o]? = some old ∧
      old.mapM (remapValue s.valueRemap) = .ok new) s.operationOrder operations)
    (hconnects : m.connects.mapM (Connect.mapM (remapValue s.valueRemap)) = .ok connects)
    (hinstances : m.instances.mapM (Instance.mapM (remapValue s.valueRemap)) = .ok instances)
    (hreadPorts : m.memoryReadPorts.mapM (MemoryReadPort.mapM (remapValue s.valueRemap)) =
      .ok memoryReadPorts)
    (hwritePorts : m.memoryWritePorts.mapM (MemoryWritePort.mapM (remapValue s.valueRemap)) =
      .ok memoryWritePorts) :
    Compacted m extra ⟨s.valueRemap, s.operationRemap, values.length, operations.length⟩ { m with
      connects
      instances
      memoryReadPorts
      memoryWritePorts
      annotations := m.annotations.filterMap fun ( annotation : Annotation) =>
        (retarget s annotation.target).map fun target => { annotation with target }
      synthesisDirectives := m.synthesisDirectives.filterMap fun (directive : SynthesisDirective) =>
        (retarget s directive.target).map fun target => { directive with target }
      values
      operations } := by
  have hvalueRows (v k : Nat) (hk : s.valueRemap[v]?.join = some k) : ∃ old new,
      m.values[v]? = some old ∧ values[k]? = some new ∧
        old.mapM (remapOperation s.operationRemap) = .ok new := by
    obtain ⟨new, hnew, old, hold, hmap⟩ := hs.values.row_of hvalues hk
    exact ⟨old, new, hold, hnew, hmap⟩
  have hoperationRows (o k : Nat) (hk : s.operationRemap[o]?.join = some k) : ∃ old new,
      m.operations[o]? = some old ∧ operations[k]? = some new ∧
        old.mapM (remapValue s.valueRemap) = .ok new := by
    obtain ⟨new, hnew, old, hold, hmap⟩ := hs.operations.row_of hoperations hk
    exact ⟨old, new, hold, hnew, hmap⟩
  constructor
  · exact fun v => hs.values.mem_iff.symm.trans (horder v)
  · exact fun o => hs.operations.mem_iff.symm.trans (hs.mem_operationOrder horder o)
  · exact fun v w k hv hw => hs.values.injective hv hw
  · exact fun o p k ho hp => hs.operations.injective ho hp
  · intro k
    rw [← hvalues.length_eq]
    exact hs.values.number_iff
  · intro k
    rw [← hoperations.length_eq]
    exact hs.operations.number_iff
  · exact ⟨rfl, rfl⟩
  · exact hvalueRows
  · exact hoperationRows
  · exact hconnects
  · exact hinstances
  · exact hreadPorts
  · exact hwritePorts
  · rfl
  · rfl
  · rfl
  · intro o new hnew
    obtain ⟨old, hold, row, hrow, hmap⟩ := exists_of_getElem?_right hoperations hnew
    exact hs.operand_lt (List.mem_of_getElem? hold) hrow hmap
  · intro β I I' hren v k hk x
    constructor
    · intro h
      refine h.transfer (matches_renamed hren ?_ ?_) hk
      · exact hvalueRows
      · exact hoperationRows
    · intro h
      refine h.transfer (renamed_matches hren ?_ ?_) hk
      · exact hvalueRows
      · exact hoperationRows

theorem fromExcept_outcome {α β : Type} {m : WordModule} {r : Except WordError α} {Q : α → Prop}
    {E : WordError → Prop} {k : α → Build β} {R : β → WordModule → Prop}
    {E' : WordError → WordModule → Prop} (h : Settles r Q E) (hk : ∀ a, Q a → Outcome m (k a) R E')
    (hE : ∀ e, E e → E' e m) : Outcome m (fromExcept r >>= k) R E' := by
  cases r with
  | ok a => exact hk a h
  | error e => exact hE e h

theorem compaction_preserves (m : WordModule) (extra : List Nat) :
    Outcome m (compactNetlistWithRoots extra) (fun remap m' => Compacted m extra remap m')
      (fun e m' => m' = m ∧ e.IsInvariant) := by
  unfold compactNetlistWithRoots
  apply Outcome.get
  apply fromExcept_outcome (m.reachable_settles extra)
  · intro reach hreach
    apply fromExcept_outcome (m.denseTopologicalRemap_settles reach)
    · rintro s ⟨hs, hall⟩
      have horder := hreach.mem_valueOrder hs hall
      have hroot (v : Nat) (hv : v ∈ m.rootValues extra) :
          Rewrites (remapValue s.valueRemap v) fun _ => False := by
        apply (remapId_settles (hs.values.mem_iff.mp ((horder v).mpr (.root hv)))).mono
        exact fun _ _ => trivial
      apply Outcome.set
      apply fromExcept_outcome (takeRows_settles hs.values.nodup fun v hv => hs.value_rewrites hreach hv)
      · intro values hvalues
        apply Outcome.set
        apply fromExcept_outcome (takeRows_settles hs.operations.nodup fun o ho =>
          hs.operation_rewrites hreach horder ho)
        · intro operations hoperations
          have hconnects : Rewrites (m.connects.mapM (Connect.mapM (remapValue s.valueRemap)))
              fun _ => False := list_rewrites fun connect hconnect => Connect.rewrites
            (hroot _ (m.connect_root hconnect)) fun range hrange => hroot _ (m.dynamic_root hconnect hrange)
          apply fromExcept_outcome hconnects.self
          · rintro connects ⟨hconnects, -⟩
            apply Outcome.set
            have hinstances : Rewrites (m.instances.mapM (Instance.mapM (remapValue s.valueRemap)))
                fun _ => False := list_rewrites fun instance_ hinstance => Instance.rewrites
              fun connection hconnection => hroot _ (m.instance_root hinstance hconnection)
            apply fromExcept_outcome hinstances.self
            · rintro instances ⟨hinstances, -⟩
              apply Outcome.set
              have hreadPorts : Rewrites (m.memoryReadPorts.mapM
                  (MemoryReadPort.mapM (remapValue s.valueRemap))) fun _ => False := list_rewrites
                fun port hport => MemoryReadPort.rewrites fun v hv => hroot v (m.readPort_root hport hv)
              apply fromExcept_outcome hreadPorts.self
              · rintro memoryReadPorts ⟨hreadPorts, -⟩
                apply Outcome.set
                have hwritePorts : Rewrites (m.memoryWritePorts.mapM
                    (MemoryWritePort.mapM (remapValue s.valueRemap))) fun _ => False := list_rewrites
                  fun port hport => MemoryWritePort.rewrites fun v hv =>
                    hroot v (m.writePort_root hport hv)
                apply fromExcept_outcome hwritePorts.self
                · rintro memoryWritePorts ⟨hwritePorts, -⟩
                  apply Outcome.set
                  exact hs.compacted horder hvalues hoperations hconnects hinstances hreadPorts hwritePorts
                · exact fun _ h => h.elim
              · exact fun _ h => h.elim
            · exact fun _ h => h.elim
          · exact fun _ h => h.elim
        · exact fun _ h => h.elim
      · exact fun _ h => h.elim
    · exact fun e he => ⟨rfl, he⟩
  · exact fun e he => ⟨rfl, he⟩

end Opto.Word
