import Opto.Library.Numbering
import Opto.Library.PostOrder
import Opto.Word.Compact

/-!
# What compaction keeps

The walk from the roots marks the values the roots depend on and their operations.
The traversal that follows numbers the marked values, operands first.
-/

namespace Opto.Word

namespace WordModule

variable (m : WordModule) (extra : List Nat)

def operands (operation : Nat) : List Nat :=
  (m.operations[operation]?.map (·.kind.inputs)).getD []

/-- The operands of the operation that a value comes from. -/
def operandsOf (value : Nat) : List Nat := ((m.producer value).map m.operands).getD []

/-- What the roots depend on. -/
inductive Reaches : Nat → Prop
  | root {value : Nat} (h : value ∈ m.rootValues extra) : Reaches value
  | operand {value input : Nat} (h : Reaches value) (hinput : input ∈ m.operandsOf value) :
      Reaches input

variable {m extra}

theorem operandsOf_eq {value operation : Nat} (h : m.producer value = some operation) :
    m.operandsOf value = m.operands operation := by
  rw [operandsOf, h]
  rfl

theorem operands_eq {operation : Nat} {stored : Operation}
    (h : m.operations[operation]? = some stored) : m.operands operation = stored.kind.inputs := by
  rw [operands, h]
  rfl

end WordModule

/-! The walk from the roots. -/

open Worklist (remaining)

/-- What the walk has marked, and the values it still has to visit. -/
structure Reaching (m : WordModule) (extra : List Nat) (s : Reachability) (pending : List Nat) :
    Prop where
  valuesLength : s.values.length = m.values.length
  operationsLength : s.operations.length = m.operations.length
  marked : ∀ v : Nat, s.values[v]? = some true → m.Reaches extra v
  waiting : ∀ v ∈ pending, m.Reaches extra v
  roots : ∀ v ∈ m.rootValues extra, s.values[v]? = some true ∨ v ∈ pending
  entered : ∀ v o : Nat, s.values[v]? = some true → m.producer v = some o →
    s.operations[o]? = some true
  owned : ∀ o : Nat, s.operations[o]? = some true → ∃ v, m.Reaches extra v ∧ m.producer v = some o
  closed : ∀ o : Nat, s.operations[o]? = some true →
    ∀ i ∈ m.operands o, s.values[i]? = some true ∨ i ∈ pending

namespace Reaching

variable {m : WordModule} {extra pending : List Nat} {s : Reachability} {v o : Nat}

theorem start (m : WordModule) (extra : List Nat) :
    Reaching m extra ⟨List.replicate m.values.length false, List.replicate m.operations.length false⟩
      (m.rootValues extra).reverse := by
  constructor
  · exact List.length_replicate
  · exact List.length_replicate
  · intro v hv
    simp [List.getElem?_replicate] at hv
  · exact fun v hv => .root (List.mem_reverse.mp hv)
  · exact fun v hv => .inr (List.mem_reverse.mpr hv)
  · intro v o hv
    simp [List.getElem?_replicate] at hv
  · intro o ho
    simp [List.getElem?_replicate] at ho
  · intro o ho
    simp [List.getElem?_replicate] at ho

theorem popped (h : Reaching m extra s (v :: pending)) : m.Reaches extra v :=
  h.waiting v List.mem_cons_self

theorem skip (h : Reaching m extra s (v :: pending)) (hv : s.values[v]? = some true) :
    Reaching m extra s pending := by
  have keep (i : Nat) (hi : s.values[i]? = some true ∨ i ∈ v :: pending) :
      s.values[i]? = some true ∨ i ∈ pending := by
    rcases hi with hi | hi
    · exact .inl hi
    · rcases List.mem_cons.mp hi with rfl | hi
      · exact .inl hv
      · exact .inr hi
  exact { h with
    waiting := fun i hi => h.waiting i (List.mem_cons_of_mem _ hi)
    roots := fun i hi => keep i (h.roots i hi)
    closed := fun o ho i hi => keep i (h.closed o ho i hi) }

/-- A marked value stays marked when another one is marked. -/
theorem set_true {xs : List Bool} {i j : Nat} (hi : i < xs.length)
    (h : xs[j]? = some true) : (xs.set i true)[j]? = some true := by
  by_cases hij : i = j
  · subst hij
    exact List.getElem?_set_self hi
  · rwa [List.getElem?_set_ne hij]

theorem of_set_true {xs : List Bool} {i j : Nat} (h : (xs.set i true)[j]? = some true) :
    j = i ∨ xs[j]? = some true := by
  by_cases hij : i = j
  · exact .inl hij.symm
  · exact .inr (by rwa [List.getElem?_set_ne hij] at h)

/-- The operation of the popped value is entered, if it has one, and was not before. -/
theorem mark (h : Reaching m extra s (v :: pending)) (hv : v < s.values.length)
    {operations : List Bool} {pushed : List Nat} (hlength : operations.length = s.operations.length)
    (hkeep : ∀ o : Nat, s.operations[o]? = some true → operations[o]? = some true)
    (hnew : ∀ o : Nat, operations[o]? = some true → s.operations[o]? = some true ∨
      m.producer v = some o ∧ pushed = (m.operands o).reverse)
    (howner : ∀ o : Nat, m.producer v = some o → operations[o]? = some true)
    (hpushed : ∀ i ∈ pushed, i ∈ m.operandsOf v) :
    Reaching m extra ⟨s.values.set v true, operations⟩ (pushed ++ pending) := by
  have keep (i : Nat) (hi : s.values[i]? = some true ∨ i ∈ v :: pending) :
      (s.values.set v true)[i]? = some true ∨ i ∈ pushed ++ pending := by
    rcases hi with hi | hi
    · exact .inl (set_true hv hi)
    · rcases List.mem_cons.mp hi with rfl | hi
      · exact .inl (List.getElem?_set_self hv)
      · exact .inr (List.mem_append_right _ hi)
  constructor
  · rw [List.length_set]
    exact h.valuesLength
  · rw [hlength]
    exact h.operationsLength
  · intro i hi
    rcases of_set_true hi with rfl | hi
    · exact h.popped
    · exact h.marked i hi
  · intro i hi
    rcases List.mem_append.mp hi with hi | hi
    · exact .operand h.popped (hpushed i hi)
    · exact h.waiting i (List.mem_cons_of_mem _ hi)
  · exact fun i hi => keep i (h.roots i hi)
  · intro i o hi ho
    rcases of_set_true hi with rfl | hi
    · exact howner o ho
    · exact hkeep o (h.entered i o hi ho)
  · intro o ho
    rcases hnew o ho with ho | ⟨ho, -⟩
    · exact h.owned o ho
    · exact ⟨v, h.popped, ho⟩
  · intro o ho i hi
    rcases hnew o ho with ho | ⟨-, rfl⟩
    · exact keep i (h.closed o ho i hi)
    · exact .inr (List.mem_append_left _ (List.mem_reverse.mpr hi))

theorem markOnly (h : Reaching m extra s (v :: pending)) (hv : v < s.values.length)
    (howner : ∀ o : Nat, m.producer v = some o → s.operations[o]? = some true) :
    Reaching m extra ⟨s.values.set v true, s.operations⟩ pending := by
  have hpushed : ∀ i ∈ ([] : List Nat), i ∈ m.operandsOf v := fun i hi => absurd hi List.not_mem_nil
  exact h.mark hv rfl (fun o ho => ho) (fun o ho => .inl ho) howner hpushed

theorem expand (h : Reaching m extra s (v :: pending)) (hv : v < s.values.length)
    (ho : o < s.operations.length) (hproducer : m.producer v = some o) :
    Reaching m extra ⟨s.values.set v true, s.operations.set o true⟩
      ((m.operands o).reverse ++ pending) := by
  apply h.mark hv List.length_set (fun p hp => set_true ho hp)
  · intro p hp
    rcases of_set_true hp with rfl | hp
    · exact .inr ⟨hproducer, rfl⟩
    · exact .inl hp
  · intro p hp
    rw [hproducer, Option.some_inj] at hp
    rw [← hp]
    exact List.getElem?_set_self ho
  · intro i hi
    rw [WordModule.operandsOf_eq hproducer]
    exact List.mem_reverse.mp hi

theorem remaining_expand (h : Reaching m extra s (v :: pending)) (ho : s.operations[o]? = some false) :
    remaining m.operands m.operations.length (s.operations.set o true)
      ((m.operands o).reverse ++ pending) <
    remaining m.operands m.operations.length s.operations (v :: pending) := by
  have hlt : o < s.operations.length := (List.getElem?_eq_some_iff.mp ho).1
  have hsize : o < m.operations.length := h.operationsLength ▸ hlt
  have hsum := Worklist.sum_set_lt m.operands m.operations.length hsize hlt (by simp [ho])
  simp only [remaining, List.length_append, List.length_reverse, List.length_cons]
  omega

theorem step (h : Reaching m extra s (v :: pending)) :
    Settles (m.reachStep s v) (fun r => Reaching m extra r.1 (r.2 ++ pending) ∧
      remaining m.operands m.operations.length r.1.operations (r.2 ++ pending) <
        remaining m.operands m.operations.length s.operations (v :: pending)) WordError.IsInvariant := by
  have hpop : remaining m.operands m.operations.length s.operations pending <
      remaining m.operands m.operations.length s.operations (v :: pending) := by
    simp only [remaining, List.length_cons]
    omega
  unfold WordModule.reachStep
  split
  · rename_i stored hvalue hstored
    have hv : v < s.values.length := (List.getElem?_eq_some_iff.mp hvalue).1
    dsimp only
    split
    · rename_i operation hkind
      have hproducer : m.producer v = some operation := by
        rw [WordModule.producer_eq_some]
        exact ⟨stored.ty, by rw [hstored, ← hkind]⟩
      split
      · rename_i producer hoperation hproducing
        have hlt : operation < s.operations.length := (List.getElem?_eq_some_iff.mp hoperation).1
        rw [← WordModule.operands_eq hproducing]
        exact ⟨h.expand hv hlt hproducer, h.remaining_expand hoperation⟩
      · rename_i hoperation _
        refine ⟨h.markOnly hv fun o ho => ?_, hpop⟩
        rw [hproducer, Option.some_inj] at ho
        exact ho ▸ hoperation
      · exact ⟨_, rfl⟩
    · rename_i hkind
      refine ⟨h.markOnly hv fun o ho => ?_, hpop⟩
      obtain ⟨ty, hty⟩ := WordModule.producer_eq_some.mp ho
      rw [hstored, Option.some_inj] at hty
      exact absurd (congrArg Value.kind hty) (hkind o)
  · rename_i hvalue _
    exact ⟨h.skip hvalue, hpop⟩
  · exact ⟨_, rfl⟩

end Reaching

/-- The marks of the walk. -/
structure Reached (m : WordModule) (extra : List Nat) (reach : Reachability) : Prop where
  length : reach.values.length = m.values.length
  values : ∀ v : Nat, reach.values[v]? = some true ↔ m.Reaches extra v
  operations : ∀ o : Nat, reach.operations[o]? = some true ↔
    ∃ v, m.Reaches extra v ∧ m.producer v = some o

theorem Reaching.finish {m : WordModule} {extra : List Nat} {s : Reachability}
    (h : Reaching m extra s []) : Reached m extra s := by
  have hvalues (v : Nat) : s.values[v]? = some true ↔ m.Reaches extra v := by
    constructor
    · exact h.marked v
    · intro hreach
      induction hreach with
      | root hroot => exact (h.roots _ hroot).resolve_right List.not_mem_nil
      | @operand value input _ hinput ih =>
        cases hproducer : m.producer value with
        | none =>
          rw [WordModule.operandsOf, hproducer] at hinput
          cases hinput
        | some o =>
          rw [WordModule.operandsOf_eq hproducer] at hinput
          have hmarked := h.entered value o ih hproducer
          exact (h.closed o hmarked input hinput).resolve_right List.not_mem_nil
  refine ⟨h.valuesLength, hvalues, fun o => ⟨h.owned o, ?_⟩⟩
  rintro ⟨v, hv, ho⟩
  exact h.entered v o ((hvalues v).mpr hv) ho

theorem WordModule.sum_operands (m : WordModule) :
    ((List.range m.operations.length).map fun o => (m.operands o).length).sum = m.inputCount := by
  rw [inputCount]
  congr 1
  apply List.ext_getElem
  · simp
  · intro o ho _
    have hlt : o < m.operations.length := by simpa using ho
    simp [operands, List.getElem?_eq_getElem hlt]

theorem WordModule.reachable_settles (m : WordModule) (extra : List Nat) :
    Settles (m.reachable extra) (Reached m extra) WordError.IsInvariant := by
  have hwalk : Settles (m.reachable extra) (fun s => Reaching m extra s []) WordError.IsInvariant := by
    apply Worklist.exhaust_settles (fun s pending => Reaching m extra s pending)
      (fun s pending => remaining m.operands m.operations.length s.operations pending)
    · exact fun s v pending h => h.step
    · exact .start m extra
    · have hsum : ((List.range m.operations.length).map fun i =>
          if (List.replicate m.operations.length false)[i]? = some true then 0
          else (m.operands i).length).sum ≤ m.inputCount := by
        rw [← m.sum_operands]
        apply List.sum_le_sum
        intro i _
        split_ifs <;> omega
      simp only [remaining, List.length_reverse]
      omega
  exact hwalk.mono fun s h => h.finish

/-! The traversal that numbers the marked values. -/

theorem idFromIndex_settles (kind : String) (index : Nat) :
    Settles (idFromIndex kind index) (fun id => id = index) WordError.IsInvariant := by
  unfold idFromIndex
  split_ifs
  · rfl
  · exact ⟨_, rfl⟩

namespace WordModule

variable (m : WordModule) (reach : Reachability)

/-- What the traversal checks before it enters a value. -/
def Checked (value : Nat) : Prop :=
  ∀ o, m.producer value = some o → ∃ stored, m.operations[o]? = some stored ∧
    stored.result = value ∧ ∀ input ∈ stored.kind.inputs, reach.values[input]? = some true

variable {m reach}

theorem checkedInputs_settles (value : Nat) :
    Settles (m.checkedInputs reach value)
      (fun inputs => inputs = m.operandsOf value ∧ m.Checked reach value) WordError.IsInvariant := by
  unfold checkedInputs
  split
  · rename_i o ty heq
    have hproducer : m.producer value = some o := producer_eq_some.mpr ⟨ty, heq⟩
    split
    · exact ⟨_, rfl⟩
    · rename_i stored hstored
      split_ifs with howner hinputs
      · exact ⟨_, rfl⟩
      · rw [not_or, not_not] at howner
        refine ⟨by rw [operandsOf_eq hproducer, operands_eq hstored], fun p hp => ?_⟩
        rw [hproducer, Option.some_inj] at hp
        subst hp
        exact ⟨stored, hstored, howner.1, hinputs⟩
      · exact ⟨_, rfl⟩
  · rename_i hne
    have hproducer : m.producer value = none := producer_eq_none hne
    refine ⟨by rw [operandsOf, hproducer]; rfl, fun p hp => ?_⟩
    rw [hproducer] at hp
    cases hp

/-- A value comes from an operation that names it, so no two values share one. -/
theorem Checked.eq {v w o : Nat} (hv : m.Checked reach v) (hw : m.Checked reach w)
    (hvo : m.producer v = some o) (hwo : m.producer w = some o) : v = w := by
  obtain ⟨stored, hstored, rfl, -⟩ := hv o hvo
  obtain ⟨stored', hstored', rfl, -⟩ := hw o hwo
  rw [hstored, Option.some_inj] at hstored'
  rw [hstored']

theorem Checked.reached {v i : Nat} (h : m.Checked reach v) (hi : i ∈ m.operandsOf v) :
    reach.values[i]? = some true := by
  cases hproducer : m.producer v with
  | none =>
    rw [operandsOf, hproducer] at hi
    cases hi
  | some o =>
    obtain ⟨stored, hstored, -, hinputs⟩ := h o hproducer
    rw [operandsOf_eq hproducer, operands_eq hstored] at hi
    exact hinputs i hi

end WordModule

/-- What has been numbered so far. -/
structure Numbered (m : WordModule) (reach : Reachability) (s : DenseTopologicalRemap) : Prop where
  stateLength : s.state.length = m.values.length
  valueLength : s.valueRemap.length = m.values.length
  operationLength : s.operationRemap.length = m.operations.length
  finished : ∀ v : Nat, v ∈ s.valueOrder ↔ s.state[v]? = some 2
  values : Numbering s.valueRemap s.valueOrder
  operations : Numbering s.operationRemap s.operationOrder
  producers : s.operationOrder = s.valueOrder.filterMap m.producer
  reached : ∀ v ∈ s.valueOrder, reach.values[v]? = some true
  checked : ∀ v ∈ s.valueOrder, m.Checked reach v
  ordered : PostOrdered m.operandsOf s.valueOrder

namespace Numbered

variable {m : WordModule} {reach : Reachability} {s : DenseTopologicalRemap} {v o : Nat}

theorem start (m : WordModule) (reach : Reachability) :
    Numbered m reach ⟨List.replicate m.values.length none, List.replicate m.operations.length none,
      [], [], List.replicate m.values.length 0⟩ := by
  constructor
  · exact List.length_replicate
  · exact List.length_replicate
  · exact List.length_replicate
  · intro v
    simp [List.getElem?_replicate]
  · exact .start _
  · exact .start _
  · rfl
  · exact fun v hv => absurd hv List.not_mem_nil
  · exact fun v hv => absurd hv List.not_mem_nil
  · exact .nil

/-- Entering a value numbers nothing. -/
theorem enter (h : Numbered m reach s) (hv : s.state[v]? = some 0) :
    Numbered m reach { s with state := s.state.set v 1 } := by
  have hlt := (List.getElem?_eq_some_iff.mp hv).1
  refine { h with
    stateLength := by rw [List.length_set]; exact h.stateLength
    finished := fun w => ?_ }
  by_cases hvw : v = w
  · subst hvw
    rw [List.getElem?_set_self hlt]
    constructor
    · intro hw
      have := (h.finished v).mp hw
      rw [hv] at this
      cases this
    · intro hw
      cases hw
  · rw [List.getElem?_set_ne hvw]
    exact h.finished w

theorem finished_set (h : Numbered m reach s) (hv : s.state[v]? = some 1) (w : Nat) :
    w ∈ s.valueOrder ++ [v] ↔ (s.state.set v 2)[w]? = some 2 := by
  have hlt := (List.getElem?_eq_some_iff.mp hv).1
  rw [List.mem_append, List.mem_singleton]
  by_cases hvw : v = w
  · subst hvw
    rw [List.getElem?_set_self hlt]
    exact iff_of_true (.inr rfl) rfl
  · rw [List.getElem?_set_ne hvw, ← h.finished w]
    exact or_iff_left (Ne.symm hvw)

/-- The next value, whose operands are numbered, and the operation it comes from. -/
theorem leave (h : Numbered m reach s) (hv : s.state[v]? = some 1)
    (hreach : reach.values[v]? = some true) (hchecked : m.Checked reach v)
    (hready : ∀ d ∈ m.operandsOf v, d ∈ s.valueOrder) {operationRemap : List (Option Nat)}
    (hlength : operationRemap.length = m.operations.length)
    (hoperations : Numbering operationRemap (s.operationOrder ++ (m.producer v).toList)) :
    Numbered m reach
      { valueRemap := s.valueRemap.set v (some s.valueOrder.length)
        operationRemap
        valueOrder := s.valueOrder ++ [v]
        operationOrder := s.operationOrder ++ (m.producer v).toList
        state := s.state.set v 2 } := by
  have hlt := (List.getElem?_eq_some_iff.mp hv).1
  have hfresh : v ∉ s.valueOrder := by
    rw [h.finished, hv]
    intro hne
    cases hne
  constructor
  · rw [List.length_set]
    exact h.stateLength
  · rw [List.length_set]
    exact h.valueLength
  · exact hlength
  · exact h.finished_set hv
  · apply h.values.push _ hfresh
    rw [h.valueLength, ← h.stateLength]
    exact hlt
  · exact hoperations
  · rw [List.filterMap_append, ← h.producers]
    cases hproducer : m.producer v <;> simp [hproducer]
  · intro w hw
    rcases List.mem_append.mp hw with hw | hw
    · exact h.reached w hw
    · exact List.mem_singleton.mp hw ▸ hreach
  · intro w hw
    rcases List.mem_append.mp hw with hw | hw
    · exact h.checked w hw
    · exact List.mem_singleton.mp hw ▸ hchecked
  · exact h.ordered.concat hready

theorem operation_fresh (h : Numbered m reach s) (hv : s.state[v]? = some 1)
    (hchecked : m.Checked reach v) (ho : m.producer v = some o) : o ∉ s.operationOrder := by
  intro hmem
  rw [h.producers, List.mem_filterMap] at hmem
  obtain ⟨w, hw, hwo⟩ := hmem
  have hwv := (h.checked w hw).eq hchecked hwo ho
  subst hwv
  rw [h.finished, hv] at hw
  cases hw

theorem finishValue (h : Numbered m reach s) (hreach : reach.values[v]? = some true)
    (hchecked : m.Checked reach v) (hready : ∀ d ∈ m.operandsOf v, d ∈ s.valueOrder) :
    Settles (m.finishValue s v) (fun t => Numbered m reach t ∧
      t.valueOrder = s.valueOrder ++ [v] ∧ t.state = s.state.set v 2 ∧ s.state[v]? = some 1)
      WordError.IsInvariant := by
  unfold WordModule.finishValue
  split_ifs with hstate
  · exact ⟨_, rfl⟩
  rw [not_not] at hstate
  apply Settles.bind (idFromIndex_settles "value" s.valueOrder.length)
  rintro _ rfl
  split
  · rename_i o ty heq
    have hproducer : m.producer v = some o := WordModule.producer_eq_some.mpr ⟨ty, heq⟩
    obtain ⟨stored, hstored, -⟩ := hchecked o hproducer
    apply Settles.bind (idFromIndex_settles "operation" s.operationOrder.length)
    rintro _ rfl
    have hlt : o < s.operationRemap.length := by
      rw [h.operationLength]
      exact (List.getElem?_eq_some_iff.mp hstored).1
    have hpush := h.operations.push hlt (h.operation_fresh hstate hchecked hproducer)
    have hlength : (s.operationRemap.set o (some s.operationOrder.length)).length =
        m.operations.length := by
      rw [List.length_set]
      exact h.operationLength
    have hleave := h.leave hstate hreach hchecked hready hlength (by rw [hproducer]; exact hpush)
    rw [hproducer] at hleave
    exact ⟨hleave, rfl, rfl, hstate⟩
  · rename_i hne
    have hproducer : m.producer v = none := WordModule.producer_eq_none hne
    have hleave := h.leave hstate hreach hchecked hready h.operationLength
      (by rw [hproducer]; simpa using h.operations)
    rw [hproducer] at hleave
    simp only [Option.toList_none, List.append_nil] at hleave
    exact ⟨hleave, rfl, rfl, hstate⟩

end Numbered

/-- The traversal between two pops. -/
structure Traversing (m : WordModule) (reach : Reachability) (wanted : Nat → Prop)
    (s : DenseTopologicalRemap) (pending : List (Nat × Bool)) : Prop
    extends Numbered m reach s where
  entering : ∀ v : Nat, (v, false) ∈ pending → reach.values[v]? = some true
  leaving : ∀ v : Nat, (v, true) ∈ pending → reach.values[v]? = some true ∧ m.Checked reach v
  waits : Waits m.operandsOf (· ∈ s.valueOrder) pending
  met : ∀ v, wanted v → v ∈ s.valueOrder ∨ (v, false) ∈ pending ∨ (v, true) ∈ pending

/-- The entries on the stack, the values that were not met and the operands of theirs. -/
def DenseTopologicalRemap.cost (m : WordModule) (s : DenseTopologicalRemap)
    (pending : List (Nat × Bool)) : Nat :=
  pending.length + s.state.count 0 + (m.operations.map fun stored =>
    if s.state[stored.result]? = some 0 then stored.kind.inputs.length else 0).sum

namespace Traversing

variable {m : WordModule} {reach : Reachability} {s : DenseTopologicalRemap}
  {wanted : Nat → Prop} {pending : List (Nat × Bool)} {v : Nat}

theorem enter (h : Traversing m reach wanted s ((v, false) :: pending)) (hv : s.state[v]? = some 0)
    (hchecked : m.Checked reach v) :
    Traversing m reach wanted { s with state := s.state.set v 1 }
      ((m.operandsOf v).map (·, false) ++ (v, true) :: pending) where
  toNumbered := h.toNumbered.enter hv
  entering := by
    intro w hw
    rcases List.mem_append.mp hw with hw | hw
    · obtain ⟨d, hd, he⟩ := List.mem_map.mp hw
      cases he
      exact hchecked.reached hd
    · rcases List.mem_cons.mp hw with he | hw
      · cases he
      · exact h.entering w (List.mem_cons_of_mem _ hw)
  leaving := by
    intro w hw
    rcases List.mem_append.mp hw with hw | hw
    · obtain ⟨d, hd, he⟩ := List.mem_map.mp hw
      cases he
    · rcases List.mem_cons.mp hw with he | hw
      · cases he
        exact ⟨h.entering v List.mem_cons_self, hchecked⟩
      · exact h.leaving w (List.mem_cons_of_mem _ hw)
  waits := h.waits.enter
  met := by
    intro w hw
    rcases h.met w hw with hdone | hfalse | htrue
    · exact .inl hdone
    · rcases List.mem_cons.mp hfalse with he | hfalse
      · cases he
        exact .inr (.inr (by simp))
      · exact .inr (.inl (by simp [hfalse]))
    · rcases List.mem_cons.mp htrue with he | htrue
      · cases he
      · exact .inr (.inr (by simp [htrue]))

theorem skip (h : Traversing m reach wanted s ((v, false) :: pending)) (hv : s.state[v]? = some 2) :
    Traversing m reach wanted s pending where
  toNumbered := h.toNumbered
  entering w hw := h.entering w (List.mem_cons_of_mem _ hw)
  leaving w hw := h.leaving w (List.mem_cons_of_mem _ hw)
  waits := h.waits.skip ((h.finished v).mpr hv)
  met := by
    intro w hw
    rcases h.met w hw with hdone | hfalse | htrue
    · exact .inl hdone
    · rcases List.mem_cons.mp hfalse with he | hfalse
      · cases he
        exact .inl ((h.finished v).mpr hv)
      · exact .inr (.inl hfalse)
    · rcases List.mem_cons.mp htrue with he | htrue
      · cases he
      · exact .inr (.inr htrue)

theorem left (h : Traversing m reach wanted s ((v, true) :: pending)) {t : DenseTopologicalRemap}
    (ht : Numbered m reach t) (horder : t.valueOrder = s.valueOrder ++ [v]) :
    Traversing m reach wanted t pending where
  toNumbered := ht
  entering w hw := h.entering w (List.mem_cons_of_mem _ hw)
  leaving w hw := h.leaving w (List.mem_cons_of_mem _ hw)
  waits := by
    apply h.waits.leave.mono
    intro w hw
    rw [horder, List.mem_append, List.mem_singleton]
    exact hw.symm
  met := by
    intro w hw
    rw [horder, List.mem_append, List.mem_singleton]
    rcases h.met w hw with hdone | hfalse | htrue
    · exact .inl (.inl hdone)
    · rcases List.mem_cons.mp hfalse with he | hfalse
      · cases he
      · exact .inr (.inl hfalse)
    · rcases List.mem_cons.mp htrue with he | htrue
      · cases he
        exact .inl (.inr rfl)
      · exact .inr (.inr htrue)

/-- The operands of the entered value are no longer to come. -/
theorem cost_enter (hv : s.state[v]? = some 0) (hchecked : m.Checked reach v) :
    DenseTopologicalRemap.cost m { s with state := s.state.set v 1 }
      ((m.operandsOf v).map (·, false) ++ (v, true) :: pending) <
    s.cost m ((v, false) :: pending) := by
  obtain ⟨hlt, hzero⟩ := List.getElem?_eq_some_iff.mp hv
  have hcount : (s.state.set v 1).count 0 + 1 = s.state.count 0 := by
    have hpos : 0 < s.state.count 0 := List.count_pos_iff.mpr (hzero ▸ List.getElem_mem hlt)
    rw [List.count_set hlt, hzero]
    simp only [beq_self_eq_true, if_true]
    simp
    omega
  have hle (stored : Operation) : (if (s.state.set v 1)[stored.result]? = some 0 then
      stored.kind.inputs.length else 0) ≤
      if s.state[stored.result]? = some 0 then stored.kind.inputs.length else 0 := by
    by_cases hresult : v = stored.result
    · rw [← hresult, List.getElem?_set_self hlt, if_neg (by simp)]
      exact Nat.zero_le _
    · rw [List.getElem?_set_ne hresult]
  have hsum : (m.operations.map fun stored => if (s.state.set v 1)[stored.result]? = some 0 then
      stored.kind.inputs.length else 0).sum + (m.operandsOf v).length ≤
      (m.operations.map fun stored => if s.state[stored.result]? = some 0 then
        stored.kind.inputs.length else 0).sum := by
    cases hproducer : m.producer v with
    | none =>
      rw [WordModule.operandsOf, hproducer]
      exact List.sum_le_sum fun stored _ => hle stored
    | some o =>
      obtain ⟨stored, hstored, hresult, -⟩ := hchecked o hproducer
      rw [WordModule.operandsOf_eq hproducer, WordModule.operands_eq hstored]
      apply Worklist.sum_map_add_le (fun stored _ => hle stored) (List.mem_of_getElem? hstored)
      rw [hresult, List.getElem?_set_self hlt, hv]
      simp
  simp only [DenseTopologicalRemap.cost, List.length_append, List.length_map, List.length_cons]
  omega

theorem cost_leave (hv : s.state[v]? = some 1) {t : DenseTopologicalRemap}
    (ht : t.state = s.state.set v 2) :
    t.cost m pending < s.cost m ((v, true) :: pending) := by
  obtain ⟨hlt, hone⟩ := List.getElem?_eq_some_iff.mp hv
  have hcount : (s.state.set v 2).count 0 = s.state.count 0 := by
    rw [List.count_set hlt, hone]
    simp
  have hsame (stored : Operation) : (if (s.state.set v 2)[stored.result]? = some 0 then
      stored.kind.inputs.length else 0) =
      if s.state[stored.result]? = some 0 then stored.kind.inputs.length else 0 := by
    by_cases hresult : v = stored.result
    · rw [← hresult, List.getElem?_set_self hlt, hv]
      simp
    · rw [List.getElem?_set_ne hresult]
  simp only [DenseTopologicalRemap.cost, ht, hcount, hsame, List.length_cons]
  omega

theorem step {entry : Nat × Bool} (h : Traversing m reach wanted s (entry :: pending)) :
    Settles (m.topologicalStep reach s entry) (fun r =>
      Traversing m reach wanted r.1 (r.2 ++ pending) ∧
        r.1.cost m (r.2 ++ pending) < s.cost m (entry :: pending)) WordError.IsInvariant := by
  obtain ⟨v, leaving⟩ := entry
  unfold WordModule.topologicalStep
  cases leaving with
  | true =>
    rw [if_pos rfl]
    obtain ⟨hreach, hchecked⟩ := h.leaving v List.mem_cons_self
    apply Settles.bind (h.toNumbered.finishValue hreach hchecked fun d hd => h.waits.ready hd)
    rintro t ⟨ht, horder, hstate, hv⟩
    exact ⟨h.left ht horder, cost_leave hv hstate⟩
  | false =>
    rw [if_neg Bool.false_ne_true]
    split
    · rename_i hv
      refine ⟨h.skip hv, ?_⟩
      simp only [DenseTopologicalRemap.cost, List.nil_append, List.length_cons]
      omega
    · exact ⟨_, rfl⟩
    · rename_i hv
      apply Settles.bind (WordModule.checkedInputs_settles v)
      rintro _ ⟨rfl, hchecked⟩
      have henter := h.enter hv hchecked
      have hcost := @cost_enter _ _ s pending _ hv hchecked
      rw [List.append_cons] at henter hcost
      exact ⟨henter, hcost⟩
    · exact ⟨_, rfl⟩

theorem cost_start (h : Numbered m reach s) : s.cost m [(v, false)] < m.topologicalBudget := by
  have hcount : s.state.count 0 ≤ m.values.length := h.stateLength ▸ List.count_le_length
  have hsum : (m.operations.map fun stored => if s.state[stored.result]? = some 0 then
      stored.kind.inputs.length else 0).sum ≤ m.inputCount := by
    apply List.sum_le_sum
    intro stored _
    split_ifs <;> omega
  simp only [DenseTopologicalRemap.cost, WordModule.topologicalBudget, List.length_singleton]
  omega

theorem run (h : Numbered m reach s) (hv : reach.values[v]? = some true)
    (hdone : ∀ w, wanted w → w ∈ s.valueOrder) :
    Settles (Worklist.exhaust (m.topologicalStep reach) .mismatch
        m.topologicalBudget s [(v, false)])
      (fun t => Numbered m reach t ∧ ∀ w, w = v ∨ wanted w → w ∈ t.valueOrder) WordError.IsInvariant := by
  have start : Traversing m reach (fun w => w = v ∨ wanted w) s [(v, false)] := by
    refine ⟨h, ?_, ?_, .enterOne v, ?_⟩
    · intro w hw
      cases List.mem_singleton.mp hw
      exact hv
    · intro w hw
      cases List.mem_singleton.mp hw
    · rintro w (rfl | hw)
      · exact .inr (.inl (List.mem_singleton.mpr rfl))
      · exact .inl (hdone w hw)
  apply (Worklist.exhaust_settles (fun s pending => Traversing m reach _ s pending)
    (fun s pending => s.cost m pending) (fun s entry pending h => h.step) start (cost_start h)).mono
  intro t ht
  refine ⟨ht.toNumbered, fun w hw => ?_⟩
  simpa using ht.met w hw

end Traversing

/-- The traversal numbers what is marked, after everything it depends on. -/
theorem WordModule.denseTopologicalRemap_settles (m : WordModule) (reach : Reachability) :
    Settles (m.denseTopologicalRemap reach) (fun s => Numbered m reach s ∧
      ∀ v < m.values.length, reach.values[v]? = some true → v ∈ s.valueOrder) WordError.IsInvariant := by
  unfold denseTopologicalRemap
  apply Settles.bind (Q := fun s => Numbered m reach s ∧
    ∀ v, v ∈ List.range m.values.length ∧ reach.values[v]? = some true → v ∈ s.valueOrder)
  · apply Settles.foldlM (fun done s => Numbered m reach s ∧
      ∀ v, v ∈ done ∧ reach.values[v]? = some true → v ∈ s.valueOrder)
    · exact ⟨.start m reach, fun v hv => absurd hv.1 List.not_mem_nil⟩
    · rintro done start - s ⟨hs, hdone⟩
      split_ifs with hskip
      · refine ⟨hs, ?_⟩
        rintro v ⟨hv, hreach⟩
        rcases List.mem_append.mp hv with hv | hv
        · exact hdone v ⟨hv, hreach⟩
        · rw [List.mem_singleton] at hv
          subst hv
          exact (hs.finished v).mpr (hskip.resolve_left (not_not.mpr hreach))
      · rw [not_or, not_not] at hskip
        apply (Traversing.run hs hskip.1 hdone).mono
        rintro t ⟨ht, hwanted⟩
        refine ⟨ht, ?_⟩
        rintro v ⟨hv, hreach⟩
        rcases List.mem_append.mp hv with hv | hv
        · exact hwanted v (.inr ⟨hv, hreach⟩)
        · exact hwanted v (.inl (List.mem_singleton.mp hv))
  · rintro s ⟨hs, hall⟩
    split_ifs
    · exact ⟨_, rfl⟩
    · exact ⟨hs, fun v hv hreach => hall v ⟨List.mem_range.mpr hv, hreach⟩⟩

end Opto.Word
