import Opto.Runtime.Plan

/-!
# Dependency worklists

Items are scheduled, claimed when they wait for nothing, and finished. An item counts the
enabled dependencies that are scheduled and not finished.
-/

namespace Opto.Runtime

open Mapped (U32_MAX U64_MAX)

inductive ItemState
  | absent
  | pending
  | running
  | complete
  deriving DecidableEq, Repr

def ItemState.isOpen (state : ItemState) : Bool := state = .pending || state = .running

structure DependencyWorklist where
  plan : DependencyPlan
  direction : DependencyDirection
  disabledDependencies : List (Nat × Nat)
  state : List ItemState
  unresolved : List Nat
  /-- A set, ascending. -/
  ready : List (Nat × Nat)
  pending : Nat
  running : Nat
  deriving DecidableEq, Repr

namespace DependencyWorklist

section Model

variable (w : DependencyWorklist)

def stateOf (item : Nat) : ItemState := w.state[item]?.getD .absent

def unresolvedOf (item : Nat) : Nat := w.unresolved[item]?.getD 0

def dependencies (item : Nat) : List Nat := w.plan.dependencies w.direction item

def dependents (item : Nat) : List Nat := w.plan.dependents w.direction item

def dependencyIsEnabled (item dependency : Nat) : Bool :=
  match w.direction with
  | .forward => (item, dependency) ∉ w.disabledDependencies
  | .reverse => (dependency, item) ∉ w.disabledDependencies

def dependentIsEnabled (item dependent : Nat) : Bool := w.dependencyIsEnabled dependent item

def readyKey (item : Nat) : Nat × Nat := (w.plan.order w.direction item, item)

def keyLe (a b : Nat × Nat) : Prop := a.1 < b.1 ∨ a.1 = b.1 ∧ a.2 ≤ b.2

instance : DecidableRel keyLe := fun _ _ => inferInstanceAs (Decidable (_ ∨ _))

def insertKey (key : Nat × Nat) (ready : List (Nat × Nat)) : List (Nat × Nat) :=
  if key ∈ ready then ready else ready.orderedInsert keyLe key

/-- A pending dependent of a newly scheduled item waits for one more. -/
def hold (item : Nat) (w : DependencyWorklist) (dependent : Nat) :
    Except RuntimeError DependencyWorklist :=
  if w.dependentIsEnabled item dependent = false ∨ w.stateOf dependent ≠ .pending then .ok w
  else
    let ready := if w.unresolvedOf dependent = 0 then w.ready.erase (w.readyKey dependent) else w.ready
    if w.unresolvedOf dependent < U32_MAX then
      .ok { w with ready, unresolved := w.unresolved.set dependent (w.unresolvedOf dependent + 1) }
    else invalid "dependency count exceeds 32-bit capacity"

def waits (item : Nat) : Nat :=
  (w.dependencies item).countP fun d => w.dependencyIsEnabled item d && (w.stateOf d).isOpen

def schedule (item : Nat) : Except RuntimeError (Bool × DependencyWorklist) := do
  if w.state.length ≤ item then invalid "scheduled item is outside the dependency plan"
  else if (w.dependents item).any fun dependent => w.dependentIsEnabled item dependent &&
      (w.stateOf dependent = .running || w.stateOf dependent = .complete) then
    invalid "scheduled dependency crosses the completed dependency frontier"
  else if w.stateOf item ≠ .absent then return (false, w)
  else
    let w := { w with state := w.state.set item .pending, pending := w.pending + 1 }
    if U32_MAX < w.waits item then invalid "dependency count exceeds 32-bit capacity"
    else
      let w := { w with unresolved := w.unresolved.set item (w.waits item) }
      let w ← (w.dependents item).foldlM (hold item) w
      return (true, if w.unresolvedOf item = 0
        then { w with ready := insertKey (w.readyKey item) w.ready } else w)

def claimReadyBounded (limit : Nat) : Except RuntimeError (Option (List Nat) × DependencyWorklist) :=
  if limit = 0 then invalid "dependency ready claim limit must be nonzero"
  else if w.pending = 0 then .ok (none, w)
  else if w.ready = [] then
    if w.running ≠ 0 then .ok (some [], w)
    else invalid "scheduled dependency subgraph contains a cycle"
  else
    let ready := (w.ready.take (min limit w.ready.length)).map (·.2)
    .ok (some ready, { w with
      ready := w.ready.drop (min limit w.ready.length)
      state := ready.foldl (fun state item => state.set item .running) w.state
      running := w.running + ready.length })

/-- A pending dependent of a finished item waits for one less. -/
def release (item : Nat) (w : DependencyWorklist) (dependent : Nat) :
    Except RuntimeError DependencyWorklist :=
  if w.dependentIsEnabled item dependent = false ∨ w.stateOf dependent ≠ .pending then .ok w
  else if w.unresolvedOf dependent = 0 then invalid "dependency completion underflow"
  else
    .ok { w with
      unresolved := w.unresolved.set dependent (w.unresolvedOf dependent - 1)
      ready := if w.unresolvedOf dependent - 1 = 0 then insertKey (w.readyKey dependent) w.ready
        else w.ready }

def finish (item : Nat) : Except RuntimeError DependencyWorklist :=
  if w.state.length ≤ item then invalid "completed item is outside the dependency plan"
  else if w.stateOf item ≠ .running then invalid "completed item was not claimed"
  else
    let w := { w with
      state := w.state.set item .complete
      running := w.running - 1
      pending := w.pending - 1 }
    (w.dependents item).foldlM (release item) w

end Model

end DependencyWorklist

/-- A worklist of the seeds, without the disabled edges, which are pairs of an item and a
dependency in either direction. -/
def DependencyPlan.worklistMasked (plan : DependencyPlan) (direction : DependencyDirection)
    (seeds : List Nat) (disabledDependencies : List (Nat × Nat)) :
    Except RuntimeError DependencyWorklist :=
  if disabledDependencies.any fun edge => plan.itemCount ≤ edge.1 || plan.itemCount ≤ edge.2 ||
      decide (edge.2 ∉ plan.predecessors.row edge.1) then
    invalid "disabled edge is not an exact dependency in the plan"
  else
    seeds.foldlM (fun w seed => do
      let (_, w) ← w.schedule seed
      return w)
      { plan, direction, disabledDependencies
        state := List.replicate plan.itemCount .absent
        unresolved := List.replicate plan.itemCount 0
        ready := []
        pending := 0
        running := 0 }

namespace DependencyWorklist

/-! Sets of keys. -/

theorem mem_insertKey {key other : Nat × Nat} {ready : List (Nat × Nat)} :
    other ∈ insertKey key ready ↔ other = key ∨ other ∈ ready := by
  unfold insertKey
  split_ifs with hmem
  · constructor
    · exact .inr
    · rintro (rfl | h)
      · exact hmem
      · exact h
  · exact List.mem_orderedInsert keyLe

theorem insertKey_nodup {key : Nat × Nat} {ready : List (Nat × Nat)} (h : ready.Nodup) :
    (insertKey key ready).Nodup := by
  unfold insertKey
  split_ifs with hmem
  · exact h
  · exact (List.perm_orderedInsert keyLe key ready).nodup_iff.mpr (List.nodup_cons.mpr ⟨hmem, h⟩)

/-! The dependents of an item. -/

section Dependents

variable {w w' : DependencyWorklist} {item dependent : Nat}

/-- The pending dependents along enabled edges. -/
def Touches (w : DependencyWorklist) (item : Nat) (dependents : List Nat) (dependent : Nat) : Prop :=
  dependent ∈ dependents ∧ w.dependentIsEnabled item dependent = true ∧ w.stateOf dependent = .pending

instance (dependents : List Nat) : Decidable (w.Touches item dependents dependent) :=
  inferInstanceAs (Decidable (_ ∧ _))

theorem unresolvedOf_set {unresolved : List Nat} {count : Nat} (ready : List (Nat × Nat))
    (h : dependent < unresolved.length) (j : Nat) :
    unresolvedOf { w with ready, unresolved := unresolved.set dependent count } j =
      if j = dependent then count else unresolved[j]?.getD 0 := by
  rw [unresolvedOf]
  split_ifs with hj
  · rw [hj, List.getElem?_set_self h]
    rfl
  · rw [List.getElem?_set_ne fun he => hj he.symm]

theorem stateOf_lt (h : w.stateOf dependent ≠ .absent) : dependent < w.state.length := by
  by_contra hge
  rw [stateOf, List.getElem?_eq_none (by omega)] at h
  exact h rfl

theorem touches_cons {dependents : List Nat} {j : Nat} : w.Touches item (dependent :: dependents) j ↔
    w.Touches item [dependent] j ∨ w.Touches item dependents j := by
  simp only [Touches, List.mem_cons, List.not_mem_nil, or_false, or_and_right]

/-- The counts and the ready set after some dependents were held. -/
def Held (w : DependencyWorklist) (item : Nat) (dependents : List Nat) (w' : DependencyWorklist) : Prop :=
  ∃ unresolved ready, w' = { w with unresolved, ready } ∧ unresolved.length = w.unresolved.length ∧
    ready.Nodup ∧
    (∀ j, w'.unresolvedOf j = w.unresolvedOf j + if w.Touches item dependents j then 1 else 0) ∧
    ∀ key, key ∈ ready ↔ key ∈ w.ready ∧ ∀ j, w.Touches item dependents j → key ≠ w.readyKey j

theorem hold_step (hlength : w.unresolved.length = w.state.length)
    (hready : ∀ j, w.readyKey j ∈ w.ready → w.unresolvedOf j = 0) (hnodup : w.ready.Nodup)
    (item dependent : Nat) :
    Settles (hold item w dependent) (Held w item [dependent]) fun _ => True := by
  have honly {j : Nat} (h : w.Touches item [dependent] j) : j = dependent := List.mem_singleton.mp h.1
  unfold hold
  split_ifs with hskip hzero hlarge hlarge
  · have hnone (j : Nat) : ¬ w.Touches item [dependent] j := by
      intro h
      have hj := honly h
      subst hj
      rcases hskip with hdisabled | hstate
      · rw [h.2.1] at hdisabled
        cases hdisabled
      · exact hstate h.2.2
    refine ⟨w.unresolved, w.ready, rfl, rfl, hnodup, fun j => ?_, fun key => ?_⟩
    · rw [if_neg (hnone j)]
      rfl
    · exact ⟨fun h => ⟨h, fun j hj => absurd hj (hnone j)⟩, fun h => h.1⟩
  all_goals try trivial
  all_goals
    rw [not_or, Bool.not_eq_false, not_not] at hskip
    have htouch : w.Touches item [dependent] dependent := ⟨List.mem_singleton.mpr rfl, hskip⟩
    have hlt : dependent < w.unresolved.length := by
      rw [hlength]
      exact stateOf_lt (by rw [hskip.2]; decide)
    have hcounts (ready : List (Nat × Nat)) (j : Nat) : unresolvedOf { w with
        ready, unresolved := w.unresolved.set dependent (w.unresolvedOf dependent + 1) } j =
          w.unresolvedOf j + if w.Touches item [dependent] j then 1 else 0 := by
      rw [unresolvedOf_set ready hlt]
      split_ifs with hj hj' hj'
      · rw [hj]
      · exact absurd (hj ▸ htouch) hj'
      · exact absurd (honly hj') hj
      · rfl
  · refine ⟨_, _, rfl, List.length_set, hnodup.erase _, hcounts _, fun key => ?_⟩
    rw [hnodup.mem_erase_iff]
    constructor
    · rintro ⟨hne, hmem⟩
      exact ⟨hmem, fun j hj => (honly hj) ▸ hne⟩
    · rintro ⟨hmem, hne⟩
      exact ⟨hne dependent htouch, hmem⟩
  · refine ⟨_, _, rfl, List.length_set, hnodup, hcounts _, fun key => ?_⟩
    refine ⟨fun hmem => ⟨hmem, fun j hj he => ?_⟩, fun h => h.1⟩
    -- a dependent that waits for something is not ready
    have hj := honly hj
    subst hj
    exact hzero (hready j (he ▸ hmem))

theorem hold_settles (hlength : w.unresolved.length = w.state.length)
    (hready : ∀ j, w.readyKey j ∈ w.ready → w.unresolvedOf j = 0) (hnodup : w.ready.Nodup)
    (item : Nat) (dependents : List Nat) (hdistinct : dependents.Nodup) :
    Settles (dependents.foldlM (hold item) w) (Held w item dependents) fun _ => True := by
  induction dependents generalizing w with
  | nil =>
    refine ⟨w.unresolved, w.ready, rfl, rfl, hnodup, fun j => ?_, fun key => ?_⟩
    · rw [if_neg fun h => absurd h.1 List.not_mem_nil]
      rfl
    · exact ⟨fun h => ⟨h, fun j hj => absurd hj.1 List.not_mem_nil⟩, fun h => h.1⟩
  | cons dependent dependents ih =>
    obtain ⟨hnew, hrest⟩ := List.nodup_cons.mp hdistinct
    rw [List.foldlM_cons]
    apply Settles.bind (hold_step hlength hready hnodup item dependent)
    rintro _ ⟨unresolved, ready, rfl, hlength', hnodup', hcounts, hkeys⟩
    apply (ih (hlength'.trans hlength) (fun j hj => ?_) hnodup' hrest).mono
    · rintro w' ⟨unresolved', ready', rfl, hlength'', hnodup'', hcounts', hkeys'⟩
      refine ⟨unresolved', ready', rfl, hlength''.trans hlength', hnodup'', fun j => ?_, fun key => ?_⟩
      · rw [hcounts' j, hcounts j, Nat.add_assoc]
        have hone (h : w.Touches item [dependent] j) : ¬ w.Touches item dependents j := fun h' =>
          hnew ((List.mem_singleton.mp h.1) ▸ h'.1)
        change _ + ((if w.Touches item [dependent] j then 1 else 0) +
          if w.Touches item dependents j then 1 else 0) = _
        by_cases hfirst : w.Touches item [dependent] j
        · rw [if_pos hfirst, if_neg (hone hfirst), if_pos (touches_cons.mpr (.inl hfirst))]
        · by_cases hlater : w.Touches item dependents j
          · rw [if_neg hfirst, if_pos hlater, if_pos (touches_cons.mpr (.inr hlater))]
          · rw [if_neg hfirst, if_neg hlater, if_neg fun h => (touches_cons.mp h).elim hfirst hlater]
      · rw [hkeys', hkeys]
        constructor
        · rintro ⟨⟨hmem, hfirst⟩, hlater⟩
          exact ⟨hmem, fun j hj => (touches_cons.mp hj).elim (hfirst j) (hlater j)⟩
        · rintro ⟨hmem, hall⟩
          exact ⟨⟨hmem, fun j hj => hall j (touches_cons.mpr (.inl hj))⟩,
            fun j hj => hall j (touches_cons.mpr (.inr hj))⟩
    · obtain ⟨hmem, hne⟩ := (hkeys _).mp hj
      rw [hcounts, hready j hmem, if_neg fun h => hne j h rfl]

/-- The counts and the ready set after some dependents were released. -/
def Released (w : DependencyWorklist) (item : Nat) (dependents : List Nat) (w' : DependencyWorklist) :
    Prop :=
  ∃ unresolved ready, w' = { w with unresolved, ready } ∧ unresolved.length = w.unresolved.length ∧
    ready.Nodup ∧
    (∀ j, w'.unresolvedOf j + (if w.Touches item dependents j then 1 else 0) = w.unresolvedOf j) ∧
    ∀ key, key ∈ ready ↔ key ∈ w.ready ∨
      ∃ j, w.Touches item dependents j ∧ w.unresolvedOf j = 1 ∧ key = w.readyKey j

theorem release_step (hlength : w.unresolved.length = w.state.length) (hnodup : w.ready.Nodup)
    (hpositive : ∀ j, w.Touches item [dependent] j → w.unresolvedOf j ≠ 0) :
    Settles (release item w dependent) (Released w item [dependent]) fun _ => False := by
  have honly {j : Nat} (h : w.Touches item [dependent] j) : j = dependent := List.mem_singleton.mp h.1
  unfold release
  split_ifs with hskip hzero hone
  · have hnone (j : Nat) : ¬ w.Touches item [dependent] j := by
      intro h
      have hj := honly h
      subst hj
      rcases hskip with hdisabled | hstate
      · rw [h.2.1] at hdisabled
        cases hdisabled
      · exact hstate h.2.2
    refine ⟨w.unresolved, w.ready, rfl, rfl, hnodup, fun j => ?_, fun key => ?_⟩
    · rw [if_neg (hnone j)]
      rfl
    · exact ⟨.inl, fun h => h.resolve_right fun ⟨j, hj, _⟩ => hnone j hj⟩
  all_goals
    rw [not_or, Bool.not_eq_false, not_not] at hskip
    have htouch : w.Touches item [dependent] dependent := ⟨List.mem_singleton.mpr rfl, hskip⟩
    have hcount := hpositive dependent htouch
  · exact hcount hzero
  all_goals
    have hlt : dependent < w.unresolved.length := by
      rw [hlength]
      exact stateOf_lt (by rw [hskip.2]; decide)
    have hcounts (ready : List (Nat × Nat)) (j : Nat) : unresolvedOf { w with
        ready, unresolved := w.unresolved.set dependent (w.unresolvedOf dependent - 1) } j +
          (if w.Touches item [dependent] j then 1 else 0) = w.unresolvedOf j := by
      rw [unresolvedOf_set ready hlt]
      split_ifs with hj hj' hj'
      · rw [hj]
        omega
      · exact absurd (hj ▸ htouch) hj'
      · exact absurd (honly hj') hj
      · rfl
  · refine ⟨_, _, rfl, List.length_set, insertKey_nodup hnodup, hcounts _, fun key => ?_⟩
    rw [mem_insertKey]
    constructor
    · rintro (rfl | hmem)
      · exact .inr ⟨dependent, htouch, by omega, rfl⟩
      · exact .inl hmem
    · rintro (hmem | ⟨j, hj, -, rfl⟩)
      · exact .inr hmem
      · exact .inl (by rw [honly hj])
  · refine ⟨_, _, rfl, List.length_set, hnodup, hcounts _, fun key => ?_⟩
    refine ⟨.inl, fun h => h.resolve_right ?_⟩
    rintro ⟨j, hj, hcount', -⟩
    rw [honly hj] at hcount'
    omega

theorem release_settles (hlength : w.unresolved.length = w.state.length) (hnodup : w.ready.Nodup)
    {dependents : List Nat} (hdistinct : dependents.Nodup)
    (hpositive : ∀ j, w.Touches item dependents j → w.unresolvedOf j ≠ 0) :
    Settles (dependents.foldlM (release item) w) (Released w item dependents) fun _ => False := by
  induction dependents generalizing w with
  | nil =>
    refine ⟨w.unresolved, w.ready, rfl, rfl, hnodup, fun j => ?_, fun key => ?_⟩
    · rw [if_neg fun h => absurd h.1 List.not_mem_nil]
      rfl
    · exact ⟨.inl, fun h => h.resolve_right fun ⟨j, hj, _⟩ => absurd hj.1 List.not_mem_nil⟩
  | cons dependent dependents ih =>
    obtain ⟨hnew, hrest⟩ := List.nodup_cons.mp hdistinct
    rw [List.foldlM_cons]
    apply Settles.bind (release_step hlength hnodup fun j hj => hpositive j (touches_cons.mpr (.inl hj)))
    rintro _ ⟨unresolved, ready, rfl, hlength', hnodup', hcounts, hkeys⟩
    have hone {j : Nat} (h : w.Touches item [dependent] j) : ¬ w.Touches item dependents j := fun h' =>
      hnew ((List.mem_singleton.mp h.1) ▸ h'.1)
    have hsame {j : Nat} (h : w.Touches item dependents j) :
        unresolvedOf { w with unresolved, ready } j = w.unresolvedOf j := by
      have := hcounts j
      rwa [if_neg fun h' => hone h' h] at this
    apply (ih (hlength'.trans hlength) hnodup' hrest fun j hj => ?_).mono
    · rintro w' ⟨unresolved', ready', rfl, hlength'', hnodup'', hcounts', hkeys'⟩
      refine ⟨unresolved', ready', rfl, hlength''.trans hlength', hnodup'', fun j => ?_, fun key => ?_⟩
      · rw [← hcounts j, ← hcounts' j, Nat.add_assoc]
        change _ = _ + ((if w.Touches item dependents j then 1 else 0) +
          if w.Touches item [dependent] j then 1 else 0)
        by_cases hfirst : w.Touches item [dependent] j
        · rw [if_pos hfirst, if_neg (hone hfirst), if_pos (touches_cons.mpr (.inl hfirst))]
        · by_cases hlater : w.Touches item dependents j
          · rw [if_neg hfirst, if_pos hlater, if_pos (touches_cons.mpr (.inr hlater))]
          · rw [if_neg hfirst, if_neg hlater, if_neg fun h => (touches_cons.mp h).elim hfirst hlater]
      · rw [hkeys', hkeys]
        constructor
        · rintro ((hmem | ⟨j, hj, hcount, rfl⟩) | ⟨j, hj, hcount, rfl⟩)
          · exact .inl hmem
          · exact .inr ⟨j, touches_cons.mpr (.inl hj), hcount, rfl⟩
          · exact .inr ⟨j, touches_cons.mpr (.inr hj), hsame hj ▸ hcount, rfl⟩
        · rintro (hmem | ⟨j, hj, hcount, rfl⟩)
          · exact .inl (.inl hmem)
          · rcases touches_cons.mp hj with hj | hj
            · exact .inl (.inr ⟨j, hj, hcount, rfl⟩)
            · exact .inr ⟨j, hj, (hsame hj).trans hcount, rfl⟩
    · rw [hsame hj]
      exact hpositive j (touches_cons.mpr (.inr hj))

end Dependents

end DependencyWorklist

end Opto.Runtime
