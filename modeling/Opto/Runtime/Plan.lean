import Mathlib.Data.List.Dedup
import Mathlib.Data.List.Sort
import Opto.Library.Outcome
import Opto.Mapped.Names

/-!
# Dependency plans

A plan is sealed from a topological order: it keeps the exact edges in both directions
and the position of every item, which grows along the edges.
-/

namespace Opto.Runtime

open Mapped (U32_MAX U64_MAX)

inductive RuntimeError
  | cancelled
  | invalidDependencyPlan (detail : String)
  deriving DecidableEq, Repr

def invalid {α : Type} (detail : String) : Except RuntimeError α :=
  .error (.invalidDependencyPlan detail)

/-- The columns of every row, ascending. -/
structure CsrEdges where
  rows : List (List Nat)
  deriving DecidableEq, Repr

namespace CsrEdges

def row (edges : CsrEdges) (item : Nat) : List Nat := edges.rows[item]?.getD []

def columns (edges : List (Nat × Nat)) (row : Nat) : List Nat :=
  ((edges.filter (·.1 = row)).map (·.2)).dedup.insertionSort (· ≤ ·)

def sealRows (rowCount : Nat) (edges : List (Nat × Nat)) : Except RuntimeError CsrEdges :=
  if U32_MAX < edges.length then invalid "dependency edge count exceeds 32-bit capacity"
  else if U64_MAX ≤ rowCount then invalid "dependency row count exceeds addressable capacity"
  -- the packed rows refuse a row count beyond 32 bits with the same message
  else if edges.any (rowCount ≤ ·.1) ∨ U32_MAX < rowCount then
    invalid "dependency edge row is outside the item arena"
  else .ok ⟨(List.range rowCount).map (columns edges)⟩

theorem mem_columns {edges : List (Nat × Nat)} {row column : Nat} :
    column ∈ columns edges row ↔ (row, column) ∈ edges := by
  rw [columns, (List.perm_insertionSort (· ≤ ·) _).mem_iff, List.mem_dedup, List.mem_map]
  constructor
  · rintro ⟨⟨r, c⟩, hmem, rfl⟩
    obtain ⟨hmem, hrow⟩ := List.mem_filter.mp hmem
    have hr : r = row := of_decide_eq_true hrow
    rw [← hr]
    exact hmem
  · intro h
    exact ⟨(row, column), List.mem_filter.mpr ⟨h, by simp⟩, rfl⟩

theorem columns_nodup (edges : List (Nat × Nat)) (row : Nat) : (columns edges row).Nodup :=
  (List.perm_insertionSort (· ≤ ·) _).nodup_iff.mpr (List.nodup_dedup _)

theorem length_columns_le (edges : List (Nat × Nat)) (row : Nat) :
    (columns edges row).length ≤ edges.length := by
  rw [columns, List.length_insertionSort]
  calc ((edges.filter (·.1 = row)).map (·.2)).dedup.length
    _ ≤ ((edges.filter (·.1 = row)).map (·.2)).length := (List.dedup_sublist _).length_le
    _ ≤ edges.length := by
      rw [List.length_map]
      exact List.length_filter_le _ _

/-- What sealed edges have. -/
structure Sealed (edges : CsrEdges) (rowCount : Nat) (pairs : List (Nat × Nat)) : Prop where
  length : edges.rows.length = rowCount
  mem : ∀ row column, column ∈ edges.row row ↔ (row, column) ∈ pairs
  nodup : ∀ row, (edges.row row).Nodup
  short : ∀ row, (edges.row row).length ≤ U32_MAX

theorem sealRows_settles (rowCount : Nat) (pairs : List (Nat × Nat)) :
    Settles (sealRows rowCount pairs) (fun edges => edges.Sealed rowCount pairs) fun _ => True := by
  unfold sealRows
  split_ifs with hlong _ hout
  · trivial
  · trivial
  · trivial
  · have hin : ∀ pair ∈ pairs, pair.1 < rowCount := by
      intro pair hpair
      by_contra hge
      exact hout (.inl (List.any_eq_true.mpr ⟨pair, hpair, by simpa using hge⟩))
    have hrow (row : Nat) : CsrEdges.row ⟨(List.range rowCount).map (columns pairs)⟩ row =
        columns pairs row := by
      rw [CsrEdges.row, List.getElem?_map]
      by_cases hlt : row < rowCount
      · rw [List.getElem?_range hlt]
        rfl
      · rw [List.getElem?_eq_none (by rw [List.length_range]; omega)]
        apply (List.eq_nil_iff_forall_not_mem.mpr fun column hmem => ?_).symm
        exact hlt (hin _ (mem_columns.mp hmem))
    refine ⟨?_, fun row column => ?_, fun row => ?_, fun row => ?_⟩
    · rw [List.length_map, List.length_range]
    · rw [hrow, mem_columns]
    · rw [hrow]
      exact columns_nodup pairs row
    · rw [hrow]
      exact Nat.le_trans (length_columns_le pairs row) (Nat.not_lt.mp hlong)

end CsrEdges

inductive DependencyDirection
  | forward
  | reverse
  deriving DecidableEq, Repr

structure DependencyPlan where
  predecessors : CsrEdges
  successors : CsrEdges
  positions : List Nat
  deriving DecidableEq, Repr

namespace DependencyPlan

def place (positions : List Nat) (entry : Nat × Nat) : Except RuntimeError (List Nat) :=
  match positions[entry.1]? with
  | none => invalid "topological order contains an invalid item"
  | some slot =>
    if slot ≠ U32_MAX then invalid "topological order contains a duplicate item"
    else if U32_MAX < entry.2 then invalid "dependency item count exceeds 32-bit capacity"
    else .ok (positions.set entry.1 entry.2)

def position (positions : List Nat) (item : Nat) : Nat := positions[item]?.getD 0

def link (itemCount : Nat) (positions : List Nat) (item : Nat) (edges : List (Nat × Nat))
    (dependency : Nat) : Except RuntimeError (List (Nat × Nat)) :=
  if itemCount ≤ dependency then invalid "dependency is outside the item arena"
  else if position positions item ≤ position positions dependency then
    invalid "dependency is not topologically ordered"
  else .ok (edges ++ [(item, dependency)])

def fromTopologicalOrder (itemCount : Nat) (order : List Nat) (dependencies : Nat → List Nat) :
    Except RuntimeError DependencyPlan := do
  if order.length ≠ itemCount then invalid "topological order does not cover the item arena"
  else
    let positions ← order.zipIdx.foldlM place (List.replicate itemCount U32_MAX)
    let predecessors ← order.foldlM (fun edges item =>
      (dependencies item).foldlM (link itemCount positions item) edges) []
    let successors := predecessors.map fun edge => (edge.2, edge.1)
    return {
      predecessors := ← CsrEdges.sealRows itemCount predecessors
      successors := ← CsrEdges.sealRows itemCount successors
      positions }

def itemCount (plan : DependencyPlan) : Nat := plan.positions.length

/-- The items that an item waits for. -/
def dependencies (plan : DependencyPlan) : DependencyDirection → Nat → List Nat
  | .forward, item => plan.predecessors.row item
  | .reverse, item => plan.successors.row item

/-- The items that wait for an item. -/
def dependents (plan : DependencyPlan) : DependencyDirection → Nat → List Nat
  | .forward, item => plan.successors.row item
  | .reverse, item => plan.predecessors.row item

/-- The order in which ready items are claimed. -/
def order (plan : DependencyPlan) : DependencyDirection → Nat → Nat
  | .forward, item => position plan.positions item
  | .reverse, item => U32_MAX - position plan.positions item

/-- What a sealed plan has, in either direction. -/
structure Sealed (plan : DependencyPlan) : Prop where
  dependency_lt : ∀ direction, ∀ item, ∀ d ∈ plan.dependencies direction item, d < plan.itemCount
  dependents_iff : ∀ direction, ∀ item d,
    item ∈ plan.dependents direction d ↔ d ∈ plan.dependencies direction item
  ordered : ∀ direction, ∀ item, ∀ d ∈ plan.dependencies direction item,
    plan.order direction d < plan.order direction item
  nodup : ∀ direction, ∀ item, (plan.dependencies direction item).Nodup
  nodup_dependents : ∀ direction, ∀ item, (plan.dependents direction item).Nodup
  short : ∀ direction, ∀ item, (plan.dependencies direction item).length ≤ U32_MAX

theorem place_settles {itemCount : Nat} {positions : List Nat} (h : positions.length = itemCount ∧
    ∀ p ∈ positions, p ≤ U32_MAX) (entry : Nat × Nat) :
    Settles (place positions entry) (fun positions => positions.length = itemCount ∧
      ∀ p ∈ positions, p ≤ U32_MAX) fun _ => True := by
  unfold place
  split
  · trivial
  · split_ifs with _ hlarge
    · trivial
    · trivial
    · refine ⟨by rw [List.length_set, h.1], fun p hp => ?_⟩
      rcases List.mem_or_eq_of_mem_set hp with hp | rfl
      · exact h.2 p hp
      · exact Nat.not_lt.mp hlarge

/-- The edges found so far join items of the plan, and positions grow along them. -/
def Ordered (itemCount : Nat) (positions : List Nat) (edges : List (Nat × Nat)) : Prop :=
  ∀ edge ∈ edges, edge.1 < itemCount ∧ edge.2 < itemCount ∧
    position positions edge.2 < position positions edge.1

theorem link_settles {itemCount : Nat} {positions : List Nat} {edges : List (Nat × Nat)}
    (hlength : positions.length = itemCount) (h : Ordered itemCount positions edges)
    (item dependency : Nat) : Settles (link itemCount positions item edges dependency)
      (Ordered itemCount positions) fun _ => True := by
  unfold link
  split_ifs with hout hle
  · trivial
  · trivial
  · intro edge hedge
    rcases List.mem_append.mp hedge with hedge | hedge
    · exact h edge hedge
    · rw [List.mem_singleton.mp hedge]
      refine ⟨?_, Nat.not_le.mp hout, Nat.not_le.mp hle⟩
      -- an item without a position would come first
      by_contra hge
      rw [position, List.getElem?_eq_none (by omega)] at hle
      exact hle (Nat.zero_le _)

theorem fromTopologicalOrder_settles (itemCount : Nat) (order : List Nat)
    (dependencies : Nat → List Nat) :
    Settles (fromTopologicalOrder itemCount order dependencies)
      (fun plan => plan.Sealed ∧ plan.itemCount = itemCount) fun _ => True := by
  unfold fromTopologicalOrder
  split_ifs
  · trivial
  · apply Settles.bind (Settles.foldlM (fun _ positions => positions.length = itemCount ∧
      ∀ p ∈ positions, p ≤ U32_MAX) ⟨List.length_replicate, fun p hp => ?_⟩
      fun _ entry _ positions h => place_settles h entry)
    · rintro positions ⟨hlength, hlarge⟩
      apply Settles.bind (Settles.foldlM (fun _ edges => Ordered itemCount positions edges)
        (fun _ h => absurd h List.not_mem_nil) fun _ item _ edges h => ?_)
      · intro edges hedges
        apply Settles.bind (CsrEdges.sealRows_settles itemCount edges)
        intro predecessors hpredecessors
        apply Settles.bind (CsrEdges.sealRows_settles itemCount _)
        intro successors hsuccessors
        have hswapped (item column : Nat) : column ∈ successors.row item ↔ (column, item) ∈ edges := by
          rw [hsuccessors.mem]
          simp
        have hle (item : Nat) : position positions item ≤ U32_MAX := by
          rw [position]
          cases hslot : positions[item]? with
          | none => exact Nat.zero_le _
          | some slot => exact hlarge slot (List.mem_of_getElem? hslot)
        refine ⟨⟨?_, ?_, ?_, ?_, ?_, ?_⟩, hlength⟩
        · intro direction item d hd
          rw [DependencyPlan.itemCount, hlength]
          cases direction with
          | forward => exact (hedges _ ((hpredecessors.mem item d).mp hd)).2.1
          | reverse => exact (hedges _ ((hswapped item d).mp hd)).1
        · intro direction item d
          cases direction with
          | forward => exact (hswapped d item).trans (hpredecessors.mem item d).symm
          | reverse => exact (hpredecessors.mem d item).trans (hswapped item d).symm
        · intro direction item d hd
          cases direction with
          | forward => exact (hedges _ ((hpredecessors.mem item d).mp hd)).2.2
          | reverse =>
            have hlt := (hedges _ ((hswapped item d).mp hd)).2.2
            have := hle d
            simp only [DependencyPlan.order] at hlt ⊢
            omega
        · intro direction item
          cases direction with
          | forward => exact hpredecessors.nodup item
          | reverse => exact hsuccessors.nodup item
        · intro direction item
          cases direction with
          | forward => exact hsuccessors.nodup item
          | reverse => exact hpredecessors.nodup item
        · intro direction item
          cases direction with
          | forward => exact hpredecessors.short item
          | reverse => exact hsuccessors.short item
      · apply Settles.foldlM (fun _ edges => Ordered itemCount positions edges) h
        exact fun _ dependency _ edges h => link_settles hlength h item dependency
    · rw [List.eq_of_mem_replicate hp]

end DependencyPlan

end Opto.Runtime
