import Mathlib.Algebra.Order.BigOperators.Group.List
import Mathlib.Algebra.Order.Group.Nat
import Mathlib.Data.List.Nodup
import Mathlib.Order.Bounds.Basic

/-!
# Fanout-free cones

In an acyclic graph of nodes and their children, the cone of a root has the root and
nodes that are referenced, and referenced from the cone only. A list that has exactly the
nodes with as many references from the list as from anywhere is the largest cone.
-/

namespace Opto.FanoutFree

variable {α : Type} [DecidableEq α]
variable (children : α → List α) (eligible : α → Prop) (pinned : List α) (root : α)

/-- The root, and nodes that nothing outside refers to. -/
structure Cone (cone : Set α) : Prop where
  top : root ∈ cone
  eligibles : ∀ n ∈ cone, n ≠ root → eligible n
  unpinned : ∀ n ∈ cone, n ≠ root → n ∉ pinned
  referenced : ∀ n ∈ cone, n ≠ root → ∃ i, n ∈ children i
  inside : ∀ n ∈ cone, n ≠ root → ∀ i, n ∈ children i → i ∈ cone

/-- The references to a node from some of the nodes and from outside the graph. -/
def references (nodes : List α) (n : α) : Nat := (nodes.flatMap children).count n + pinned.count n

variable {children eligible pinned root} {nodes cone : List α} {n : α}

theorem count_flatMap_eq_zero : (nodes.flatMap children).count n = 0 ↔ ∀ i ∈ nodes, n ∉ children i := by
  rw [List.count_eq_zero, List.mem_flatMap]
  exact ⟨fun h i hi hn => h ⟨i, hi, hn⟩, fun h ⟨i, hi, hn⟩ => h i hi hn⟩

/-- A part of the nodes has all references exactly when no other node refers. -/
theorem count_part (hnodup : cone.Nodup) (hsub : cone ⊆ nodes) (hnodes : nodes.Nodup) :
    (cone.flatMap children).count n ≤ (nodes.flatMap children).count n ∧
      ((cone.flatMap children).count n = (nodes.flatMap children).count n ↔
        ∀ i ∈ nodes, n ∈ children i → i ∈ cone) := by
  have hsplit : nodes.Perm (cone ++ nodes.filter (· ∉ cone)) := by
    apply (List.perm_ext_iff_of_nodup hnodes ?_).mpr
    · intro i
      simp only [List.mem_append, List.mem_filter, decide_eq_true_eq]
      constructor
      · intro hi
        by_cases hc : i ∈ cone
        · exact .inl hc
        · exact .inr ⟨hi, hc⟩
      · exact fun h => h.elim (fun hc => hsub hc) (·.1)
    · apply hnodup.append (hnodes.filter _)
      intro i hi hrest
      simp only [List.mem_filter, decide_eq_true_eq] at hrest
      exact hrest.2 hi
  have hcount := (hsplit.flatMap_right children).count_eq n
  rw [List.flatMap_append, List.count_append] at hcount
  refine ⟨by omega, ?_⟩
  have hzero : (cone.flatMap children).count n = (nodes.flatMap children).count n ↔
      ((nodes.filter (· ∉ cone)).flatMap children).count n = 0 := by omega
  rw [hzero, count_flatMap_eq_zero]
  simp only [List.mem_filter, decide_eq_true_eq]
  exact ⟨fun h i hi hn => by_contra fun hc => h i ⟨hi, hc⟩ hn, fun h i hi hn => hi.2 (h i hi.1 hn)⟩

/-- The nodes that the cone holds all references of. -/
def Complete (children : α → List α) (eligible : α → Prop) (pinned : List α) (root : α)
    (nodes cone : List α) : Prop :=
  ∀ n, n ≠ root → (n ∈ cone ↔ eligible n ∧ 0 < (cone.flatMap children).count n ∧
    (cone.flatMap children).count n = references children pinned nodes n)

theorem Complete.isGreatest (rank : α → Nat) (hacyclic : ∀ i, ∀ n ∈ children i, rank n < rank i)
    (hnodes : nodes.Nodup)
    (hall : ∀ i n, n ∈ children i → i ∈ nodes) (hnodup : cone.Nodup) (hsub : cone ⊆ nodes)
    (hroot : root ∈ cone) (h : Complete children eligible pinned root nodes cone) :
    IsGreatest {other | Cone children eligible pinned root other} {n | n ∈ cone} := by
  have hpart (n : α) : (cone.flatMap children).count n ≤ (nodes.flatMap children).count n ∧
      ((cone.flatMap children).count n = (nodes.flatMap children).count n ↔
        ∀ i ∈ nodes, n ∈ children i → i ∈ cone) := count_part hnodup hsub hnodes
  -- All references from the cone: none from outside the graph, none from other nodes.
  have hheld (n : α) : (cone.flatMap children).count n = references children pinned nodes n ↔
      n ∉ pinned ∧ ∀ i, n ∈ children i → i ∈ cone := by
    rw [references, ← List.count_eq_zero]
    obtain ⟨hle, heq⟩ := hpart n
    constructor
    · intro hcount
      exact ⟨by omega, fun i hi => heq.mp (by omega) i (hall i n hi) hi⟩
    · rintro ⟨hpinned, hinside⟩
      have hsame := heq.mpr fun i _ hi => hinside i hi
      omega
  constructor
  · refine ⟨hroot, fun n hn hne => ((h n hne).mp hn).1, fun n hn hne => ?_, fun n hn hne => ?_, fun n hn hne => ?_⟩
    · exact ((hheld n).mp ((h n hne).mp hn).2.2).1
    · obtain ⟨i, -, hi⟩ := List.mem_flatMap.mp (List.count_pos_iff.mp ((h n hne).mp hn).2.1)
      exact ⟨i, hi⟩
    · exact ((hheld n).mp ((h n hne).mp hn).2.2).2
  · -- Down the ranks: what refers to a member has a higher rank and is in already.
    intro other hother n hn
    obtain ⟨bound, hbound⟩ : ∃ bound, ∀ i ∈ nodes, rank i < bound :=
      ⟨(nodes.map rank).sum + 1, fun i hi => Nat.lt_succ_of_le (List.le_sum_of_mem (List.mem_map_of_mem hi))⟩
    induction hk : bound - rank n using Nat.strong_induction_on generalizing n with
    | _ k ih =>
      by_cases hne : n = root
      · exact hne ▸ hroot
      · have hinside (i : α) (hi : n ∈ children i) : i ∈ cone := by
          have hlt := hacyclic i n hi
          have hb := hbound i (hall i n hi)
          exact ih (bound - rank i) (by omega) (hother.inside n hn hne i hi) rfl
        obtain ⟨i, hi⟩ := hother.referenced n hn hne
        refine (h n hne).mpr ⟨hother.eligibles n hn hne, ?_, ?_⟩
        · exact List.count_pos_iff.mpr (List.mem_flatMap.mpr ⟨i, hinside i hi, hi⟩)
        · exact (hheld n).mpr ⟨hother.unpinned n hn hne, hinside⟩

end Opto.FanoutFree
