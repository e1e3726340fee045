import Mathlib.Data.List.Lex
import Mathlib.Data.Prod.Lex
import Opto.Library.Ranked
import Opto.Logic.Ordered

/-!
# Bounded cuts

A cut lists the positive leaf nodes that stand for the inputs of a node. Every
node keeps a bounded row of cuts in rank order: its own singleton first offered,
then the unions of its fanins' cuts. The database fills the rows level by level
from the rows of lower levels.
-/

namespace Opto.Synth

open Logic

def MAX_CUT_LEAVES : Nat := 6
def MAX_CUTS_PER_NODE : Nat := 32

/-- The limits a database is asked for; a larger request fails an assertion. -/
structure CutCaps where
  maxLeaves : Nat
  maxCuts : Nat
  leaves_le : maxLeaves ≤ MAX_CUT_LEAVES
  cuts_pos : 1 ≤ maxCuts
  cuts_le : maxCuts ≤ MAX_CUTS_PER_NODE

@[ext]
structure KCut where
  leaves : List Nat
  ascending : leaves.Pairwise (· < ·)
  bounded : leaves.length ≤ MAX_CUT_LEAVES
deriving DecidableEq

namespace KCut

def empty : KCut := ⟨[], .nil, by decide⟩

def singleton (node : Nat) : KCut := ⟨[node], List.pairwise_singleton _ _, by simp [MAX_CUT_LEAVES]⟩

def contains (cut : KCut) (node : Nat) : Bool := node ∈ cut.leaves

/-- The source ranks the unused array slots too; cuts of one length have the same ones. -/
def rank (cut : KCut) : Nat ×ₗ List Nat := toLex (cut.leaves.length, cut.leaves)

theorem rank_injective : Function.Injective rank := fun a b h => by
  ext1
  exact congrArg (fun r => (ofLex r).2) h

instance : LinearOrder KCut := LinearOrder.lift' rank rank_injective

theorem lt_iff {a b : KCut} : a < b ↔ a.rank < b.rank := Iff.rfl

end KCut

def pushLeaf (maxLeaves : Nat) (merged : List Nat) (leaf : Nat) : Option (List Nat) :=
  if merged.length = maxLeaves then none else some (merged ++ [leaf])

/-- An index of `merge` moves past the leaf that was taken. -/
def advance (leaf : Nat) : List Nat → List Nat
  | [] => []
  | x :: xs => if x = leaf then xs else x :: xs

theorem length_advance_min_lt (l r : Nat) (left right : List Nat) :
    (advance (min l r) (l :: left)).length + (advance (min l r) (r :: right)).length <
      (l :: left).length + (r :: right).length := by
  have hmin : min l r = l ∨ min l r = r := by omega
  simp only [advance]
  split_ifs <;> simp only [List.length_cons] <;> omega

/-- The loop of `merge` over two ascending leaf lists. -/
def mergeLeaves (maxLeaves : Nat) (merged : List Nat) : List Nat → List Nat → Option (List Nat)
  | l :: left, r :: right => do
    let merged ← pushLeaf maxLeaves merged (min l r)
    mergeLeaves maxLeaves merged (advance (min l r) (l :: left)) (advance (min l r) (r :: right))
  | left, right => (left ++ right).foldlM (pushLeaf maxLeaves) merged
termination_by left right => left.length + right.length
decreasing_by exact length_advance_min_lt l r left right

def unionLeaves : List Nat → List Nat → List Nat
  | l :: left, r :: right =>
    min l r :: unionLeaves (advance (min l r) (l :: left)) (advance (min l r) (r :: right))
  | left, right => left ++ right
termination_by left right => left.length + right.length
decreasing_by exact length_advance_min_lt l r left right

theorem foldlM_pushLeaf {maxLeaves : Nat} {merged : List Nat} (h : merged.length ≤ maxLeaves)
    (leaves : List Nat) : leaves.foldlM (pushLeaf maxLeaves) merged =
      if (merged ++ leaves).length ≤ maxLeaves then some (merged ++ leaves) else none := by
  induction leaves generalizing merged with
  | nil => simp [h]
  | cons leaf leaves ih =>
    rw [List.foldlM_cons, pushLeaf]
    split_ifs with hfull hfits hfits
    · rw [List.length_append, List.length_cons] at hfits; omega
    · rfl
    · rw [Option.bind_eq_bind, Option.bind_some, ih (by simp; omega), if_pos (by simpa using hfits)]
      simp
    · rw [Option.bind_eq_bind, Option.bind_some, ih (by simp; omega), if_neg (by simpa using hfits)]

/-- A merge is the union, when it fits. -/
theorem mergeLeaves_eq {maxLeaves : Nat} {merged : List Nat} (h : merged.length ≤ maxLeaves)
    (left right : List Nat) : mergeLeaves maxLeaves merged left right =
      if (merged ++ unionLeaves left right).length ≤ maxLeaves
      then some (merged ++ unionLeaves left right) else none := by
  induction left, right using unionLeaves.induct generalizing merged with
  | case1 l left r right ih =>
    rw [mergeLeaves, unionLeaves, pushLeaf]
    split_ifs with hfull hfits hfits
    · rw [List.length_append, List.length_cons] at hfits; omega
    · rfl
    · rw [Option.bind_eq_bind, Option.bind_some, ih (by simp; omega), if_pos (by simpa using hfits)]
      simp
    · rw [Option.bind_eq_bind, Option.bind_some, ih (by simp; omega), if_neg (by simpa using hfits)]
  | case2 left right hne =>
    rw [mergeLeaves, unionLeaves, foldlM_pushLeaf h] <;> assumption

theorem mem_of_mem_advance {leaf y : Nat} {xs : List Nat} (h : y ∈ advance leaf xs) : y ∈ xs := by
  cases xs with
  | nil => exact h
  | cons x xs =>
    rw [advance] at h
    split_ifs at h
    · exact List.mem_cons_of_mem _ h
    · exact h

theorem eq_or_mem_advance {leaf y : Nat} {xs : List Nat} (h : y ∈ xs) :
    y = leaf ∨ y ∈ advance leaf xs := by
  cases xs with
  | nil => cases h
  | cons x xs =>
    rw [advance]
    split_ifs with hx
    · rcases List.mem_cons.mp h with rfl | h
      · exact .inl hx
      · exact .inr h
    · exact .inr h

theorem ascending_advance {leaf : Nat} {xs : List Nat} (h : xs.Pairwise (· < ·)) :
    (advance leaf xs).Pairwise (· < ·) := by
  cases xs with
  | nil => exact h
  | cons x xs =>
    rw [advance]
    split_ifs
    · exact (List.pairwise_cons.mp h).2
    · exact h

theorem lt_of_mem_advance {leaf x y : Nat} {xs : List Nat} (h : (x :: xs).Pairwise (· < ·))
    (hle : leaf ≤ x) (hy : y ∈ advance leaf (x :: xs)) : leaf < y := by
  have hx := (List.pairwise_cons.mp h).1
  rw [advance] at hy
  split_ifs at hy with he
  · exact lt_of_le_of_lt hle (hx y hy)
  · rcases List.mem_cons.mp hy with rfl | hy
    · omega
    · exact lt_of_le_of_lt hle (hx y hy)

theorem mem_unionLeaves {left right : List Nat} {x : Nat} :
    x ∈ unionLeaves left right ↔ x ∈ left ∨ x ∈ right := by
  induction left, right using unionLeaves.induct with
  | case1 l left r right ih =>
    rw [unionLeaves, List.mem_cons, ih]
    constructor
    · rintro (rfl | h | h)
      · rcases Nat.le_total l r with hle | hle
        · exact .inl (by simp [Nat.min_eq_left hle])
        · exact .inr (by simp [Nat.min_eq_right hle])
      · exact .inl (mem_of_mem_advance h)
      · exact .inr (mem_of_mem_advance h)
    · rintro (h | h)
      · exact (eq_or_mem_advance h).imp_right .inl
      · exact (eq_or_mem_advance h).imp_right .inr
  | case2 left right hne => rw [unionLeaves, List.mem_append]; exact hne

theorem ascending_unionLeaves {left right : List Nat} (hl : left.Pairwise (· < ·))
    (hr : right.Pairwise (· < ·)) : (unionLeaves left right).Pairwise (· < ·) := by
  induction left, right using unionLeaves.induct with
  | case1 l left r right ih =>
    rw [unionLeaves]
    refine List.pairwise_cons.mpr ⟨fun y hy => ?_, ih (ascending_advance hl) (ascending_advance hr)⟩
    rcases mem_unionLeaves.mp hy with hy | hy
    · exact lt_of_mem_advance hl (Nat.min_le_left l r) hy
    · exact lt_of_mem_advance hr (Nat.min_le_right l r) hy
  | case2 left right hne =>
    rw [unionLeaves]
    · cases left with
      | nil => exact hr
      | cons l left =>
        cases right with
        | nil => rwa [List.append_nil]
        | cons r right => exact (hne l left r right rfl rfl).elim
    · exact hne

theorem KCut.union_valid {caps : CutCaps} {left right : KCut} {leaves : List Nat}
    (h : mergeLeaves caps.maxLeaves [] left.leaves right.leaves = some leaves) :
    leaves.Pairwise (· < ·) ∧ leaves.length ≤ MAX_CUT_LEAVES := by
  rw [mergeLeaves_eq (Nat.zero_le _), List.nil_append] at h
  split_ifs at h with hfits
  cases h
  exact ⟨ascending_unionLeaves left.ascending right.ascending, hfits.trans caps.leaves_le⟩

def KCut.merge (caps : CutCaps) (left right : KCut) : Option KCut :=
  match h : mergeLeaves caps.maxLeaves [] left.leaves right.leaves with
  | some leaves => some ⟨leaves, (union_valid h).1, (union_valid h).2⟩
  | none => none

theorem KCut.leaves_merge {caps : CutCaps} {left right cut : KCut}
    (h : left.merge caps right = some cut) : cut.leaves = unionLeaves left.leaves right.leaves := by
  rw [merge] at h
  split at h
  · rename_i leaves hm
    cases h
    rw [mergeLeaves_eq (Nat.zero_le _), List.nil_append] at hm
    split_ifs at hm
    exact (Option.some.inj hm).symm
  · cases h

/-- A bounded row in rank order. -/
@[ext]
structure CutSet (cap : Nat) where
  cuts : List KCut
  ranked : cuts.Pairwise (· < ·)
  bounded : cuts.length ≤ cap
deriving DecidableEq

namespace CutSet

variable {cap : Nat}

def withCap (cap : Nat) : CutSet cap := ⟨[], .nil, Nat.zero_le _⟩

def insert (set : CutSet cap) (candidate : KCut) : CutSet cap :=
  ⟨Ranked.insert cap set.cuts candidate, Ranked.ascending_insert set.ranked,
    Ranked.length_insert_le set.bounded⟩

def offer (set : CutSet cap) : Option KCut → CutSet cap
  | some merged => set.insert merged
  | none => set

end CutSet

def mergeBinaryCuts {cap : Nat} (caps : CutCaps) (left right : List KCut) (out : CutSet cap) :
    CutSet cap :=
  left.foldl (fun out leftCut =>
    right.foldl (fun out rightCut => out.offer (leftCut.merge caps rightCut)) out) out

/-- The intermediate row always has the full capacity. -/
def mergeTernaryCuts {cap : Nat} (caps : CutCaps) (first second third : List KCut)
    (out : CutSet cap) : CutSet cap :=
  let intermediate := mergeBinaryCuts caps first second (CutSet.withCap MAX_CUTS_PER_NODE)
  mergeBinaryCuts caps intermediate.cuts third out

/-- The row of a node from the rows of its fanins. -/
def nodeCuts (caps : CutCaps) (node : Node) (index : Nat) (predecessor : Lit → List KCut) :
    CutSet caps.maxCuts :=
  let set := CutSet.withCap caps.maxCuts
  match node.kind with
  | .constant => set.insert .empty
  | .input => set.insert (.singleton index)
  | .and | .xor =>
    mergeBinaryCuts caps (predecessor node.fanin0) (predecessor node.fanin1)
      (set.insert (.singleton index))
  | .mux =>
    mergeTernaryCuts caps (predecessor node.fanin0) (predecessor node.fanin1)
      (predecessor node.fanin2) (set.insert (.singleton index))

/-! The database, row by row and level by level. -/

section Database

variable (caps : CutCaps) (net : LogicNetwork)

abbrev CutRow := CutSet caps.maxCuts

/-- Reading a range that no level has published yet is an index out of bounds. -/
def cutSetFromPredecessors (ranges : List (Option (CutRow caps))) (index : Nat) :
    Option (CutRow caps) := do
  let node ← net.nodes[index]?
  let _ ← node.fanins.mapM fun fanin => ranges[fanin.node]?.join
  pure (nodeCuts caps node index fun fanin =>
    (ranges[fanin.node]?.join.map (·.cuts)).getD [])

def maxLevel : Nat := ((List.range net.nodeCount).map (levelOf net.nodes)).max?.getD 0

def levels : List (List Nat) :=
  (List.range (maxLevel net + 1)).map fun level =>
    (List.range net.nodeCount).filter fun index => levelOf net.nodes index = level

/-- The rows of one level are computed from the ranges before it and published together. -/
def publishLevel (ranges : List (Option (CutRow caps))) (nodes : List Nat) :
    Option (List (Option (CutRow caps))) := do
  let results ← nodes.mapM fun index => do
    let set ← cutSetFromPredecessors caps net ranges index
    pure (index, set)
  pure (results.foldl (fun ranges result => ranges.set result.1 (some result.2)) ranges)

structure CutDatabase where
  rows : List (List KCut)
deriving DecidableEq

def CutDatabase.cuts (database : CutDatabase) (node : Nat) : List KCut :=
  database.rows[node]?.getD []

def parallelCutDatabase : Option CutDatabase := do
  let ranges ← (levels net).foldlM (publishLevel caps net) (List.replicate net.nodeCount none)
  let rows ← ranges.mapM id
  pure ⟨rows.map (·.cuts)⟩

/-- The rows in node order, each from the rows before it. -/
def cutDatabase : CutDatabase :=
  ⟨Table.build (fun done node => (nodeCuts caps node done.length fun fanin =>
    done[fanin.node]?.getD []).cuts) net.nodes⟩

end Database

end Opto.Synth
