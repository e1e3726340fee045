import Mathlib.Data.Finset.Dedup
import Opto.Logic.CanonicalForm
import Opto.Synth.TruthWalk

/-!
# Soundness of cuts and their truth tables

A row of the database is in rank order with no leaf set twice, every cut of it
separates its node from the inputs, and the cut's truth table gives the value of
the node at the values of the leaves.
-/

namespace Opto.Synth

open Logic BitTable TruthScratch

variable {net : LogicNetwork}

/-- A path down the fanins of a node that ends at an input. -/
inductive InputPath (net : LogicNetwork) : Nat → List Nat → Prop
  | input {i : Nat} {n : Node} : net.nodes[i]? = some n → n.kind = .input → InputPath net i [i]
  | fanin {i : Nat} {n : Node} {f : Lit} {path : List Nat} : net.nodes[i]? = some n →
      f ∈ n.fanins → InputPath net f.node path → InputPath net i (i :: path)

theorem InputPath.starts {i : Nat} {path : List Nat} (h : InputPath net i path) : i ∈ path := by
  cases h <;> exact List.mem_cons_self

theorem Covered.meets {leaves : List Nat} {i : Nat} (h : Covered net leaves i) {path : List Nat}
    (hp : InputPath net i path) : ∃ x ∈ leaves, x ∈ path := by
  induction h generalizing path with
  | leaf hi => exact ⟨_, hi, hp.starts⟩
  | @constant i n hn hk =>
    cases hp with
    | input hm hkind =>
      rw [Option.some.inj (hn.symm.trans hm), hkind] at hk
      cases hk
    | @fanin _ m f path hm hf _ =>
      obtain rfl : n = m := Option.some.inj (hn.symm.trans hm)
      rw [Node.fanins, hk] at hf
      cases hf
  | @gate i n hn hk _ ih =>
    cases hp with
    | @input _ m hm hkind =>
      obtain rfl : n = m := Option.some.inj (hn.symm.trans hm)
      rw [NodeKind.IsGate, hkind] at hk
      rcases hk with hk | hk | hk <;> cases hk
    | @fanin _ m f path hm hf hpath =>
      obtain rfl : n = m := Option.some.inj (hn.symm.trans hm)
      obtain ⟨x, hx, hmem⟩ := ih f hf hpath
      exact ⟨x, hx, List.mem_cons_of_mem _ hmem⟩

/-- The table of a covering cut is computed, and exact. -/
theorem truthTableForCut_exact (hnet : Ordered net) {s : TruthScratch} (hs : Settled s) {root : Lit}
    (hroot : root.node < net.nodeCount) {cut : KCut} (hknown : ∀ x ∈ cut.leaves, x < net.nodeCount)
    (hcover : Covered net cut.leaves root.node) :
    ∃ table t, truthTableForCut net root cut s = some (table, t) ∧
      table.inputCount = cut.leaves.length ∧
      ∀ leaf, table.bit (indexOf (cut.leaves.map fun x => eval leaf net.nodes ⟨x, false⟩)) =
        eval leaf net.nodes root := by
  have hlen : cut.inputs.length = cut.leaves.length := List.length_map _
  have hsize : cut.inputs.length ≤ 6 := hlen ▸ cut.bounded
  have hmask := lowBitsMask_carries hsize
  obtain ⟨s₁, hset, hloaded⟩ := setInputs_loaded (begin_fresh hs net.nodeCount) hsize fun l hl => by
    obtain ⟨x, hx, rfl⟩ := List.mem_map.mp hl
    exact hknown x hx
  have hroots : ∀ r ∈ [root.node], r < net.nodeCount := fun r hr => by
    rw [List.mem_singleton.mp hr]; exact hroot
  obtain ⟨s₂, heval, htracks, -, hcurrent⟩ :=
    evaluate_tracks hnet hmask hroots (hloaded.tracks hnet.topological)
  obtain ⟨bits, hget, hcarries⟩ := htracks.get hmask (hcurrent _ (List.mem_singleton_self _))
  have held (x k : Nat) (hk : cut.leaves[k]? = some x) :
      loading cut.inputs.zipIdx x = some (·.testBit k) := leafForcing_leaf cut.ascending.nodup hk
  refine ⟨⟨cut.inputs.length, bits⟩, s₂, ?_, hlen, fun leaf => ?_⟩
  · simp only [truthTableForCut, hset, heval, hget, Option.bind_eq_bind, Option.bind_some]
    rfl
  · have hindex := indexOf_lt (cut.leaves.map fun x => eval leaf net.nodes ⟨x, false⟩)
    rw [List.length_map, ← hlen] at hindex
    refine (hcarries.bit hindex).trans (forcedBit_covered hnet ?_ ?_ hroot hcover)
    · -- the assignment holds every leaf at its own value
      intro x v hv
      by_cases hx : x ∈ cut.leaves
      · obtain ⟨k, hk⟩ := List.mem_iff_getElem?.mp hx
        cases (held x k hk).symm.trans hv
        refine (testBit_indexOf _ k).trans ?_
        rw [List.getElem?_map, hk]
        rfl
      · have hother : loading cut.inputs.zipIdx x = none := leafForcing_other hx
        rw [hother] at hv
        cases hv
    · intro x hx
      obtain ⟨k, hk⟩ := List.mem_iff_getElem?.mp hx
      rw [held x k hk]
      rfl

theorem leafSets_nodup {row : List KCut} (h : row.Pairwise (· < ·)) :
    (row.map fun cut => cut.leaves.toFinset).Nodup := by
  refine (h.imp (S := (· ≠ ·)) fun hab => hab.ne).map _ fun a c hne heq => hne ?_
  ext1
  exact List.Perm.eq_of_pairwise (fun x y _ _ hxy hyx => absurd hxy (Nat.lt_asymm hyx))
    a.ascending c.ascending
    ((List.perm_ext_iff_of_nodup a.ascending.nodup c.ascending.nodup).mpr fun x => by
      rw [← List.mem_toFinset, heq, List.mem_toFinset])

/-- Every row of a database is ranked and free of duplicates, and every cut of it
covers its node and yields an exact table, whatever the scratch served before. -/
theorem cuts_sound {b : LogicBuilder} (hb : Reachable b) (caps : CutCaps) :
    ∃ database, parallelCutDatabase caps b.freeze = some database ∧
      ∀ root : Lit, root.node < b.nodes.length →
        (database.cuts root.node).Pairwise (fun a c => a.rank < c.rank) ∧
        ((database.cuts root.node).map fun cut => cut.leaves.toFinset).Nodup ∧
        ∀ cut ∈ database.cuts root.node, cut.leaves.Pairwise (· < ·) ∧
          (∀ path, InputPath b.freeze root.node path → ∃ x ∈ cut.leaves, x ∈ path) ∧
          ∀ s, Used s → ∃ table t, truthTableForCut b.freeze root cut s = some (table, t) ∧
            table.inputCount = cut.leaves.length ∧
            ∀ leaf, table.bit (indexOf (cut.leaves.map fun x => eval leaf b.nodes ⟨x, false⟩)) =
              eval leaf b.nodes root := by
  have hnet := ordered_freeze hb.inv
  refine ⟨_, parallelCutDatabase_eq hnet, fun root hroot => ?_⟩
  have hranked : ((cutDatabase caps b.freeze).cuts root.node).Pairwise (· < ·) := by
    rw [cuts_eq hnet]
    exact (rowOf caps b.freeze root.node).ranked
  have hn : b.freeze.nodes[root.node]? = some b.nodes[root.node] := List.getElem?_eq_getElem hroot
  refine ⟨hranked, leafSets_nodup hranked, fun cut hcut => ?_⟩
  obtain ⟨hcover, hbelow⟩ := cut_covers hnet hn hcut
  refine ⟨cut.ascending, fun path hpath => hcover.meets hpath, fun s hs => ?_⟩
  exact truthTableForCut_exact hnet hs.settled hroot
    (fun x hx => lt_of_le_of_lt (hbelow x hx) hroot) hcover

/-- A conjunction of two inputs, built by three calls. -/
def product : LogicBuilder :=
  ⟨[⟨.constant, .FALSE, .FALSE, .FALSE, 0, 0⟩, .leaf, .leaf, .product],
    [(.and ⟨1, false⟩ ⟨2, false⟩, 3)]⟩

theorem reachable_product : Reachable product := by
  have inputs : Reachable (leaves 2) := reachable_leaves (by decide)
  exact inputs.ok (c := .and ⟨1, false⟩ ⟨2, false⟩ 0) (by simp [Call.args, Valid, leaves])
    (l := ⟨3, false⟩) rfl

def pairCaps : CutCaps := ⟨2, 4, by decide, by decide, by decide⟩

def pair : KCut := ⟨[1, 2], by decide, by decide⟩

/-- The cut at the inputs is stored, and its table reads the conjunction. -/
theorem product_pair : pair ∈ (cutDatabase pairCaps product.freeze).cuts 3 ∧
    ∃ table t, truthTableForCut product.freeze ⟨3, false⟩ pair .default = some (table, t) ∧
      ∀ leaf, table.bit (indexOf [eval leaf product.nodes ⟨1, false⟩,
        eval leaf product.nodes ⟨2, false⟩]) = eval leaf product.nodes ⟨3, false⟩ := by
  have hmem : pair ∈ (cutDatabase pairCaps product.freeze).cuts 3 := by decide +kernel
  obtain ⟨database, hdatabase, h⟩ := cuts_sound reachable_product pairCaps
  cases (parallelCutDatabase_eq (ordered_freeze reachable_product.inv)).symm.trans hdatabase
  obtain ⟨-, -, hcuts⟩ := h ⟨3, false⟩ (by decide)
  obtain ⟨-, -, htable⟩ := hcuts pair hmem
  obtain ⟨table, t, hrun, -, hbit⟩ := htable .default .default
  exact ⟨hmem, table, t, hrun, hbit⟩

end Opto.Synth
