import Opto.Logic.BuilderInvariant

/-!
# Frozen networks in order

What the passes over a frozen network rely on: node zero is the constant, and
fanins lie strictly earlier in the table and strictly lower in level. Freezing a
builder in its invariant gives such a network.
-/

namespace Opto.Logic

structure Ordered (net : LogicNetwork) : Prop where
  constant : ∃ n : Node, net.nodes[0]? = some n ∧ n.kind = .constant
  topological : Topological net.nodes
  levels : ∀ (i : Nat) (n : Node), net.nodes[i]? = some n →
    ∀ f ∈ n.fanins, levelOf net.nodes f.node < levelOf net.nodes i

theorem Node.isGate_of_mem_fanins {n : Node} {f : Lit} (h : f ∈ n.fanins) : n.kind.IsGate := by
  rw [Node.fanins] at h
  cases hk : n.kind <;> simp [hk, NodeKind.arity, NodeKind.IsGate] at h ⊢

theorem ordered_freeze {b : LogicBuilder} (h : Inv b) : Ordered b.freeze where
  constant := ⟨_, h.constant, rfl⟩
  topological := h.topological
  levels i n hn f hf := by
    have hn : b.nodes[i]? = some n := hn
    have hlev := h.leveled i n hn
    rw [Node.Leveled, if_pos (Node.isGate_of_mem_fanins hf)] at hlev
    have hmem : levelOf b.nodes f.node ∈ n.fanins.map fun f => levelOf b.nodes f.node :=
      List.mem_map_of_mem hf
    have hmax : levelOf b.nodes f.node ≤
        ((n.fanins.map fun f => levelOf b.nodes f.node).max?).getD 0 := by
      cases hx : (n.fanins.map fun f => levelOf b.nodes f.node).max? with
      | none => rw [List.max?_eq_none_iff.mp hx] at hmem; cases hmem
      | some x => exact (List.max?_eq_some_iff.mp hx).2 _ hmem
    have hi : levelOf b.nodes i = n.level := by simp [levelOf, hn]
    change levelOf b.nodes f.node < levelOf b.nodes i
    omega

theorem Ordered.fanin_lt {net : LogicNetwork} (h : Ordered net) {i : Nat} {n : Node}
    (hn : net.nodes[i]? = some n) {f : Lit} (hf : f ∈ n.fanins) : f.node < net.nodes.length :=
  Nat.lt_trans (h.topological i n hn f hf) (List.getElem?_eq_some_iff.mp hn).1

end Opto.Logic

/-! The value of a node when some nodes are held at given values and every input
that is not held reads false. -/

namespace Opto.Logic

def forcedRow (force : Nat → Option Bool) (done : List Bool) (n : Node) : Bool :=
  (force done.length).getD (n.denote false fun l => l.read done)

def forcedValues (force : Nat → Option Bool) (nodes : List Node) : List Bool :=
  Table.build (forcedRow force) nodes

def forcedEval (force : Nat → Option Bool) (nodes : List Node) (l : Lit) : Bool :=
  l.read (forcedValues force nodes)

variable {force : Nat → Option Bool} {nodes : List Node}

theorem forcedEval_phase (l : Lit) :
    forcedEval force nodes l = (forcedEval force nodes l.positive ^^ l.isInverted) := by
  simp only [forcedEval, Lit.read, Lit.node_positive, Lit.isInverted_positive, Bool.xor_false]

theorem forcedEval_node (ht : Topological nodes) {i : Nat} {n : Node} (hn : nodes[i]? = some n) :
    forcedEval force nodes ⟨i, false⟩ = (force i).getD (n.denote false (forcedEval force nodes)) := by
  have hi : i < nodes.length := (List.getElem?_eq_some_iff.mp hn).1
  have hlen : (nodes.take i).length = i := by rw [List.length_take]; omega
  rw [forcedEval, Lit.read, forcedValues, Table.getElem?_build _ hn, Option.getD_some,
    Bool.xor_false, forcedRow, Table.length_build, hlen]
  congr 1
  apply Node.denote_congr
  intro f hf
  rw [forcedEval, Lit.read, Lit.read, forcedValues,
    Table.getElem?_build_take _ _ (ht i n hn f hf) hi.le]

theorem forcedEval_of_force (ht : Topological nodes) {i : Nat} (hi : i < nodes.length) {v : Bool}
    (hv : force i = some v) : forcedEval force nodes ⟨i, false⟩ = v := by
  rw [forcedEval_node ht (List.getElem?_eq_getElem hi), hv, Option.getD_some]

end Opto.Logic
