import Opto.Library.Table
import Opto.Logic.Literal

/-!
# Node tables and the functions they compute

A network is a list of nodes; node zero is the shared constant and every other
node is an input or a gate over literals of earlier nodes. `values` evaluates a
whole table under an assignment of the input leaves, addressed by node.
-/

namespace Opto.Logic

inductive NodeKind
  | constant | input | and | xor | mux
deriving DecidableEq, Repr

structure Node where
  kind : NodeKind
  fanin0 : Lit
  fanin1 : Lit
  fanin2 : Lit
  level : Nat
  origin : Nat
deriving DecidableEq, Repr

def NodeKind.arity : NodeKind → Nat
  | .constant | .input => 0
  | .and | .xor => 2
  | .mux => 3

def NodeKind.IsGate (k : NodeKind) : Prop := k = .and ∨ k = .xor ∨ k = .mux

instance (k : NodeKind) : Decidable k.IsGate := by unfold NodeKind.IsGate; infer_instance

def Node.fanins (n : Node) : List Lit := [n.fanin0, n.fanin1, n.fanin2].take n.kind.arity

inductive NodeKey
  | and (left right : Lit)
  | xor (left right : Lit)
  | mux (select thenValue elseValue : Lit)
deriving DecidableEq, Repr

/-- The structural key of a gate, as the structural index reads it. -/
def Node.key? (n : Node) : Option NodeKey :=
  match n.kind with
  | .and => some (.and n.fanin0 n.fanin1)
  | .xor => some (.xor n.fanin0 n.fanin1)
  | .mux => some (.mux n.fanin0 n.fanin1 n.fanin2)
  | .constant | .input => none

theorem Node.key?_isSome_iff (n : Node) : n.key?.isSome ↔ n.kind.IsGate := by
  cases h : n.kind <;> simp [Node.key?, NodeKind.IsGate, h]

/-- What a node computes from the values of its fanins. -/
def Node.denote (n : Node) (leaf : Bool) (v : Lit → Bool) : Bool :=
  match n.kind with
  | .constant => false
  | .input => leaf
  | .and => v n.fanin0 && v n.fanin1
  | .xor => v n.fanin0 ^^ v n.fanin1
  | .mux => if v n.fanin0 then v n.fanin1 else v n.fanin2

theorem Node.denote_gate (n : Node) (h : n.kind.IsGate) (leaf leaf' : Bool) (v : Lit → Bool) :
    n.denote leaf v = n.denote leaf' v := by
  rcases h with hk | hk | hk <;> rw [Node.denote, Node.denote, hk]

theorem Node.denote_congr (n : Node) (leaf : Bool) {v w : Lit → Bool}
    (h : ∀ l ∈ n.fanins, v l = w l) : n.denote leaf v = n.denote leaf w := by
  cases hk : n.kind <;> simp_all [Node.denote, Node.fanins, NodeKind.arity]

def Lit.read (values : List Bool) (l : Lit) : Bool :=
  values[l.node]?.getD false ^^ l.isInverted

@[simp] theorem Lit.read_inverted (values : List Bool) (l : Lit) :
    l.inverted.read values = !l.read values := by
  cases h : l.isInverted <;> simp [Lit.read, h]

def valueRow (leaf : Nat → Bool) (done : List Bool) (n : Node) : Bool :=
  n.denote (leaf done.length) (fun l => l.read done)

def values (leaf : Nat → Bool) (nodes : List Node) : List Bool :=
  Table.build (valueRow leaf) nodes

def eval (leaf : Nat → Bool) (nodes : List Node) (l : Lit) : Bool :=
  l.read (values leaf nodes)

/-- Fanins point strictly backwards. -/
def Topological (nodes : List Node) : Prop :=
  ∀ (i : Nat) (n : Node), nodes[i]? = some n → ∀ l ∈ n.fanins, l.node < i

section Evaluation

variable {leaf : Nat → Bool} {nodes : List Node}

@[simp] theorem eval_inverted (l : Lit) : eval leaf nodes l.inverted = !eval leaf nodes l :=
  Lit.read_inverted _ l

theorem eval_withPhase (l : Lit) (p : Bool) :
    eval leaf nodes (withPhase l p) = (eval leaf nodes l ^^ p) := by
  cases p <;> simp [withPhase]

theorem eval_positive (l : Lit) :
    eval leaf nodes l.positive = (eval leaf nodes l ^^ l.isInverted) := by
  cases h : l.isInverted <;> simp [eval, Lit.read, h]

theorem eval_phase (l : Lit) :
    eval leaf nodes l = (eval leaf nodes ⟨l.node, false⟩ ^^ l.isInverted) := by
  simp only [eval, Lit.read, Bool.xor_false]

theorem eval_extends {nodes' : List Node} (hp : nodes <+: nodes') {l : Lit}
    (hl : l.node < nodes.length) : eval leaf nodes' l = eval leaf nodes l := by
  simp [eval, Lit.read, values, Table.getElem?_build_extends _ hp hl]

theorem eval_node (ht : Topological nodes) {l : Lit} {n : Node}
    (hn : nodes[l.node]? = some n) (hpos : l.isInverted = false) :
    eval leaf nodes l = n.denote (leaf l.node) (eval leaf nodes) := by
  have hi : l.node < nodes.length := (List.getElem?_eq_some_iff.mp hn).1
  have hrow := Table.getElem?_build (valueRow leaf) hn
  have hlen : (nodes.take l.node).length = l.node := by simp; omega
  rw [eval, Lit.read, values, hrow, hpos]
  simp only [Option.getD_some, Bool.xor_false, valueRow, Table.length_build, hlen]
  -- the row sees only earlier rows, which the whole table agrees with
  refine Node.denote_congr n _ fun f hf => ?_
  simp only [eval, Lit.read, values]
  rw [Table.getElem?_build_take _ _ (ht _ n hn f hf) (Nat.le_of_lt hi)]

theorem eval_FALSE {n : Node} (h : nodes[0]? = some n) (hk : n.kind = .constant)
    (ht : Topological nodes) : eval leaf nodes .FALSE = false := by
  rw [eval_node ht (l := .FALSE) h rfl]
  simp [Node.denote, hk]

end Evaluation

/-! Tree weights bound how deep the canonicalization rules can recurse. -/

def Lit.weigh (weights : List Nat) (l : Lit) : Nat := weights[l.node]?.getD 1

def weightRow (done : List Nat) (n : Node) : Nat :=
  1 + (n.fanins.map (Lit.weigh done)).sum

def weights (nodes : List Node) : List Nat := Table.build weightRow nodes

def weight (nodes : List Node) (l : Lit) : Nat := l.weigh (weights nodes)

section Weight

variable {nodes : List Node}

@[simp] theorem weight_inverted (l : Lit) : weight nodes l.inverted = weight nodes l := rfl
@[simp] theorem weight_positive (l : Lit) : weight nodes l.positive = weight nodes l := rfl

@[simp] theorem weight_withPhase (l : Lit) (p : Bool) :
    weight nodes (withPhase l p) = weight nodes l := by
  cases p <;> rfl

theorem weight_extends {nodes' : List Node} (hp : nodes <+: nodes') {l : Lit}
    (hl : l.node < nodes.length) : weight nodes' l = weight nodes l := by
  simp [weight, Lit.weigh, weights, Table.getElem?_build_extends _ hp hl]

theorem weight_node (ht : Topological nodes) {l : Lit} {n : Node}
    (hn : nodes[l.node]? = some n) :
    weight nodes l = 1 + (n.fanins.map (weight nodes)).sum := by
  have hi : l.node < nodes.length := (List.getElem?_eq_some_iff.mp hn).1
  rw [weight, Lit.weigh, weights, Table.getElem?_build weightRow hn, Option.getD_some, weightRow]
  congr 2
  refine List.map_congr_left fun f hf => ?_
  simp only [weight, Lit.weigh, weights]
  rw [Table.getElem?_build_take _ _ (ht _ n hn f hf) (Nat.le_of_lt hi)]

theorem weight_pos (nodes : List Node) (l : Lit) : 0 < weight nodes l := by
  unfold weight Lit.weigh weights
  cases h : nodes[l.node]? with
  | none =>
    rw [List.getElem?_eq_none (by simpa using List.getElem?_eq_none_iff.mp h)]
    simp
  | some n => rw [Table.getElem?_build weightRow h]; simp only [Option.getD_some, weightRow]; omega

end Weight

/-- An immutable network, as `freeze` seals it. -/
structure LogicNetwork where
  nodes : List Node
deriving DecidableEq

namespace LogicNetwork

def nodeCount (net : LogicNetwork) : Nat := net.nodes.length
def kind (net : LogicNetwork) (node : Nat) : Option NodeKind := net.nodes[node]?.map (·.kind)
def faninCount (net : LogicNetwork) (node : Nat) : Option Nat :=
  (net.kind node).map NodeKind.arity
def fanin (net : LogicNetwork) (node : Nat) : Nat → Option Lit
  | 0 => net.nodes[node]?.map (·.fanin0)
  | 1 => net.nodes[node]?.map (·.fanin1)
  | 2 => net.nodes[node]?.map (·.fanin2)
  | _ => none
def level (net : LogicNetwork) (node : Nat) : Option Nat := net.nodes[node]?.map (·.level)
def origin (net : LogicNetwork) (node : Nat) : Option Nat := net.nodes[node]?.map (·.origin)

end LogicNetwork
end Opto.Logic
