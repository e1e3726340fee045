import Opto.Logic.Canonical

/-!
# The structural index and the read-only probe

The index is the hash table of a frozen network, rebuilt from its gates. The
probe runs the canonicalization rules against it and reports a missing key
instead of allocating a node.
-/

namespace Opto.Logic

structure StructuralIndex where
  nodes : List (NodeKey × Nat)
deriving DecidableEq

namespace StructuralIndex

def insert (nodes : List (NodeKey × Nat)) (entry : Node × Nat) : List (NodeKey × Nat) :=
  match entry.1.key? with
  | some key => (key, entry.2) :: nodes
  | none => nodes

/-- The scan stops at the first index without a 32-bit node identifier. -/
def of (network : LogicNetwork) : StructuralIndex :=
  ⟨(network.nodes.take (2 ^ 32)).zipIdx.foldl insert []⟩

end StructuralIndex

structure Absent where
deriving DecidableEq

structure LogicProbe where
  network : LogicNetwork
  index : StructuralIndex
deriving DecidableEq

abbrev ProbeM := EStateM (Halt Absent) LogicProbe

namespace LogicProbe

def resolve (key : NodeKey) : ProbeM Lit := do
  let probe ← get
  match probe.index.nodes.lookup key with
  | none => throw (.error ⟨⟩)
  | some node =>
    match Lit.fromNode node with
    | .ok literal => pure literal
    | .error _ => throw (.error ⟨⟩)

end LogicProbe

instance : Canonical LogicProbe Absent where
  kind probe := probe.network.kind
  fanin probe := probe.network.fanin
  resolve key _ _ _ _ _ := LogicProbe.resolve key

namespace LogicProbe

def and (left right : Lit) : ProbeM Lit := canonicalAnd left right 0

def or (left right : Lit) : ProbeM Lit := do
  let probe ← get
  let nodes := probe.network.nodes
  canonicalOr (weight nodes left + weight nodes right) left right 0

def xor (left right : Lit) : ProbeM Lit := do
  let probe ← get
  let nodes := probe.network.nodes
  canonicalXor (weight nodes left + weight nodes right) left right 0

def mux (select thenValue elseValue : Lit) : ProbeM Lit := do
  let probe ← get
  let nodes := probe.network.nodes
  canonicalMux (weight nodes select + weight nodes thenValue + weight nodes elseValue)
    select thenValue elseValue 0

end LogicProbe
end Opto.Logic
