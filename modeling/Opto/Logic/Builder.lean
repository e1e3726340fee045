import Opto.Library.Outcome
import Opto.Logic.Network

/-!
# The hash-consing builder

`LogicBuilder` owns the growing node table and the table of interned keys. Its
calls run in a state-and-error monad that keeps the state an error leaves
behind. `Canonical` is the surface the canonicalization rules need; the builder
allocates a node for a missing key.
-/

namespace Opto.Logic

/-- The rules recurse on fuel; running out is kept apart from the source's errors. -/
inductive Halt (ε : Type)
  | fuel
  | error (e : ε)
deriving DecidableEq

structure LogicBuilder where
  nodes : List Node
  interned : List (NodeKey × Nat)
deriving DecidableEq

abbrev BuildM := EStateM (Halt LogicError) LogicBuilder

def check {α : Type} (r : Except LogicError α) : BuildM α :=
  match r with
  | .ok a => pure a
  | .error e => throw (.error e)

namespace LogicBuilder

def new : LogicBuilder := ⟨[⟨.constant, .FALSE, .FALSE, .FALSE, 0, 0⟩], []⟩

def nodeCount (b : LogicBuilder) : Nat := b.nodes.length
def kind (b : LogicBuilder) (node : Nat) : Option NodeKind := b.nodes[node]?.map (·.kind)
def fanin (b : LogicBuilder) (node : Nat) : Nat → Option Lit
  | 0 => b.nodes[node]?.map (·.fanin0)
  | 1 => b.nodes[node]?.map (·.fanin1)
  | 2 => b.nodes[node]?.map (·.fanin2)
  | _ => none
def level (b : LogicBuilder) (node : Nat) : Option Nat := b.nodes[node]?.map (·.level)

def constant (value : Bool) : Lit := if value then .TRUE else .FALSE
def not (value : Lit) : Lit := value.inverted

def freeze (b : LogicBuilder) : LogicNetwork := ⟨b.nodes⟩

def nextLevel (b : LogicBuilder) (kind : NodeKind) (fanin0 fanin1 fanin2 : Lit) :
    Except LogicError Nat :=
  let below := ([fanin0, fanin1, fanin2].take kind.arity).filterMap fun f => b.level f.node
  let level := below.max?.getD 0 + (if kind = .constant ∨ kind = .input then 0 else 1)
  if level < 2 ^ 32 then .ok level else .error (.capacity "level")

/-- The node joins the table before its literal is checked. -/
def push (kind : NodeKind) (fanin0 fanin1 fanin2 : Lit) (origin : Nat) : BuildM Lit := do
  let b ← get
  let node ← check (NodeId.fromIndex b.nodes.length)
  let level ← check (b.nextLevel kind fanin0 fanin1 fanin2)
  let stored : Node := ⟨kind, fanin0, fanin1, fanin2, level, origin⟩
  set { b with nodes := b.nodes ++ [stored] }
  check (Lit.fromNode node)

def intern (key : NodeKey) (kind : NodeKind) (fanin0 fanin1 fanin2 : Lit) (origin : Nat) :
    BuildM Lit := do
  let b ← get
  match b.interned.lookup key with
  | some node => check (Lit.fromNode node)
  | none => do
    let literal ← push kind fanin0 fanin1 fanin2 origin
    modify fun b => { b with interned := (key, literal.node) :: b.interned }
    pure literal

def input (origin : Nat) : BuildM Lit := push .input .FALSE .FALSE .FALSE origin

end LogicBuilder

class Canonical (σ : Type) (ε : outParam Type) where
  kind : σ → Nat → Option NodeKind
  fanin : σ → Nat → Nat → Option Lit
  resolve : NodeKey → NodeKind → Lit → Lit → Lit → Nat → EStateM (Halt ε) σ Lit

instance : Canonical LogicBuilder LogicError where
  kind := LogicBuilder.kind
  fanin := LogicBuilder.fanin
  resolve := LogicBuilder.intern

end Opto.Logic
