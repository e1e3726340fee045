import Opto.Library.FanoutFree
import Opto.Library.Probing
import Opto.Synth.Cuts
import Opto.Synth.Graph

/-!
# The removable cone of a rewrite

A rewrite of a root frees the gates that only the root's cone refers to. The traversal
counts down references in a sparse table with a fixed budget and stops where the budget does.
-/

namespace Opto.Synth

open Logic

def AND_WEIGHT : Nat := 2
def XOR_WEIGHT : Nat := 5
def MUX_WEIGHT : Nat := 6

def nodeWeight (node : Node) : Nat :=
  match node.kind with
  | .constant | .input => 0
  | .and => AND_WEIGHT
  | .xor => XOR_WEIGHT
  | .mux => MUX_WEIGHT

def MFFC_NODE_BUDGET : Nat := 4096
def MFFC_TABLE_CAPACITY : Nat := MFFC_NODE_BUDGET * 2

instance : NeZero MFFC_TABLE_CAPACITY := ⟨by decide⟩

/-- Node zero marks a free slot; a node is stored under its successor. -/
structure ReferenceDelta where
  node : Nat
  decrements : Nat

structure MffcScratch where
  deltas : Fin MFFC_TABLE_CAPACITY → ReferenceDelta
  touched : List (Fin MFFC_TABLE_CAPACITY)
  dying : List Nat

/-- Why a traversal stops: it gives up, or it would never end or read out of bounds. -/
inductive Stop
  | abandoned
  | fuel
  | panic
deriving DecidableEq

abbrev ScratchM := EStateM Stop MffcScratch

namespace MffcScratch

def new : MffcScratch := ⟨fun _ => ⟨0, 0⟩, [], []⟩

def begin (s : MffcScratch) (root : Nat) : MffcScratch where
  deltas := s.touched.foldl (fun deltas slot => Function.update deltas slot ⟨0, 0⟩) s.deltas
  touched := []
  dying := [root]

def occupant (s : MffcScratch) (slot : Fin MFFC_TABLE_CAPACITY) : Option Nat :=
  if (s.deltas slot).node = 0 then none else some (s.deltas slot).node

def home (key : Nat) : Fin MFFC_TABLE_CAPACITY := Fin.ofNat _ (key * 0x9e3779b9 % 2 ^ 32)

/-- Whether the last reference is gone. -/
def decrement (references : List Nat) (node : Nat) : ScratchM Bool := do
  let s ← get
  let key := node + 1
  if 2 ^ 32 ≤ key then throw .abandoned else
  match Probing.probe s.occupant key MFFC_TABLE_CAPACITY (home key), references[node]? with
  | none, _ => throw .fuel
  | _, none => throw .panic
  | some slot, some limit =>
    if (s.deltas slot).node = key then
      let decrements := (s.deltas slot).decrements + 1
      if 2 ^ 32 ≤ decrements then throw .abandoned else
      set { s with deltas := Function.update s.deltas slot ⟨key, decrements⟩ }
      if limit < decrements then throw .abandoned else
      return decrements = limit
    else
      if s.touched.length = MFFC_NODE_BUDGET then throw .abandoned else
      set { s with
        deltas := Function.update s.deltas slot ⟨key, 1⟩
        touched := s.touched ++ [slot] }
      return limit = 1

end MffcScratch

open MffcScratch

variable (net : LogicNetwork) (references : List Nat) (cut : KCut)

/-- One fanin of a dying node, with the weight and the stack so far. -/
def visitFanin (progress : Nat × List Nat) (fanin : Nat) : ScratchM (Nat × List Nat) :=
  if cut.contains fanin then pure progress else
  match net.nodes[fanin]? with
  | none => throw .panic
  | some node =>
    if node.kind.IsGate then do
      let dies ← decrement references fanin
      if dies then
        let s ← get
        if s.dying.length = MFFC_NODE_BUDGET then throw .abandoned else
        set { s with dying := s.dying ++ [fanin] }
        return (progress.1 + nodeWeight node, fanin :: progress.2)
      else return progress
    else pure progress

/-- The traversal takes the next node, and its fanins, in the order it is given. -/
def drainCone (order : List Nat → List Nat) : Nat → Nat → List Nat → ScratchM Nat
  | 0, weight, stack => if stack.isEmpty then pure weight else throw .fuel
  | fuel + 1, weight, stack =>
    match order stack with
    | [] => pure weight
    | current :: pending => do
      let (weight, stack) ← (order (faninsOf net current)).foldlM (visitFanin net references cut) (weight, pending)
      drainCone order fuel weight stack

def mffcWeightIn (order : List Nat → List Nat) (root : Nat) : ScratchM Nat := do
  modify fun s => s.begin root
  match net.nodes[root]? with
  | none => throw .panic
  | some node => drainCone net references cut order MFFC_NODE_BUDGET (nodeWeight node) [root]

/-- The weight of the cone, whose nodes are left in the scratch. -/
def mffcWeight (root : Nat) : ScratchM Nat := mffcWeightIn net references cut id root

end Opto.Synth
