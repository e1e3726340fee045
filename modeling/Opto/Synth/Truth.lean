import Mathlib.Data.List.Sort
import Mathlib.Data.List.Dedup
import Opto.Library.BitTable
import Opto.Library.Worklist
import Opto.Synth.Cuts

/-!
# Truth tables of cuts

A word holds the value of a node at every assignment of at most six inputs. The
tables are computed by a depth-first walk over scratch arrays that are kept from
one call to the next: an entry is current when its stamp is the present epoch.
-/

namespace Opto.Synth

open Logic

def lowBitsMask (bitCount : Nat) : BitVec 64 :=
  if bitCount = 64 then BitVec.allOnes 64 else (1#64 <<< bitCount) - 1

def variableBits (input assignmentCount : Nat) : BitVec 64 :=
  (List.range assignmentCount).foldl
    (fun bits assignment => if assignment.testBit input then bits ||| 1#64 <<< assignment else bits) 0

def applyToBits (l : Lit) (bits validBits : BitVec 64) : BitVec 64 :=
  if l.isInverted then ~~~bits &&& validBits else bits

structure TruthTable where
  inputCount : Nat
  bits : BitVec 64
deriving DecidableEq

def TruthTable.bit (table : TruthTable) (assignment : Nat) : Bool := table.bits.getLsbD assignment

/-- The pending stack is empty between calls and is passed to the walk directly. -/
structure TruthScratch where
  bits : List (BitVec 64)
  epochs : List (BitVec 32)
  epoch : BitVec 32
  touched : List Nat
deriving DecidableEq

def resize {α : Type} (xs : List α) (length : Nat) (value : α) : List α :=
  xs.take length ++ List.replicate (length - xs.length) value

namespace TruthScratch

def default : TruthScratch := ⟨[], [], 0, []⟩

/-- A wrapped epoch would make stale entries current, so it clears them. -/
def begin (s : TruthScratch) (nodeCount : Nat) : TruthScratch :=
  let bits := resize s.bits nodeCount 0
  let epochs := resize s.epochs nodeCount 0
  let epoch := s.epoch + 1
  if epoch = 0 then ⟨bits, epochs.map fun _ => 0, 1, []⟩ else ⟨bits, epochs, epoch, []⟩

def contains (s : TruthScratch) (node : Nat) : Bool := s.epochs[node]? = some s.epoch

/-- A debug assertion holds the entry to be current. -/
def get (s : TruthScratch) (l : Lit) (validBits : BitVec 64) : Option (BitVec 64) :=
  if s.contains l.node then s.bits[l.node]?.map (applyToBits l · validBits) else none

def set (s : TruthScratch) (node : Nat) (bits : BitVec 64) : Option TruthScratch :=
  if node < s.epochs.length then
    some ⟨s.bits.set node bits, s.epochs.set node s.epoch, s.epoch,
      if s.contains node then s.touched else s.touched ++ [node]⟩
  else none

def nodeBits (s : TruthScratch) (validBits : BitVec 64) (logic : Node) : Option (BitVec 64) :=
  match logic.kind with
  | .constant | .input => some 0
  | .and => do
    let left ← s.get logic.fanin0 validBits
    let right ← s.get logic.fanin1 validBits
    pure (left &&& right)
  | .xor => do
    let left ← s.get logic.fanin0 validBits
    let right ← s.get logic.fanin1 validBits
    pure (left ^^^ right)
  | .mux => do
    let select ← s.get logic.fanin0 validBits
    let thenValue ← s.get logic.fanin1 validBits
    let elseValue ← s.get logic.fanin2 validBits
    pure (select &&& thenValue ||| ~~~select &&& elseValue &&& validBits)

/-- One iteration of the walk: what it does to the scratch and what it pushes. -/
def visit (net : LogicNetwork) (validBits : BitVec 64) (s : TruthScratch) :
    Nat × Bool → Option (TruthScratch × List (Nat × Bool))
  | (node, expanded) =>
    if s.contains node then some (s, [])
    else do
      let logic ← net.nodes[node]?
      if expanded then
        let bits ← s.nodeBits validBits logic
        let s ← s.set node bits
        pure (s, [])
      else
        let fanins := (logic.fanins.map (·.node)).filter fun fanin => !s.contains fanin
        pure (s, (fanins.reverse.map fun fanin => (fanin, false)) ++ [(node, true)])

/-- A node is expanded at most once on each path to it. -/
def fuel (net : LogicNetwork) (node : Nat) : Nat := 2 * weight net.nodes ⟨node, false⟩

def evaluate (net : LogicNetwork) (validBits : BitVec 64) (roots : List Nat) (s : TruthScratch) :
    Option TruthScratch :=
  roots.foldlM (fun s root => Worklist.drain (visit net validBits) (fuel net root) s [(root, false)]) s

def setInputs (inputs : List Lit) (validBits : BitVec 64) (s : TruthScratch) : Option TruthScratch :=
  inputs.zipIdx.foldlM (fun s input => s.set input.1.node
    (applyToBits input.1 (variableBits input.2 (2 ^ inputs.length)) validBits)) s

end TruthScratch

def KCut.inputs (cut : KCut) : List Lit := cut.leaves.map fun leaf => ⟨leaf, false⟩

def truthTableForCut (net : LogicNetwork) (root : Lit) (cut : KCut) (s : TruthScratch) :
    Option (TruthTable × TruthScratch) := do
  let validBits := lowBitsMask (2 ^ cut.inputs.length)
  let s ← (s.begin net.nodeCount).setInputs cut.inputs validBits
  let s ← s.evaluate net validBits [root.node]
  let bits ← s.get root validBits
  pure (⟨cut.inputs.length, bits⟩, s)

structure NetworkTruthTables where
  inputCount : Nat
  validBits : BitVec 64
  nodeBits : List (Nat × BitVec 64)

def truthTablesForInputs (net : LogicNetwork) (root : Lit) (inputs observed : List Lit)
    (s : TruthScratch) : Option (NetworkTruthTables × TruthScratch) :=
  if MAX_CUT_LEAVES < inputs.length then none else do
    let validBits := lowBitsMask (2 ^ inputs.length)
    let s ← (s.begin net.nodeCount).setInputs inputs validBits
    let requested := inputs.map (·.node) ++ [root.node] ++ observed.map (·.node)
    let s ← s.evaluate net validBits (requested.insertionSort (· ≤ ·)).dedup
    let s := { s with touched := s.touched.insertionSort (· ≤ ·) }
    let nodeBits ← s.touched.mapM fun node => s.bits[node]?.map (node, ·)
    pure (⟨inputs.length, validBits, nodeBits⟩, s)

end Opto.Synth
