import Mathlib.Data.List.Sort
import Opto.Synth.Graph

/-!
# Balancing

Chains of one associative gate are taken apart and built again as trees, shallow operands
first; chains of multiplexers are split where a guard over their first selects is cheaper
than another link. A gate joins the chain of its only reader when the edge is not inverted.
-/

namespace Opto.Synth

open Logic

namespace Balance

/-! The new graph, with the level every literal was built at. -/

structure Builder where
  graph : LogicBuilder
  levels : List Nat

abbrev BalanceM := StateT Builder (Except Panic)

def Builder.level (b : Builder) (literal : Lit) : Nat := (b.levels[literal.node]?).getD 0

def onGraph (m : GraphM Lit) : BalanceM Lit := fun b =>
  match m.run b.graph with
  | .ok (l, graph) => .ok (l, { b with graph })
  | .error e => .error e

def record (literal : Lit) (level : Nat) : BalanceM Lit := do
  modify fun b => { b with
    levels := b.levels ++ List.replicate (literal.node + 1 - b.levels.length) level }
  return literal

def constant (value : Bool) : BalanceM Lit := record (LogicBuilder.constant value) 0

/-- No literal when the graph refuses another input. -/
def input (origin : Nat) : BalanceM (Option Lit) := fun b =>
  match (Call.input origin).exec.run b.graph with
  | .ok l graph => (some <$> record l 0).run { b with graph }
  | .error .fuel _ => .error .fuel
  | .error (.error _) graph => .ok (none, { b with graph })

inductive Gate
  | and | xor | or
deriving DecidableEq

def Gate.emit : Gate → Lit → Lit → GraphM Lit
  | .and => LogicGraph.and
  | .xor => LogicGraph.xor
  | .or => LogicGraph.or

def emitGate (gate : Gate) (left right : Lit) : BalanceM Lit := do
  let b ← get
  let level := max (b.level left) (b.level right) + 1
  let literal ← onGraph (gate.emit left right)
  record literal level

def mux (cond thenValue elseValue : Lit) : BalanceM Lit := do
  let b ← get
  let level := max (max (b.level cond) (b.level thenValue)) (b.level elseValue) + 1
  let literal ← onGraph (LogicGraph.mux cond thenValue elseValue)
  record literal level

/-! Trees. A heap lists levels with slots of the operand store, the least pair first. -/

def pushHeap (entry : Nat × Nat) (heap : List (Nat × Nat)) : List (Nat × Nat) :=
  heap.orderedInsert (fun a b => a.1 < b.1 ∨ a.1 = b.1 ∧ a.2 ≤ b.2) entry

def combine (gate : Gate) : Nat → List Lit → List (Nat × Nat) → BalanceM (Option Lit)
  | _, _, [] => return none
  | _, store, [(_, slot)] => return store[slot]?
  | 0, _, _ :: _ :: _ => throw .fuel
  | fuel + 1, store, (_, left) :: (_, right) :: heap =>
    match store[left]?, store[right]? with
    | some left, some right => do
      let combined ← emitGate gate left right
      let b ← get
      combine gate fuel (store ++ [combined]) (pushHeap (b.level combined, store.length) heap)
    | _, _ => throw (.expect "index out of bounds")

def buildTree (operands : List Lit) (gate : Gate) : BalanceM (Option Lit) := do
  let b ← get
  let heap := operands.zipIdx.foldl (fun heap entry => pushHeap (b.level entry.1, entry.2) heap) []
  combine gate operands.length operands heap

def mergeLevels : Nat → List Nat → Nat
  | fuel + 1, left :: right :: heap => mergeLevels fuel (heap.orderedInsert (· ≤ ·) (max left right + 1))
  | _, level :: _ => level
  | _, [] => 0

def treeLevelEstimate (levels : List Nat) : Nat :=
  mergeLevels levels.length (levels.insertionSort (· ≤ ·))

/-! Priority chains. A link is a select with the data it selects. -/

abbrev Link := Lit × Lit

def PRIORITY_SPLIT_CAP : Nat := 64

/-- The levels with one link peeled off and with the chain split in the middle. -/
def estimatesWith (estimate : List Link → Nat → Nat) (b : Builder) (links : List Link) (defaultLevel : Nat) :
    Nat × Nat :=
  let middle := (links.length + 1) / 2
  let levelAt (i : Nat) (pick : Link → Lit) : Nat := ((links[i]?).map fun link => b.level (pick link)).getD 0
  let peel := max (max (levelAt 0 (·.1)) (levelAt 0 (·.2))) (estimate (links.drop 1) defaultLevel) + 1
  let guard := treeLevelEstimate ((links.take middle).map fun link => b.level link.1)
  let top := estimate (links.take (middle - 1)) (levelAt (middle - 1) (·.2))
  let bottom := estimate (links.drop middle) defaultLevel
  (peel, max (max guard top) bottom + 1)

/-- The first argument bounds the number of links. -/
def priorityLevelEstimate (b : Builder) : Nat → List Link → Nat → Nat
  | 0, _, defaultLevel => defaultLevel
  | fuel + 1, links, defaultLevel =>
    match links with
    | [] => defaultLevel
    | [(select, data)] => max (max (b.level select) (b.level data)) defaultLevel + 1
    | _ =>
      if PRIORITY_SPLIT_CAP < links.length then
        links.foldr (fun link accumulated => max (max (b.level link.1) (b.level link.2)) accumulated + 1)
          defaultLevel
      else
        let (peel, split) := estimatesWith (priorityLevelEstimate b fuel) b links defaultLevel
        min peel split

def priorityEstimates (b : Builder) (links : List Link) (defaultLevel : Nat) : Nat × Nat :=
  estimatesWith (priorityLevelEstimate b links.length) b links defaultLevel

/-- The first argument bounds the number of links. -/
def buildPriority : Nat → List Link → Lit → BalanceM Lit
  | _, [], default => pure default
  | _, [(select, data)], default => mux select data default
  | 0, _ :: _ :: _, _ => throw .fuel
  | fuel + 1, (select, data) :: next :: rest, default => do
    let links := (select, data) :: next :: rest
    let b ← get
    let (peel, split) := priorityEstimates b links (b.level default)
    if links.length ≤ PRIORITY_SPLIT_CAP ∧ split < peel then
      let middle := (links.length + 1) / 2
      let guard ← buildTree ((links.take middle).map (·.1)) .or
      match guard, links[middle - 1]? with
      | some guard, some (_, topDefault) =>
        let top ← buildPriority fuel (links.take (middle - 1)) topDefault
        let bottom ← buildPriority fuel (links.drop middle) default
        mux guard top bottom
      | _, _ => throw (.expect "priority splits guard at least two selects")
    else
      let tail ← buildPriority fuel (next :: rest) default
      mux select data tail

/-! Chains of the old graph. -/

variable (net : LogicNetwork) (references : List Nat)

/-- The only reader takes the gate in. -/
def chainsInto (consumer : Nat) (fanin : Lit) : Bool :=
  !fanin.isInverted && references[fanin.node]? = some 1 &&
    match net.kind consumer, net.kind fanin.node with
    | some .and, some .and | some .xor, some .xor => true
    | _, _ => false

def continues (arm : Lit) : Bool :=
  !arm.isInverted && references[arm.node]? = some 1 && net.kind arm.node = some .mux

/-- The link of a multiplexer whose chain continues, and the arm it continues along. -/
def muxChainLink (node : Node) : Option (Link × Lit) :=
  if node.kind = .mux then
    if continues net references node.fanin2 then some ((node.fanin0, node.fanin1), node.fanin2)
    else if continues net references node.fanin1 then some ((node.fanin0.inverted, node.fanin2), node.fanin1)
    else none
  else none

/-- The gates that a gate takes in. -/
def absorbs (id : Nat) : List Nat :=
  match net.nodes[id]? with
  | none => []
  | some node =>
    match node.kind with
    | .and | .xor => ([node.fanin0, node.fanin1].filter (chainsInto net references id)).map (·.node)
    | .mux => (muxChainLink net references node).toList.map (·.2.node)
    | .constant | .input => []

def absorbed : List Bool :=
  ((List.range net.nodeCount).flatMap (absorbs net references)).foldl (fun absorbed node => absorbed.set node true)
    (List.replicate net.nodeCount false)

variable (remap : List (Option Lit))

/-- The operands so far, and whether all of them are mapped. -/
def expandFanin (id : Nat) (s : List Lit × Bool) (fanin : Lit) : Option ((List Lit × Bool) × List Lit) :=
  if chainsInto net references id fanin then
    match net.nodes[fanin.node]? with
    | some node => some (s, [node.fanin1, node.fanin0])
    | none => none
  else
    match remapLiteral remap fanin with
    | some operand => some ((s.1 ++ [operand], s.2), [])
    | none => some ((s.1, false), [])

def chainOperands (id : Nat) (node : Node) : Option (List Lit × Bool) :=
  Worklist.drain (expandFanin net references remap id)
    (weight net.nodes node.fanin0 + weight net.nodes node.fanin1) ([], true) [node.fanin1, node.fanin0]

/-- The links of the chain below a multiplexer, and its default. -/
def muxLinks : Nat → Nat → Option (List Link × Lit)
  | 0, _ => none
  | fuel + 1, current =>
    match net.nodes[current]? with
    | none => none
    | some node =>
      match muxChainLink net references node with
      | some (link, next) => (muxLinks fuel next.node).map fun chain => (link :: chain.1, chain.2)
      | none => some ([(node.fanin0, node.fanin1)], node.fanin2)

def remapLink (link : Link) : Option Link := do
  let select ← remapLiteral remap link.1
  let data ← remapLiteral remap link.2
  return (select, data)

def balanceNode (id : Nat) (node : Node) : BalanceM (Option Lit) :=
  match node.kind with
  | .constant => some <$> constant false
  | .input => input node.origin
  | .and | .xor =>
    match chainOperands net references remap id node with
    | none => throw .fuel
    | some (operands, translated) =>
      if translated then buildTree operands (if node.kind = .xor then .xor else .and) else pure none
  | .mux =>
    match muxLinks net references (id + 1) id with
    | none => throw .fuel
    | some (links, default) =>
      match links.mapM (remapLink remap), remapLiteral remap default with
      | some links, some default => some <$> buildPriority links.length links default
      | _, _ => pure none

def balanceStep (remap : List (Option Lit)) (entry : Node × Nat) : BalanceM (List (Option Lit)) :=
  if (absorbed net references)[entry.2]?.getD false then pure remap
  else do
    let mapped ← balanceNode net references remap entry.2 entry.1
    return remap.set entry.2 mapped

end Balance

open Balance

def balance (net : LogicNetwork) (roots : List Lit) : Except Panic TransformProduct := do
  let references ← expect (referenceCounts net roots) "attempt to add with overflow"
  let (remap, b) ← (net.nodes.zipIdx.foldlM (balanceStep net references)
    (List.replicate net.nodeCount none)).run ⟨.new, [0]⟩
  return ⟨b.graph.freeze, remap⟩

end Opto.Synth
