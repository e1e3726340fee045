import Mathlib.Data.List.Sort
import Opto.Library.Cnf
import Opto.Logic.Network

/-!
# Encoding networks into clauses

`encodeLogicNetwork` walks the cone of the requested outputs, sorts it by level
and encodes node after node through a `LogicEncoding`. `LogicMiter` is the
encoding that gives every gate a new variable and its clauses; inputs of the
same origin share one variable, whichever network they belong to.
-/

namespace Opto.Formal

open Logic Cnf

inductive FormalError (E : Type)
  | invalidModel (message : String)
  | solver (context : String) (source : E)
deriving DecidableEq

variable {E : Type}

abbrev EncodeM (E σ : Type) := StateT σ (Except (FormalError E))

def fromExcept {σ α : Type} (r : Except (FormalError E) α) : EncodeM E σ α := fun s =>
  r.map fun a => (a, s)

class LogicEncoding (E σ : Type) where
  constantFalse : EncodeM E σ Literal
  input : Nat → EncodeM E σ Literal
  and : Literal → Literal → EncodeM E σ Literal
  xor : Literal → Literal → EncodeM E σ Literal
  mux : Literal → Literal → Literal → EncodeM E σ Literal

def unknownNode (node : Nat) : FormalError E :=
  .invalidModel s!"logic miter references unknown node NodeId({node})"

def missingFanin (node fanin : Nat) : FormalError E :=
  .invalidModel s!"logic miter node NodeId({node}) has no fanin {fanin}"

/-- The nodes a node's gate reads, the shared constant left out. -/
def faninNodes (net : LogicNetwork) (node : Nat) : Except (FormalError E) (List Nat) :=
  match net.faninCount node with
  | none => .error (unknownNode node)
  | some count => do
    let fanins ← (List.range count).mapM fun index =>
      match net.fanin node index with
      | none => Except.error (missingFanin node index)
      | some fanin => .ok fanin.node
    pure (fanins.filter (· ≠ 0))

/-- Depth-first collection of a cone; the head of `pending` is the top of the stack. -/
def collect (net : LogicNetwork) (visited : List Bool) (order : List Nat) :
    List Nat → Except (FormalError E) (List Nat)
  | [] => .ok order
  | node :: pending =>
    match _hv : visited[node]? with
    | none => .error (unknownNode node)
    | some true => collect net visited order pending
    | some false =>
      match faninNodes net node with
      | .error e => .error e
      | .ok fanins =>
        collect net (visited.set node true) (order ++ [node]) (fanins.reverse ++ pending)
termination_by pending => (visited.count false, pending.length)
decreasing_by
  · exact Prod.Lex.right _ (Nat.lt_succ_self _)
  · obtain ⟨hlt, hget⟩ := List.getElem?_eq_some_iff.mp _hv
    have hpos : 0 < visited.count false := List.count_pos_iff.mpr (hget ▸ List.getElem_mem hlt)
    have hset : (visited.set node true).count false = visited.count false - 1 := by
      simp [List.count_set hlt, hget]
    exact Prod.Lex.left _ _ (by omega)

def encodedLiteral (net : LogicNetwork) (encoded : List (Option Literal)) (node fanin : Nat) :
    Except (FormalError E) Literal :=
  match net.fanin node fanin with
  | none => .error (missingFanin node fanin)
  | some literal =>
    match encoded[literal.node]?.join with
    | none => .error (.invalidModel
        s!"logic miter node NodeId({node}) is not topological at fanin NodeId({literal.node})")
    | some value => .ok (if literal.isInverted then value.not else value)

section Network

variable {σ : Type} [LogicEncoding E σ]

def encodeNode (net : LogicNetwork) (encoded : List (Option Literal)) (node : Nat) :
    EncodeM E σ Literal :=
  match net.kind node with
  | none => throw (unknownNode node)
  | some .constant => LogicEncoding.constantFalse
  | some .input =>
    match net.origin node with
    | none => throw (.invalidModel s!"logic miter input NodeId({node}) has no boundary origin")
    | some origin => LogicEncoding.input origin
  | some .and => do
    let left ← fromExcept <| encodedLiteral net encoded node 0
    let right ← fromExcept <| encodedLiteral net encoded node 1
    LogicEncoding.and left right
  | some .xor => do
    let left ← fromExcept <| encodedLiteral net encoded node 0
    let right ← fromExcept <| encodedLiteral net encoded node 1
    LogicEncoding.xor left right
  | some .mux => do
    let select ← fromExcept <| encodedLiteral net encoded node 0
    let thenValue ← fromExcept <| encodedLiteral net encoded node 1
    let elseValue ← fromExcept <| encodedLiteral net encoded node 2
    LogicEncoding.mux select thenValue elseValue

def encodeNodes (net : LogicNetwork) :
    List (Option Literal) → List Nat → EncodeM E σ (List (Option Literal))
  | encoded, [] => pure encoded
  | encoded, node :: rest => do
    let output ← encodeNode net encoded node
    encodeNodes net (encoded.set node (some output)) rest

def encodedOutput (encoded : List (Option Literal)) (literal : Lit) :
    Except (FormalError E) Literal :=
  match encoded[literal.node]?.join with
  | none => .error (.invalidModel
      s!"logic miter output references unencoded node NodeId({literal.node})")
  | some value => .ok (if literal.isInverted then value.not else value)

def levelKey (net : LogicNetwork) (node : Nat) : Nat := (net.level node).getD (2 ^ 32 - 1)

/-- The literals of the requested outputs and the number of nodes encoded for them. -/
def encodeLogicNetwork (net : LogicNetwork) (outputs : List Lit) :
    EncodeM E σ (List Literal × Nat) := do
  let constant ← LogicEncoding.constantFalse
  let encoded := (List.replicate net.nodeCount none).set 0 (some constant)
  let pending := ((outputs.map (·.node)).filter (· ≠ 0)).reverse
  let order ← fromExcept <| collect net (List.replicate net.nodeCount false) [] pending
  let order := order.mergeSort fun a b => decide (levelKey net a ≤ levelKey net b)
  let encoded ← encodeNodes net encoded order
  let literals ← fromExcept <| outputs.mapM (encodedOutput encoded)
  pure (literals, order.length)

end Network

structure LogicMiter where
  variableCount : Nat
  formula : Formula
  constantFalse : Literal
  inputs : List (Nat × Literal)
  clauses : Nat
  encodedNodes : Nat
deriving DecidableEq

namespace LogicMiter

def new : LogicMiter := ⟨1, [[⟨0, false⟩]], ⟨0, true⟩, [], 1, 0⟩

def newLit : EncodeM E LogicMiter Literal := do
  let m ← get
  set { m with variableCount := m.variableCount + 1 }
  pure ⟨m.variableCount, true⟩

def addClause (clause : Clause) : EncodeM E LogicMiter Unit :=
  modify fun m => { m with formula := m.formula ++ [clause], clauses := m.clauses + 1 }

def and (left right : Literal) : EncodeM E LogicMiter Literal := do
  let output ← newLit
  (andClauses left right output).forM addClause
  pure output

def xor (left right : Literal) : EncodeM E LogicMiter Literal := do
  let output ← newLit
  (xorClauses left right output).forM addClause
  pure output

def mux (select thenValue elseValue : Literal) : EncodeM E LogicMiter Literal := do
  let output ← newLit
  (muxClauses select thenValue elseValue output).forM addClause
  pure output

/-- The table of inputs is kept in ascending order of origins. -/
def input (origin : Nat) : EncodeM E LogicMiter Literal := do
  let m ← get
  match m.inputs.lookup origin with
  | some literal => pure literal
  | none => do
    let literal ← newLit
    modify fun m =>
      { m with inputs := m.inputs.orderedInsert (fun a b => a.1 ≤ b.1) (origin, literal) }
    pure literal

instance : LogicEncoding E LogicMiter where
  constantFalse := do return (← get).constantFalse
  input := LogicMiter.input
  and := LogicMiter.and
  xor := LogicMiter.xor
  mux := LogicMiter.mux

def encodeNetwork (net : LogicNetwork) (outputs : List Lit) :
    EncodeM E LogicMiter (List Literal) := do
  let (literals, encodedNodes) ← encodeLogicNetwork net outputs
  modify fun m => { m with encodedNodes := m.encodedNodes + encodedNodes }
  pure literals

end LogicMiter
end Opto.Formal
