import Opto.Frontend.Control
import Opto.Library.Traversal
import Opto.Logic.Canonical
import Opto.Word.Builders

/-!
# Control predicates

One-bit word values become literals of a canonical network. Values that read the same signal
bit share its variable, with a polarity. Cofactors and word values of predicates are computed
on an explicit stack and remembered.
-/

namespace Opto.Frontend

open Logic Word

inductive SynthError
  | capacity (message : String)
  | invariant (message : String)
  | word (error : WordError)
  deriving DecidableEq

/-- A row for every node with an entry for each phase. -/
abbrev PhaseTable (α : Type) := List (Option α × Option α)

namespace PhaseTable

variable {α : Type}

def get (table : PhaseTable α) (literal : Lit) : Option α :=
  table[literal.node]?.bind fun row => if literal.isInverted then row.2 else row.1

/-- `Vec::resize` with empty rows. -/
def resize (table : PhaseTable α) (length : Nat) : PhaseTable α := table.takeD length (none, none)

def set (table : PhaseTable α) (literal : Lit) (entry : α) : PhaseTable α :=
  let table := if table.length ≤ literal.node then table.resize (literal.node + 1) else table
  table.modify literal.node fun row =>
    if literal.isInverted then (row.1, some entry) else (some entry, row.2)

end PhaseTable

inductive Predicate
  | never
  | always
  | value (literal : Lit)
  deriving DecidableEq, Repr

namespace Predicate

def fromLiteral (literal : Lit) : Predicate :=
  if literal = .FALSE then .never else if literal = .TRUE then .always else .value literal

def literal : Predicate → Lit
  | .never => .FALSE
  | .always => .TRUE
  | .value literal => literal

def not (predicate : Predicate) : Predicate := fromLiteral predicate.literal.inverted

end Predicate

inductive MaterializedPredicate
  | never
  | always
  | value (value : Nat)
  deriving DecidableEq, Repr

inductive Atom
  | signal (reference : SignalRef)
  | value (value : Nat)
  deriving DecidableEq, Repr

structure Variable where
  literal : Lit
  sourceActiveHigh : Bool
  deriving DecidableEq, Repr

structure PredicateArena where
  builder : LogicBuilder
  atoms : List (Atom × Variable)
  inputSources : List (Option Nat)
  materialized : PhaseTable Nat
  represented : List (Nat × Lit)
  deriving DecidableEq

structure PredicateRestriction where
  condition : Lit
  conditionValue : Bool
  restricted : PhaseTable Lit
  deriving DecidableEq

abbrev ArenaM := EStateM (Halt SynthError) PredicateArena

namespace PredicateArena

def new : PredicateArena := ⟨.new, [], [none], [(none, none)], []⟩

def cached (arena : PredicateArena) (literal : Lit) : Option Nat := arena.materialized.get literal

def rememberRepresentation (arena : PredicateArena) (value : Nat) (literal : Lit) : PredicateArena :=
  { arena with represented := (value, literal) :: arena.represented }

def setCached (arena : PredicateArena) (literal : Lit) (value : Nat) : PredicateArena :=
  { arena with materialized := arena.materialized.set literal value }.rememberRepresentation value literal

def rememberWord (arena : PredicateArena) (value : Nat) (literal : Lit) : PredicateArena :=
  if (arena.cached literal).isNone then arena.setCached literal value
  else arena.rememberRepresentation value literal

/-- The input literal is the atom's variable, and the value is its source. -/
def declare (arena : PredicateArena) (atom : Atom) (source : Nat) (activeHigh : Bool) (literal : Lit) :
    PredicateArena :=
  { arena with
    inputSources := (arena.inputSources.takeD arena.builder.nodeCount none).set literal.node (some source)
    atoms := (atom, ⟨literal, activeHigh⟩) :: arena.atoms }

def fanin (arena : PredicateArena) (node index : Nat) : Except SynthError Lit :=
  match arena.builder.fanin node index with
  | some fanin => .ok fanin
  | none => .error (.invariant "canonical process predicate fanin disappeared")

/-- An inverted conjunction of two inverted literals is their disjunction. -/
def demorganOr (arena : PredicateArena) (literal : Lit) : Option (Lit × Lit) :=
  if !literal.isInverted || decide (arena.builder.kind literal.node ≠ some .and) then none
  else
    match arena.builder.fanin literal.node 0, arena.builder.fanin literal.node 1 with
    | some left, some right =>
      if left.isInverted && right.isInverted then some (left.positive, right.positive) else none
    | _, _ => none

end PredicateArena

/-- The builder's errors are capacity errors. -/
def toCapacity : Halt LogicError → Halt SynthError
  | .fuel => .fuel
  | .error e => .error (.capacity e.message)

/-- A call on a part of the state. -/
def zoom {ε ε' σ τ α : Type} (view : σ → τ) (update : τ → σ → σ) (raise : ε' → ε) (m : EStateM ε' τ α) :
    EStateM ε σ α := fun s =>
  match m.run (view s) with
  | .ok a t => .ok a (update t s)
  | .error e t => .error (raise e) (update t s)

def network (m : BuildM Lit) : ArenaM Lit :=
  zoom (·.builder) (fun builder arena => { arena with builder }) toCapacity m

namespace PredicateArena

def not (predicate : Predicate) : Predicate := predicate.not

def and (left right : Predicate) : ArenaM Predicate :=
  if left.literal = .FALSE ∨ right.literal = .FALSE then pure .never
  else if left.literal = .TRUE then pure right
  else if right.literal = .TRUE then pure left
  else Predicate.fromLiteral <$> network (LogicBuilder.and left.literal right.literal 0)

def or (left right : Predicate) : ArenaM Predicate :=
  if left.literal = .TRUE ∨ right.literal = .TRUE then pure .always
  else if left.literal = .FALSE then pure right
  else if right.literal = .FALSE then pure left
  else Predicate.fromLiteral <$> network (LogicBuilder.or left.literal right.literal 0)

def xor (left right : Predicate) : ArenaM Predicate :=
  Predicate.fromLiteral <$> network (LogicBuilder.xor left.literal right.literal 0)

/-- A known atom gives its literal in the polarity asked for; an unknown one becomes an input. -/
def variableFor (atom : Atom) (source : Nat) (activeHigh : Bool) : ArenaM Predicate := do
  let arena ← get
  match arena.atoms.lookup atom with
  | some known => do
    let literal := if activeHigh = known.sourceActiveHigh then known.literal else known.literal.inverted
    modify (·.rememberWord source literal)
    return .fromLiteral literal
  | none => do
    let literal ← network (LogicBuilder.input source)
    modify fun arena => (arena.declare atom source activeHigh literal).rememberWord source literal
    return .fromLiteral literal

section

variable (m : WordModule)

/-- The bit of a one-bit constant. -/
def constantBit (value : Nat) : Option BitVal :=
  match m.values[value]? with
  | some ⟨.constant bits, _⟩ => if bits.length = 1 then bits.head? else none
  | _ => none

def constantPredicate (value : Nat) : BitVal → ArenaM Predicate
  | .zero => pure .never
  | .one => pure .always
  | .x | .z => variableFor (.value value) value true

def simpleBooleanValue (value : Nat) : ArenaM (Option Predicate) :=
  match constantBit m value with
  | some bit => some <$> constantPredicate value bit
  | none =>
    match booleanControl m value true with
    | some (reference, activeHigh) => some <$> variableFor (.signal reference) value activeHigh
    | none => pure none

inductive Connective
  | and
  | or
  | xor
  deriving DecidableEq, Repr

def connective : BinaryOp → Option Connective
  | .logicalAnd | .bitAnd => some .and
  | .logicalOr | .bitOr => some .or
  | .bitXor => some .xor
  | _ => none

/-- A one-bit Boolean operation and its operands. -/
def booleanBinary (value : Nat) : Option (Connective × Nat × Nat) :=
  match m.values[value]? with
  | some ⟨.operation operation, ty⟩ =>
    if ty.width = 1 then
      match m.operations[operation]? with
      | some ⟨.binary op left right, _⟩ => (connective op).map fun connective => (connective, left, right)
      | _ => none
    else none
  | _ => none

def connect : Connective → Predicate → Predicate → ArenaM Predicate
  | .and => and
  | .or => or
  | .xor => xor

/-- Both operands have predicates, or the value is a variable of its own. -/
def combineBinary (value : Nat) (op : Connective) : Option Predicate → Option Predicate → ArenaM Predicate
  | some left, some right => do
    let predicate ← connect op left right
    modify (·.rememberWord value predicate.literal)
    return predicate
  | _, _ => variableFor (.value value) value true

def uncachedValue (value : Nat) : ArenaM Predicate :=
  match constantBit m value with
  | some bit => constantPredicate value bit
  | none =>
    match booleanControl m value true with
    | some (reference, activeHigh) => variableFor (.signal reference) value activeHigh
    | none =>
      match booleanBinary m value with
      | some (op, left, right) => do
        let left ← simpleBooleanValue m left
        let right ← simpleBooleanValue m right
        combineBinary value op left right
      | none => variableFor (.value value) value true

def value (value : Nat) : ArenaM Predicate := do
  let arena ← get
  match arena.represented.lookup value with
  | some literal => pure (.fromLiteral literal)
  | none => uncachedValue m value

end

/-! Cofactors. -/

abbrev RestrictM := EStateM (Halt SynthError) (PredicateArena × PredicateRestriction)

def restriction (arena : PredicateArena) (condition : Predicate) (conditionValue : Bool) :
    Except SynthError PredicateRestriction :=
  match condition with
  | .value literal => .ok ⟨literal, conditionValue, List.replicate arena.builder.nodeCount (none, none)⟩
  | _ => .error (.invariant "a process predicate restriction requires a nonconstant condition")

def raise {σ α : Type} : Except SynthError α → EStateM (Halt SynthError) σ α
  | .ok a => pure a
  | .error e => throw (.error e)

def restrictNetwork (m : BuildM Lit) : RestrictM Lit :=
  zoom (·.1.builder) (fun builder s => ({ s.1 with builder }, s.2)) toCapacity m

def finishRestricted (literal result : Lit) : RestrictM (List (Lit × Bool)) := do
  modify fun s => (s.1, { s.2 with restricted := s.2.restricted.set literal result })
  return []

def restrictedFanin (node index : Nat) : RestrictM Lit := do
  let s ← get
  let fanin ← raise (s.1.fanin node index)
  match s.2.restricted.get fanin with
  | some result => pure result
  | none => throw (.error (.invariant "process predicate cofactor fanin was not evaluated"))

/-- A literal with its fanins above it. -/
def postpone (arena : PredicateArena) (literal : Lit) (indices : List Nat) :
    Except SynthError (List (Lit × Bool)) := do
  let fanins ← indices.mapM (arena.fanin literal.node)
  return fanins.map (·, false) ++ [(literal, true)]

def restrictNode (literal : Lit) : NodeKind → RestrictM (List (Lit × Bool))
  | .constant => finishRestricted literal .FALSE
  | .input => finishRestricted literal literal
  | .and => do
    let left ← restrictedFanin literal.node 0
    let right ← restrictedFanin literal.node 1
    finishRestricted literal (← restrictNetwork (LogicBuilder.and left right 0))
  | .xor => do
    let left ← restrictedFanin literal.node 0
    let right ← restrictedFanin literal.node 1
    finishRestricted literal (← restrictNetwork (LogicBuilder.xor left right 0))
  | .mux => do
    let select ← restrictedFanin literal.node 0
    let thenValue ← restrictedFanin literal.node 1
    let elseValue ← restrictedFanin literal.node 2
    finishRestricted literal (← restrictNetwork (LogicBuilder.mux select thenValue elseValue 0))

def restrictPositive (literal : Lit) (expanded : Bool) : RestrictM (List (Lit × Bool)) := do
  let s ← get
  match s.1.builder.kind literal.node with
  | none => throw (.error (.invariant "canonical process predicate node disappeared"))
  | some kind =>
    if !expanded && decide (kind = .and ∨ kind = .xor ∨ kind = .mux) then
      raise (postpone s.1 literal (List.range kind.arity))
    else restrictNode literal kind

def restrictInverted (literal : Lit) (expanded : Bool) : RestrictM (List (Lit × Bool)) := do
  let s ← get
  if !expanded then return [(literal.positive, false), (literal, true)]
  else
    match s.2.restricted.get literal.positive with
    | some result => finishRestricted literal result.inverted
    | none => throw (.error (.invariant "positive process predicate cofactor was not evaluated"))

def restrictVisit (literal : Lit) (expanded : Bool) : RestrictM (List (Lit × Bool)) := do
  let s ← get
  if (s.2.restricted.get literal).isSome then return []
  else if literal = s.2.condition then
    finishRestricted literal (LogicBuilder.constant s.2.conditionValue)
  else if literal = s.2.condition.inverted then
    finishRestricted literal (LogicBuilder.constant !s.2.conditionValue)
  else if literal.node = 0 then finishRestricted literal literal
  else if literal.isInverted then restrictInverted literal expanded
  else restrictPositive literal expanded

/-- Both phases of every node, each pushed with its fanins at most once. -/
def traversalBudget (arena : PredicateArena) : Nat := 10 * arena.builder.nodeCount + 1

def restrictFrom (root : Lit) : RestrictM Predicate := do
  let s ← get
  traverse .fuel restrictVisit s.1.traversalBudget [(root, false)]
  let s ← get
  match s.2.restricted.get root with
  | some result => pure (if result = root then .value root else .fromLiteral result)
  | none => throw (.error (.invariant "process predicate cofactor root was not evaluated"))

def restrict (predicate : Predicate) : RestrictM Predicate :=
  match predicate with
  | .value root => do
    let s ← get
    match s.2.restricted.get root with
    | some result => pure (.fromLiteral result)
    | none => restrictFrom root
  | _ => pure predicate

/-! Word values of predicates. -/

abbrev MaterializeM := EStateM (Halt SynthError) (PredicateArena × WordModule)

def emit (m : Build Nat) : MaterializeM Nat :=
  zoom Prod.snd (fun m s => (s.1, m)) (fun e => .error (.word e)) m

def finishCached (literal : Lit) (value : Nat) : MaterializeM (List (Lit × Bool)) := do
  modify fun s => (s.1.setCached literal value, s.2)
  return []

def cachedOr (message : String) (literal : Lit) : MaterializeM Nat := do
  let s ← get
  match s.1.cached literal with
  | some value => pure value
  | none => throw (.error (.invariant message))

def faninValue (node index : Nat) : MaterializeM Nat := do
  let s ← get
  let fanin ← raise (s.1.fanin node index)
  cachedOr "canonical process predicate fanin was not materialized" fanin

/-- A four-state zero. -/
def zeroBit : Build Nat := Word.constant [.zero] (.scalar .fourState)

def inputSource (node : Nat) : MaterializeM Nat := do
  let s ← get
  match s.1.inputSources[node]?.join with
  | some source => pure source
  | none => throw (.error (.invariant "canonical process predicate input has no Word source"))

def materializeNode (literal : Lit) : NodeKind → MaterializeM (List (Lit × Bool))
  | .constant => do finishCached literal (← emit zeroBit)
  | .input => do finishCached literal (← inputSource literal.node)
  | .and => do
    let left ← faninValue literal.node 0
    let right ← faninValue literal.node 1
    finishCached literal (← emit (binary .logicalAnd left right))
  | .xor => do
    let left ← faninValue literal.node 0
    let right ← faninValue literal.node 1
    finishCached literal (← emit (binary .bitXor left right))
  | .mux => do
    let select ← faninValue literal.node 0
    let thenValue ← faninValue literal.node 1
    let elseValue ← faninValue literal.node 2
    finishCached literal (← emit (Word.mux select thenValue elseValue))

def materializePositive (literal : Lit) (expanded : Bool) : MaterializeM (List (Lit × Bool)) := do
  let s ← get
  match s.1.builder.kind literal.node with
  | none => throw (.error (.invariant "canonical process predicate node disappeared"))
  | some kind =>
    if !expanded && decide (kind = .and ∨ kind = .xor ∨ kind = .mux) then
      raise (postpone s.1 literal (List.range kind.arity))
    else materializeNode literal kind

def materializeInverted (literal : Lit) (expanded : Bool) : MaterializeM (List (Lit × Bool)) :=
  if !expanded then return [(literal.positive, false), (literal, true)]
  else do
    let value ← cachedOr "canonical process predicate input was not materialized" literal.positive
    finishCached literal (← emit (unary .logicalNot value))

def materializeOr (literal left right : Lit) (expanded : Bool) : MaterializeM (List (Lit × Bool)) :=
  if !expanded then return [(left, false), (right, false), (literal, true)]
  else do
    let left ← cachedOr "canonical disjunction left input was not materialized" left
    let right ← cachedOr "canonical disjunction right input was not materialized" right
    finishCached literal (← emit (binary .logicalOr left right))

def materializeVisit (literal : Lit) (expanded : Bool) : MaterializeM (List (Lit × Bool)) := do
  let s ← get
  if (s.1.cached literal).isSome then return []
  else
    match s.1.demorganOr literal with
    | some (left, right) => materializeOr literal left right expanded
    | none =>
      if literal.isInverted then materializeInverted literal expanded
      else materializePositive literal expanded

def materializeLiteral (root : Lit) : MaterializeM Nat := do
  modify fun s => ({ s.1 with materialized := s.1.materialized.resize s.1.builder.nodeCount }, s.2)
  let s ← get
  traverse .fuel materializeVisit s.1.traversalBudget [(root, false)]
  cachedOr "canonical process predicate root was not materialized" root

def materialize (predicate : Predicate) : MaterializeM MaterializedPredicate :=
  match predicate with
  | .never => pure .never
  | .always => pure .always
  | .value literal => .value <$> materializeLiteral literal

end PredicateArena

end Opto.Frontend
