import Opto.Bitblast.Backend

/-!
# Don't-care bits of the AXM backend

An undefined constant is a bit that the backend chooses a value for while it emits. The
pessimistic evaluation keeps such a bit unknown for as long as it could matter. Wherever it
yields a value, so does the literal that the backend returns.
-/

namespace Opto.Bitblast

open Word Logic Synth

inductive ScalarBit
  | word (value : Nat)
  | logic (literal : Lit)
  | dontCare (value : Nat)
  deriving DecidableEq

structure AxmBackend where
  graph : LogicBuilder
  values : List (Nat × ScalarBit)
  signals : List ((Nat × Nat) × ScalarBit)
  inputs : List Nat

namespace AxmBackend

abbrev AxmM := StateT AxmBackend (Except (SynthError Panic))

def default : AxmBackend := ⟨.new, [], [], []⟩

def withGraph (m : GraphM Lit) : AxmM Lit := fun s =>
  match m.run s.graph with
  | .ok (l, t) => .ok (l, { s with graph := t })
  | .error e => .error (.backend e)

def literal : ScalarBit → AxmM Lit
  | .logic l => pure l
  | .word _ | .dontCare _ => throw (.invariant "AXM backend received a scalar Word value")

def input (value : Nat) (signal : Option SignalRef) : AxmM ScalarBit := do
  let s ← get
  match s.values.lookup value with
  | some bit => return bit
  | none =>
    match signal.bind fun reference => s.signals.lookup (reference.signal, reference.lsb) with
    | some bit =>
      set { s with values := (value, bit) :: s.values }
      return bit
    | none =>
      let l ← withGraph (LogicGraph.input s.inputs.length)
      modify fun s => { s with
        inputs := s.inputs ++ [value]
        values := (value, .logic l) :: s.values
        signals := (signal.map fun reference => ((reference.signal, reference.lsb), .logic l)).toList ++ s.signals }
      return .logic l

variable (m : WordModule)

/-- The lowest bit of a one-bit constant. -/
def constantBit (value : Nat) : Option BitVal := do
  let stored ← m.values[value]?
  match stored.kind with
  | .constant bits => if stored.ty.width = 1 then bits.getLast? else none
  | .signal _ | .operation _ => none

/-- The signal bit that a one-bit value reads. -/
def signalBit (value : Nat) : Option SignalRef := do
  let stored ← m.values[value]?
  match stored.kind with
  | .signal reference => if reference.width = 1 then some reference else none
  | .constant _ | .operation _ => none

def importWord (value : Nat) : AxmM ScalarBit :=
  match constantBit m value with
  | some .zero => pure (.logic (LogicBuilder.constant false))
  | some .one => pure (.logic (LogicBuilder.constant true))
  | some .x => pure (.dontCare value)
  | some .z => input value none
  | none => input value (signalBit m value)

def emitUnary (op : UnaryOp) (arg : ScalarBit) : AxmM ScalarBit :=
  match arg with
  | .dontCare _ => pure arg
  | _ => do
    let arg ← literal arg
    match op with
    | .bitNot | .logicalNot => return .logic (LogicBuilder.not arg)
    | .reductionAnd | .reductionOr | .reductionXor => return .logic arg

def emitBinary (op : BinaryOp) (left right : ScalarBit) : AxmM ScalarBit :=
  match left, right with
  | .dontCare _, .dontCare _ => pure left
  | .dontCare _, _ => pure right
  | _, .dontCare _ => pure left
  | _, _ => do
    let left ← literal left
    let right ← literal right
    match op with
    | .bitAnd | .logicalAnd => .logic <$> withGraph (LogicGraph.and left right)
    | .bitOr | .logicalOr => .logic <$> withGraph (LogicGraph.or left right)
    | .bitXor | .ne => .logic <$> withGraph (LogicGraph.xor left right)
    | .eq => (.logic ·.inverted) <$> withGraph (LogicGraph.xor left right)
    | _ => throw (.invariant "non-Boolean operation reached AXM scalar emission")

def emitMux (cond thenValue elseValue : ScalarBit) : AxmM ScalarBit :=
  match cond, thenValue, elseValue with
  | .dontCare _, _, _ => pure elseValue
  | _, .dontCare _, .dontCare _ => pure thenValue
  | _, .dontCare _, _ => pure elseValue
  | _, _, .dontCare _ => pure thenValue
  | _, _, _ => do
    let cond ← literal cond
    let thenValue ← literal thenValue
    let elseValue ← literal elseValue
    .logic <$> withGraph (LogicGraph.mux cond thenValue elseValue)

end AxmBackend

/-! Compositions of emissions. -/

/-- An emission over a word value or over the bits of earlier emissions. -/
inductive Emission
  | importWord (value : Nat)
  | unary (op : UnaryOp) (arg : Nat)
  | binary (op : BinaryOp) (left right : Nat)
  | mux (cond thenValue elseValue : Nat)

def BinaryOp.IsBoolean (op : BinaryOp) : Prop :=
  op ∈ [.bitAnd, .logicalAnd, .bitOr, .logicalOr, .bitXor, .ne, .eq]

/-- The arguments come from the first `count` emissions. -/
def Emission.WellFormed (count : Nat) : Emission → Prop
  | .importWord _ => True
  | .unary _ arg => arg < count
  | .binary op left right => BinaryOp.IsBoolean op ∧ left < count ∧ right < count
  | .mux cond thenValue elseValue => cond < count ∧ thenValue < count ∧ elseValue < count

namespace AxmBackend

variable (m : WordModule)

def operand (done : List ScalarBit) (index : Nat) : AxmM ScalarBit :=
  match done[index]? with
  | some bit => pure bit
  | none => throw (.panic "unknown bit")

def emit (done : List ScalarBit) : Emission → AxmM ScalarBit
  | .importWord value => importWord m value
  | .unary op arg => do
    let arg ← operand done arg
    emitUnary op arg
  | .binary op left right => do
    let left ← operand done left
    let right ← operand done right
    emitBinary op left right
  | .mux cond thenValue elseValue => do
    let cond ← operand done cond
    let thenValue ← operand done thenValue
    let elseValue ← operand done elseValue
    emitMux cond thenValue elseValue

def emitAll : List Emission → List ScalarBit → AxmM (List ScalarBit)
  | [], done => pure done
  | e :: rest, done => do
    let bit ← emit m done e
    emitAll rest (done ++ [bit])

end AxmBackend

/-! The pessimistic evaluation, with no value for an unknown bit. -/

namespace Pessimistic

def unary (op : UnaryOp) (arg : Option Bool) : Option Bool :=
  match op with
  | .bitNot | .logicalNot => arg.map (!·)
  | .reductionAnd | .reductionOr | .reductionXor => arg

def and : Option Bool → Option Bool → Option Bool
  | some false, _ | _, some false => some false
  | some true, some true => some true
  | _, _ => none

def xor (left right : Option Bool) : Option Bool := do return (← left) ^^ (← right)

def binary (op : BinaryOp) (left right : Option Bool) : Option Bool :=
  match op with
  | .bitAnd | .logicalAnd => and left right
  | .bitOr | .logicalOr => (and (left.map (!·)) (right.map (!·))).map (!·)
  | .bitXor | .ne => xor left right
  | .eq => (xor left right).map (!·)
  | _ => none

def mux (cond thenValue elseValue : Option Bool) : Option Bool :=
  match cond with
  | some true => thenValue
  | some false => elseValue
  | none => if thenValue = elseValue then thenValue else none

variable (m : WordModule) (assignment : Nat → Bool)

/-- A value that is no constant has the bit that the assignment gives it. -/
def leaf (value : Nat) : Option Bool :=
  match AxmBackend.constantBit m value with
  | some .zero => some false
  | some .one => some true
  | some .x | some .z => none
  | none => some (assignment value)

def evaluate (done : List (Option Bool)) : Emission → Option Bool
  | .importWord value => leaf m assignment value
  | .unary op arg => unary op done[arg]?.join
  | .binary op left right => binary op done[left]?.join done[right]?.join
  | .mux cond thenValue elseValue => mux done[cond]?.join done[thenValue]?.join done[elseValue]?.join

def evaluateAll : List Emission → List (Option Bool) → List (Option Bool)
  | [], done => done
  | e :: rest, done => evaluateAll rest (done ++ [evaluate m assignment done e])

end Pessimistic

end Opto.Bitblast
