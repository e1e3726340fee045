import Opto.Logic.Builder

/-!
# The canonicalization rules

Each connective has a decision table over the structure of its arguments and a
runner that carries the decision out. The rules are generic in the store, so
that the builder and the read-only probe apply the same ones.
-/

namespace Opto.Logic

variable {σ ε : Type} [Canonical σ ε]

def binaryFanins (store : σ) (value : Lit) (kind : NodeKind) : Option (Lit × Lit) :=
  if value.isInverted ∨ Canonical.kind store value.node ≠ some kind then none
  else do
    let left ← Canonical.fanin store value.node 0
    let right ← Canonical.fanin store value.node 1
    pure (left, right)

def muxFanins (store : σ) (value : Lit) : Option (Lit × Lit × Lit) :=
  if value.isInverted ∨ Canonical.kind store value.node ≠ some .mux then none
  else do
    let select ← Canonical.fanin store value.node 0
    let thenValue ← Canonical.fanin store value.node 1
    let elseValue ← Canonical.fanin store value.node 2
    pure (select, thenValue, elseValue)

def xorRemaining (fanins : Lit × Lit) (shared : Lit) : Option Lit :=
  if fanins.1 = shared then some fanins.2
  else if fanins.2 = shared then some fanins.1
  else none

def xorSharedRemaining (left right : Lit × Lit) : Option (Lit × Lit) :=
  match xorRemaining right left.1 with
  | some remaining => some (left.2, remaining)
  | none => (xorRemaining right left.2).map fun remaining => (left.1, remaining)

def complementaryProductFactor (left right : Lit × Lit) : Option (Lit × Lit × Lit) :=
  let factor (leftSelect whenTrue : Lit) : Option (Lit × Lit × Lit) :=
    if right.1 = leftSelect.inverted then some (leftSelect, whenTrue, right.2)
    else if right.2 = leftSelect.inverted then some (leftSelect, whenTrue, right.1)
    else none
  (factor left.1 left.2).or (factor left.2 left.1)

def hasFanin (fanins : Option (Lit × Lit)) (l : Lit) : Bool :=
  fanins.any fun f => f.1 == l || f.2 == l

/-- Constant, idempotence, absorption and consensus identities of a conjunction. -/
def andIdentity (store : σ) (left right : Lit) : Option Lit :=
  if left = .FALSE ∨ right = .FALSE ∨ left = right.inverted then some .FALSE
  else if left = .TRUE then some right
  else if right = .TRUE ∨ left = right then some left
  else if hasFanin (binaryFanins store left .and) right then some left
  else if hasFanin (binaryFanins store right .and) left then some right
  else if right.isInverted ∧ hasFanin (binaryFanins store right.positive .and) left.inverted then
    some left
  else if left.isInverted ∧ hasFanin (binaryFanins store left.positive .and) right.inverted then
    some right
  else none

def canonicalAnd (left right : Lit) (origin : Nat) : EStateM (Halt ε) σ Lit := do
  let store ← get
  match andIdentity store left right with
  | some value => pure value
  | none =>
    let fanins := ordered left right
    Canonical.resolve (.and fanins.1 fanins.2) .and fanins.1 fanins.2 .FALSE origin

/-- A sum of two products with complementary factors is a multiplexer. -/
def orFactor (store : σ) (left right : Lit) : Option (Lit × Lit × Lit) :=
  match binaryFanins store left .and, binaryFanins store right .and with
  | some leftProduct, some rightProduct => complementaryProductFactor leftProduct rightProduct
  | _, _ => none

def canonicalOrWith (mux : Lit → Lit → Lit → EStateM (Halt ε) σ Lit)
    (left right : Lit) (origin : Nat) : EStateM (Halt ε) σ Lit := do
  let store ← get
  match orFactor store left right with
  | some (select, whenTrue, whenFalse) => mux select whenTrue whenFalse
  | none => Lit.inverted <$> canonicalAnd left.inverted right.inverted origin

inductive XorStep
  | value (l : Lit)
  | again (left right : Lit)
  | intern (left right : Lit)

/-- The rules that look into the structure of two positive, distinct literals. -/
def xorPositive (store : σ) (left right : Lit) : XorStep :=
  let leftFanins := binaryFanins store left .xor
  let rightFanins := binaryFanins store right .xor
  match leftFanins.bind (xorRemaining · right) with
  | some remaining => .value remaining
  | none =>
    match rightFanins.bind (xorRemaining · left) with
    | some remaining => .value remaining
    | none =>
      match leftFanins.bind fun l => rightFanins.bind fun r => xorSharedRemaining l r with
      | some (leftRemaining, rightRemaining) => .again leftRemaining rightRemaining
      | none => .intern (ordered left right).1 (ordered left right).2

/-- The decision for a parity, with the phase that is normalized onto its result. -/
def xorRule (store : σ) (left right : Lit) : XorStep × Bool :=
  if left = .FALSE then (.value right, false)
  else if right = .FALSE then (.value left, false)
  else if left = .TRUE then (.value right.inverted, false)
  else if right = .TRUE then (.value left.inverted, false)
  else if left = right then (.value .FALSE, false)
  else if left = right.inverted then (.value .TRUE, false)
  else
    let inverted := left.isInverted ^^ right.isInverted
    if left.positive = right.positive then (.value (LogicBuilder.constant inverted), false)
    else (xorPositive store left.positive right.positive, inverted)

def canonicalXor : Nat → Lit → Lit → Nat → EStateM (Halt ε) σ Lit
  | 0, _, _, _ => throw .fuel
  | fuel + 1, left, right, origin => do
    let store ← get
    let (step, inverted) := xorRule store left right
    (withPhase · inverted) <$>
      match step with
      | .value l => pure l
      | .again l r => canonicalXor fuel l r origin
      | .intern l r => Canonical.resolve (.xor l r) .xor l r .FALSE origin

/-- What a multiplexer reduces to in one step. -/
inductive MuxStep
  | value (l : Lit)
  | viaXor (left right : Lit)
  | viaOr (left right : Lit)
  | viaAnd (left right : Lit)
  | again (select thenValue elseValue : Lit)
  | combineAnd (left right thenValue elseValue : Lit)
  | combineOr (left right thenValue elseValue : Lit)
  | factorElse (select thenValue elseValue outerSelect outerThen : Lit)
  | factorThen (select thenValue elseValue outerSelect outerElse : Lit)
  | intern (select thenValue elseValue : Lit)

section MuxRules

variable (store : σ) (select thenValue elseValue : Lit)

def sameSelectThen : Option Lit :=
  (muxFanins store thenValue).bind fun inner => if inner.1 = select then some inner.2.1 else none

def sameSelectElse : Option Lit :=
  (muxFanins store elseValue).bind fun inner => if inner.1 = select then some inner.2.2 else none

def combinedThen : Option MuxStep :=
  (muxFanins store thenValue).bind fun inner =>
    if elseValue = inner.2.2 then some (.combineAnd select inner.1 inner.2.1 inner.2.2)
    else if elseValue = inner.2.1 then
      some (.combineOr select.inverted inner.1 inner.2.1 inner.2.2)
    else none

def combinedElse : Option MuxStep :=
  (muxFanins store elseValue).bind fun inner =>
    if thenValue = inner.2.1 then some (.combineOr select inner.1 inner.2.1 inner.2.2)
    else if thenValue = inner.2.2 then
      some (.combineAnd select.inverted inner.1 inner.2.1 inner.2.2)
    else none

def factored : Option MuxStep :=
  (muxFanins store thenValue).bind fun t => (muxFanins store elseValue).bind fun e =>
    if t.1 = e.1 then
      if t.2.1 = e.2.1 then some (.factorElse select t.2.2 e.2.2 t.1 t.2.1)
      else if t.2.2 = e.2.2 then some (.factorThen select t.2.1 e.2.1 t.1 t.2.2)
      else none
    else none

def muxFactor : MuxStep :=
  ((combinedThen store select thenValue elseValue).or
    ((combinedElse store select thenValue elseValue).or
      (factored store select thenValue elseValue))).getD (.intern select thenValue elseValue)

/-- Nested multiplexers on the same selector collapse before any factoring is tried. -/
def muxNested : MuxStep :=
  match sameSelectThen store select thenValue, sameSelectElse store select elseValue with
  | none, none => muxFactor store select thenValue elseValue
  | innerThen, innerElse => .again select (innerThen.getD thenValue) (innerElse.getD elseValue)

def muxReduced : MuxStep :=
  if thenValue = elseValue.inverted then .viaXor select elseValue
  else if thenValue = .TRUE ∨ thenValue = select then .viaOr select elseValue
  else if thenValue = .FALSE ∨ thenValue = select.inverted then .viaAnd select.inverted elseValue
  else if elseValue = .FALSE ∨ elseValue = select then .viaAnd select thenValue
  else if elseValue = .TRUE ∨ elseValue = select.inverted then .viaOr select.inverted thenValue
  else muxNested store select thenValue elseValue

/-- A phase common to both arms moves to the result. -/
def muxPhased : MuxStep × Bool :=
  if thenValue.isInverted && elseValue.isInverted then
    (muxReduced store select thenValue.positive elseValue.positive, true)
  else (muxReduced store select thenValue elseValue, false)

/-- An inverted selector swaps the arms. -/
def muxRule : MuxStep × Bool :=
  if select = .FALSE then (.value elseValue, false)
  else if select = .TRUE ∨ thenValue = elseValue then (.value thenValue, false)
  else if thenValue = .TRUE ∧ elseValue = .FALSE then (.value select, false)
  else if thenValue = .FALSE ∧ elseValue = .TRUE then (.value select.inverted, false)
  else if select.isInverted then muxPhased store select.positive elseValue thenValue
  else muxPhased store select thenValue elseValue

end MuxRules

def runMuxStep (mux : Lit → Lit → Lit → EStateM (Halt ε) σ Lit) (fuel origin : Nat) :
    MuxStep → EStateM (Halt ε) σ Lit
  | .value l => pure l
  | .viaXor left right => canonicalXor fuel left right origin
  | .viaOr left right => canonicalOrWith mux left right origin
  | .viaAnd left right => canonicalAnd left right origin
  | .again select thenValue elseValue => mux select thenValue elseValue
  | .combineAnd left right thenValue elseValue => do
    let combined ← canonicalAnd left right origin
    mux combined thenValue elseValue
  | .combineOr left right thenValue elseValue => do
    let combined ← canonicalOrWith mux left right origin
    mux combined thenValue elseValue
  | .factorElse select thenValue elseValue outerSelect outerThen => do
    let remaining ← mux select thenValue elseValue
    mux outerSelect outerThen remaining
  | .factorThen select thenValue elseValue outerSelect outerElse => do
    let remaining ← mux select thenValue elseValue
    mux outerSelect remaining outerElse
  | .intern select thenValue elseValue =>
    Canonical.resolve (.mux select thenValue elseValue) .mux select thenValue elseValue origin

def canonicalMux : Nat → Lit → Lit → Lit → Nat → EStateM (Halt ε) σ Lit
  | 0, _, _, _, _ => throw .fuel
  | fuel + 1, select, thenValue, elseValue, origin => do
    let store ← get
    let (step, inverted) := muxRule store select thenValue elseValue
    (withPhase · inverted) <$>
      runMuxStep (fun s t e => canonicalMux fuel s t e origin) fuel origin step

def canonicalOr (fuel : Nat) (left right : Lit) (origin : Nat) : EStateM (Halt ε) σ Lit :=
  canonicalOrWith (fun s t e => canonicalMux fuel s t e origin) left right origin

/-! The builder's calls give the rules as much fuel as their arguments weigh. -/

namespace LogicBuilder

def and (left right : Lit) (origin : Nat) : BuildM Lit := canonicalAnd left right origin

def or (left right : Lit) (origin : Nat) : BuildM Lit := do
  let b ← get
  canonicalOr (weight b.nodes left + weight b.nodes right) left right origin

def xor (left right : Lit) (origin : Nat) : BuildM Lit := do
  let b ← get
  canonicalXor (weight b.nodes left + weight b.nodes right) left right origin

def mux (select thenValue elseValue : Lit) (origin : Nat) : BuildM Lit := do
  let b ← get
  canonicalMux (weight b.nodes select + weight b.nodes thenValue + weight b.nodes elseValue)
    select thenValue elseValue origin

end LogicBuilder
end Opto.Logic
