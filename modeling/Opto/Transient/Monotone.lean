import Opto.Library.TwosComplement
import Opto.Word.Module

/-!
# Monotone induction

A loop whose induction variable moves toward its bound by at least one in every iteration
visits its header a bounded number of times, if none of its updates can wrap around.
-/

namespace Opto.Transient

open Word MachineInt

/-- When a loop tests its condition. -/
inductive LoopForm
  | preTest
  | postTest
  | unconditional
deriving DecidableEq, Repr

inductive NumericValue
  | signed (value : I128)
  | unsigned (value : U128)
deriving DecidableEq, Repr

namespace NumericValue

def compare : NumericValue → NumericValue → Option Ordering
  | .signed left, .signed right => some (Ord.compare left.value right.value)
  | .unsigned left, .unsigned right => some (Ord.compare left.value right.value)
  | _, _ => none

def checkedAdd (value : NumericValue) (delta : I128) : Option NumericValue :=
  match value with
  | .signed value => .signed <$> value.checkedAdd delta
  | .unsigned value =>
    if 0 ≤ delta.value then do
      let delta ← checked delta.value
      .unsigned <$> value.checkedAdd delta
    else .unsigned <$> value.checkedSub delta.unsignedAbs

def inclusiveDistance (distance : U128) (inclusive : Bool) : Option U128 :=
  if inclusive then distance.checkedAdd ⟨1, by decide, by decide⟩ else some distance

/-- How far the bound lies above the start, counting the bound itself when it is included. -/
def increasingDistance (start bound : NumericValue) (inclusive : Bool) : Option U128 :=
  match start, bound with
  | .signed start, .signed bound =>
    if start.value < bound.value then inclusiveDistance (bound.absDiff start) inclusive
    else if inclusive ∧ start.value = bound.value then inclusiveDistance ⟨0, by decide, by decide⟩ inclusive
    else some ⟨0, by decide, by decide⟩
  | .unsigned start, .unsigned bound =>
    if start.value < bound.value then do
      let distance ← bound.checkedSub start
      inclusiveDistance distance inclusive
    else if inclusive ∧ start.value = bound.value then inclusiveDistance ⟨0, by decide, by decide⟩ inclusive
    else some ⟨0, by decide, by decide⟩
  | _, _ => none

def decreasingDistance (start bound : NumericValue) (inclusive : Bool) : Option U128 :=
  bound.increasingDistance start inclusive

end NumericValue

structure DeltaRange where
  minimum : I128
  maximum : I128
deriving DecidableEq, Repr

structure InductionExtrema where
  initialMinimum : NumericValue
  initialMaximum : NumericValue
  boundMinimum : NumericValue
  boundMaximum : NumericValue
  delta : DeltaRange
deriving DecidableEq, Repr

def numericTypeBounds (ty : WordType) : Option (NumericValue × NumericValue) :=
  if ty.width = 0 ∨ 128 < ty.width then none
  else if ty.signed then
    if ty.width = 128 then
      some (.signed ⟨-(2 ^ 127), by decide, by decide⟩, .signed ⟨2 ^ 127 - 1, by decide, by decide⟩)
    else do
      let minimum ← checked (-(2 ^ (ty.width - 1)))
      let maximum ← checked (2 ^ (ty.width - 1) - 1)
      return (.signed minimum, .signed maximum)
  else if ty.width = 128 then
    some (.unsigned ⟨0, by decide, by decide⟩, .unsigned ⟨2 ^ 128 - 1, by decide, by decide⟩)
  else do
    let maximum ← checked (2 ^ ty.width - 1)
    return (.unsigned ⟨0, by decide, by decide⟩, .unsigned maximum)

def ceilDiv (dividend divisor : U128) : Option U128 :=
  if dividend.value = 0 then some ⟨0, by decide, by decide⟩
  else do
    let before ← dividend.checkedSub ⟨1, by decide, by decide⟩
    let quotient ← before.checkedDiv divisor
    quotient.checkedAdd ⟨1, by decide, by decide⟩

/-- Whether an update takes a value past a limit of its type. -/
def updatePasses (value : NumericValue) (delta : I128) (limit : NumericValue) (past : Ordering) :
    Option Bool := do
  let updated ← value.checkedAdd delta
  let order ← updated.compare limit
  return order == past

/-- The first update of a loop that tests later is not guarded. -/
def firstUpdatePasses (form : LoopForm) (initial : NumericValue) (delta : I128) (limit : NumericValue)
    (past : Ordering) : Option Bool :=
  if form = .postTest then updatePasses initial delta limit past else some false

/-- The value nearest to the bound for which the condition can hold, if there is one. -/
def activeExtremum (inclusive : Bool) (bound idle : NumericValue) (step : I128) :
    Option (Option NumericValue) :=
  if inclusive then some (some bound)
  else do
    let order ← bound.compare idle
    if order = .eq then return none
    else return bound.checkedAdd step

def guardedUpdatesDoNotPass (active : Option NumericValue) (delta : I128) (limit : NumericValue)
    (past : Ordering) : Option Bool :=
  match active with
  | none => some true
  | some active => do
    let passes ← updatePasses active delta limit past
    return !passes

def increasingUpdatesDoNotWrap (form : LoopForm) (inclusive : Bool)
    (initialMaximum boundMaximum : NumericValue) (maximumDelta : I128)
    (typeMinimum typeMaximum : NumericValue) : Option Bool := do
  let first ← firstUpdatePasses form initialMaximum maximumDelta typeMaximum .gt
  if first then return false
  else
    let active ← activeExtremum inclusive boundMaximum typeMinimum ⟨-1, by decide, by decide⟩
    guardedUpdatesDoNotPass active maximumDelta typeMaximum .gt

def decreasingUpdatesDoNotWrap (form : LoopForm) (inclusive : Bool)
    (initialMinimum boundMinimum : NumericValue) (minimumDelta : I128)
    (typeMinimum typeMaximum : NumericValue) : Option Bool := do
  let first ← firstUpdatePasses form initialMinimum minimumDelta typeMinimum .lt
  if first then return false
  else
    let active ← activeExtremum inclusive boundMinimum typeMaximum ⟨1, by decide, by decide⟩
    guardedUpdatesDoNotPass active minimumDelta typeMinimum .lt

def increasingIterations (form : LoopForm) (op : BinaryOp) (extrema : InductionExtrema)
    (typeMinimum typeMaximum : NumericValue) : Option U128 := do
  let inclusive := op == .le
  let safe ← increasingUpdatesDoNotWrap form inclusive extrema.initialMaximum extrema.boundMaximum
    extrema.delta.maximum typeMinimum typeMaximum
  if safe then
    let distance ← extrema.initialMinimum.increasingDistance extrema.boundMaximum inclusive
    let slowest ← checked extrema.delta.minimum.value
    ceilDiv distance slowest
  else none

def decreasingIterations (form : LoopForm) (op : BinaryOp) (extrema : InductionExtrema)
    (typeMinimum typeMaximum : NumericValue) : Option U128 := do
  let inclusive := op == .ge
  let safe ← decreasingUpdatesDoNotWrap form inclusive extrema.initialMinimum extrema.boundMinimum
    extrema.delta.minimum typeMinimum typeMaximum
  if safe then
    let distance ← extrema.initialMaximum.decreasingDistance extrema.boundMinimum inclusive
    ceilDiv distance extrema.delta.maximum.unsignedAbs
  else none

def monotoneIterations (form : LoopForm) (op : BinaryOp) (extrema : InductionExtrema)
    (typeMinimum typeMaximum : NumericValue) : Option U128 :=
  if 0 < extrema.delta.minimum.value ∧ (op = .lt ∨ op = .le) then
    increasingIterations form op extrema typeMinimum typeMaximum
  else if extrema.delta.maximum.value < 0 ∧ (op = .gt ∨ op = .ge) then
    decreasingIterations form op extrema typeMinimum typeMaximum
  else none

def visitsOf (form : LoopForm) (iterations : U128) : Option U128 :=
  match form with
  | .preTest => iterations.checkedAdd ⟨1, by decide, by decide⟩
  | .postTest => some (if iterations.value ≤ 1 then ⟨1, by decide, by decide⟩ else iterations)
  | .unconditional => none

def monotoneHeaderVisits (form : LoopForm) (op : BinaryOp) (ty : WordType) (extrema : InductionExtrema) :
    Option U128 := do
  let (typeMinimum, typeMaximum) ← numericTypeBounds ty
  let iterations ← monotoneIterations form op extrema typeMinimum typeMaximum
  visitsOf form iterations

end Opto.Transient
