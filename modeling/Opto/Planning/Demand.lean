import Opto.Planning.Uses

/-!
# Demand of low bits

How many low bits of every value an observable result may depend on. Demand starts at the
roots of observability and moves from results to operands until nothing is pending.
-/

namespace Opto.Planning

open Word
open Mapped (U32_MAX)

structure ObservableBits where
  valuePrefixes : List Nat
  deriving DecidableEq, Repr

def ObservableBits.requiredPrefix (bits : ObservableBits) (value : Nat) : Nat := bits.valuePrefixes.getD value 0

/-- The demands found so far, and the stacks with their tops first. -/
structure DemandAnalysis where
  valuePrefixes : List Nat
  signalPrefixes : List Nat
  pendingValues : List Nat
  pendingSignals : List Nat
  deriving DecidableEq, Repr

namespace DemandAnalysis

def value (a : DemandAnalysis) (v : Nat) : Nat := a.valuePrefixes.getD v 0

def signal (a : DemandAnalysis) (g : Nat) : Nat := a.signalPrefixes.getD g 0

end DemandAnalysis

def checkedAdd (message : String) (x y : Nat) : Except SynthError Nat :=
  if x + y ≤ U32_MAX then return x + y else invariant message

/-- The operators whose low result bits depend on the low bits of their operands alone. -/
def keepsLowBits : BinaryOp → Bool
  | .add | .sub | .mul | .bitAnd | .bitOr | .bitXor => true
  | .logicalAnd | .logicalOr | .div | .mod | .eq | .ne | .lt | .le | .gt | .ge | .shl | .shr | .ashr => false

section Module

variable (m : WordModule)

/-! Drivers. -/

structure SignalDrivers where
  rows : PackedRows Nat

def SignalDrivers.build : Except SynthError SignalDrivers := do
  let entries ← m.connects.zipIdx.mapM fun entry =>
    if entry.2 ≤ U32_MAX then .ok (entry.1.target.signal, entry.2)
    else .error (.capacity "connect index exceeds 32-bit driver-table capacity")
  let rows ← PackedRows.tryPack m.signals.length entries
  return ⟨rows⟩

def SignalDrivers.forSignal (drivers : SignalDrivers) (signal : Nat) : Except SynthError (List Nat) :=
  orInvariant s!"driver table has no signal SignalId({signal})" (drivers.rows.get signal)

/-! Requirements. -/

def valueWidth (value : Nat) : Except SynthError Nat :=
  orInvariant s!"observability references unknown value ValueId({value})" ((m.valueTy value).map (·.width))

def requireValue (a : DemandAnalysis) (value bits : Nat) : Except SynthError DemandAnalysis := do
  let width ← valueWidth m value
  let slot ← orInvariant s!"observability references unknown value ValueId({value})" a.valuePrefixes[value]?
  if slot < min bits width then
    return { a with
      valuePrefixes := a.valuePrefixes.set value (min bits width)
      pendingValues := value :: a.pendingValues }
  else return a

def requireValueFull (a : DemandAnalysis) (value : Nat) : Except SynthError DemandAnalysis := do
  let width ← valueWidth m value
  requireValue m a value width

def requireSignal (a : DemandAnalysis) (signal bits : Nat) : Except SynthError DemandAnalysis := do
  let ty ← orInvariant s!"observability references unknown signal SignalId({signal})" (m.signalTy signal)
  let slot ← orInvariant s!"observability references unknown signal SignalId({signal})" a.signalPrefixes[signal]?
  if slot < min bits ty.width then
    return { a with
      signalPrefixes := a.signalPrefixes.set signal (min bits ty.width)
      pendingSignals := signal :: a.pendingSignals }
  else return a

/-! Propagation. -/

/-- From the last part on, as far as the demand goes. -/
def requireParts (a : DemandAnalysis) (remaining : Nat) : List Nat → Except SynthError DemandAnalysis
  | [] => return a
  | part :: parts =>
    if remaining = 0 then return a
    else do
      let width ← valueWidth m part
      let a ← requireValue m a part (min remaining width)
      requireParts a (remaining - width) parts

def requireResets (a : DemandAnalysis) (resets : List Reset) (demand : Nat) : Except SynthError DemandAnalysis :=
  resets.foldlM (fun a reset => do
    let a ← requireValueFull m a reset.value
    requireValue m a reset.resetValue demand) a

def propagateOperation (a : DemandAnalysis) (demand : Nat) : OpKind → Except SynthError DemandAnalysis
  | .unary .bitNot arg => requireValue m a arg demand
  | .unary _ arg => requireValueFull m a arg
  | .binary op left right =>
    if keepsLowBits op then do
      let a ← requireValue m a left demand
      requireValue m a right demand
    else do
      let a ← requireValueFull m a left
      requireValueFull m a right
  | .mux cond thenValue elseValue => do
    let a ← requireValueFull m a cond
    let a ← requireValue m a thenValue demand
    requireValue m a elseValue demand
  | .triState data enable => do
    let a ← requireValue m a data demand
    requireValueFull m a enable.value
  | .concat parts => requireParts m a demand parts.reverse
  | .extract source lsb _ => do
    let bits ← checkedAdd "observable extract range overflow" lsb demand
    requireValue m a source bits
  | .dynamicExtract source offset _ => do
    let a ← requireValueFull m a source
    requireValueFull m a offset
  | .dynamicInsert source offset replacement => do
    let a ← requireValueFull m a source
    let a ← requireValueFull m a offset
    requireValueFull m a replacement
  | .cast _ source _ => requireValue m a source demand
  | .register register => do
    let a ← requireValue m a register.d demand
    let a ← requireValueFull m a register.clock
    let a ← register.enable.toList.foldlM (fun a enable => requireValueFull m a enable.value) a
    requireResets m a register.resets demand
  | .latch latch => do
    let a ← requireValue m a latch.d demand
    let a ← requireValueFull m a latch.enable.value
    requireResets m a latch.resets demand

def propagateValue (a : DemandAnalysis) (value : Nat) : Except SynthError DemandAnalysis := do
  let demand := a.value value
  let stored ← orInvariant s!"observability references unknown value ValueId({value})" m.values[value]?
  match stored.kind with
  | .signal reference =>
    let bound ← checkedAdd "observable signal range overflow" reference.lsb (min demand reference.width)
    requireSignal m a reference.signal bound
  | .constant _ => return a
  | .operation operation =>
    let stored ← orInvariant s!"observability references unknown operation OperationId({operation})"
      m.operations[operation]?
    propagateOperation m a demand stored.kind

/-- What a connection's value has to give for a demand on its target. -/
def sourceDemand (range : Option BitRange) (signalDemand sourceWidth : Nat) : Nat :=
  match range with
  | none => min signalDemand sourceWidth
  | some range =>
    if range.lsb ≤ range.msb then min (signalDemand - range.lsb) sourceWidth
    else if range.msb < signalDemand then sourceWidth else 0

def requireDriver (signalDemand : Nat) (a : DemandAnalysis) (index : Nat) : Except SynthError DemandAnalysis := do
  let connect ← orInvariant s!"observability references unknown connect {index}" m.connects[index]?
  let sourceWidth ← valueWidth m connect.value
  requireValue m a connect.value (sourceDemand connect.target.range signalDemand sourceWidth)

def propagateSignal (drivers : SignalDrivers) (a : DemandAnalysis) (signal : Nat) :
    Except SynthError DemandAnalysis := do
  let signalDemand := a.signal signal
  let indices ← drivers.forSignal signal
  indices.foldlM (requireDriver m signalDemand) a

def drainValues : Nat → DemandAnalysis → Except SynthError DemandAnalysis
  | 0, a => return a
  | fuel + 1, a =>
    match a.pendingValues with
    | [] => return a
    | value :: rest => do
      let a ← propagateValue m { a with pendingValues := rest } value
      drainValues fuel a

def drainSignals (drivers : SignalDrivers) : Nat → DemandAnalysis → Except SynthError DemandAnalysis
  | 0, a => return a
  | fuel + 1, a =>
    match a.pendingSignals with
    | [] => return a
    | signal :: rest => do
      let a ← propagateSignal m drivers { a with pendingSignals := rest } signal
      drainSignals drivers fuel a

/-- Every pop takes an entry off the stacks, and every push adds a bit of demand. -/
def DemandAnalysis.remaining (a : DemandAnalysis) : Nat :=
  a.pendingValues.length + a.pendingSignals.length +
    (List.zipWith (· - ·) (m.values.map (·.ty.width)) a.valuePrefixes).sum +
      (List.zipWith (· - ·) (m.signals.map (·.ty.width)) a.signalPrefixes).sum

def propagate (drivers : SignalDrivers) : Nat → DemandAnalysis → Except SynthError DemandAnalysis
  | 0, a => return a
  | fuel + 1, a =>
    if a.pendingValues = [] ∧ a.pendingSignals = [] then return a
    else do
      let a ← drainValues m (a.remaining m) a
      let a ← drainSignals m drivers (a.remaining m) a
      propagate drivers fuel a

def DemandAnalysis.new : DemandAnalysis where
  valuePrefixes := List.replicate m.values.length 0
  signalPrefixes := List.replicate m.signals.length 0
  pendingValues := []
  pendingSignals := []

def DemandAnalysis.run (drivers : SignalDrivers) (a : DemandAnalysis) (observedValues : List Nat) :
    Except SynthError ObservableBits := do
  let observability ← netlistObservabilityWithValues m observedValues
  let a ← observability.rootValues.foldlM (requireValueFull m) a
  let a ← propagate m drivers (a.remaining m) a
  return ⟨a.valuePrefixes⟩

def ObservableBits.analyzeWithValues (observedValues : List Nat) : Except SynthError ObservableBits := do
  if m.connects.any (·.target.dynamic.isSome) then
    .error (.unsupported "dynamic connect target reached observability analysis")
  else do
    let drivers ← SignalDrivers.build m
    DemandAnalysis.run m drivers (DemandAnalysis.new m) observedValues

end Module

end Opto.Planning
