import Opto.Word.System
import Opto.Word.Module
import Opto.Word.Semantics

/-!
# Controls

A one-bit value that a signal decides, through negations, casts and comparisons with
constants, is read as the signal bit and a polarity.
-/

namespace Opto.Frontend

open Word

/-- A signal bit, and whether it is high when the control is asserted. -/
abbrev BooleanControl := SignalRef × Bool

section

variable (m : WordModule)

/-- The lowest bit of a constant of any width, when it is defined. -/
def scalarConstant (value : Nat) : Option Bool :=
  match m.values[value]? with
  | some ⟨.constant bits, _⟩ =>
    match bits.getLast? with
    | some .zero => some false
    | some .one => some true
    | _ => none
  | _ => none

/-- The operand that is compared and the constant it is compared with; a constant on the right
comes first. -/
def comparedOperand (left right : Nat) : Option (Nat × Nat × Bool) :=
  ((scalarConstant m right).map fun constant => (left, right, constant)).or
    ((scalarConstant m left).map fun constant => (right, left, constant))

def normalizeComparison (normalize : Nat → Bool → Option BooleanControl) (op : BinaryOp) (left right : Nat)
    (assertedWhenHigh : Bool) : Option BooleanControl := do
  let (value, _, constant) ← comparedOperand m left right
  let equalityAssertsHigh := if op = .eq then constant else !constant
  normalize value (if assertedWhenHigh then equalityAssertsHigh else !equalityAssertsHigh)

/-- Operands are numbered below results, so fuel above a value's number is never used up. -/
def normalizeBooleanValue : Nat → Nat → Bool → Option BooleanControl
  | 0, _, _ => none
  | fuel + 1, value, assertedWhenHigh =>
    match m.values[value]? with
    | none => none
    | some stored =>
      if stored.ty.width ≠ 1 then none
      else
        match stored.kind with
        | .signal reference => if reference.width = 1 then some (reference, assertedWhenHigh) else none
        | .constant _ => none
        | .operation operation =>
          match m.operations[operation]? with
          | some ⟨.unary op arg, _⟩ =>
            if op = .logicalNot ∨ op = .bitNot then normalizeBooleanValue fuel arg (!assertedWhenHigh)
            else none
          | some ⟨.cast _ value _, _⟩ => normalizeBooleanValue fuel value assertedWhenHigh
          | some ⟨.binary op left right, _⟩ =>
            if op = .eq ∨ op = .ne then
              normalizeComparison m (normalizeBooleanValue fuel) op left right assertedWhenHigh
            else none
          | _ => none

def booleanControl (value : Nat) (assertedWhenHigh : Bool) : Option BooleanControl :=
  normalizeBooleanValue m (value + 1) value assertedWhenHigh

/-- The constant's upper bits are what extends its lowest one to its width. -/
def extendsLowest (signed : Bool) (bits : List BitVal) : Bool :=
  bits.dropLast.all fun bit => if signed then some bit = bits.getLast? else bit = .zero

/-- The constant is the extension of one bit to the width of a comparison with a one-bit value. -/
def fitsOneBit (value constant : Nat) : Bool :=
  match m.values[value]?, m.values[constant]? with
  | some stored, some ⟨.constant bits, ty⟩ => extendsLowest (stored.ty.signed && ty.signed) bits
  | _, _ => true

/-- All constants that the reading of a control meets fit one bit. -/
def comparesBits : Nat → Nat → Bool
  | 0, _ => true
  | fuel + 1, value =>
    match m.producer value with
    | none => true
    | some operation =>
      match m.operations[operation]? with
      | some ⟨.unary _ arg, _⟩ => comparesBits fuel arg
      | some ⟨.cast _ value _, _⟩ => comparesBits fuel value
      | some ⟨.binary _ left right, _⟩ =>
        match comparedOperand m left right with
        | none => true
        | some (operand, constant, _) => fitsOneBit m operand constant && comparesBits fuel operand
      | _ => true

/-- A value that is no control, or whose reading compares one-bit values with constants that fit
one bit. -/
def ReadsBits (value : Nat) : Prop :=
  booleanControl m value true = none ∨ comparesBits m (value + 1) value = true

end

instance (m : WordModule) (value : Nat) : Decidable (ReadsBits m value) :=
  inferInstanceAs (Decidable (_ ∨ _))

/-! What the builders promise, and the valuations of a module that is still being built. -/

/-- Values and operations name each other, operands come first, and constants are as wide as
their types. -/
structure Consistent (m : WordModule) : Prop where
  result : ∀ (v o : Nat) ty, m.values[v]? = some ⟨.operation o, ty⟩ →
    ∃ stored, m.operations[o]? = some stored ∧ stored.result = v
  inputs : ∀ (o : Nat) stored, m.operations[o]? = some stored → ∀ i ∈ stored.kind.inputs, i < stored.result
  constant : ∀ (v : Nat) bits ty, m.values[v]? = some ⟨.constant bits, ty⟩ → bits.length = ty.width

theorem consistent_of_validate {m : WordModule} (h : m.validate = true) : Consistent m where
  result v o ty hv := WordModule.valid_producer h (WordModule.producer_eq_some.mpr ⟨ty, hv⟩)
  inputs o stored ho := by
    obtain ⟨_, _, _, _, hinputs⟩ := WordModule.valid_result h ho
    exact hinputs
  constant v bits ty hv := WordModule.valid_constant h hv

/-- Words for the values and signals that agree with the operations; the signals are arbitrary. -/
structure Evaluates (m : WordModule) (value signal : Nat → Bits) : Prop where
  width : ∀ v ty, m.valueTy v = some ty → (value v).length = ty.width
  signalWidth : ∀ s ty, m.signalTy s = some ty → (signal s).length = ty.width
  constant : ∀ (v : Nat) bits ty, m.values[v]? = some ⟨.constant bits, ty⟩ →
    List.Forall₂ (fun bit digit => bit.allows digit = true) bits.reverse (value v)
  read : ∀ (v : Nat) reference ty, m.values[v]? = some ⟨.signal reference, ty⟩ →
    value v = ((signal reference.signal).drop reference.lsb).take reference.width
  operation : ∀ (o : Nat) stored ty bits, m.operations[o]? = some stored →
    m.valueTy stored.result = some ty → stored.kind.denote m.valueTy value ty = some bits →
      value stored.result = bits

theorem evaluates_of_satisfies {m : WordModule} {value signal : Nat → Bits} (h : Satisfies m value signal) :
    Evaluates m value signal :=
  ⟨h.width, h.signalWidth, h.constant, h.read, h.operation⟩

end Opto.Frontend
