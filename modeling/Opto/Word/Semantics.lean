import Opto.Library.Words
import Opto.Word.Arithmetic

/-!
# What operations compute

Every operator of the combinational operations as a function on words, and the valuations
of a module's values and signals that agree with all its operations and connections.
-/

namespace Opto.Word

open Bits

def UnaryOp.denote (op : UnaryOp) (arg : Bits) : Bits :=
  match op with
  | .logicalNot => [!arg.truth]
  | .bitNot => arg.map (!·)
  | .reductionAnd => [arg.all id]
  | .reductionOr => [arg.truth]
  | .reductionXor => [arg.foldl (· ^^ ·) false]

/-- The order in which a comparison puts two numbers. -/
def BinaryOp.compares (op : BinaryOp) (x y : Int) : Bool :=
  match op with
  | .lt => x < y
  | .le => x ≤ y
  | .gt => y < x
  | .ge => y ≤ x
  | .eq => x = y
  | .ne => x ≠ y
  | _ => false

/-- Operands are extended to the result by sign when all are signed. A right shift of a signed
result repeats the sign only when it is arithmetic. -/
def BinaryOp.denote (op : BinaryOp) (leftTy rightTy ty : WordType) (left right : Bits) : Bits :=
  match op with
  | .add | .sub | .mul | .div | .mod =>
    digits ((op.arithmetic (left.number (ty.signed && leftTy.signed))
      (right.number (ty.signed && rightTy.signed))).getD 0) ty.width
  | .bitAnd => bitwise and
  | .bitOr => bitwise or
  | .bitXor => bitwise xor
  | .logicalAnd => [left.truth && right.truth]
  | .logicalOr => [left.truth || right.truth]
  | .eq | .ne | .lt | .le | .gt | .ge =>
    [op.compares (left.number (leftTy.signed && rightTy.signed))
      (right.number (leftTy.signed && rightTy.signed))]
  | .shl => (List.range ty.width).map fun index =>
      if index < bitsValue right then false else left.getD (index - bitsValue right) false
  | .shr => (List.range ty.width).map fun index => left.getD (index + bitsValue right) false
  | .ashr => (List.range ty.width).map fun index =>
      left.getD (index + bitsValue right) (ty.signed && left.sign)
where
  bitwise (f : Bool → Bool → Bool) : Bits :=
    List.zipWith f (left.resize (ty.signed && leftTy.signed) ty.width)
      (right.resize (ty.signed && rightTy.signed) ty.width)

/-- A cast extends or drops bits, whatever the signs of the types. -/
def CastKind.denote (kind : CastKind) (target : WordType) (source : Bits) : Bits :=
  source.resize (kind = .signExtend) target.width

/-- The result of a combinational operation from the types and words of its operands. -/
def OpKind.denote (typeOf : Nat → Option WordType) (value : Nat → Bits) (ty : WordType) :
    OpKind → Option Bits
  | .unary op arg => some (op.denote (value arg))
  | .binary op left right => do
    let leftTy ← typeOf left
    let rightTy ← typeOf right
    some (op.denote leftTy rightTy ty (value left) (value right))
  | .mux cond thenValue elseValue =>
    some (if (value cond).truth then value thenValue else value elseValue)
  | .concat parts => some (parts.reverse.flatMap value)
  | .extract source lsb width => some (((value source).drop lsb).take width)
  | .dynamicExtract source offset width =>
    some ((value source).extractAt (bitsValue (value offset)) width)
  | .dynamicInsert source offset replacement =>
    some ((value source).insertAt (value replacement) (bitsValue (value offset)))
  | .cast kind source target => some (kind.denote target (value source))
  | .triState _ _ | .register _ | .latch _ => none

/-- A bit of a constant leaves a digit open when it is undefined. -/
def BitVal.allows : BitVal → Bool → Bool
  | .zero, digit => !digit
  | .one, digit => digit
  | .x, _ | .z, _ => true

namespace WordModule

variable (m : WordModule)

/-- A port drives the signal from outside. -/
def IsExternal (signal : Nat) : Prop :=
  ∃ port ∈ m.ports, (port.direction = .input ∨ port.direction = .inout) ∧ port.signal = signal

/-- A runtime-indexed connection writes the signal. -/
def IsDynamic (signal : Nat) : Prop :=
  ∃ connect ∈ m.connects, connect.target.signal = signal ∧ connect.target.dynamic.isSome

/-- Bit `offset` of a static connection's value drives the bit of the signal. -/
def Drives (connect offset signal bit : Nat) : Prop :=
  ∃ stored ty, m.connects[connect]? = some stored ∧ stored.target.signal = signal ∧
    m.signalTy signal = some ty ∧ offset < stored.target.range.elim ty.width BitRange.width ∧
    targetBit stored.target.range offset = some bit

end WordModule

/-- Words for all values and signals. What tri-state drivers, registers and latches give is
left open, and so are the bits of a signal that several sources or none drive. -/
structure Satisfies (m : WordModule) (value signal : Nat → Bits) : Prop where
  width : ∀ v ty, m.valueTy v = some ty → (value v).length = ty.width
  signalWidth : ∀ s ty, m.signalTy s = some ty → (signal s).length = ty.width
  constant : ∀ (v : Nat) bits ty, m.values[v]? = some ⟨.constant bits, ty⟩ →
    List.Forall₂ (fun bit digit => bit.allows digit = true) bits.reverse (value v)
  read : ∀ (v : Nat) reference ty, m.values[v]? = some ⟨.signal reference, ty⟩ →
    value v = ((signal reference.signal).drop reference.lsb).take reference.width
  operation : ∀ (o : Nat) stored ty bits, m.operations[o]? = some stored →
    m.valueTy stored.result = some ty → stored.kind.denote m.valueTy value ty = some bits →
      value stored.result = bits
  connect : ∀ c offset s bit stored, ¬m.IsExternal s → ¬m.IsDynamic s →
    m.connects[c]? = some stored → m.Drives c offset s bit →
      (∀ c' offset', m.Drives c' offset' s bit → c' = c ∧ offset' = offset) →
        (signal s)[bit]? = (value stored.value)[offset]?

end Opto.Word
