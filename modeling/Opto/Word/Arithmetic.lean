import Opto.Library.TwosComplement
import Opto.Word.Module

/-!
# What arithmetic operations and casts compute

A valuation gives every value a word of its width. Operands are sign-extended to the
result when the result and the operand are signed, and zero-extended otherwise.
-/

namespace Opto.Word

open TwosComplement (read encode)

/-- The value of a constant whose bits are all defined. -/
def definedBits : List BitVal → Option Nat
  | [] => some 0
  | bit :: bits => do
    let digit ← match bit with
      | .zero => some 0
      | .one => some 1
      | .x | .z => none
    let rest ← definedBits bits
    return digit * 2 ^ bits.length + rest

/-- Division truncates toward zero, and the remainder has the dividend's sign; both are zero
when the divisor is. -/
def BinaryOp.arithmetic (op : BinaryOp) (left right : Int) : Option Int :=
  match op with
  | .add => some (left + right)
  | .sub => some (left - right)
  | .mul => some (left * right)
  | .div => some (left.tdiv right)
  | .mod => some (if right = 0 then 0 else left.tmod right)
  | _ => none

/-- An operand, as the result's type has it extended. -/
def extended (result ty : WordType) (x : Nat) : Int := read (result.signed && ty.signed) ty.width x

def CastKind.cast (kind : CastKind) (source target : WordType) (x : Nat) : Nat :=
  match kind with
  | .zeroExtend => x
  | .signExtend => encode target.width (read true source.width x)
  | .truncate => x % 2 ^ target.width

/-- Words for all values that agree with the constants, the arithmetic operations and the
casts. What the other operations compute is left open. -/
structure Valuation (m : WordModule) (value : Nat → Nat) : Prop where
  bounded : ∀ v ty, m.valueTy v = some ty → value v < 2 ^ ty.width
  constant : ∀ (v : Nat) bits ty x, m.values[v]? = some ⟨.constant bits, ty⟩ →
    definedBits bits = some x → value v = x
  arithmetic : ∀ (o : Nat) op left right result ty leftTy rightTy x,
    m.operations[o]? = some ⟨.binary op left right, result⟩ → m.valueTy result = some ty →
    m.valueTy left = some leftTy → m.valueTy right = some rightTy →
    op.arithmetic (extended ty leftTy (value left)) (extended ty rightTy (value right)) = some x →
    value result = encode ty.width x
  cast : ∀ (o : Nat) kind source target result sourceTy,
    m.operations[o]? = some ⟨.cast kind source target, result⟩ → m.valueTy source = some sourceTy →
    value result = kind.cast sourceTy target (value source)

/-! Valuations can be checked. -/

variable (m : WordModule) (value : Nat → Nat)

def agreesValue (v : Nat) (stored : Value) : Bool :=
  decide (value v < 2 ^ stored.ty.width) && match stored.kind with
    | .constant bits => (definedBits bits).all (value v = ·)
    | _ => true

def agreesOperation (stored : Operation) : Bool :=
  match stored.kind with
  | .binary op left right =>
    match m.valueTy stored.result, m.valueTy left, m.valueTy right with
    | some ty, some leftTy, some rightTy =>
      (op.arithmetic (extended ty leftTy (value left)) (extended ty rightTy (value right))).all
        fun x => value stored.result = encode ty.width x
    | _, _, _ => true
  | .cast kind source target =>
    (m.valueTy source).all fun sourceTy => value stored.result = kind.cast sourceTy target (value source)
  | _ => true

def agrees : Bool :=
  m.values.zipIdx.all (fun entry => agreesValue value entry.2 entry.1) &&
    m.operations.all (agreesOperation m value)

variable {m value}

theorem valuation_of_agrees (h : agrees m value = true) : Valuation m value := by
  rw [agrees, Bool.and_eq_true] at h
  obtain ⟨hvalues, hoperations⟩ := h
  have hstored {o : Nat} {stored : Operation} (ho : m.operations[o]? = some stored) :
      agreesOperation m value stored = true :=
    List.all_eq_true.mp hoperations stored (List.mem_of_getElem? ho)
  constructor
  · intro v ty hty
    obtain ⟨stored, hv, rfl⟩ := Option.map_eq_some_iff.mp hty
    have hvalue := WordModule.all_zipIdx hvalues hv
    rw [agreesValue, Bool.and_eq_true] at hvalue
    exact of_decide_eq_true hvalue.1
  · intro v bits ty x hv hx
    have hvalue := WordModule.all_zipIdx hvalues hv
    rw [agreesValue, Bool.and_eq_true] at hvalue
    simpa [hx] using hvalue.2
  · intro o op left right result ty leftTy rightTy x ho hty hleft hright hx
    have := hstored ho
    simpa [agreesOperation, hty, hleft, hright, hx] using this
  · intro o kind source target result sourceTy ho hsource
    have := hstored ho
    simpa [agreesOperation, hsource] using this

end Opto.Word
