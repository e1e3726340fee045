import Opto.Frontend.Control

/-!
# Controls read their values

Where every constant that a control is compared with is the extension of one bit, the value is
asserted when its signal bit is.
-/

namespace Opto.Frontend

open Word Bits

/-- The truth of a signal slice. -/
def referred (signal : Nat → Bits) (reference : SignalRef) : Bool :=
  Bits.truth (((signal reference.signal).drop reference.lsb).take reference.width)

theorem eq_truth {word : Bits} (h : word.length = 1) : word = [word.truth] := by
  obtain ⟨bit, rfl⟩ := List.length_eq_one_iff.mp h
  cases bit <;> rfl

@[simp] theorem truth_bit (bit : Bool) : Bits.truth [bit] = bit := by cases bit <;> rfl

/-! Constants that extend one bit. -/

theorem resize_bit (signed low : Bool) (n : Nat) :
    resize signed (n + 1) [low] = low :: List.replicate n (signed && low) := by
  apply List.ext_getElem?
  intro i
  by_cases hi : i < n + 1
  · rw [getElem?_resize hi]
    cases i with
    | zero => rfl
    | succ i =>
      rw [List.getElem?_cons_succ, List.getElem?_replicate_of_lt (by omega)]
      rfl
  · rw [List.getElem?_eq_none (by rw [length_resize]; omega),
      List.getElem?_eq_none (by rw [List.length_cons, List.length_replicate]; omega)]

theorem number_extended (signed low : Bool) (n : Nat) :
    number signed (low :: List.replicate n (signed && low)) = number signed [low] := by
  rw [← resize_bit]
  exact number_resize Nat.one_pos (Nat.le_add_left 1 n)

/-- A defined bit. -/
def BitVal.ofBool (bit : Bool) : BitVal := if bit then .one else .zero

theorem allows_ofBool {bit digit : Bool} (h : (BitVal.ofBool bit).allows digit = true) : digit = bit := by
  cases bit <;> cases digit <;> simp_all [BitVal.ofBool, BitVal.allows]

theorem scalarConstant_some {m : WordModule} {v : Nat} {low : Bool} (h : scalarConstant m v = some low) :
    ∃ bits ty, m.values[v]? = some ⟨.constant bits, ty⟩ ∧ bits.getLast? = some (BitVal.ofBool low) := by
  rw [scalarConstant] at h
  split at h
  · rename_i bits ty hv
    refine ⟨bits, ty, hv, ?_⟩
    split at h
    · rename_i hlast
      cases h
      exact hlast
    · rename_i hlast
      cases h
      exact hlast
    · cases h
  · cases h

/-- A constant that extends its lowest bit stands for the number of that bit. -/
theorem number_of_extends {signed low : Bool} {bits : List BitVal} {word : Bits}
    (hlast : bits.getLast? = some (BitVal.ofBool low)) (hextends : extendsLowest signed bits = true)
    (hword : List.Forall₂ (fun bit digit => bit.allows digit = true) bits.reverse word) :
    number signed word = number signed [low] := by
  obtain ⟨upper, rfl⟩ := List.getLast?_eq_some_iff.mp hlast
  rw [List.reverse_append, List.reverse_singleton, List.singleton_append] at hword
  cases hword with
  | cons hlow hupper =>
    rename_i digit rest
    have hall : ∀ bit ∈ upper.reverse, bit = BitVal.ofBool (signed && low) := by
      intro bit hbit
      simp only [extendsLowest, List.dropLast_concat, List.all_eq_true] at hextends
      have hb := hextends bit (List.mem_reverse.mp hbit)
      cases signed with
      | false => exact of_decide_eq_true hb
      | true => simpa using hb
    have hrest : rest = List.replicate rest.length (signed && low) := by
      apply List.eq_replicate_of_mem
      intro d hd
      obtain ⟨i, hi⟩ := List.mem_iff_getElem?.mp hd
      obtain ⟨bit, hbit, hallows⟩ : ∃ bit ∈ upper.reverse, bit.allows d = true := by
        have hlt := (List.getElem?_eq_some_iff.mp hi).1
        have hi' : i < upper.reverse.length := hupper.length_eq ▸ hlt
        refine ⟨upper.reverse[i], List.getElem_mem hi', ?_⟩
        have hget := hupper.get hi' hlt
        rw [List.get_eq_getElem, List.get_eq_getElem] at hget
        rwa [(List.getElem?_eq_some_iff.mp hi).2] at hget
      rw [hall bit hbit] at hallows
      exact allows_ofBool hallows
    rw [allows_ofBool hlow, hrest]
    exact number_extended signed low _

theorem number_bit_iff (signed a b : Bool) : number signed [a] = number signed [b] ↔ a = b := by
  cases signed <;> cases a <;> cases b <;> decide

/-! The reading of a control. -/

section

variable {m : WordModule} {value signal : Nat → Bits} {fuel v : Nat} {high : Bool} {control : BooleanControl}

theorem normalize_width (h : normalizeBooleanValue m fuel v high = some control) :
    ∃ ty, m.valueTy v = some ty ∧ ty.width = 1 := by
  cases fuel with
  | zero => cases h
  | succ fuel =>
    rw [normalizeBooleanValue] at h
    cases hv : m.values[v]? with
    | none =>
      rw [hv] at h
      cases h
    | some stored =>
      rw [hv] at h
      refine ⟨stored.ty, by rw [WordModule.valueTy, hv]; rfl, ?_⟩
      by_contra hwidth
      simp only [if_pos hwidth] at h
      cases h

theorem number_of_fits {operand constant : Nat} {low : Bool} {operandTy constantTy : WordType}
    (he : Evaluates m value signal) (hconstant : scalarConstant m constant = some low)
    (hfits : fitsOneBit m operand constant = true) (hoperand : m.valueTy operand = some operandTy)
    (hty : m.valueTy constant = some constantTy) :
    number (operandTy.signed && constantTy.signed) (value constant) =
      number (operandTy.signed && constantTy.signed) [low] := by
  obtain ⟨bits, ty, hv, hlast⟩ := scalarConstant_some hconstant
  obtain ⟨stored, hstored, rfl⟩ := Option.map_eq_some_iff.mp hoperand
  rw [WordModule.valueTy, hv] at hty
  cases hty
  rw [fitsOneBit, hstored, hv] at hfits
  exact number_of_extends hlast hfits (he.constant constant bits ty hv)

theorem compared_types {left right operand constant : Nat} {low : Bool} {ty : WordType}
    (h : comparedOperand m left right = some (operand, constant, low)) (hty : m.valueTy operand = some ty) :
    ∃ leftTy rightTy, m.valueTy left = some leftTy ∧ m.valueTy right = some rightTy := by
  have htyped {c : Nat} {low : Bool} (hc : scalarConstant m c = some low) : ∃ ty, m.valueTy c = some ty := by
    obtain ⟨bits, ty, hv, _⟩ := scalarConstant_some hc
    exact ⟨ty, by rw [WordModule.valueTy, hv]; rfl⟩
  rcases Option.or_eq_some_iff.mp h with hr | ⟨-, hl⟩
  · obtain ⟨low', hlow, heq⟩ := Option.map_eq_some_iff.mp hr
    cases heq
    obtain ⟨rightTy, hright⟩ := htyped hlow
    exact ⟨ty, rightTy, hty, hright⟩
  · obtain ⟨low', hlow, heq⟩ := Option.map_eq_some_iff.mp hl
    cases heq
    obtain ⟨leftTy, hleft⟩ := htyped hlow
    exact ⟨leftTy, ty, hleft, hty⟩

/-- A one-bit value equals a constant that fits one bit when it equals the constant's lowest bit. -/
theorem comparison_truth {op : BinaryOp} (hop : op = .eq ∨ op = .ne) {left right operand constant : Nat}
    {low : Bool} {leftTy rightTy : WordType} (ty : WordType) (he : Evaluates m value signal)
    (hcompared : comparedOperand m left right = some (operand, constant, low))
    (hfits : fitsOneBit m operand constant = true) (hleft : m.valueTy left = some leftTy)
    (hright : m.valueTy right = some rightTy) (hlength : (value operand).length = 1) :
    Bits.truth (op.denote leftTy rightTy ty (value left) (value right)) =
      if op = .eq then (value operand).truth == low else (value operand).truth != low := by
  have hoperand := eq_truth hlength
  have hnumbers (signed : Bool) (x y : Int) (hx : x = number signed (value operand)) (hy : y = number signed [low]) :
      decide (x = y) = ((value operand).truth == low) := by
    rw [hx, hy, hoperand, truth_bit]
    exact Bool.eq_iff_iff.mpr (by simp [number_bit_iff])
  rcases Option.or_eq_some_iff.mp hcompared with hr | ⟨-, hl⟩
  · obtain ⟨low', hlow, heq⟩ := Option.map_eq_some_iff.mp hr
    cases heq
    have hconstant := number_of_fits he hlow hfits hleft hright
    have hdecide := hnumbers _ _ _ rfl hconstant
    rcases hop with rfl | rfl
    · rw [BinaryOp.denote, truth_bit, BinaryOp.compares, if_pos rfl, hdecide]
    · rw [BinaryOp.denote, truth_bit, BinaryOp.compares, if_neg (by decide), bne, ← hdecide, decide_not]
  · obtain ⟨low', hlow, heq⟩ := Option.map_eq_some_iff.mp hl
    cases heq
    have hconstant := number_of_fits he hlow hfits hright hleft
    rw [Bool.and_comm rightTy.signed leftTy.signed] at hconstant
    have hdecide : decide (number (leftTy.signed && rightTy.signed) (value left) =
        number (leftTy.signed && rightTy.signed) (value right)) = ((value right).truth == low) := by
      rw [← hnumbers _ _ _ rfl hconstant]
      exact decide_eq_decide.mpr eq_comm
    rcases hop with rfl | rfl
    · rw [BinaryOp.denote, truth_bit, BinaryOp.compares, if_pos rfl, hdecide]
    · rw [BinaryOp.denote, truth_bit, BinaryOp.compares, if_neg (by decide), bne, ← hdecide, decide_not]

theorem normalize_sound (hm : Consistent m) (he : Evaluates m value signal)
    (h : normalizeBooleanValue m fuel v high = some control) (hbits : comparesBits m fuel v = true) :
    ((value v).truth == high) = (referred signal control.1 == control.2) := by
  induction fuel generalizing v high with
  | zero => cases h
  | succ fuel ih =>
    obtain ⟨ty, hty, hwidth⟩ := normalize_width h
    have hlength : (value v).length = 1 := (he.width v ty hty).trans hwidth
    rw [normalizeBooleanValue] at h
    cases hv : m.values[v]? with
    | none =>
      rw [hv] at h
      cases h
    | some stored =>
      obtain ⟨kind, ty'⟩ := stored
      obtain rfl : ty' = ty := by
        rw [WordModule.valueTy, hv] at hty
        cases hty
        rfl
      simp only [hv, ne_eq, hwidth, not_true_eq_false, if_false] at h
      cases kind with
      | constant bits => cases h
      | signal reference =>
        simp only at h
        split_ifs at h
        cases h
        rw [he.read v reference ty' hv]
        rfl
      | operation o =>
        obtain ⟨operation, ho, rfl⟩ := hm.result v o ty' hv
        have hproducer : m.producer operation.result = some o := WordModule.producer_eq_some.mpr ⟨ty', hv⟩
        obtain ⟨opKind, result⟩ := operation
        simp only [ho] at h
        rw [comparesBits, hproducer] at hbits
        simp only [ho] at hbits
        cases opKind with
        | unary op arg =>
          simp only at h hbits
          split_ifs at h with hop
          obtain ⟨argTy, harg, hone⟩ := normalize_width h
          have hvalue := he.operation o _ ty' _ ho hty rfl
          have hbit := eq_truth ((he.width arg argTy harg).trans hone)
          have htruth : (value result).truth = !(value arg).truth := by
            rw [hvalue]
            rcases hop with rfl | rfl
            · exact truth_bit _
            · rw [UnaryOp.denote, hbit, List.map_singleton, truth_bit, truth_bit]
          rw [← ih h hbits, htruth]
          cases (value arg).truth <;> cases high <;> rfl
        | cast castKind source target =>
          simp only at h hbits
          obtain ⟨sourceTy, hsource, hone⟩ := normalize_width h
          have hvalue := he.operation o _ ty' _ ho hty rfl
          rw [CastKind.denote] at hvalue
          have htarget : target.width = (value source).length := by
            rw [he.width source sourceTy hsource, hone, ← hlength, hvalue, length_resize]
          rw [htarget, resize_self] at hvalue
          rw [← ih h hbits, hvalue]
        | binary op left right =>
          simp only at h hbits
          split_ifs at h with hop
          obtain ⟨⟨operand, constant, low⟩, hcompared, h⟩ := Option.bind_eq_some_iff.mp h
          rw [hcompared, Bool.and_eq_true] at hbits
          obtain ⟨operandTy, hoperand, hone⟩ := normalize_width h
          obtain ⟨leftTy, rightTy, hleft, hright⟩ := compared_types hcompared hoperand
          have hvalue := he.operation o _ ty' (op.denote leftTy rightTy ty' (value left) (value right)) ho hty
            (by simp only [OpKind.denote, hleft, hright, Option.bind_eq_bind, Option.bind_some])
          have htruth := comparison_truth hop ty' he hcompared hbits.1 hleft hright
            ((he.width operand operandTy hoperand).trans hone)
          rw [← hvalue] at htruth
          rw [← ih h hbits.2, htruth]
          by_cases hequal : op = .eq
          · rw [if_pos hequal, if_pos hequal]
            cases (value operand).truth <;> cases low <;> cases high <;> rfl
          · rw [if_neg hequal, if_neg hequal]
            cases (value operand).truth <;> cases low <;> cases high <;> rfl
        | _ => cases h

end

end Opto.Frontend
