import Opto.Library.Budget
import Opto.Word.Range
import Opto.Word.Semantics
import Opto.Word.Module

/-!
# Bounds and alignment are sound

Every bound and every alignment that the analysis reports holds of the value's word in each
valuation of the module. Bounds fit the value's type, which keeps the shifts of a
concatenation from losing bits.
-/

namespace Opto.Word

open TwosComplement

/-! Words. -/

theorem bitsValue_encode (z : Int) (width : Nat) : bitsValue (digits z width) = encode width z := by
  have hcongr : z ≡ (encode width z : Int) [ZMOD 2 ^ width] := (encode_modEq width z).symm
  rw [digits_congr hcongr, bitsValue_digits, Nat.mod_eq_of_lt (encode_lt width z)]

theorem bitsValue_digits_of_lt {v width : Nat} (h : v < 2 ^ width) : bitsValue (digits v width) = v := by
  rw [bitsValue_digits, Nat.mod_eq_of_lt h]

theorem bitsValue_append (low high : List Bool) :
    bitsValue (low ++ high) = bitsValue low + 2 ^ low.length * bitsValue high := by
  induction low with
  | nil => simp [bitsValue]
  | cons bit low ih =>
    rw [List.cons_append, bitsValue, ih, bitsValue, List.length_cons, pow_succ']
    ring

theorem bitsValue_zipWith_and (left right : List Bool) :
    bitsValue (List.zipWith and left right) ≤ bitsValue left ∧
      bitsValue (List.zipWith and left right) ≤ bitsValue right := by
  induction left generalizing right with
  | nil => simp [bitsValue]
  | cons l left ih =>
    cases right with
    | nil => simp [bitsValue]
    | cons r right =>
      obtain ⟨hleft, hright⟩ := ih right
      simp only [List.zipWith_cons_cons, bitsValue]
      cases l <;> cases r <;> simp <;> omega

theorem bitsValue_resize (bits : Bits) {width : Nat} (h : bitsValue bits < 2 ^ width) :
    bitsValue (Bits.resize false width bits) = bitsValue bits := by
  rw [Bits.resize, Bits.number_unsigned, bitsValue_digits_of_lt h]

theorem bitsValue_bit (bit : Bool) : bitsValue [bit] ≤ 1 := by cases bit <;> decide

/-! Ranges. -/

def UnsignedValueRange.Bounds (range : UnsignedValueRange) (x : Nat) : Prop :=
  range.minimum ≤ x ∧ x ≤ range.maximum

theorem checked128_some {v w : Nat} (h : checked128 v = some w) : w = v ∧ v < 2 ^ 128 := by
  rw [checked128] at h
  split_ifs at h with hlt
  exact ⟨(Option.some.inj h).symm, hlt⟩

theorem checkedShl128_some {v distance w : Nat} (h : checkedShl128 v distance = some w)
    (hfits : v * 2 ^ distance < 2 ^ 128) : w = v * 2 ^ distance := by
  rw [checkedShl128] at h
  split_ifs at h
  rw [Nat.mod_eq_of_lt hfits] at h
  exact (Option.some.inj h).symm

theorem checkedShl128_one {distance w : Nat} (h : checkedShl128 1 distance = some w) :
    distance < 128 ∧ w = 2 ^ distance := by
  have hlt : distance < 128 := by
    rw [checkedShl128] at h
    split_ifs at h with hlt
    exact hlt
  have hpow : 2 ^ distance < 2 ^ 128 := Nat.pow_lt_pow_right (by decide) hlt
  have hvalue := checkedShl128_some h (by rwa [Nat.one_mul])
  rw [Nat.one_mul] at hvalue
  exact ⟨hlt, hvalue⟩

theorem fullRange_some {ty : WordType} {full : UnsignedValueRange} (h : fullRange ty = some full) :
    ty.width ≤ 128 ∧ full = ⟨0, 2 ^ ty.width - 1⟩ := by
  rw [fullRange] at h
  obtain ⟨maximum, hmaximum, hfull⟩ := Option.bind_eq_some_iff.mp h
  cases hfull
  rw [fullMaximum] at hmaximum
  split_ifs at hmaximum with hwide hnarrow
  · cases hmaximum
    rw [hwide]
    exact ⟨Nat.le_refl _, rfl⟩
  · obtain ⟨weight, hweight, rfl⟩ := Option.map_eq_some_iff.mp hmaximum
    rw [(checkedShl128_one hweight).2]
    exact ⟨by omega, rfl⟩

theorem constantBit_bounds {range range' : UnsignedValueRange} {bit : BitVal} {digit : Bool}
    {index low : Nat} (hbit : bit.allows digit = true) (h : constantBit range (bit, index) = some range')
    (hbounds : range.Bounds low) (hmax : range.maximum < 2 ^ index) :
    range'.Bounds (low + 2 ^ index * digit.toNat) ∧ range'.maximum < 2 ^ (index + 1) := by
  obtain ⟨weight, hweight, h⟩ := Option.bind_eq_some_iff.mp h
  obtain ⟨hlow, hhigh⟩ := hbounds
  rw [(checkedShl128_one hweight).2] at h
  have hor : ∀ v < 2 ^ index, v ||| 2 ^ index = v + 2 ^ index := by
    intro v hv
    have hsum := Nat.two_pow_add_eq_or_of_lt hv 1
    rw [Nat.mul_one] at hsum
    rw [Nat.or_comm, ← hsum, Nat.add_comm]
  rw [UnsignedValueRange.Bounds, pow_succ]
  cases bit with
  | zero =>
    cases h
    cases digit with
    | false => simp only [Bool.toNat_false]; omega
    | true => cases hbit
  | one =>
    cases h
    cases digit with
    | false => cases hbit
    | true =>
      simp only [hor _ hmax, hor _ (show range.minimum < 2 ^ index by omega), Bool.toNat_true]
      omega
  | x | z =>
    cases h
    simp only [hor _ hmax]
    cases digit <;> simp only [Bool.toNat_false, Bool.toNat_true] <;> omega

theorem constantRange_bounds {bits : List BitVal} {digits : Bits} {range : UnsignedValueRange}
    (hbits : List.Forall₂ (fun bit digit => bit.allows digit = true) bits.reverse digits)
    (h : constantRange bits = some range) :
    range.Bounds (bitsValue digits) ∧ range.maximum < 2 ^ bits.length := by
  have hloop : ∀ (rest : List BitVal) (low : Bits) index (range₀ : UnsignedValueRange),
      (rest.zipIdx index).foldlM constantBit range₀ = some range → ∀ high : Bits,
      List.Forall₂ (fun bit digit => bit.allows digit = true) rest high → low.length = index →
      range₀.Bounds (bitsValue low) → range₀.maximum < 2 ^ index →
        range.Bounds (bitsValue (low ++ high)) ∧ range.maximum < 2 ^ (index + rest.length) := by
    intro rest
    induction rest with
    | nil =>
      intro low index range₀ h high hhigh hlength hbounds hmax
      cases hhigh
      cases h
      rw [List.append_nil]
      exact ⟨hbounds, hmax⟩
    | cons bit rest ih =>
      intro low index range₀ h high hhigh hlength hbounds hmax
      cases hhigh with
      | @cons _ digit _ high hbit hhigh =>
        rw [List.zipIdx_cons, List.foldlM_cons] at h
        obtain ⟨range₁, hstep, hrest⟩ := Option.bind_eq_some_iff.mp h
        obtain ⟨hbounds', hmax'⟩ := constantBit_bounds hbit hstep hbounds hmax
        have hlow : bitsValue (low ++ [digit]) = bitsValue low + 2 ^ index * digit.toNat := by
          rw [bitsValue_append, hlength]
          simp [bitsValue]
        have hnext := ih (low ++ [digit]) (index + 1) range₁ hrest high hhigh (by simp [hlength])
          (hlow ▸ hbounds') hmax'
        rw [List.append_assoc] at hnext
        rwa [List.length_cons, Nat.add_comm rest.length, ← Nat.add_assoc]
  have hall := hloop bits.reverse [] 0 ⟨0, 0⟩ h digits hbits rfl ⟨by simp [bitsValue], by simp [bitsValue]⟩
    (by decide)
  rwa [List.length_reverse, Nat.zero_add, List.nil_append] at hall

/-- An exact result is the word's number when it is known to fit. -/
theorem bounds_of_exact {range : UnsignedValueRange} {v width : Nat} (h : range.Bounds v)
    (hmax : range.maximum < 2 ^ width) : range.Bounds (bitsValue (digits v width)) := by
  rwa [bitsValue_digits_of_lt (Nat.lt_of_le_of_lt h.2 hmax)]

theorem bounds_bit (bit : Bool) : UnsignedValueRange.Bounds ⟨0, 1⟩ (bitsValue [bit]) :=
  ⟨Nat.zero_le _, bitsValue_bit bit⟩

section Binary

variable {leftTy rightTy ty : WordType} {l r : Bits} {left right range : UnsignedValueRange}

theorem arithmetic_denote {op : BinaryOp} {z : Nat} (hleft : leftTy.signed = false)
    (hright : rightTy.signed = false)
    (hop : op = .add ∨ op = .sub ∨ op = .mul ∨ op = .div ∨ op = .mod)
    (hz : op.arithmetic (bitsValue l) (bitsValue r) = some (z : Int)) :
    op.denote leftTy rightTy ty l r = digits z ty.width := by
  rcases hop with rfl | rfl | rfl | rfl | rfl <;>
    simp [BinaryOp.denote, hleft, hright, hz]

theorem add_bounds (hl : left.Bounds (bitsValue l)) (hr : right.Bounds (bitsValue r)) :
    UnsignedValueRange.Bounds ⟨left.minimum + right.minimum, left.maximum + right.maximum⟩
      (bitsValue l + bitsValue r) := ⟨Nat.add_le_add hl.1 hr.1, Nat.add_le_add hl.2 hr.2⟩

theorem mul_bounds (hl : left.Bounds (bitsValue l)) (hr : right.Bounds (bitsValue r)) :
    UnsignedValueRange.Bounds ⟨left.minimum * right.minimum, left.maximum * right.maximum⟩
      (bitsValue l * bitsValue r) := ⟨Nat.mul_le_mul hl.1 hr.1, Nat.mul_le_mul hl.2 hr.2⟩

theorem div_bounds (hl : left.Bounds (bitsValue l)) (hr : right.Bounds (bitsValue r))
    (hpos : 0 < right.minimum) :
    UnsignedValueRange.Bounds ⟨left.minimum / right.maximum, left.maximum / right.minimum⟩
      (bitsValue l / bitsValue r) :=
  ⟨Nat.div_le_div hl.1 hr.2 (Nat.lt_of_lt_of_le hpos hr.1).ne', Nat.div_le_div hl.2 hr.1 hpos.ne'⟩

theorem mod_bounds (hl : left.Bounds (bitsValue l)) (hr : right.Bounds (bitsValue r))
    (hpos : 0 < right.minimum) :
    UnsignedValueRange.Bounds ⟨0, min left.maximum (right.maximum - 1)⟩ (bitsValue l % bitsValue r) := by
  have hlt := Nat.mod_lt (bitsValue l) (Nat.lt_of_lt_of_le hpos hr.1)
  have hle := Nat.mod_le (bitsValue l) (bitsValue r)
  obtain ⟨_, hl⟩ := hl
  obtain ⟨_, hr⟩ := hr
  exact ⟨Nat.zero_le _, le_min (by omega) (by omega)⟩

theorem and_bounds (hl : left.Bounds (bitsValue l)) (hr : right.Bounds (bitsValue r))
    (hlength : l.length ≤ ty.width) (hlength' : r.length ≤ ty.width) (hleft : leftTy.signed = false)
    (hright : rightTy.signed = false) :
    UnsignedValueRange.Bounds ⟨0, min left.maximum right.maximum⟩
      (bitsValue (BinaryOp.denote .bitAnd leftTy rightTy ty l r)) := by
  have hfit : ∀ bits : Bits, List.length bits ≤ ty.width → bitsValue bits < 2 ^ ty.width :=
    fun bits hle => Nat.lt_of_lt_of_le (bitsValue_lt bits) (Nat.pow_le_pow_right (by decide) hle)
  simp only [BinaryOp.denote, BinaryOp.denote.bitwise, hleft, hright, Bool.and_false]
  obtain ⟨hand, hand'⟩ := bitsValue_zipWith_and (Bits.resize false ty.width l) (Bits.resize false ty.width r)
  rw [bitsValue_resize l (hfit l hlength)] at hand
  rw [bitsValue_resize r (hfit r hlength')] at hand'
  exact ⟨Nat.zero_le _, le_min (Nat.le_trans hand hl.2) (Nat.le_trans hand' hr.2)⟩

theorem binaryRange_bounds {op : BinaryOp} (h : binaryRange op left right ty = some range)
    (hl : left.Bounds (bitsValue l)) (hr : right.Bounds (bitsValue r)) (hleft : leftTy.signed = false)
    (hright : rightTy.signed = false) (hlength : op = .bitAnd → l.length ≤ ty.width ∧ r.length ≤ ty.width) :
    range.Bounds (bitsValue (op.denote leftTy rightTy ty l r)) ∧ range.maximum < 2 ^ ty.width := by
  rw [binaryRange] at h
  obtain ⟨full, hfull, h⟩ := Option.bind_eq_some_iff.mp h
  obtain ⟨found, hfound, h⟩ := Option.bind_eq_some_iff.mp h
  split_ifs at h with hfits
  cases h
  rw [(fullRange_some hfull).2] at hfits
  have hmax : range.maximum < 2 ^ ty.width := by
    have := Nat.two_pow_pos ty.width
    simp only at hfits
    omega
  refine ⟨?_, hmax⟩
  cases op with
  | add =>
    obtain ⟨low, hlow, hfound⟩ := Option.bind_eq_some_iff.mp hfound
    obtain ⟨high, hhigh, hfound⟩ := Option.bind_eq_some_iff.mp hfound
    cases hfound
    rw [arithmetic_denote (z := bitsValue l + bitsValue r) hleft hright (by simp)
      (by simp [BinaryOp.arithmetic])]
    apply bounds_of_exact _ hmax
    rw [(checked128_some hlow).1, (checked128_some hhigh).1]
    exact add_bounds hl hr
  | sub =>
    rw [exactRange] at hfound
    split_ifs at hfound with hle
    cases hfound
    have hsub : bitsValue r ≤ bitsValue l := Nat.le_trans hr.2 (Nat.le_trans hle hl.1)
    rw [arithmetic_denote (z := bitsValue l - bitsValue r) hleft hright (by simp)
      (by rw [BinaryOp.arithmetic, Nat.cast_sub hsub])]
    apply bounds_of_exact _ hmax
    obtain ⟨hlow, hhigh⟩ := hl
    obtain ⟨hlow', hhigh'⟩ := hr
    constructor <;> simp only <;> omega
  | mul =>
    obtain ⟨low, hlow, hfound⟩ := Option.bind_eq_some_iff.mp hfound
    obtain ⟨high, hhigh, hfound⟩ := Option.bind_eq_some_iff.mp hfound
    cases hfound
    rw [arithmetic_denote (z := bitsValue l * bitsValue r) hleft hright (by simp)
      (by simp [BinaryOp.arithmetic])]
    apply bounds_of_exact _ hmax
    rw [(checked128_some hlow).1, (checked128_some hhigh).1]
    exact mul_bounds hl hr
  | div =>
    rw [exactRange] at hfound
    split_ifs at hfound with hpos
    cases hfound
    rw [arithmetic_denote (z := bitsValue l / bitsValue r) hleft hright (by simp) (by
      rw [BinaryOp.arithmetic]
      rfl)]
    exact bounds_of_exact (div_bounds hl hr hpos) hmax
  | mod =>
    rw [exactRange] at hfound
    split_ifs at hfound with hpos
    cases hfound
    have hr0 : ((bitsValue r : Nat) : Int) ≠ 0 := by
      have := Nat.lt_of_lt_of_le hpos hr.1
      omega
    rw [arithmetic_denote (z := bitsValue l % bitsValue r) hleft hright (by simp) (by
      rw [BinaryOp.arithmetic, if_neg hr0]
      rfl)]
    exact bounds_of_exact (mod_bounds hl hr hpos) hmax
  | bitAnd =>
    cases hfound
    obtain ⟨hlength, hlength'⟩ := hlength rfl
    exact and_bounds hl hr hlength hlength' hleft hright
  | logicalAnd | logicalOr | eq | ne | lt | le | gt | ge =>
    cases hfound
    exact bounds_bit _
  | bitOr | bitXor | shl | shr | ashr => cases hfound

end Binary

section Cast

variable {m : WordModule} {kind : CastKind} {source target : WordType} {operand : Nat} {bits : Bits}
variable {range full found : UnsignedValueRange}

theorem resize_bounds {signed : Bool} {width : Nat} (hrange : range.Bounds (bitsValue bits))
    (hmax : range.maximum < 2 ^ width) (hsign : signed = true → 2 * bitsValue bits < 2 ^ List.length bits) :
    range.Bounds (bitsValue (Bits.resize signed width bits)) := by
  have hnumber : Bits.number signed bits = bitsValue bits := by
    cases signed with
    | false => exact Bits.number_unsigned bits
    | true => exact TwosComplement.read_nonneg true (hsign rfl)
  rw [Bits.resize, hnumber]
  exact bounds_of_exact hrange hmax

theorem castRange_bounds (hty : m.valueTy operand = some source) (hlength : List.length bits = source.width)
    (hwiden : kind ≠ .truncate → source.width ≤ target.width) (hfull : fullRange target = some full)
    (hrange : range.Bounds (bitsValue bits)) (hfits : range.maximum < 2 ^ source.width)
    (h : castRange m kind operand range full = some found) :
    found.Bounds (bitsValue (kind.denote target bits)) ∧ found.maximum < 2 ^ target.width := by
  have hwide : kind ≠ .truncate → range.maximum < 2 ^ target.width := fun hkind =>
    Nat.lt_of_lt_of_le hfits (Nat.pow_le_pow_right (by decide) (hwiden hkind))
  cases kind with
  | zeroExtend =>
    cases h
    have hmax := hwide (by simp)
    exact ⟨resize_bounds hrange hmax (by simp), hmax⟩
  | truncate =>
    rw [castRange] at h
    split_ifs at h with hle
    cases h
    rw [(fullRange_some hfull).2] at hle
    have hmax : range.maximum < 2 ^ target.width := by
      have := Nat.two_pow_pos target.width
      simp only at hle
      omega
    exact ⟨resize_bounds hrange hmax (by simp), hmax⟩
  | signExtend =>
    simp only [castRange, hty, Option.bind_eq_bind, Option.bind_some] at h
    obtain ⟨threshold, hthreshold, h⟩ := Option.bind_eq_some_iff.mp h
    split_ifs at h with hlt
    cases h
    rw [(checkedShl128_one hthreshold).2] at hlt
    have hmax := hwide (by simp)
    refine ⟨resize_bounds hrange hmax fun _ => ?_, hmax⟩
    have hdouble : 2 ^ source.width = 2 * 2 ^ (source.width - 1) := by
      rw [← pow_succ', Nat.sub_add_cancel source.positive]
    have hle := hrange.2
    rw [hlength, hdouble]
    omega

end Cast

/-! The bounds of a module's values. -/

section Module

variable (m : WordModule) (value : Nat → Bits)

/-- The bounds of a value hold of its word and fit its type. -/
def Bounded (v : Nat) (range : UnsignedValueRange) : Prop :=
  range.Bounds (bitsValue (value v)) ∧ ∀ ty, m.valueTy v = some ty → range.maximum < 2 ^ ty.width

/-- Every range in the table is right. -/
structure BoundedTable (table : List RangeState) : Prop where
  sized : table.length = m.values.length
  bounded : ∀ (v : Nat) range, table[v]? = some (.computed (some range)) → Bounded m value v range

def unsettled (table : List RangeState) : Nat := table.countP (· = .uncomputed)

variable {m value} {table : List RangeState} {id : Nat}

theorem BoundedTable.set (h : BoundedTable m value table) {state : RangeState}
    (hstate : ∀ range, state = .computed (some range) → Bounded m value id range) :
    BoundedTable m value (table.set id state) := by
  refine ⟨by rw [List.length_set, h.sized], fun v range hv => ?_⟩
  rw [List.getElem?_set] at hv
  split_ifs at hv with hid
  · rw [Option.some.injEq] at hv
    exact hid ▸ hstate range hv
  · exact h.bounded v range hv

theorem unsettled_enter (h : table[id]? = some .uncomputed) :
    unsettled (table.set id .computing) + 1 = unsettled table := by
  obtain ⟨hlt, hid⟩ := List.getElem?_eq_some_iff.mp h
  have hpos : 0 < unsettled table :=
    List.countP_pos_iff.mpr ⟨_, List.getElem_mem hlt, by simp [hid]⟩
  rw [unsettled, List.countP_set hlt, hid]
  simp only [decide_true, if_true, reduceCtorEq, decide_false, Bool.false_eq_true, if_false]
  rw [unsettled] at hpos ⊢
  omega

theorem unsettled_settle (range : Option UnsignedValueRange) :
    unsettled (table.set id (.computed range)) ≤ unsettled table := by
  by_cases hlt : id < table.length
  · rw [unsettled, List.countP_set hlt]
    simp only [reduceCtorEq, decide_false, Bool.false_eq_true, if_false]
    exact Nat.sub_le _ _
  · rw [List.set_eq_of_length_le (not_lt.mp hlt)]

variable (m value) in
/-- Bounds that hold of what an operation computes and fit its result. -/
def BoundsResult (kind : OpKind) (ty : WordType) (found : UnsignedValueRange) : Prop :=
  (∃ bits, kind.denote m.valueTy value ty = some bits ∧ found.Bounds (bitsValue bits)) ∧
    found.maximum < 2 ^ ty.width

variable {signal : Nat → Bits} {fuel : Nat} {range : Nat → RangeM UnsignedValueRange}

theorem attempt_within {α : Type} {P : α → Prop} {answer : Option α} (h : ∀ a, answer = some a → P a) :
    Within (BoundedTable m value) unsettled fuel (RangeM.attempt answer).run (Within.Answers P) :=
  Within.pure h

section Operation

variable (hrange : ∀ v, Within (BoundedTable m value) unsettled fuel (range v).run
  (Within.Answers (Bounded m value v)))
include hrange

theorem binary_within {op : BinaryOp} {left right : Nat} {ty : WordType}
    (hwidth : ∀ v ty, m.valueTy v = some ty → List.length (value v) = ty.width)
    (hty : m.operationType (.binary op left right) = some ty) :
    Within (BoundedTable m value) unsettled fuel (operationRange m range ty (.binary op left right)).run
      (Within.Answers (BoundsResult m value (.binary op left right) ty)) := by
  apply Within.bindAnswer (attempt_within fun leftTy hleft => hleft)
  intro leftTy hleft
  apply Within.bindAnswer (attempt_within fun rightTy hright => hright)
  intro rightTy hright
  split_ifs with hsigned
  · exact Within.failure
  · rw [Bool.or_eq_true, Bool.or_eq_true, not_or, not_or] at hsigned
    obtain ⟨⟨hunsigned, hunsigned'⟩, _⟩ := hsigned
    rw [Bool.not_eq_true] at hunsigned hunsigned'
    apply Within.bindAnswer (hrange left)
    intro leftRange ⟨hl, _⟩
    apply Within.bindAnswer (hrange right)
    intro rightRange ⟨hr, _⟩
    apply attempt_within
    intro found hfound
    have hlength : op = .bitAnd → List.length (value left) ≤ ty.width ∧
        List.length (value right) ≤ ty.width := by
      rintro rfl
      simp only [WordModule.operationType, hleft, hright, Option.bind_eq_bind, Option.bind_some,
        WordType.new] at hty
      split_ifs at hty
      cases hty
      rw [hwidth left leftTy hleft, hwidth right rightTy hright]
      exact ⟨Nat.le_max_left _ _, Nat.le_max_right _ _⟩
    obtain ⟨hbounds, hmax⟩ := binaryRange_bounds hfound hl hr hunsigned hunsigned' hlength
    refine ⟨⟨_, ?_, hbounds⟩, hmax⟩
    simp only [OpKind.denote, hleft, hright, Option.bind_eq_bind, Option.bind_some]

theorem mux_within {cond thenValue elseValue : Nat} {ty : WordType}
    (hty : m.operationType (.mux cond thenValue elseValue) = some ty) :
    Within (BoundedTable m value) unsettled fuel
      (operationRange m range ty (.mux cond thenValue elseValue)).run
      (Within.Answers (BoundsResult m value (.mux cond thenValue elseValue) ty)) := by
  have htypes : m.valueTy thenValue = some ty ∧ m.valueTy elseValue = some ty := by
    simp only [WordModule.operationType] at hty
    obtain ⟨_, _, hty⟩ := Option.bind_eq_some_iff.mp hty
    obtain ⟨thenTy, hthen, hty⟩ := Option.bind_eq_some_iff.mp hty
    obtain ⟨elseTy, helse, hty⟩ := Option.bind_eq_some_iff.mp hty
    split_ifs at hty with heq
    cases hty
    exact ⟨hthen, heq ▸ helse⟩
  apply Within.bindAnswer (hrange thenValue)
  intro thenRange ⟨hthen, hthenMax⟩
  apply Within.bindAnswer (hrange elseValue)
  intro elseRange ⟨helse, helseMax⟩
  apply Within.answer
  refine ⟨⟨_, rfl, ?_⟩, Nat.max_lt.mpr ⟨hthenMax ty htypes.1, helseMax ty htypes.2⟩⟩
  obtain ⟨hthenLow, hthenHigh⟩ := hthen
  obtain ⟨helseLow, helseHigh⟩ := helse
  simp only [UnsignedValueRange.Bounds]
  split_ifs <;> omega

theorem cast_within {kind : CastKind} {operand : Nat} {target ty : WordType}
    (hwidth : ∀ v ty, m.valueTy v = some ty → List.length (value v) = ty.width)
    (hty : m.operationType (.cast kind operand target) = some ty) :
    Within (BoundedTable m value) unsettled fuel (operationRange m range ty (.cast kind operand target)).run
      (Within.Answers (BoundsResult m value (.cast kind operand target) ty)) := by
  simp only [WordModule.operationType] at hty
  obtain ⟨source, hsource, hty⟩ := Option.bind_eq_some_iff.mp hty
  split_ifs at hty with hinvalid
  cases hty
  have hwiden : kind ≠ .truncate → source.width ≤ target.width := by
    intro hkind
    by_contra hnarrow
    exact hinvalid (.inl ⟨hkind, Nat.not_le.mp hnarrow⟩)
  apply Within.bindAnswer (hrange operand)
  intro found ⟨hbounds, hmax⟩
  apply Within.bindAnswer (attempt_within fun full hfull => hfull)
  intro full hfull
  apply attempt_within
  intro result hresult
  obtain ⟨hresultBounds, hresultMax⟩ := castRange_bounds hsource (hwidth operand source hsource) hwiden
    hfull hbounds (hmax source hsource) hresult
  exact ⟨⟨_, rfl, hresultBounds⟩, hresultMax⟩

theorem concatPart_within {before : Bits} {part : Nat} {partTy : WordType} {found : UnsignedValueRange}
    (hpart : m.valueTy part = some partTy) (hlength : List.length (value part) = partTy.width)
    (hfits : List.length before + partTy.width ≤ 128) (hbounds : found.Bounds (bitsValue before))
    (hmax : found.maximum < 2 ^ List.length before) :
    Within (BoundedTable m value) unsettled fuel (concatPart m range found part).run
      (Within.Answers fun next => next.Bounds (bitsValue (value part ++ before)) ∧
        next.maximum < 2 ^ (List.length before + partTy.width)) := by
  have hshift : ∀ v, v < 2 ^ List.length before →
      v * 2 ^ partTy.width < 2 ^ (List.length before + partTy.width) := by
    intro v hv
    rw [pow_add]
    exact Nat.mul_lt_mul_of_pos_right hv (Nat.two_pow_pos _)
  have hroom : 2 ^ (List.length before + partTy.width) ≤ 2 ^ 128 := Nat.pow_le_pow_right (by decide) hfits
  have hmin : found.minimum < 2 ^ List.length before :=
    Nat.lt_of_le_of_lt (Nat.le_trans hbounds.1 hbounds.2) hmax
  apply Within.bindAnswer (attempt_within fun ty hty => hty)
  intro ty hty
  rw [hpart, Option.some.injEq] at hty
  subst hty
  apply Within.bindAnswer (hrange part)
  intro partRange ⟨⟨hpartLow, hpartHigh⟩, hpartMax⟩
  apply Within.bindAnswer (attempt_within fun minimum hminimum => hminimum)
  intro minimum hminimum
  apply Within.bindAnswer (attempt_within fun low hlow => hlow)
  intro low hlow
  apply Within.bindAnswer (attempt_within fun maximum hmaximum => hmaximum)
  intro maximum hmaximum
  apply Within.bindAnswer (attempt_within fun high hhigh => hhigh)
  intro high hhigh
  apply Within.answer
  have hlowShift := hshift _ hmin
  have hhighShift := hshift _ hmax
  rw [(checked128_some hlow).1, checkedShl128_some hminimum (by omega), (checked128_some hhigh).1,
    checkedShl128_some hmaximum (by omega), UnsignedValueRange.Bounds, bitsValue_append, hlength]
  have hlowMul := Nat.mul_le_mul_right (2 ^ partTy.width) hbounds.1
  have hhighMul := Nat.mul_le_mul_right (2 ^ partTy.width) hbounds.2
  have hcommute : 2 ^ partTy.width * bitsValue before = bitsValue before * 2 ^ partTy.width :=
    Nat.mul_comm _ _
  refine ⟨⟨by simp only; omega, by simp only; omega⟩, ?_⟩
  have hsucc : (found.maximum + 1) * 2 ^ partTy.width ≤ 2 ^ List.length before * 2 ^ partTy.width :=
    Nat.mul_le_mul_right _ hmax
  have hpartFits := hpartMax partTy hpart
  rw [pow_add]
  rw [Nat.add_mul, Nat.one_mul] at hsucc
  simp only
  omega

end Operation

theorem concat_widths {parts : List Nat} {ty : WordType} (hty : m.operationType (.concat parts) = some ty) :
    ∃ tys, List.Forall₂ (fun part ty => m.valueTy part = some ty) parts tys ∧
      (tys.map (·.width)).sum = ty.width := by
  simp only [WordModule.operationType] at hty
  split_ifs at hty with hnil
  · cases hty
  obtain ⟨tys, htys, hnew⟩ := Option.bind_eq_some_iff.mp hty
  refine ⟨tys, ?_, ?_⟩
  · clear hty hnew hnil
    induction parts generalizing tys with
    | nil =>
      cases htys
      exact .nil
    | cons part parts ih =>
      rw [List.mapM_cons] at htys
      obtain ⟨partTy, hpart, htys⟩ := Option.bind_eq_some_iff.mp htys
      obtain ⟨rest, hrest, htys⟩ := Option.bind_eq_some_iff.mp htys
      cases htys
      exact .cons hpart (ih rest hrest)
  · rw [WordType.new] at hnew
    split_ifs at hnew
    cases hnew
    rfl

theorem concat_within (hrange : ∀ v, Within (BoundedTable m value) unsettled fuel (range v).run
    (Within.Answers (Bounded m value v))) {parts : List Nat} {ty : WordType}
    (hwidth : ∀ v ty, m.valueTy v = some ty → List.length (value v) = ty.width)
    (hty : m.operationType (.concat parts) = some ty) (hnarrow : ty.width ≤ 128) :
    Within (BoundedTable m value) unsettled fuel (operationRange m range ty (.concat parts)).run
      (Within.Answers (BoundsResult m value (.concat parts) ty)) := by
  obtain ⟨tys, htys, hsum⟩ := concat_widths hty
  have hloop : ∀ (rest : List Nat) tys (before : Bits) (found : UnsignedValueRange),
      List.Forall₂ (fun part ty => m.valueTy part = some ty) rest tys →
      List.length before + (tys.map (·.width)).sum = ty.width → found.Bounds (bitsValue before) →
      found.maximum < 2 ^ List.length before →
        Within (BoundedTable m value) unsettled fuel (rest.foldlM (concatPart m range) found).run
          (Within.Answers fun result => result.Bounds (bitsValue (rest.reverse.flatMap value ++ before)) ∧
            result.maximum < 2 ^ ty.width) := by
    intro rest
    induction rest with
    | nil =>
      intro tys before found htys hsum hbounds hmax
      cases htys
      rw [List.map_nil, List.sum_nil, Nat.add_zero] at hsum
      exact Within.answer ⟨hbounds, hsum ▸ hmax⟩
    | cons part rest ih =>
      intro tys before found htys hsum hbounds hmax
      cases htys with
      | @cons _ partTy _ tys hpart htys =>
        rw [List.map_cons, List.sum_cons] at hsum
        have hlength := hwidth part partTy hpart
        rw [List.foldlM_cons]
        apply Within.bindAnswer (concatPart_within hrange hpart hlength (by omega) hbounds hmax)
        intro next ⟨hnext, hnextMax⟩
        have hjoined : List.length (value part ++ before) = List.length before + partTy.width := by
          rw [List.length_append, hlength, Nat.add_comm]
        have hrest := ih tys (value part ++ before) next htys (by omega) hnext (hjoined ▸ hnextMax)
        rwa [List.reverse_cons, List.flatMap_append, List.flatMap_singleton, List.append_assoc]
  have hall := hloop parts tys [] ⟨0, 0⟩ htys (by simpa using hsum) ⟨Nat.le_refl _, Nat.le_refl _⟩
    (by decide)
  apply hall.mono
  intro answer hanswer found hfound
  obtain ⟨hbounds, hmax⟩ := hanswer found hfound
  rw [List.append_nil] at hbounds
  exact ⟨⟨_, rfl, hbounds⟩, hmax⟩

theorem unary_within {op : UnaryOp} {arg : Nat} {ty : WordType}
    (hty : m.operationType (.unary op arg) = some ty) :
    Within (BoundedTable m value) unsettled fuel (operationRange m range ty (.unary op arg)).run
      (Within.Answers (BoundsResult m value (.unary op arg) ty)) := by
  obtain ⟨argTy, _, hty⟩ := Option.bind_eq_some_iff.mp hty
  cases op with
  | bitNot => exact Within.failure
  | logicalNot | reductionAnd | reductionOr | reductionXor =>
    cases hty
    exact Within.answer ⟨⟨_, rfl, bounds_bit _⟩, show 1 < 2 ^ 1 by decide⟩

section Walk

variable (hvalid : m.validate = true) (hsatisfies : Satisfies m value signal)
include hvalid hsatisfies

omit hvalid in
theorem operationRange_within (hrange : ∀ v, Within (BoundedTable m value) unsettled fuel (range v).run
    (Within.Answers (Bounded m value v))) {kind : OpKind} {ty : WordType}
    (hty : m.operationType kind = some ty) (hnarrow : ty.width ≤ 128) :
    Within (BoundedTable m value) unsettled fuel (operationRange m range ty kind).run
      (Within.Answers (BoundsResult m value kind ty)) := by
  cases kind with
  | unary op arg => exact unary_within hty
  | binary op left right => exact binary_within hrange hsatisfies.width hty
  | mux cond thenValue elseValue => exact mux_within hrange hty
  | cast kind operand target => exact cast_within hrange hsatisfies.width hty
  | concat parts => exact concat_within hrange hsatisfies.width hty hnarrow
  | extract | dynamicExtract | dynamicInsert | triState | register | latch => exact Within.failure

omit hvalid in
theorem full_bounded {v : Nat} {ty : WordType} {full : UnsignedValueRange} (hty : m.valueTy v = some ty)
    (hfull : fullRange ty = some full) : Bounded m value v full := by
  have hlt := bitsValue_lt (value v)
  rw [hsatisfies.width v ty hty] at hlt
  rw [(fullRange_some hfull).2]
  refine ⟨⟨Nat.zero_le _, Nat.le_sub_one_of_lt hlt⟩, fun other hother => ?_⟩
  rw [hty, Option.some.injEq] at hother
  exact hother ▸ Nat.sub_lt (Nat.two_pow_pos _) (by decide)

theorem valueRange_within (hrange : ∀ v, Within (BoundedTable m value) unsettled fuel (range v).run
    (Within.Answers (Bounded m value v))) {stored : Value} {full : UnsignedValueRange}
    (hstored : m.values[id]? = some stored) (hfull : fullRange stored.ty = some full) :
    Within (BoundedTable m value) unsettled fuel (valueRange m range stored full).run
      (Within.Answers (Bounded m value id)) := by
  have hty : m.valueTy id = some stored.ty := by rw [WordModule.valueTy, hstored]; rfl
  obtain ⟨kind, ty⟩ := stored
  cases kind with
  | signal reference => exact Within.answer (full_bounded hsatisfies hty hfull)
  | constant bits =>
    apply attempt_within
    intro found hfound
    obtain ⟨hbounds, hmax⟩ := constantRange_bounds (hsatisfies.constant id bits ty hstored) hfound
    refine ⟨hbounds, fun other hother => ?_⟩
    rw [hty, Option.some.injEq] at hother
    rwa [← hother, ← WordModule.valid_constant hvalid hstored]
  | operation operation =>
    have hproducer : m.producer id = some operation := WordModule.producer_eq_some.mpr ⟨ty, hstored⟩
    obtain ⟨op, hop, hresult⟩ := WordModule.valid_producer hvalid hproducer
    obtain ⟨resultTy, hresultTy, _, hoperation, _⟩ := WordModule.valid_result hvalid hop
    rw [hresult, hty, Option.some.injEq] at hresultTy
    subst hresultTy
    apply Within.bindAnswer (attempt_within fun found hfound => hfound)
    intro found hfound
    rw [hop, Option.some.injEq] at hfound
    subst hfound
    apply Within.map (operationRange_within hsatisfies hrange hoperation (fullRange_some hfull).1)
    intro answer hanswer
    apply Within.answers_some
    cases answer with
    | none => exact full_bounded hsatisfies hty hfull
    | some found =>
      obtain ⟨⟨bits, hdenote, hbounds⟩, hmax⟩ := hanswer found rfl
      have hword := hsatisfies.operation operation op ty bits hop (hresult ▸ hty) hdenote
      rw [hresult] at hword
      refine ⟨by rwa [Option.getD_some, hword], fun other hother => ?_⟩
      rw [hty, Option.some.injEq] at hother
      exact hother ▸ hmax

theorem finishRange_within (hrange : ∀ v, Within (BoundedTable m value) unsettled fuel (range v).run
    (Within.Answers (Bounded m value v))) (id : Nat) :
    Within (BoundedTable m value) unsettled fuel (finishRange m range id).run
      (Within.Answers (Bounded m value id)) := by
  apply Within.bindAnswer (attempt_within fun stored hstored => hstored)
  intro stored hstored
  apply Within.bindAnswer (attempt_within fun full hfull => hfull)
  intro full hfull
  apply Within.bindAnswer (valueRange_within hvalid hsatisfies hrange hstored hfull)
  intro found hfound table htable _
  refine ⟨some found, table.set id (.computed (some found)), rfl, ?_, unsettled_settle _,
    Within.answers_some hfound⟩
  apply htable.set
  intro other hother
  cases hother
  exact hfound

/-- The table is never asked deeper than it has unsettled values. -/
theorem deriveRange_within (fuel id : Nat) :
    Within (BoundedTable m value) unsettled fuel (deriveRange m fuel id).run
      (Within.Answers (Bounded m value id)) := by
  induction fuel generalizing id with
  | zero => exact fun table _ hsize => absurd hsize (Nat.not_lt_zero _)
  | succ fuel ih =>
    intro table htable hsize
    have hstored : ∀ answer : Option UnsignedValueRange, Within.Answers (Bounded m value id) answer →
        Yields table (RangeM.attempt answer).run fun a t => BoundedTable m value t ∧
          unsettled t ≤ unsettled table ∧ Within.Answers (Bounded m value id) a :=
      fun answer hanswer => ⟨answer, table, rfl, htable, Nat.le_refl _, hanswer⟩
    rw [deriveRange]
    apply Yields.get (k := fun state => (_ : RangeM _).run)
    cases hid : table[id]? with
    | none => exact hstored none Within.answers_none
    | some state =>
      cases state with
      | computing => exact hstored none Within.answers_none
      | computed range => exact hstored range fun found hfound => htable.bounded id found (hfound ▸ hid)
      | uncomputed =>
        have henter := unsettled_enter hid
        have hcomputing : BoundedTable m value (table.set id .computing) :=
          htable.set fun range hrange => by cases hrange
        have hfinish := finishRange_within hvalid hsatisfies ih id _ hcomputing (by omega)
        exact hfinish.mono fun answer t h => ⟨h.1, h.2.1.trans (by omega), h.2.2⟩

end Walk

end Module

end Opto.Word
