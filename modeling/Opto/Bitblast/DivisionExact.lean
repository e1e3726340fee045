import Opto.Bitblast.ConstantDivision

/-!
# Division is exact

Whatever the operands and whichever path they take, the result is the truncating quotient
or the remainder of the numbers that the operands stand for at the result's type, modulo
its width, and zero for a zero divisor.
-/

namespace Opto.Bitblast

open Word Growing TwosComplement

variable {σ ε β : Type} [BitBackend σ ε β] {W : Meaning σ ε β} {s : σ}

/-! Numbers at a type. -/

variable {signed : Bool} {width : Nat} {a : Int}

theorem wrap_natAbs (signed : Bool) (width : Nat) (a : Int) :
    (wrap signed width a).natAbs < 2 ^ width := by
  have hpow : ((2 ^ width : Nat) : Int) = 2 ^ width := by simp
  have hpositive : 0 < 2 ^ width := by positivity
  cases signed with
  | true =>
    obtain ⟨hlow, hhigh⟩ := wrap_signed width a
    omega
  | false =>
    rw [wrap, read_unsigned, Int.natAbs_natCast]
    exact encode_lt width a

/-- The top bit is the sign. -/
theorem wrap_sign (hpos : 0 < width) (a : Int) :
    digit (wrap true width a) (width - 1) = decide (wrap true width a < 0) := by
  obtain ⟨hlow, hhigh⟩ := wrap_signed width a
  have hpow : (2 : Int) ^ width = 2 * 2 ^ (width - 1) := by rw [← pow_succ', Nat.sub_add_cancel hpos]
  by_cases hnegative : wrap true width a < 0
  · rw [digit_negative (by omega) hnegative, decide_eq_true hnegative]
  · rw [digit_small (by omega) (by omega), decide_eq_false hnegative]

theorem carries_wrap {bits : List β} (h : W.Carries s bits a) (hlength : bits.length = width)
    (signed : Bool) : W.Carries s bits (wrap signed width a) := by
  subst hlength
  exact h.congr (wrap_modEq signed bits.length a)

/-- An operand that fits the result's type stands for its own number there. -/
theorem wrap_reading (value : Operand β) {x : Nat} (hx : x < 2 ^ value.ty.width)
    (hle : value.ty.width ≤ width)
    (hfits : signed = true → value.ty.signed = true ∨ value.ty.width < width) :
    wrap signed width (value.reading signed x) = value.reading signed x := by
  have hpow : 2 ^ value.ty.width ≤ 2 ^ width := Nat.pow_le_pow_right (by decide) hle
  have hcast : ((2 ^ width : Nat) : Int) = 2 ^ width := by simp
  rw [wrap, Operand.reading]
  cases signed with
  | false =>
    rw [Bool.false_and, read_unsigned, read_unsigned]
    exact encode_nonneg (by omega) (by omega)
  | true =>
    rw [Bool.true_and]
    cases htype : value.ty.signed with
    | true => exact read_signExtend hx hle
    | false =>
      have hlt : value.ty.width < width := (hfits rfl).resolve_left (by rw [htype]; exact Bool.false_ne_true)
      rw [read_unsigned]
      exact read_zeroExtend hx hlt true

/-! Quotients. -/

/-- Division truncates toward zero, and the remainder has the dividend's sign; both are zero
when the divisor is. -/
def divided (remainder : Bool) (a b : Int) : Int :=
  if b = 0 then 0 else if remainder then a.tmod b else a.tdiv b

/-- The same of the magnitudes. -/
def dividedMagnitudes (remainder : Bool) (v d : Nat) : Nat := if remainder then modulusOf v d else v / d

theorem dividedMagnitudes_zero (remainder : Bool) (v : Nat) : dividedMagnitudes remainder v 0 = 0 := by
  cases remainder
  · exact Nat.div_zero v
  · exact if_pos rfl

/-- The sign of the result. -/
def negates (remainder : Bool) (a b : Int) : Bool :=
  if remainder then decide (a < 0) else decide (a < 0) ^^ decide (b < 0)

theorem tmod_magnitudes (a b : Int) : a.tmod b =
    if a < 0 then -((a.natAbs % b.natAbs : Nat) : Int) else (a.natAbs % b.natAbs : Nat) := by
  cases a with
  | ofNat m =>
    have hnonneg : ¬Int.ofNat m < 0 := not_lt.mpr (Int.natCast_nonneg m)
    rw [if_neg hnonneg]
    cases b <;> rfl
  | negSucc m =>
    rw [if_pos (Int.negSucc_lt_zero m)]
    cases b <;> rfl

theorem tdiv_magnitudes (a b : Int) : a.tdiv b = if (decide (a < 0) ^^ decide (b < 0)) = true then
    -((a.natAbs / b.natAbs : Nat) : Int) else (a.natAbs / b.natAbs : Nat) := by
  cases a with
  | ofNat m =>
    have hnonneg : ¬Int.ofNat m < 0 := not_lt.mpr (Int.natCast_nonneg m)
    rw [decide_eq_false hnonneg, Bool.false_xor]
    cases b with
    | ofNat n => exact (if_neg (by simp)).symm
    | negSucc n => exact (if_pos (decide_eq_true (Int.negSucc_lt_zero n))).symm
  | negSucc m =>
    rw [decide_eq_true (Int.negSucc_lt_zero m), Bool.true_xor]
    cases b with
    | ofNat n => exact (if_pos (by simp)).symm
    | negSucc n => exact (if_neg (by simp)).symm

theorem divided_magnitudes (remainder : Bool) (a b : Int) :
    (if negates remainder a b then -(dividedMagnitudes remainder a.natAbs b.natAbs : Int)
      else dividedMagnitudes remainder a.natAbs b.natAbs) = divided remainder a b := by
  by_cases hzero : b = 0
  · subst hzero
    rw [Int.natAbs_zero, dividedMagnitudes_zero, divided, if_pos rfl]
    simp
  rw [divided, if_neg hzero]
  cases remainder with
  | true =>
    rw [if_pos rfl, tmod_magnitudes, dividedMagnitudes, if_pos rfl, modulusOf,
      if_neg (Int.natAbs_ne_zero.mpr hzero), negates, if_pos rfl]
    simp only [decide_eq_true_eq]
  | false =>
    rw [if_neg Bool.false_ne_true, tdiv_magnitudes, dividedMagnitudes, if_neg Bool.false_ne_true, negates,
      if_neg Bool.false_ne_true]

/-! Magnitudes of the operands. -/

variable (W) in
/-- The vectors carry the magnitudes of `a` and `b`, and the sign is the result's. -/
structure Magnitudes.Hold (operands : Magnitudes β) (s : σ) (signed remainder : Bool) (width : Nat) (a b : Int) :
    Prop where
  dividend_length : operands.dividend.length = width
  divisor_length : operands.divisor.length = width
  dividend : W.Carries s operands.dividend a.natAbs
  divisor : W.Carries s operands.divisor b.natAbs
  negative : if signed then ∃ x, operands.resultNegative = some x ∧ W.Reads s x (negates remainder a b)
    else operands.resultNegative = none ∧ 0 ≤ a ∧ 0 ≤ b

theorem Magnitudes.Hold.mono {t : σ} {operands : Magnitudes β} {remainder : Bool} {a b : Int}
    (h : operands.Hold W s signed remainder width a b) (hgrows : W.Grows s t) :
    operands.Hold W t signed remainder width a b := by
  refine ⟨h.dividend_length, h.divisor_length, h.dividend.mono hgrows, h.divisor.mono hgrows, ?_⟩
  have hnegative := h.negative
  split_ifs at hnegative ⊢
  · obtain ⟨x, hx, hread⟩ := hnegative
    exact ⟨x, hx, W.mono hgrows hread⟩
  · exact hnegative

theorem lastBit_emits {bits : List β} {z : Int} (h : W.Carries s bits z) (hpos : 0 < bits.length) :
    W.Emits s (lastBit bits) fun x t => W.Reads t x (digit z (bits.length - 1)) := by
  have hlast := List.getElem?_eq_getElem (show bits.length - 1 < bits.length by omega)
  rw [lastBit, List.getLast?_eq_getElem?, hlast]
  exact Emits.pure (h.read hlast)

theorem resultSign_emits {x y : β} {a b : Int} (hx : W.Reads s x (decide (a < 0)))
    (hy : W.Reads s y (decide (b < 0))) (remainder : Bool) :
    W.Emits s (resultSign remainder x y) fun z t => W.Reads t z (negates remainder a b) := by
  rw [resultSign, negates]
  split_ifs
  · exact Emits.pure hx
  · exact W.xor_emits hx hy

theorem magnitude_carries {bits : List β} {sign : β} {c : Int}
    (h : W.Carries s bits (wrap true width c)) (hlength : bits.length = width)
    (hsign : W.Reads s sign (decide (wrap true width c < 0))) :
    Returns W s (conditionalNegateVector bits sign) width (wrap true width c).natAbs := by
  have hnegated := conditionalNegateVector_emits h hsign
  have hvalue : (if decide (wrap true width c < 0) = true then -wrap true width c
      else wrap true width c) = (wrap true width c).natAbs := by
    simp only [decide_eq_true_eq]
    split_ifs <;> omega
  rwa [hvalue, hlength] at hnegated

theorem magnitudes_emits {dividend divisor : List β} {a b : Int} (hpos : 0 < width)
    (ha : W.Carries s dividend (wrap signed width a)) (hb : W.Carries s divisor (wrap signed width b))
    (hdividend : dividend.length = width) (hdivisor : divisor.length = width) (remainder : Bool) :
    W.Emits s (magnitudes dividend divisor signed remainder) fun r t =>
      r.Hold W t signed remainder width (wrap signed width a) (wrap signed width b) := by
  rw [magnitudes]
  cases signed with
  | false =>
    rw [if_neg Bool.false_ne_true]
    have hnonneg := wrap_unsigned width
    refine Emits.pure ⟨hdividend, hdivisor, ?_, ?_, rfl, hnonneg a, hnonneg b⟩
    · rwa [Int.natAbs_of_nonneg (hnonneg a)]
    · rwa [Int.natAbs_of_nonneg (hnonneg b)]
  | true =>
    rw [if_pos rfl]
    have hsigns (c : Int) := wrap_sign hpos c
    apply Emits.bind (lastBit_emits ha (by omega))
    intro dividendSign s₁ g₁ hdividendSign
    rw [hdividend, hsigns] at hdividendSign
    apply Emits.bind (lastBit_emits (hb.mono g₁) (by omega))
    intro divisorSign s₂ g₂ hdivisorSign
    rw [hdivisor, hsigns] at hdivisorSign
    apply Emits.bind (magnitude_carries (ha.mono (W.trans g₁ g₂)) hdividend (W.mono g₂ hdividendSign))
    intro left s₃ g₃ ⟨hleftLength, hleft⟩
    apply Emits.bind (magnitude_carries (hb.mono (W.trans g₁ (W.trans g₂ g₃))) hdivisor
      (W.mono g₃ hdivisorSign))
    intro right s₄ g₄ ⟨hrightLength, hright⟩
    apply Emits.bind (resultSign_emits (W.mono (W.trans g₂ (W.trans g₃ g₄)) hdividendSign)
      (W.mono (W.trans g₃ g₄) hdivisorSign) remainder)
    intro negative s₅ g₅ hnegative
    exact Emits.pure ⟨hleftLength, hrightLength, hleft.mono (W.trans g₄ g₅), hright.mono g₅,
      negative, rfl, hnegative⟩

/-- A known operand's bits are those of its magnitude. -/
theorem twosComplementMagnitude_value (signed : Bool) (hpos : 0 < width) (a : Int) :
    bitsValue (twosComplementMagnitude (digits (wrap signed width a) width) signed) =
      (wrap signed width a).natAbs ∧
    (twosComplementMagnitude (digits (wrap signed width a) width) signed).length = width := by
  have hbelow := wrap_natAbs signed width a
  have hlength (z : Int) : (digits z width).length = width := by rw [digits, List.length_map, List.length_range]
  have hmagnitude : twosComplementMagnitude (digits (wrap signed width a) width) signed =
      digits (wrap signed width a).natAbs width := by
    cases signed with
    | false =>
      rw [twosComplementMagnitude, if_pos (by simp), Int.natAbs_of_nonneg (wrap_unsigned width a)]
    | true =>
      have hlast : (digits (wrap true width a) width).getLast?.getD false =
          decide (wrap true width a < 0) := by
        rw [List.getLast?_eq_getElem?, hlength, ← wrap_sign hpos, digits, List.getElem?_map,
          List.getElem?_range (by omega)]
        rfl
      rw [twosComplementMagnitude, hlast]
      split_ifs with hnonneg
      · rw [Int.natAbs_of_nonneg (by simpa using hnonneg)]
      · have hnegative : wrap true width a < 0 := by simpa using hnonneg
        rw [negateBits_digits, Bool.toNat_true]
        congr 1
        omega
  rw [hmagnitude, bitsValue_digits, Nat.mod_eq_of_lt hbelow]
  exact ⟨rfl, hlength _⟩

/-! Lowering. -/

variable (W) in
/-- The known bits of an operand are those of its magnitude. -/
def KnowsMagnitude (width v : Nat) (known : Option (List Bool)) : Prop :=
  ∀ bits, known = some bits → bits.length = width ∧ bitsValue bits = v

/-- Only a zero divisor that is not known leaves the result open. -/
theorem divideMagnitudes_emits {operands : Magnitudes β} {v d : Nat} (remainder : Bool)
    {dividendConstant divisorConstant : Option (List Bool)} (hpos : 0 < width)
    (hdividend : W.Carries s operands.dividend v) (hdivisor : W.Carries s operands.divisor d)
    (hleft : operands.dividend.length = width) (hright : operands.divisor.length = width)
    (hv : v < 2 ^ width) (hd : d < 2 ^ width) (hconstant : KnowsMagnitude width v dividendConstant)
    (hknown : KnowsMagnitude width d divisorConstant) :
    W.Emits s (divideMagnitudes operands dividendConstant divisorConstant remainder) fun r t =>
      (if remainder then r.2 else r.1).length = width ∧ ∃ z,
        W.Carries t (if remainder then r.2 else r.1) z ∧
          (0 < d ∨ divisorConstant.isSome = true → z = dividedMagnitudes remainder v d) := by
  have hopen {r : List β × List β} {t : σ} (h : Divides W t width v d r) :
      (if remainder then r.2 else r.1).length = width ∧ ∃ z,
        W.Carries t (if remainder then r.2 else r.1) z ∧ (0 < d → z = dividedMagnitudes remainder v d) := by
    obtain ⟨hquotientLength, hremainderLength, q, p, hq, hp, hvalues⟩ := h
    cases remainder with
    | true =>
      refine ⟨hremainderLength, p, hp, fun hdpos => ?_⟩
      rw [dividedMagnitudes, if_pos rfl, modulusOf, if_neg (by omega)]
      exact (hvalues hdpos).2
    | false => exact ⟨hquotientLength, q, hq, fun hdpos => (hvalues hdpos).1⟩
  cases hdivisorConstant : divisorConstant with
  | some bits =>
    obtain ⟨hlength, rfl⟩ := hknown bits hdivisorConstant
    apply (divideByConstant_emits hdividend hleft hv hpos hlength remainder).mono
    rintro r t _ ⟨hquotientLength, hremainderLength, hquotient, hmodulus⟩
    cases remainder with
    | true => exact ⟨hremainderLength, _, hmodulus rfl, fun _ => rfl⟩
    | false => exact ⟨hquotientLength, _, hquotient, fun _ => rfl⟩
  | none =>
    simp only [Option.isSome_none, Bool.false_eq_true, or_false]
    cases hdividendConstant : dividendConstant with
    | some bits =>
      obtain ⟨hlength, rfl⟩ := hconstant bits hdividendConstant
      exact (divideConstantNumerator_emits hpos hlength hdivisor hright hd).mono fun r t _ h => hopen h
    | none =>
      exact (restoringDivide_emits hpos hdividend hdivisor hleft hright hv hd).mono fun r t _ h => hopen h

theorem applySign_emits {operands : Magnitudes β} {remainder : Bool} {a b : Int} {bits : List β} {z : Int}
    (h : operands.Hold W s signed remainder width a b) (hbits : W.Carries s bits z) :
    Returns W s (applySign bits operands.resultNegative) bits.length
      (if negates remainder a b then -z else z) := by
  have hnegative := h.negative
  split_ifs at hnegative
  · obtain ⟨x, hx, hread⟩ := hnegative
    rw [hx]
    exact conditionalNegateVector_emits hbits hread
  · obtain ⟨hnone, ha, hb⟩ := hnegative
    have hpositive : negates remainder a b = false := by
      simp only [negates, decide_eq_false (not_lt.mpr ha), decide_eq_false (not_lt.mpr hb), Bool.xor_false,
        ite_self]
    rw [hnone, hpositive, if_neg Bool.false_ne_true]
    exact Emits.pure ⟨rfl, hbits⟩

theorem maskZeroDivisor_emits {divisor bits : List β} {d : Nat} {z : Int} {zero : β}
    (hdivisor : W.Carries s divisor d) (hd : d < 2 ^ divisor.length) (hpos : 0 < divisor.length)
    (hbits : W.Carries s bits z) (hzero : W.Reads s zero false) (known : Bool) :
    Returns W s (maskZeroDivisor divisor bits known zero) bits.length
      (if known = true ∨ 0 < d then z else 0) := by
  cases known with
  | true =>
    rw [maskZeroDivisor, if_pos rfl, if_pos (.inl rfl)]
    exact Emits.pure ⟨rfl, hbits⟩
  | false =>
    have hcast : ((2 ^ divisor.length : Nat) : Int) = 2 ^ divisor.length := by simp
    have hzeroDigit (i : Nat) : digit 0 i = false := digit_small (le_refl 0) (by positivity)
    rw [maskZeroDivisor, if_neg Bool.false_ne_true]
    apply Emits.bind (reduceValues_emits hdivisor hpos)
    intro nonzero s₁ g₁ hnonzero
    rw [← hcast, ← Int.natCast_mod, Nat.mod_eq_of_lt hd] at hnonzero
    apply mapM_carries
    intro i bit hbit t g₂
    have hread := (hbits.mono (W.trans g₁ g₂)).read hbit
    apply (W.mux_emits (W.mono g₂ hnonzero) hread (W.mono (W.trans g₁ g₂) hzero)).mono
    intro y u _ hy
    have hpositive : (d : Int) ≠ 0 ↔ 0 < d := by omega
    simp only [decide_eq_true_eq, hpositive] at hy
    simp only [Bool.false_eq_true, false_or]
    split_ifs at hy ⊢
    · exact hy
    · rwa [hzeroDigit]

theorem divisionPosition_emits {left right : Operand β} {x y : Nat} (hx : Holds W s left x)
    (hy : Holds W s right y) (signed : Bool) (index : Nat) :
    W.Emits s (divisionPosition left right signed index) fun r t =>
      W.Reads t r.1 (digit (left.reading signed x) index) ∧
        W.Reads t r.2 (digit (right.reading signed y) index) := by
  apply Emits.bind (resizedBit_emits hx index signed)
  intro dividend s₁ g₁ hdividend
  apply Emits.bind (resizedBit_emits (hy.mono g₁) index signed)
  intro divisor s₂ g₂ hdivisor
  exact Emits.pure ⟨W.mono g₂ hdividend, hdivisor⟩

theorem knowsMagnitude_map {bits : List β} {a : Int} {known : Option (List Bool)} (hpos : 0 < width)
    (hlength : bits.length = width)
    (hknown : ∀ bools, known = some bools → bools = digits (wrap signed width a) bits.length) :
    KnowsMagnitude width (wrap signed width a).natAbs (known.map (twosComplementMagnitude · signed)) := by
  intro magnitude hmagnitude
  obtain ⟨bools, hbools, rfl⟩ := Option.map_eq_some_iff.mp hmagnitude
  obtain ⟨hvalue, hwidth⟩ := twosComplementMagnitude_value signed hpos a
  rw [hknown bools hbools, hlength]
  exact ⟨hwidth, hvalue⟩

/-- The quotient or the remainder of the operands' numbers at the result's type. -/
theorem divideBits_emits {left right : Operand β} {x y : Nat} (hx : Holds W s left x) (hy : Holds W s right y)
    (remainder : Bool) (resultTy : WordType) :
    Returns W s (divideBits left right remainder resultTy) resultTy.width
      (divided remainder (wrap resultTy.signed resultTy.width (left.reading resultTy.signed x))
        (wrap resultTy.signed resultTy.width (right.reading resultTy.signed y))) := by
  have hpos := resultTy.positive
  have hpositions := mapM_pairs_carries (W := W) (s := s) (l := List.range resultTy.width)
    (f := divisionPosition left right resultTy.signed) (a := left.reading resultTy.signed x)
    (b := right.reading resultTy.signed y) fun i index hindex t hgrows => by
      obtain ⟨_, rfl⟩ := List.getElem?_eq_some_iff.mp hindex
      rw [List.getElem_range]
      exact divisionPosition_emits (hx.mono hgrows) (hy.mono hgrows) resultTy.signed i
  rw [List.length_range] at hpositions
  apply Emits.bind hpositions
  intro bits s₁ g₁ ⟨hlength, hdividend, hdivisor⟩
  obtain ⟨a, ha⟩ : ∃ a, a = left.reading resultTy.signed x := ⟨_, rfl⟩
  obtain ⟨b, hb⟩ : ∃ b, b = right.reading resultTy.signed y := ⟨_, rfl⟩
  rw [← ha] at hdividend ⊢
  rw [← hb] at hdivisor ⊢
  have hleft : (bits.map Prod.fst).length = resultTy.width := (List.length_map _).trans hlength
  have hright : (bits.map Prod.snd).length = resultTy.width := (List.length_map _).trans hlength
  have hdividend := carries_wrap hdividend hleft resultTy.signed
  have hdivisor := carries_wrap hdivisor hright resultTy.signed
  apply Emits.bind (boolVector_emits hdividend)
  intro dividendConstant s₂ g₂ ⟨hdividendConstant, _⟩
  apply Emits.bind (boolVector_emits (hdivisor.mono g₂))
  intro divisorConstant s₃ g₃ ⟨hdivisorConstant, _⟩
  apply Emits.bind (W.constant_emits s₃ false)
  intro zero s₄ g₄ hzero
  have g₂₄ := W.trans g₂ (W.trans g₃ g₄)
  apply Emits.bind (magnitudes_emits hpos (hdividend.mono g₂₄) (hdivisor.mono g₂₄) hleft hright remainder)
  intro operands s₅ g₅ hoperands
  have hbelow := wrap_natAbs resultTy.signed resultTy.width
  apply Emits.bind (divideMagnitudes_emits remainder hpos hoperands.dividend hoperands.divisor
    hoperands.dividend_length hoperands.divisor_length (hbelow a) (hbelow b)
    (knowsMagnitude_map hpos hleft hdividendConstant) (knowsMagnitude_map hpos hright hdivisorConstant))
  intro results s₆ g₆ ⟨hresultLength, z, hresult, hz⟩
  apply Emits.bind (applySign_emits (hoperands.mono g₆) hresult)
  intro result s₇ g₇ ⟨hsignedLength, hsigned⟩
  have hlater := hoperands.mono (W.trans g₆ g₇)
  have hmasked := maskZeroDivisor_emits hlater.divisor (by rw [hlater.divisor_length]; exact hbelow b)
    (by rw [hlater.divisor_length]; exact hpos) hsigned (W.mono (W.trans g₅ (W.trans g₆ g₇)) hzero)
    (divisorConstant.map (twosComplementMagnitude · resultTy.signed)).isSome
  rw [hsignedLength, hresultLength] at hmasked
  by_cases hsettled : (divisorConstant.map (twosComplementMagnitude · resultTy.signed)).isSome = true ∨
      0 < (wrap resultTy.signed resultTy.width b).natAbs
  · rwa [if_pos hsettled, hz hsettled.symm, divided_magnitudes] at hmasked
  · have hnone : wrap resultTy.signed resultTy.width b = 0 := by
      rw [not_or] at hsettled
      omega
    rw [divided, if_pos hnone]
    rwa [if_neg hsettled] at hmasked

variable (W s) in
/-- What division computes, as a whole and on each of its paths. -/
structure DivisionAgrees : Prop where
  /-- The numbers are those of the operands resized to the result's type. -/
  lowering : ∀ (left right : Operand β) remainder resultTy x y, Holds W s left x → Holds W s right y →
    Returns W s (divideBits left right remainder resultTy) resultTy.width
      (divided remainder (wrap resultTy.signed resultTy.width (left.reading resultTy.signed x))
        (wrap resultTy.signed resultTy.width (right.reading resultTy.signed y)))
  /-- An operand that fits the result's type keeps its own number. -/
  number : ∀ (value : Operand β) (resultTy : WordType) x, Holds W s value x →
    value.ty.width ≤ resultTy.width →
    (resultTy.signed = true → value.ty.signed = true ∨ value.ty.width < resultTy.width) →
    wrap resultTy.signed resultTy.width (value.reading resultTy.signed x) =
      value.reading resultTy.signed x
  /-- A constant divisor, a power of two and zero among them. -/
  constantDivisor : ∀ (dividend : List β) (divisor : List Bool) (v : Nat) needRemainder, 0 < dividend.length →
    divisor.length = dividend.length → v < 2 ^ dividend.length → W.Carries s dividend v →
    W.Emits s (divideByConstant dividend divisor needRemainder) fun r t =>
      DividesConstant W t dividend.length v (bitsValue divisor) needRemainder r
  constantNumerator : ∀ (dividend : List Bool) (divisor : List β) (d : Nat), 0 < divisor.length →
    dividend.length = divisor.length → d < 2 ^ divisor.length → W.Carries s divisor d →
    W.Emits s (divideConstantNumerator dividend divisor) fun r t =>
      Divides W t divisor.length (bitsValue dividend) d r
  restoring : ∀ (dividend divisor : List β) (v d : Nat), 0 < dividend.length → divisor.length = dividend.length →
    v < 2 ^ dividend.length → d < 2 ^ dividend.length → W.Carries s dividend v → W.Carries s divisor d →
    W.Emits s (restoringDivide dividend divisor) fun r t => Divides W t dividend.length v d r
  /-- Every divisor for which a reciprocal is computed has one, and nothing overflows. -/
  magic : ∀ width d, width ≤ 64 → 1 < d → d < 2 ^ width → isPowerOfTwo d = false →
    ∃ magic, unsignedMagic width d = .ok (some magic) ∧ magic.multiplier < 2 ^ width ∧
      ∀ n < 2 ^ width, magicDivide magic width n = n / d

theorem division_exact (W : Meaning σ ε β) (s : σ) : DivisionAgrees W s where
  lowering _ _ remainder resultTy _ _ hx hy := divideBits_emits hx hy remainder resultTy
  number value _ _ hx hle hfits := wrap_reading value hx.1 hle hfits
  constantDivisor _ _ _ needRemainder hpos hlength hv h :=
    divideByConstant_emits h rfl hv hpos hlength needRemainder
  constantNumerator _ _ _ hpos hlength hd h := divideConstantNumerator_emits hpos hlength h rfl hd
  restoring _ _ _ _ hpos hlength hv hd hdividend hdivisor :=
    restoringDivide_emits hpos hdividend hdivisor rfl hlength hv hd
  magic _ _ hwidth hd hlt hpower := by
    have hmagic := unsignedMagic_eq hwidth hd hlt hpower
    exact ⟨_, hmagic, magic_below hwidth hd hlt hpower hmagic,
      fun _ hn => magicDivide_eq hwidth hd hlt hpower hmagic hn⟩

end Opto.Bitblast
