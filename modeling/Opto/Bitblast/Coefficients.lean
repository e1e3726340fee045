import Opto.Bitblast.MatrixExact
import Opto.Bitblast.Multiplier

/-!
# Merged matrices and constant coefficients

Merging adds a matrix to another, or takes it away by inverting its bits. The signed digits
of a constant add up to it, so its product is a sum of shifted copies of the multiplicand.
-/

namespace Opto.Bitblast

open Word Growing

variable {σ ε β : Type} [BitBackend σ ε β] {W : Meaning σ ε β} {s : σ}

variable (W) in
/-- A matrix of the width that makes up `z`. -/
def Totals (s : σ) (width : Nat) (matrix : BitMatrix β) (z : Int) : Prop :=
  matrix.width = width ∧ MatrixCarries W s matrix z

variable (W) in
/-- Running `m` returns a matrix of the width that makes up `z`. -/
abbrev Collects (s : σ) (m : BlastM σ ε (BitMatrix β)) (width : Nat) (z : Int) : Prop :=
  W.Emits s m fun r t => Totals W t width r z

section Totals

variable {width : Nat} {matrix : BitMatrix β} {z : Int}

theorem Totals.mono {t : σ} (h : Totals W s width matrix z) (hgrows : W.Grows s t) :
    Totals W t width matrix z := ⟨h.1, h.2.mono hgrows⟩

theorem Totals.congr {y : Int} (h : Totals W s width matrix z) (hzy : z ≡ y [ZMOD 2 ^ width]) :
    Totals W s width matrix y := by
  obtain ⟨rfl, hmatrix⟩ := h
  exact ⟨rfl, hmatrix.congr hzy⟩

theorem Totals.of_eq {y : Int} (h : Totals W s width matrix z) (hzy : z = y) :
    Totals W s width matrix y := hzy ▸ h

theorem totals_new (width : Nat) : Totals W s width (BitMatrix.new width) 0 :=
  ⟨rfl, matrixCarries_new width⟩

theorem Totals.pushRow {row : BitRow β} {y : Int} (h : Totals W s width matrix z)
    (hlength : row.length = width) (hrow : RowCarries W s row y) :
    Totals W s width (matrix.pushRow row) (z + y) :=
  ⟨by rw [width_pushRow, h.1], h.2.pushRow (hlength.trans h.1.symm) hrow⟩

theorem Totals.addCorrectionPower (h : Totals W s width matrix z) (column : Nat) (negative : Bool) :
    Totals W s width (matrix.addCorrectionPower column negative) (z + sign negative * 2 ^ column) :=
  ⟨by rw [width_addCorrectionPower, h.1], h.2.addCorrectionPower column negative⟩

theorem addCorrectionFrom_totals (correction : List Bool) (negative : Bool) (column : Nat)
    (h : Totals W s width matrix z) :
    Totals W s width ((correction.zipIdx column).foldl (fun target bit =>
        if bit.1 then target.addCorrectionPower bit.2 negative else target) matrix)
      (z + sign negative * (weight correction * 2 ^ column)) := by
  induction correction generalizing matrix column z with
  | nil => exact h.of_eq (by simp [weight])
  | cons bit correction ih =>
    rw [List.zipIdx_cons, List.foldl_cons, weight]
    cases bit with
    | false =>
      apply (ih (column + 1) h).of_eq
      rw [pow_succ, Bool.toNat_false]
      push_cast
      ring
    | true =>
      apply (ih (column + 1) (h.addCorrectionPower column negative)).of_eq
      rw [pow_succ, Bool.toNat_true]
      push_cast
      ring

theorem addCorrection_totals (correction : List Bool) (negative : Bool)
    (h : Totals W s width matrix z) :
    Totals W s width (addCorrection matrix correction negative)
      (z + sign negative * weight correction) :=
  (addCorrectionFrom_totals correction negative 0 h).of_eq (by simp)

end Totals

theorem weight_digits (z : Int) (n : Nat) : weight (digits z n) ≡ z [ZMOD 2 ^ n] := by
  induction n generalizing z with
  | zero => simp [Int.modEq_one]
  | succ n ih =>
    rw [digits_succ, weight, pow_succ']
    have hhalf := ((ih (z / 2)).mul_left' (c := 2)).add_left ((odd z).toNat : Int)
    rwa [← odd_add_half z] at hhalf

/-- An inverted bit and a unit taken away count as the bit taken away. -/
theorem negateRowLoop_emits (row : BitRow β) {column width : Nat} {target : BitMatrix β} {y z : Int}
    (hrow : RowCarries W s row y) (hlength : column + row.length = width)
    (h : Totals W s width target z) :
    W.Emits s (negateRowLoop row column target) fun r t =>
      r.1.length = row.length ∧ ∃ a b, RowCarries W t r.1 a ∧ Totals W t width r.2 b ∧
        b + a * 2 ^ column ≡ z - y * 2 ^ column [ZMOD 2 ^ width] := by
  induction row generalizing s column target y z with
  | nil =>
    have hcolumn : (2 : Int) ^ column = 2 ^ width := by rw [← hlength]; rfl
    refine Emits.pure ⟨rfl, 0, z, trivial, h, ?_⟩
    rw [hcolumn]
    exact Int.modEq_iff_dvd.mpr ⟨-y, by ring⟩
  | cons slot row ih =>
    obtain ⟨hslot, hrow⟩ := hrow
    have hrest : column + 1 + row.length = width := by
      rw [← hlength, List.length_cons]
      omega
    have hy := odd_add_half y
    cases slot with
    | some bit =>
      apply Emits.bind (W.not_emits hslot)
      intro inverted t hgrows hinverted
      apply Emits.bind (ih (hrow.mono hgrows) hrest ((h.mono hgrows).addCorrectionPower column true))
      rintro r u hlater ⟨hr, a, b, ha, hb, hab⟩
      refine Emits.pure ⟨congrArg Nat.succ hr, (!odd y).toNat + 2 * a, b, ⟨?_, ?_⟩, hb, ?_⟩
      · rw [odd_cast_add]
        exact W.mono hlater hinverted
      · rwa [half_cast_add]
      · have hbit : ((!odd y).toNat : Int) = 1 - (odd y).toNat := by cases odd y <;> rfl
        have hshift := hab.add_right (((!odd y).toNat : Int) * 2 ^ column)
        have hleft : b + ((!odd y).toNat + 2 * a) * 2 ^ column =
            b + a * 2 ^ (column + 1) + (!odd y).toNat * 2 ^ column := by ring
        have hright : z + sign true * 2 ^ column - y / 2 * 2 ^ (column + 1) +
            (!odd y).toNat * 2 ^ column = z - y * 2 ^ column := by
          rw [hbit, sign, if_pos rfl]
          linear_combination 2 ^ column * hy
        rw [hleft, ← hright]
        exact hshift
    | none =>
      have heven : odd y = false := hslot
      apply Emits.bind (ih hrow hrest h)
      rintro r t hgrows ⟨hr, a, b, ha, hb, hab⟩
      refine Emits.pure ⟨congrArg Nat.succ hr, 2 * a, b, ha.shift, hb, ?_⟩
      rw [heven, Bool.toNat_false] at hy
      have hleft : b + 2 * a * 2 ^ column = b + a * 2 ^ (column + 1) := by ring
      have hright : z - y * 2 ^ column = z - y / 2 * 2 ^ (column + 1) := by
        linear_combination -2 ^ column * hy
      rw [hleft, hright]
      exact hab

theorem negateRow_emits {row : BitRow β} {width : Nat} {target : BitMatrix β} {y z : Int}
    (hrow : RowCarries W s row y) (hlength : row.length = width) (h : Totals W s width target z) :
    Collects W s (negateRow target row) width (z - y) := by
  apply Emits.bind (negateRowLoop_emits row hrow (by omega) h)
  intro r t _ ⟨hr, a, b, ha, hb, hab⟩
  rw [pow_zero, mul_one, mul_one] at hab
  exact Emits.pure ((hb.pushRow (hr.trans hlength) ha).congr hab)

theorem negateRows_emits {rows : List (BitRow β)} {width : Nat} {target : BitMatrix β} {y z : Int}
    (hrows : RowsCarry W s width rows y) (h : Totals W s width target z) :
    Collects W s (rows.foldlM negateRow target) width (z - y) := by
  induction rows generalizing s target y z with
  | nil =>
    have hy := Int.ModEq.sub_left z hrows
    rw [sub_zero] at hy
    exact Emits.pure (h.congr hy.symm)
  | cons row rows ih =>
    obtain ⟨x, hlength, hx, hrest⟩ := hrows
    rw [List.foldlM_cons]
    apply Emits.bind (negateRow_emits hx hlength h)
    intro r t hgrows hr
    have hsum := ih (hrest.mono hgrows) hr
    have hx : z - x - (y - x) = z - y := by ring
    rwa [hx] at hsum

theorem appendMatrix_emits {target source : BitMatrix β} {width : Nat} {y z : Int}
    (h : Totals W s width target z) (hsource : Totals W s width source y) (negative : Bool) :
    Collects W s (appendMatrix target source negative) width (z + sign negative * y) := by
  obtain ⟨hwidth, c', hcorrection, hrows⟩ := hsource
  have hsame : ¬target.width ≠ source.width := by
    rw [h.1, hwidth]
    exact not_not_intro rfl
  rw [hwidth] at hcorrection hrows
  have hweight := weight_digits c' width
  rw [← hcorrection] at hweight
  rw [appendMatrix, if_neg hsame]
  cases negative with
  | true =>
    rw [if_pos rfl]
    apply Emits.bind (negateRows_emits hrows h)
    intro r t _ hr
    refine Emits.pure ((addCorrection_totals source.correction true hr).congr ?_)
    have hmod := hweight.sub_left (z - (y - c'))
    have hleft : z - (y - c') + sign true * weight source.correction =
        z - (y - c') - weight source.correction := by
      rw [sign, if_pos rfl]
      ring
    have hright : z + sign true * y = z - (y - c') - c' := by
      rw [sign, if_pos rfl]
      ring
    rw [hleft, hright]
    exact hmod
  | false =>
    obtain ⟨hwidth', c, hc, htarget⟩ := h
    have happend : Totals W s width { target with rows := target.rows ++ source.rows } (z + (y - c')) := by
      refine ⟨hwidth', c, hc, ?_⟩
      have hboth := rowsCarry_append htarget (hwidth' ▸ hrows)
      rwa [sub_add_eq_add_sub] at hboth
    rw [if_neg Bool.false_ne_true]
    refine Emits.pure ((addCorrection_totals source.correction false happend).congr ?_)
    have hmod := hweight.add_left (z + (y - c'))
    have hleft : z + (y - c') + sign false * weight source.correction =
        z + (y - c') + weight source.correction := by
      rw [sign, if_neg Bool.false_ne_true, one_mul]
    have hright : z + sign false * y = z + (y - c') + c' := by
      rw [sign, if_neg Bool.false_ne_true]
      ring
    rw [hleft, hright]
    exact hmod

theorem appendSignedRow_emits {matrix : BitMatrix β} {row : BitRow β} {width : Nat} {y z : Int}
    (h : Totals W s width matrix z) (hlength : row.length = width) (hrow : RowCarries W s row y)
    (negative : Bool) :
    Collects W s (appendSignedRow matrix row negative) width (z + sign negative * y) := by
  have hsingle := (totals_new (W := W) (s := s) width).pushRow hlength hrow
  rw [zero_add] at hsingle
  rw [appendSignedRow, h.1]
  exact appendMatrix_emits h hsingle negative

theorem wallaceReduce_emits {matrix : BitMatrix β} {zero one : β} {width : Nat} {z : Int}
    (h : Totals W s width matrix z) (hpos : 0 < width) (hzero : W.Reads s zero false)
    (hone : W.Reads s one true) : Returns W s (wallaceReduce matrix zero one) width z := by
  obtain ⟨rfl, hmatrix⟩ := h
  apply Emits.bind (reduceMatrix_emits hmatrix .wallace hzero hone)
  intro r t hgrows ⟨hleft, hright, a, b, ha, hb, hab⟩
  have hsum := addVectors_emits ha hb (W.mono hgrows hzero) (hleft.trans hright.symm) (by omega)
  apply hsum.mono
  intro xs u _ ⟨hlength, hxs⟩
  refine ⟨hlength.trans hleft, hxs.congr ?_⟩
  rw [hlength, hleft]
  simpa using hab

/-! Constant coefficients. -/

/-- The signed powers of a digit list. -/
def digitSum (digits : List (Nat × Bool)) : Int := (digits.map fun digit => sign digit.2 * 2 ^ digit.1).sum

theorem nonadjacentLoop_sum (bits : List Bool) (index : Nat) (carry : Bool) :
    digitSum (nonadjacentLoop bits index carry) = (weight bits + carry.toNat) * 2 ^ index := by
  induction bits generalizing index carry with
  | nil => cases carry <;> simp [nonadjacentLoop, digitSum, weight, sign]
  | cons bit bits ih =>
    have hcons (column : Nat) (negative : Bool) (rest : List (Nat × Bool)) :
        digitSum ((column, negative) :: rest) = sign negative * 2 ^ column + digitSum rest := rfl
    cases bit <;> cases carry <;> rw [nonadjacentLoop]
    case true.false =>
      split_ifs
      · rw [hcons, ih, weight, sign, if_pos rfl, Bool.toNat_true, Bool.toNat_false]
        push_cast
        ring
      · rw [hcons, ih, weight, sign, if_neg Bool.false_ne_true, Bool.toNat_true, Bool.toNat_false]
        push_cast
        ring
    case false.true =>
      rw [hcons, ih, weight, sign, if_neg Bool.false_ne_true, Bool.toNat_true, Bool.toNat_false]
      push_cast
      ring
    all_goals
      rw [ih, weight]
      first | rw [Bool.toNat_true] | rw [Bool.toNat_false]
      push_cast
      ring

theorem nonadjacentDigits_sum (bits : List Bool) : digitSum (nonadjacentDigits bits) = weight bits := by
  rw [nonadjacentDigits, nonadjacentLoop_sum]
  simp

theorem digit_mul_pow (z : Int) (shift i : Nat) :
    digit (z * 2 ^ shift) i = if i < shift then false else digit z (i - shift) := by
  split_ifs with h
  · obtain ⟨n, rfl⟩ := Nat.exists_eq_add_of_lt h
    have hhalf : z * 2 ^ (i + n + 1) / 2 ^ i = 2 * (z * 2 ^ n) := by
      have hpow : z * 2 ^ (i + n + 1) = 2 * (z * 2 ^ n) * 2 ^ i := by ring
      rw [hpow, Int.mul_ediv_cancel _ (by positivity)]
    rw [digit, hhalf, odd_eq_iff]
    simp
  · obtain ⟨n, rfl⟩ := Nat.exists_eq_add_of_le (not_lt.mp h)
    rw [Nat.add_sub_cancel_left, ← digit_shift, Int.mul_ediv_cancel _ (by positivity)]

@[simp] theorem length_shiftedRow (bits : List β) (shift width : Nat) :
    (shiftedRow bits shift width).length = width := by simp [shiftedRow]

/-- A vector that says all digits below the width, or whose missing ones are zeros. -/
def Fills (bits : List β) (width : Nat) (z : Int) : Prop :=
  ∀ i, bits.length ≤ i → i < width → digit z i = false

theorem fills_of_le {bits : List β} {width : Nat} (z : Int) (h : width ≤ bits.length) :
    Fills bits width z := fun i hi hlt => by omega

theorem fills_of_nonneg {bits : List β} {z : Int} (width : Nat) (hlo : 0 ≤ z)
    (hhi : z < 2 ^ bits.length) : Fills bits width z := by
  intro i hi _
  apply digit_small hlo
  exact lt_of_lt_of_le hhi (pow_le_pow_right₀ (by decide) hi)

theorem shiftedRow_carries {bits : List β} {z : Int} (h : W.Carries s bits z) (shift : Nat) {width : Nat}
    (hfills : Fills bits width z) : RowCarries W s (shiftedRow bits shift width) (z * 2 ^ shift) := by
  apply rowCarries_iff.mpr
  intro i slot hslot
  obtain ⟨hi, rfl⟩ := List.getElem?_eq_some_iff.mp hslot
  rw [length_shiftedRow] at hi
  simp only [shiftedRow, List.getElem_map, List.getElem_range, digit_mul_pow]
  split_ifs with hshift
  · rfl
  · by_cases hbit : i - shift < bits.length
    · have hget := List.getElem?_eq_getElem hbit
      rw [hget]
      exact h.read hget
    · rw [List.getElem?_eq_none (by omega)]
      exact hfills _ (by omega) (by omega)

theorem appendDigits_emits {multiplicand : List β} {m : Int} {width : Nat} {matrix : BitMatrix β} {z : Int}
    (digits : List (Nat × Bool)) (hm : W.Carries s multiplicand m) (hfills : Fills multiplicand width m)
    (h : Totals W s width matrix z) :
    Collects W s (digits.foldlM (appendDigit multiplicand width) matrix) width
      (z + m * digitSum digits) := by
  induction digits generalizing s matrix z with
  | nil => exact Emits.pure (h.of_eq (by simp [digitSum]))
  | cons digit digits ih =>
    have hdigit : Collects W s (appendDigit multiplicand width matrix digit) width
        (z + sign digit.2 * (m * 2 ^ digit.1)) := by
      rw [appendDigit]
      split_ifs with hskip
      · obtain ⟨n, hn⟩ := Nat.exists_eq_add_of_le hskip
        rw [hn, pow_add]
        exact Emits.pure (h.congr (Int.modEq_iff_dvd.mpr ⟨sign digit.2 * (m * 2 ^ n), by ring⟩))
      · exact appendSignedRow_emits h (length_shiftedRow ..) (shiftedRow_carries hm _ hfills) digit.2
    rw [List.foldlM_cons]
    apply Emits.bind hdigit
    intro r t hgrows hr
    apply (ih (hm.mono hgrows) hr).mono
    intro r u _ hr
    apply hr.of_eq
    simp only [digitSum, List.map_cons, List.sum_cons]
    ring

theorem constantCoefficientMatrix_emits {multiplicand : List β} {m : Int} {width : Nat}
    (constant : List Bool) (hm : W.Carries s multiplicand m) (hfills : Fills multiplicand width m) :
    Collects W s (constantCoefficientMatrix multiplicand constant width) width (m * weight constant) := by
  apply (appendDigits_emits (nonadjacentDigits constant) hm hfills (totals_new width)).mono
  intro r t _ hr
  rw [nonadjacentDigits_sum, zero_add] at hr
  exact hr

/-- The constant multiplier, with an addend if there is one. -/
theorem constantMultiplyVector_emits {multiplicand : List β} {m : Int} {width : Nat}
    (constant : List Bool) (addend : Option (List β)) {a : Int} (hm : W.Carries s multiplicand m)
    (hfills : Fills multiplicand width m) (hmultiplicand : multiplicand ≠ []) (hpos : 0 < width)
    (haddend : ∀ xs, addend = some xs → W.Carries s xs a ∧ Fills xs width a)
    (hnone : addend = none → a = 0) :
    Returns W s (constantMultiplyVector multiplicand constant width addend) width
      (m * weight constant + a) := by
  have hinputs : ¬(multiplicand.isEmpty ∨ width = 0) := by
    rw [List.isEmpty_iff]
    rintro (hempty | hzero)
    · exact hmultiplicand hempty
    · omega
  rw [constantMultiplyVector, if_neg hinputs]
  apply Emits.bind (W.constant_emits s false)
  intro zero s₁ g₁ hzero
  apply Emits.bind (W.constant_emits s₁ true)
  intro one s₂ g₂ hone
  have hgrows := W.trans g₁ g₂
  apply Emits.bind (constantCoefficientMatrix_emits constant (hm.mono hgrows) hfills)
  intro matrix s₃ g₃ hmatrix
  have hzero := W.mono (W.trans g₂ g₃) hzero
  cases addend with
  | none =>
    have htotal := hmatrix.of_eq (y := m * weight constant + a) (by rw [hnone rfl, add_zero])
    exact wallaceReduce_emits htotal hpos hzero (W.mono g₃ hone)
  | some xs =>
    obtain ⟨hxs, hxsfills⟩ := haddend xs rfl
    have hrow := shiftedRow_carries (hxs.mono (W.trans hgrows g₃)) 0 hxsfills
    rw [pow_zero, mul_one] at hrow
    exact wallaceReduce_emits (hmatrix.pushRow (length_shiftedRow ..) hrow) hpos hzero (W.mono g₃ hone)

theorem constantProductMatrix_emits {left right : Operand β} {x y : Nat} (hx : Holds W s left x)
    (hy : Holds W s right y) (hknown : Known s left.bits ∨ Known s right.bits) (resultTy : WordType) :
    Collects W s (constantProductMatrix left right resultTy) resultTy.width
      (left.reading left.ty.signed x * right.reading right.ty.signed y) := by
  apply Emits.bind (resizedBits_constant hx resultTy.width left.ty.signed)
  intro leftBits s₁ g₁ ⟨⟨hleftLength, hleft⟩, hleftKnown⟩
  apply Emits.bind (resizedBits_constant (hy.mono g₁) resultTy.width right.ty.signed)
  intro rightBits s₂ g₂ ⟨⟨hrightLength, hright⟩, hrightKnown⟩
  have hcoefficient {t : σ} {bits : List β} {constant : List Bool} {m c : Int}
      (hbits : W.Carries t bits m) (hlength : bits.length = resultTy.width)
      (hconstant : constant = digits c resultTy.width) :
      Collects W t (constantCoefficientMatrix bits constant resultTy.width) resultTy.width (m * c) := by
    have hmatrix := constantCoefficientMatrix_emits constant hbits
      (fills_of_le m hlength.ge)
    apply hmatrix.mono
    intro r u _ hr
    rw [hconstant] at hr
    exact hr.congr ((weight_digits c resultTy.width).mul_left m)
  apply Emits.bind (boolVector_emits (hleft.mono g₂))
  intro known s₃ g₃ ⟨hknownLeft, hfoundLeft⟩
  have g := W.trans g₂ g₃
  cases known with
  | some constant =>
    have hconstant := hknownLeft constant rfl
    rw [hleftLength] at hconstant
    apply (hcoefficient (hright.mono g₃) hrightLength hconstant).mono
    intro r u _ hr
    rwa [mul_comm] at hr
  | none =>
    apply Emits.bind (boolVector_emits (hright.mono g₃))
    intro known s₄ g₄ ⟨hknownRight, hfoundRight⟩
    cases known with
    | some constant =>
      have hconstant := hknownRight constant rfl
      rw [hrightLength] at hconstant
      exact hcoefficient (hleft.mono (W.trans g g₄)) hleftLength hconstant
    | none =>
      cases hknown with
      | inl hknown => exact (hfoundLeft ((hleftKnown hknown).mono g) rfl).elim
      | inr hknown =>
        exact (hfoundRight ((hrightKnown (hknown.mono g₁)).mono (W.trans g₃ g₄)) rfl).elim

end Opto.Bitblast
