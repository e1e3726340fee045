import Opto.Bitblast.DivisionLoops
import Opto.Bitblast.MagicExact

/-!
# Division with a constant operand

A constant divisor shifts, multiplies by its reciprocal or is restored, and a constant
dividend is restored over its significant bits. All of them give the quotient and the
remainder of the magnitudes.
-/

namespace Opto.Bitblast

open Word Growing TwosComplement

variable {σ ε β : Type} [BitBackend σ ε β] {W : Meaning σ ε β} {s : σ}

/-! Constants. -/

theorem weight_bitsValue (bits : List Bool) : weight bits = bitsValue bits := by
  induction bits with
  | nil => rfl
  | cons bit bits ih =>
    rw [weight, bitsValue, ih]
    push_cast
    rfl

theorem lsbBits_digits (v width : Nat) : lsbBits v width = digits v width :=
  List.map_congr_left fun i _ => (digit_testBit v i).symm

/-- The significant bits say everything. -/
theorem significantBits_spec (bits : List Bool) : significantBits bits ≤ bits.length ∧
    bitsValue (bits.take (significantBits bits)) = bitsValue bits ∧
      (significantBits bits = 0 ↔ bitsValue bits = 0) := by
  induction bits with
  | nil => exact ⟨Nat.le_refl _, rfl, fun _ => rfl, fun _ => rfl⟩
  | cons bit bits ih =>
    obtain ⟨hle, hvalue, hzero⟩ := ih
    rw [significantBits]
    cases hbits : significantBits bits with
    | zero => cases bit <;> simp [bitsValue, hzero.mp hbits]
    | succ n =>
      rw [hbits] at hle hvalue hzero
      have hpositive : bitsValue bits ≠ 0 := fun h => Nat.succ_ne_zero n (hzero.mpr h)
      refine ⟨Nat.succ_le_succ hle, ?_, fun h => absurd h (Nat.succ_ne_zero _), fun h => ?_⟩
      · simp only [List.take_succ_cons, bitsValue]
        rw [hvalue]
      · rw [bitsValue] at h
        omega

theorem bitsValue_zero {bits : List Bool} (h : bits.any id = false) : bitsValue bits = 0 := by
  induction bits with
  | nil => rfl
  | cons bit bits ih =>
    rw [List.any_cons, Bool.or_eq_false_iff] at h
    have hbit : bit = false := h.1
    rw [bitsValue, hbit, ih h.2]
    rfl

theorem bitsValue_take {bits : List Bool} {n : Nat} (h : (bits.drop n).any id = false) :
    bitsValue (bits.take n) = bitsValue bits := by
  induction bits generalizing n with
  | nil => rw [List.take_nil]
  | cons bit bits ih =>
    cases n with
    | zero => exact (bitsValue_zero h).symm
    | succ n => rw [List.take_succ_cons, bitsValue, bitsValue, ih h]

theorem bitsToU64_spec {bits : List Bool} {value : Nat} (h : bitsToU64 bits = some value) :
    value = bitsValue bits ∧ value < 2 ^ 64 := by
  rw [bitsToU64] at h
  split_ifs at h with hwide
  rw [Option.some.injEq] at h
  have hlt := bitsValue_lt (bits.take 64)
  have hpow : 2 ^ (bits.take 64).length ≤ 2 ^ 64 :=
    Nat.pow_le_pow_right (by decide) (List.length_take_le ..)
  refine ⟨?_, by omega⟩
  rw [← h]
  by_cases hlong : 64 < bits.length
  · apply bitsValue_take
    simpa [hlong] using hwide
  · rw [List.take_of_length_le (by omega)]

theorem negateBits_digits (z : Int) (n : Nat) (carry : Bool) :
    negateBits (digits z n) carry = digits (-z - 1 + carry.toNat) n := by
  induction n generalizing z carry with
  | zero => rfl
  | succ n ih =>
    rw [digits_succ, digits_succ, negateBits, odd_add_bit, half_add_bit, odd_complement, half_complement,
      ih, Bool.and_comm]

/-! Shifts. -/

theorem logicalRightShift_carries {bits : List β} {zero : β} {v : Nat} (h : W.Carries s bits v)
    (hv : v < 2 ^ bits.length) (hzero : W.Reads s zero false) (shift : Nat) :
    W.Carries s (logicalRightShift bits shift zero) (v / 2 ^ shift : Nat) := by
  apply carries_iff.mpr
  intro i x hx
  obtain ⟨hi, rfl⟩ := List.getElem?_eq_some_iff.mp hx
  have hcast : ((v / 2 ^ shift : Nat) : Int) = (v : Int) / 2 ^ shift := by push_cast; rfl
  simp only [logicalRightShift, List.getElem_map, List.getElem_range]
  rw [hcast, digit_shift, Nat.add_comm shift i]
  by_cases hbound : i + shift < bits.length
  · have hget := List.getElem?_eq_getElem hbound
    rw [hget]
    exact h.read hget
  · rw [logicalRightShift, List.length_map, List.length_range] at hi
    have hpow : 2 ^ bits.length ≤ 2 ^ (i + shift) := Nat.pow_le_pow_right (by decide) (by omega)
    have hcastPow : ((2 ^ (i + shift) : Nat) : Int) = 2 ^ (i + shift) := by simp
    rw [List.getElem?_eq_none (by omega), digit_small (by omega) (by omega)]
    exact hzero

theorem digit_mod (v shift i : Nat) :
    digit ((v % 2 ^ shift : Nat) : Int) i = if i < shift then digit (v : Int) i else false := by
  rw [digit_testBit, digit_testBit, Nat.testBit_mod_two_pow]
  split_ifs with h <;> simp [h]

theorem lowBits_carries {bits : List β} {zero : β} {v : Nat} (h : W.Carries s bits v)
    (hzero : W.Reads s zero false) (shift : Nat) :
    W.Carries s ((List.range bits.length).map fun index => if index < shift then bits[index]?.getD zero else zero)
      (v % 2 ^ shift : Nat) := by
  apply carries_iff.mpr
  intro i x hx
  obtain ⟨hi, rfl⟩ := List.getElem?_eq_some_iff.mp hx
  rw [List.length_map, List.length_range] at hi
  simp only [List.getElem_map, List.getElem_range, digit_mod]
  split_ifs
  · have hget := List.getElem?_eq_getElem hi
    rw [hget]
    exact h.read hget
  · exact hzero

theorem isPowerOfTwo_shift {d : Nat} (h : isPowerOfTwo d = true) (hlt : d < 2 ^ 64) :
    d = 2 ^ trailingZeros d := by
  have hpow : 2 ^ d.log2 = d := by simpa [isPowerOfTwo] using h
  have hlog : d.log2 < 64 := (Nat.pow_lt_pow_iff_right (a := 2) (by decide)).mp (by omega)
  have hfind : (List.range 64).find? d.testBit = some d.log2 := by
    apply List.find?_range_eq_some.mpr
    refine ⟨?_, List.mem_range.mpr hlog, ?_⟩
    · have hself : (2 ^ d.log2).testBit d.log2 = true := Nat.testBit_two_pow_self
      rwa [hpow] at hself
    · intro i hi
      have hother : (2 ^ d.log2).testBit i = false := Nat.testBit_two_pow_of_ne (by omega)
      rw [hpow] at hother
      rw [hother]
      rfl
  rw [trailingZeros, hfind, Option.getD_some, hpow]

/-! Constant divisors. -/

/-- The remainder, and zero for a zero divisor. -/
def modulusOf (v d : Nat) : Nat := if d = 0 then 0 else v % d

variable (W) in
/-- Vectors of the width that carry the quotient and, if it is needed, the remainder. -/
def DividesConstant (s : σ) (width v d : Nat) (needRemainder : Bool) (r : List β × List β) : Prop :=
  r.1.length = width ∧ r.2.length = width ∧ W.Carries s r.1 (v / d : Nat) ∧
    (needRemainder = true → W.Carries s r.2 (modulusOf v d))

theorem Divides.constant {width v d : Nat} {r : List β × List β} (h : Divides W s width v d r) (hd : 0 < d)
    (needRemainder : Bool) : DividesConstant W s width v d needRemainder r := by
  obtain ⟨hfirst, hsecond, q, p, hq, hp, hvalues⟩ := h
  obtain ⟨rfl, rfl⟩ := hvalues hd
  refine ⟨hfirst, hsecond, hq, fun _ => ?_⟩
  rwa [modulusOf, if_neg (by omega)]

theorem constantProduct_emits {multiplicand : List β} {v c n width : Nat}
    (h : W.Carries s multiplicand v) (hv : v < 2 ^ multiplicand.length) (hc : c < 2 ^ n)
    (hnonempty : 0 < multiplicand.length) (hpos : 0 < width) :
    Returns W s (constantMultiplyVector multiplicand (lsbBits c n) width none) width (v * c : Nat) := by
  have hcastPow : ((2 ^ multiplicand.length : Nat) : Int) = 2 ^ multiplicand.length := by simp
  have hproduct := constantMultiplyVector_emits (lsbBits c n) none (a := 0) h
    (fills_of_nonneg width (by omega) (by omega)) (List.length_pos_iff.mp hnonempty) hpos
    (fun _ h => by cases h) fun _ => rfl
  have hweight : weight (lsbBits c n) = c := by
    rw [lsbBits_digits, weight_bitsValue, bitsValue_digits, Nat.mod_eq_of_lt hc]
  rwa [hweight, add_zero, ← Nat.cast_mul] at hproduct

section Magic

variable {dividend : List β} {zero : β} {v width : Nat} (hdividend : W.Carries s dividend v)
  (hlength : dividend.length = width) (hv : v < 2 ^ width) (hpos : 0 < width)
  (hzero : W.Reads s zero false)

include hdividend hlength hv hpos hzero

theorem magicQuotientBits_emits {magic : UnsignedMagic} {t : Nat} (ht : t = v * magic.multiplier / 2 ^ width)
    (hmagic : magic.multiplier < 2 ^ width) {quotient : List β} (hquotient : W.Carries s quotient t)
    (hquotientLength : quotient.length = width) :
    Returns W s (magicQuotientBits dividend quotient magic zero) width (magicDivide magic width v) := by
  have hhigh : t ≤ v := by
    rw [ht]
    apply Nat.div_le_of_le_mul
    rw [Nat.mul_comm]
    exact Nat.mul_le_mul_right v hmagic.le
  rw [magicQuotientBits, magicDivide, ← ht]
  split_ifs with hadd
  · apply Emits.bind (addSubVectors_emits true hdividend hquotient (hlength.trans hquotientLength.symm)
      (by omega))
    rintro r s₁ g₁ ⟨hdifferenceLength, hdifference, _⟩
    have hdrop := hdifference.drop 1
    have hhalfCast : addSub true (v : Int) t / 2 ^ 1 = ((v - t) / 2 : Nat) := by
      rw [addSub, if_pos rfl]
      omega
    rw [hhalfCast] at hdrop
    have hdropLength : (r.1.drop 1).length = width - 1 := by
      rw [List.length_drop, hdifferenceLength, hlength]
    have hpow : 2 ^ width = 2 * 2 ^ (width - 1) := by
      rw [← pow_succ', Nat.sub_add_cancel hpos]
    have hhalf := extended_carries hdrop (by rw [hdropLength]; omega) (W.mono g₁ hzero)
    have hhalfLength : (r.1.drop 1 ++ [zero]).length = width := by
      rw [List.length_append, hdropLength, List.length_singleton]
      omega
    apply Emits.bind (addSubVectors_emits false hhalf (hquotient.mono g₁)
      (hhalfLength.trans hquotientLength.symm) (by omega))
    rintro r' s₂ g₂ ⟨hsumLength, hsum, _⟩
    rw [hhalfLength] at hsumLength
    rw [addSub, if_neg Bool.false_ne_true, ← Nat.cast_add] at hsum
    refine Emits.pure ⟨by rw [logicalRightShift, List.length_map, List.length_range, hsumLength], ?_⟩
    exact logicalRightShift_carries hsum (by rw [hsumLength]; omega) (W.mono (W.trans g₁ g₂) hzero) _
  · refine Emits.pure ⟨by rw [logicalRightShift, List.length_map, List.length_range, hquotientLength], ?_⟩
    exact logicalRightShift_carries hquotient (by rw [hquotientLength]; omega) hzero _

omit hzero in
theorem magicRemainder_emits {d : Nat} (hd : d < 2 ^ width) {quotient : List β}
    (hquotient : W.Carries s quotient (v / d : Nat)) (hquotientLength : quotient.length = width)
    (needRemainder : Bool) :
    W.Emits s (magicRemainder dividend quotient d width needRemainder zero) fun r t =>
      r.length = width ∧ (needRemainder = true → W.Carries t r (v % d : Nat)) := by
  have hbelow : v / d < 2 ^ quotient.length := by
    rw [hquotientLength]
    exact Nat.lt_of_le_of_lt (Nat.div_le_self v d) hv
  rw [magicRemainder]
  split_ifs with hneed
  · apply Emits.bind (constantProduct_emits hquotient hbelow hd (by omega) hpos)
    intro product s₁ g₁ ⟨hproductLength, hproduct⟩
    apply Emits.bind (addSubVectors_emits true (hdividend.mono g₁) hproduct
      (hlength.trans hproductLength.symm) (by omega))
    intro r s₂ g₂ ⟨hdifferenceLength, hdifference, _⟩
    refine Emits.pure ⟨hdifferenceLength.trans hlength, fun _ => ?_⟩
    have hdivision := Nat.div_add_mod v d
    have hrest : addSub true (v : Int) (v / d * d : Nat) = (v % d : Nat) := by
      rw [addSub, if_pos rfl, Nat.mul_comm]
      omega
    rwa [hrest] at hdifference
  · exact Emits.pure ⟨List.length_replicate .., fun h => absurd h hneed⟩

theorem divideByMagic_emits {divisor : List Bool} (hdivisor : divisor.length = width) (hwidth : width ≤ 64)
    (hd : 1 < bitsValue divisor) (hpower : isPowerOfTwo (bitsValue divisor) = false) (needRemainder : Bool) :
    W.Emits s (divideByMagic dividend divisor (bitsValue divisor) needRemainder zero) fun r t =>
      DividesConstant W t width v (bitsValue divisor) needRemainder r := by
  have hlt := bitsValue_lt divisor
  rw [hdivisor] at hlt
  obtain ⟨magic, hmagic⟩ : ∃ magic, unsignedMagic width (bitsValue divisor) = .ok (some magic) :=
    ⟨_, unsignedMagic_eq hwidth hd hlt hpower⟩
  have hbelow := magic_below hwidth hd hlt hpower hmagic
  have hquotients := magicDivide_eq hwidth hd hlt hpower hmagic hv
  have hfound : W.Emits s (magicFor (σ := σ) (ε := ε) width (bitsValue divisor)) fun m _ => m = magic := by
    rw [magicFor, hmagic]
    exact Emits.pure rfl
  rw [divideByMagic, hlength]
  apply Emits.bind hfound
  intro m s₁ g₁ hm
  subst hm
  split_ifs with hcheap
  · obtain ⟨_, hsignificant, _⟩ := significantBits_spec divisor
    have hrestoring := restoringDivideConstant_emits (hdividend.mono g₁) hlength hv
      (show 0 < bitsValue (divisor.take (significantBits divisor)) by rw [hsignificant]; omega)
    rw [hsignificant] at hrestoring
    exact hrestoring.mono fun r t _ hr => hr.constant (by omega) needRemainder
  · apply Emits.bind (constantProduct_emits (hdividend.mono g₁) (by rwa [hlength]) hbelow
      (by omega) (by omega))
    intro product s₂ g₂ ⟨hproductLength, hproduct⟩
    have hhigh := hproduct.drop width
    have hhighCast : ((v * m.multiplier : Nat) : Int) / 2 ^ width = (v * m.multiplier / 2 ^ width : Nat) := by
      push_cast
      rfl
    rw [hhighCast] at hhigh
    have g := W.trans g₁ g₂
    have hhighLength : (product.drop width).length = width := by
      rw [List.length_drop, hproductLength]
      omega
    apply Emits.bind (magicQuotientBits_emits (hdividend.mono g) hlength hv hpos (W.mono g hzero) rfl hbelow
      hhigh hhighLength)
    intro quotient s₃ g₃ ⟨hquotientLength, hquotient⟩
    rw [hquotients] at hquotient
    have g := W.trans g g₃
    apply Emits.bind (magicRemainder_emits (hdividend.mono g) hlength hv hpos hlt hquotient
      hquotientLength needRemainder)
    intro modulus s₄ g₄ ⟨hmodulusLength, hmodulus⟩
    refine Emits.pure ⟨hquotientLength, hmodulusLength, hquotient.mono g₄, fun hneed => ?_⟩
    rw [modulusOf, if_neg (by omega)]
    exact hmodulus hneed

end Magic

theorem divideByConstant_emits {dividend : List β} {divisor : List Bool} {v width : Nat}
    (hdividend : W.Carries s dividend v) (hlength : dividend.length = width) (hv : v < 2 ^ width)
    (hpos : 0 < width) (hdivisor : divisor.length = width) (needRemainder : Bool) :
    W.Emits s (divideByConstant dividend divisor needRemainder) fun r t =>
      DividesConstant W t width v (bitsValue divisor) needRemainder r := by
  obtain ⟨_, hsignificant, hnone⟩ := significantBits_spec divisor
  rw [divideByConstant, hlength]
  apply Emits.bind (W.constant_emits s false)
  intro zero s₁ g₁ hzero
  have hdividend := hdividend.mono g₁
  have hzeros (hd : bitsValue divisor = 0) : DividesConstant W s₁ width v (bitsValue divisor) needRemainder
      (List.replicate width zero, List.replicate width zero) := by
    refine ⟨List.length_replicate .., List.length_replicate .., ?_, fun _ => ?_⟩
    · rw [hd, Nat.div_zero]
      exact carries_zeros hzero width
    · rw [modulusOf, if_pos hd]
      exact carries_zeros hzero width
  have hrestoring (hd : 0 < bitsValue divisor) :
      W.Emits s₁ (restoringDivideConstant dividend (divisor.take (significantBits divisor))) fun r t =>
        DividesConstant W t width v (bitsValue divisor) needRemainder r := by
    have hloop := restoringDivideConstant_emits hdividend hlength hv
      (show 0 < bitsValue (divisor.take (significantBits divisor)) by rwa [hsignificant])
    rw [hsignificant] at hloop
    exact hloop.mono fun r t _ hr => hr.constant hd needRemainder
  cases hvalue : bitsToU64 divisor with
  | none =>
    simp only
    split_ifs with hempty
    · exact Emits.pure (hzeros (hnone.mp hempty))
    · apply hrestoring
      exact Nat.pos_of_ne_zero fun hd => hempty (hnone.mpr hd)
  | some value =>
    obtain ⟨rfl, hsmall⟩ := bitsToU64_spec hvalue
    simp only
    split_ifs with hd hpower hwidth
    · exact Emits.pure (hzeros hd)
    · have hshift := isPowerOfTwo_shift hpower hsmall
      refine Emits.pure ⟨by simp, by simp, ?_, fun _ => ?_⟩
      · have hquotient := logicalRightShift_carries hdividend (by rwa [hlength]) hzero
          (trailingZeros (bitsValue divisor))
        rw [logicalRightShift, hlength, ← hshift] at hquotient
        exact hquotient
      · have hmodulus := lowBits_carries hdividend hzero (trailingZeros (bitsValue divisor))
        rw [hlength, ← hshift] at hmodulus
        rwa [modulusOf, if_neg hd]
    · have hone : bitsValue divisor ≠ 1 := by
        intro hone
        rw [hone] at hpower
        exact hpower rfl
      exact divideByMagic_emits hdividend hlength hv hpos hzero hdivisor hwidth (by omega)
        (Bool.eq_false_iff.mpr hpower) needRemainder
    · exact hrestoring (by omega)

/-! Constant dividends. -/

theorem mapM_pairs_carries {γ : Type} {f : γ → BlastM σ ε (β × β)} {l : List γ} {a b : Int}
    (hf : ∀ (i : Nat) (x : γ), l[i]? = some x → ∀ t, W.Grows s t →
      W.Emits t (f x) fun r u => W.Reads u r.1 (digit a i) ∧ W.Reads u r.2 (digit b i)) :
    W.Emits s (l.mapM f) fun r t =>
      r.length = l.length ∧ W.Carries t (r.map Prod.fst) a ∧ W.Carries t (r.map Prod.snd) b := by
  have hall := Emits.mapM (W := W.toGrowing) (s := s) (l := l) (f := f)
    (P := fun i r t => W.Reads t r.1 (digit a i) ∧ W.Reads t r.2 (digit b i))
    (fun _ _ _ _ hgrows h => ⟨W.mono hgrows h.1, W.mono hgrows h.2⟩) hf
  apply hall.mono
  intro r t _ ⟨hlength, hreads⟩
  refine ⟨hlength, carries_iff.mpr fun i x hx => ?_, carries_iff.mpr fun i x hx => ?_⟩
  · rw [List.getElem?_map, Option.map_eq_some_iff] at hx
    obtain ⟨pair, hpair, rfl⟩ := hx
    exact (hreads i pair hpair).1
  · rw [List.getElem?_map, Option.map_eq_some_iff] at hx
    obtain ⟨pair, hpair, rfl⟩ := hx
    exact (hreads i pair hpair).2

theorem take_significant (bits : List Bool) :
    bitsValue (bits.take (max (significantBits bits) 1)) = bitsValue bits := by
  obtain ⟨_, hvalue, hzero⟩ := significantBits_spec bits
  by_cases hempty : significantBits bits = 0
  · rw [hempty, hzero.mp hempty, show max 0 1 = 1 from rfl]
    match bits with
    | [] => rfl
    | bit :: bits =>
      have hbits := hzero.mp hempty
      rw [bitsValue] at hbits
      rw [List.take_succ_cons, List.take_zero, bitsValue, bitsValue]
      omega
  · rw [Nat.max_eq_left (by omega), hvalue]

variable (W) in
/-- Whether the divisor has a bit above the dividend's, when it is longer. -/
def ReadsHigh (s : σ) (high : Option β) (a : Bool) : Prop :=
  match high with
  | some x => W.Reads s x a
  | none => a = false

theorem highNonzero_emits {divisor : List β} {d width k : Nat} (hdivisor : W.Carries s divisor d)
    (hlength : divisor.length = width) (hd : d < 2 ^ width) (hk : k ≤ width) :
    W.Emits s (highNonzero divisor k) fun high t => ReadsHigh W t high (decide (2 ^ k ≤ d)) := by
  rw [highNonzero]
  split_ifs with hlonger
  · have hdrop := hdivisor.drop k
    have hdropLength : (divisor.drop k).length = width - k := by rw [List.length_drop, hlength]
    apply Emits.map (reduceValues_emits hdrop (by omega))
    intro x t _ hx
    have hcast : (d : Int) / 2 ^ k = (d / 2 ^ k : Nat) := by push_cast; rfl
    have hcastPow : ((2 ^ (width - k) : Nat) : Int) = 2 ^ (width - k) := by simp
    have hbelow : d / 2 ^ k < 2 ^ (width - k) := by
      apply Nat.div_lt_of_lt_mul
      rwa [← pow_add, Nat.add_sub_cancel' hk]
    have hlow : ((d / 2 ^ k : Nat) : Int) % 2 ^ (width - k) = (d / 2 ^ k : Nat) := by
      rw [← hcastPow, ← Int.natCast_mod, Nat.mod_eq_of_lt hbelow]
    rw [hdropLength, hcast, hlow] at hx
    have hsame : decide (((d / 2 ^ k : Nat) : Int) ≠ 0) = decide (2 ^ k ≤ d) := by
      rw [decide_eq_decide, Int.natCast_ne_zero, Nat.ne_zero_iff_zero_lt, Nat.div_pos_iff]
      exact and_iff_right (by positivity)
    rwa [hsame] at hx
  · have hwidth : k = width := by omega
    subst hwidth
    exact Emits.pure (decide_eq_false (by omega))

theorem selectSmall_emits {high : Option β} {large small : β} {a b c : Bool} (hhigh : ReadsHigh W s high a)
    (hlarge : W.Reads s large b) (hsmall : W.Reads s small c) :
    W.Emits s (selectSmall high large small) fun x t => W.Reads t x (if a then b else c) := by
  cases high with
  | some high => exact W.mux_emits hhigh hlarge hsmall
  | none =>
    rw [show a = false from hhigh]
    exact Emits.pure hsmall

/-- A vector completed by zeros. -/
theorem padded_carries {bits : List β} {zero : β} {z : Int} (h : W.Carries s bits z)
    (hzero : W.Reads s zero false) (n : Nat) :
    W.Carries s (bits ++ List.replicate n zero) (z % 2 ^ bits.length) := by
  have hpositive : (0 : Int) < 2 ^ bits.length := by positivity
  have hmod : z ≡ z % 2 ^ bits.length [ZMOD 2 ^ bits.length] := (Int.mod_modEq z _).symm
  rw [carries_append, Int.ediv_eq_zero_of_lt (Int.emod_nonneg _ hpositive.ne') (Int.emod_lt_of_pos _ hpositive)]
  exact ⟨h.congr hmod, carries_zeros hzero n⟩

theorem divideConstantNumerator_emits {dividend : List Bool} {divisor : List β} {d width : Nat}
    (hpos : 0 < width) (hdividend : dividend.length = width) (hdivisor : W.Carries s divisor d)
    (hlength : divisor.length = width) (hd : d < 2 ^ width) :
    W.Emits s (divideConstantNumerator dividend divisor) fun r t =>
      Divides W t width (bitsValue dividend) d r := by
  obtain ⟨hle, _, _⟩ := significantBits_spec dividend
  have hvalue := take_significant dividend
  obtain ⟨k, hk⟩ : ∃ k, k = max (significantBits dividend) 1 := ⟨_, rfl⟩
  have hkpos : 0 < k := by omega
  have hkle : k ≤ width := by omega
  rw [← hk] at hvalue
  have htaken : (dividend.take k).length = k := by
    rw [List.length_take, hdividend]
    omega
  have hsmall := bitsValue_lt (dividend.take k)
  rw [hvalue, htaken] at hsmall
  rw [divideConstantNumerator, hlength, ← hk]
  apply Emits.bind (W.constant_emits s false)
  intro zero s₁ g₁ hzero
  apply Emits.bind (constants_emits (dividend.take k))
  rintro constantBits s₂ g₂ ⟨hconstantLength, hconstant⟩
  rw [htaken] at hconstantLength
  rw [hvalue] at hconstant
  have g := W.trans g₁ g₂
  have hlow : W.Carries s₂ (divisor.take k) (d % 2 ^ k : Nat) := by
    apply ((hdivisor.mono g).take k).congr
    rw [List.length_take, hlength, Nat.min_eq_left hkle]
    rw [Int.natCast_mod]
    push_cast
    exact (Int.mod_modEq _ _).symm
  apply Emits.bind (restoringDivide_emits hkpos hconstant hlow hconstantLength
    (by rw [List.length_take, hlength]; omega) hsmall (Nat.mod_lt _ (by positivity)))
  rintro small s₃ g₃ ⟨hquotientLength, hremainderLength, q, p, hq, hp, hvalues⟩
  apply Emits.bind (highNonzero_emits (hdivisor.mono (W.trans g g₃)) hlength hd hkle)
  intro high s₄ g₄ hhigh
  have g₂₄ := W.trans g₃ g₄
  have hzero := W.mono (W.trans g₂ g₂₄) hzero
  have hpairs := mapM_pairs_carries (W := W) (s := s₄) (l := (small.1.zip small.2).zip constantBits)
    (f := fun entry => do
      let quotient ← selectSmall high zero entry.1.1
      let modulus ← selectSmall high entry.2 entry.1.2
      return (quotient, modulus))
    (a := if 2 ^ k ≤ d then 0 else q) (b := if 2 ^ k ≤ d then (bitsValue dividend : Int) else p)
    fun i entry hentry t hgrows => by
      obtain ⟨hresults, hbit⟩ := List.getElem?_zip_eq_some.mp hentry
      obtain ⟨hquotient, hmodulus⟩ := List.getElem?_zip_eq_some.mp hresults
      have g := W.trans g₄ hgrows
      have hhigh : ReadsHigh W t high (decide (2 ^ k ≤ d)) := by
        cases high with
        | none => exact hhigh
        | some x => exact W.mono hgrows hhigh
      apply Emits.bind (selectSmall_emits hhigh (W.mono hgrows hzero) ((hq.mono g).read hquotient))
      intro first u hfirst hread
      have hhigh : ReadsHigh W u high (decide (2 ^ k ≤ d)) := by
        cases high with
        | none => exact hhigh
        | some x => exact W.mono hfirst hhigh
      have g' := W.trans g hfirst
      apply Emits.bind (selectSmall_emits hhigh ((hconstant.mono (W.trans g₃ g')).read hbit)
        ((hp.mono g').read hmodulus))
      intro second w hsecond hread'
      have hzeroDigit : digit 0 i = false := by
        rw [digit, Int.zero_ediv]
        rfl
      refine Emits.pure ⟨?_, ?_⟩
      · have hread := W.mono hsecond hread
        simp only [decide_eq_true_eq] at hread
        split_ifs at hread ⊢
        · rwa [hzeroDigit]
        · exact hread
      · simp only [decide_eq_true_eq] at hread'
        split_ifs at hread' ⊢
        · exact hread'
        · exact hread'
  apply Emits.bind hpairs
  rintro pairs s₅ g₅ ⟨hpairsLength, hfirst, hsecond⟩
  have hzipLength : ((small.1.zip small.2).zip constantBits).length = k := by
    simp only [List.length_zip, hquotientLength, hremainderLength, hconstantLength, Nat.min_self]
  rw [hzipLength] at hpairsLength
  have hfirstLength : (pairs.map Prod.fst).length = k := (List.length_map _).trans hpairsLength
  have hsecondLength : (pairs.map Prod.snd).length = k := (List.length_map _).trans hpairsLength
  have hpaddedFirst := padded_carries hfirst (W.mono g₅ hzero) (width - k)
  have hpaddedSecond := padded_carries hsecond (W.mono g₅ hzero) (width - k)
  rw [hfirstLength] at hpaddedFirst
  rw [hsecondLength] at hpaddedSecond
  refine Emits.pure ⟨by rw [List.length_append, hfirstLength, List.length_replicate]; omega,
    by rw [List.length_append, hsecondLength, List.length_replicate]; omega, _, _, hpaddedFirst, hpaddedSecond,
    fun hdpos => ?_⟩
  have hcastPow : ((2 ^ k : Nat) : Int) = 2 ^ k := by simp
  split_ifs with hlarge
  · rw [Nat.div_eq_of_lt (by omega), Nat.mod_eq_of_lt (by omega), Int.zero_emod,
      Int.emod_eq_of_lt (by omega) (by omega)]
    exact ⟨rfl, rfl⟩
  · have hmod : d % 2 ^ k = d := Nat.mod_eq_of_lt (by omega)
    rw [hmod] at hvalues
    obtain ⟨rfl, rfl⟩ := hvalues hdpos
    have hdiv := Nat.lt_of_le_of_lt (Nat.div_le_self (bitsValue dividend) d) hsmall
    have hrest := Nat.lt_of_le_of_lt (Nat.mod_le (bitsValue dividend) d) hsmall
    rw [← hcastPow, ← Int.natCast_mod, ← Int.natCast_mod, Nat.mod_eq_of_lt hdiv, Nat.mod_eq_of_lt hrest]
    exact ⟨rfl, rfl⟩

end Opto.Bitblast
