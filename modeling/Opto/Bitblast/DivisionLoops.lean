import Opto.Bitblast.Division
import Opto.Bitblast.Products

/-!
# The loops of a division

Subtraction's carry out says whether the subtrahend fits, so one step of the restoring loop
keeps the remainder below the divisor, and the loop divides what it has read.
-/

namespace Opto.Bitblast

open Word Growing

variable {σ ε β : Type} [BitBackend σ ε β] {W : Meaning σ ε β} {s : σ}

/-! Vectors. -/

theorem odd_addend (subtract : Bool) (b : Int) : odd (addend subtract b) = (odd b ^^ subtract) := by
  rw [← digit_zero, digit_addend, digit_zero]

theorem half_addend (subtract : Bool) (b : Int) : addend subtract b / 2 = addend subtract (b / 2) := by
  cases subtract
  · rfl
  · exact half_complement b

theorem addSubVectorsLoop_emits (pairs : List (β × β)) {a b : Int} {carry : β} {c : Bool} (subtract : Bool)
    (h : CarriesPair W s pairs a b) (hcarry : W.Reads s carry c) :
    W.Emits s (addSubVectorsLoop subtract pairs carry) fun r t =>
      r.1.length = pairs.length ∧ W.Carries t r.1 (a + addend subtract b + c.toNat) ∧
        W.Reads t r.2 (carryInto pairs.length a (addend subtract b) c) := by
  induction pairs generalizing s a b carry c with
  | nil => exact Emits.pure ⟨rfl, trivial, hcarry⟩
  | cons pair pairs ih =>
    obtain ⟨⟨hleft, hlefts⟩, ⟨hright, hrights⟩⟩ := h
    apply Emits.bind (invertIf_emits hright subtract)
    intro right s₁ g₁ hright
    rw [← odd_addend] at hright
    apply Emits.bind (fullAdder_emits (W.mono g₁ hleft) hright (W.mono g₁ hcarry))
    intro r s₂ g₂ ⟨hsum, hcarry⟩
    have g := W.trans g₁ g₂
    apply Emits.bind (ih ⟨hlefts.mono g, hrights.mono g⟩ hcarry)
    intro sums s₃ g₃ ⟨hlength, hsums, hcarry⟩
    rw [← half_addend] at hsums hcarry
    refine Emits.pure ⟨congrArg Nat.succ hlength, ?_, hcarry⟩
    rw [carries_cons, odd_sum, half_sum]
    exact ⟨W.mono g₃ hsum, hsums⟩

theorem addSubVectors_emits {left right : List β} {a b : Int} (subtract : Bool) (hleft : W.Carries s left a)
    (hright : W.Carries s right b) (hlength : left.length = right.length) (hpos : 0 < left.length) :
    W.Emits s (addSubVectors left right subtract) fun r t =>
      r.1.length = left.length ∧ W.Carries t r.1 (addSub subtract a b) ∧
        W.Reads t r.2 (carryInto left.length a (addend subtract b) subtract) := by
  have hvalid : ¬(left.length ≠ right.length ∨ left.isEmpty) := by
    rw [List.isEmpty_iff_length_eq_zero]
    omega
  rw [addSubVectors, if_neg hvalid]
  apply Emits.bind (W.constant_emits s subtract)
  intro carry t hgrows hcarry
  have hpairs := carriesPair_zip (hleft.mono hgrows) (hright.mono hgrows) hlength
  apply (addSubVectorsLoop_emits _ subtract hpairs hcarry).mono
  intro r u _ ⟨hr, hsum, hout⟩
  rw [List.length_zip, ← hlength, Nat.min_self] at hr hout
  rw [addend_carry] at hsum
  exact ⟨hr, hsum, hout⟩

/-- A subtraction carries out when the subtrahend fits. -/
theorem carryInto_subtract {n : Nat} {a b : Int} (ha : 0 ≤ a ∧ a < 2 ^ n) (hb : 0 ≤ b ∧ b < 2 ^ n) :
    carryInto n a (-b - 1) true = decide (b ≤ a) := by
  have hshift := sum_shift n a (-b - 1) true
  have hnegative : (-b - 1) / 2 ^ n = -1 := (Int.ediv_eq_iff_of_pos (by positivity)).mpr (by omega)
  have hsum : a + (-b - 1) + (true.toNat : Int) = a - b := by
    rw [Bool.toNat_true]
    push_cast
    ring
  rw [hsum, Int.ediv_eq_zero_of_lt ha.1 ha.2, hnegative] at hshift
  by_cases hle : b ≤ a
  · rw [Int.ediv_eq_zero_of_lt (by omega) (by omega)] at hshift
    rw [decide_eq_true hle]
    cases hcarry : carryInto n a (-b - 1) true
    · rw [hcarry] at hshift
      simp at hshift
    · rfl
  · have hborrow : (a - b) / 2 ^ n = -1 := (Int.ediv_eq_iff_of_pos (by positivity)).mpr (by omega)
    rw [hborrow] at hshift
    rw [decide_eq_false hle]
    cases hcarry : carryInto n a (-b - 1) true
    · rfl
    · rw [hcarry] at hshift
      simp at hshift

theorem conditionalNegateLoop_emits {negative : β} {sign : Bool} (bits : List β) {z : Int} {carry : β}
    {c : Bool} (hnegative : W.Reads s negative sign) (h : W.Carries s bits z) (hcarry : W.Reads s carry c) :
    Returns W s (conditionalNegateLoop negative bits carry) bits.length (addend sign z + c.toNat) := by
  induction bits generalizing s z carry c with
  | nil => exact Emits.pure ⟨rfl, trivial⟩
  | cons bit bits ih =>
    obtain ⟨hbit, hbits⟩ := h
    apply Emits.bind (W.xor_emits hbit hnegative)
    intro inverted s₁ g₁ hinverted
    rw [← odd_addend] at hinverted
    apply Emits.bind (W.xor_emits hinverted (W.mono g₁ hcarry))
    intro sum s₂ g₂ hsum
    have g₁₂ := W.trans g₁ g₂
    apply Emits.bind (W.and_emits (W.mono g₂ hinverted) (W.mono g₁₂ hcarry))
    intro next s₃ g₃ hnext
    have g := W.trans g₁₂ g₃
    apply Emits.bind (ih (W.mono g hnegative) (hbits.mono g) hnext)
    intro sums s₄ g₄ ⟨hlength, hsums⟩
    refine Emits.pure ⟨congrArg Nat.succ hlength, ?_⟩
    rw [carries_cons, odd_add_bit, half_add_bit, half_addend]
    exact ⟨W.mono (W.trans g₃ g₄) hsum, hsums⟩

/-- A number, or its negation. -/
theorem conditionalNegateVector_emits {bits : List β} {negative : β} {sign : Bool} {z : Int}
    (h : W.Carries s bits z) (hnegative : W.Reads s negative sign) :
    Returns W s (conditionalNegateVector bits negative) bits.length (if sign then -z else z) := by
  have hloop := conditionalNegateLoop_emits bits hnegative h hnegative
  have hvalue : addend sign z + (sign.toNat : Int) = if sign then -z else z := by
    cases sign <;> simp [addend]
  rwa [hvalue] at hloop

/-! Nonzero vectors. -/

variable (W) in
/-- The disjunction of the bits. -/
def ReadsOr (s : σ) : List β → Bool → Prop
  | [], a => a = false
  | x :: xs, a => ∃ b c, W.Reads s x b ∧ ReadsOr s xs c ∧ a = (b || c)

theorem ReadsOr.mono {t : σ} {xs : List β} {a : Bool} (h : ReadsOr W s xs a) (hgrows : W.Grows s t) :
    ReadsOr W t xs a := by
  induction xs generalizing a with
  | nil => exact h
  | cons x xs ih =>
    obtain ⟨b, c, hx, hxs, ha⟩ := h
    exact ⟨b, c, W.mono hgrows hx, ih hxs, ha⟩

theorem emod_pow_low (z : Int) (n : Nat) : z % 2 ^ (n + 1) = (odd z).toNat + 2 * (z / 2 % 2 ^ n) := by
  have hz := odd_add_half z
  have hhalf := Int.mul_ediv_add_emod (z / 2) (2 ^ n)
  have hwhole := Int.mul_ediv_add_emod z (2 ^ (n + 1))
  have hshift := shift_succ z n
  have hpow : (2 : Int) ^ (n + 1) = 2 * 2 ^ n := pow_succ' 2 n
  rw [hshift, hpow] at hwhole
  rw [hpow]
  linear_combination hwhole - 2 * hhalf + hz

/-- A vector's disjunction says whether it is not zero. -/
theorem Carries.readsOr {xs : List β} {z : Int} (h : W.Carries s xs z) :
    ReadsOr W s xs (decide (z % 2 ^ xs.length ≠ 0)) := by
  induction xs generalizing z with
  | nil => simp [ReadsOr]
  | cons x xs ih =>
    refine ⟨_, _, h.1, ih h.2, ?_⟩
    have hlow := Int.emod_nonneg (z / 2) (show (2 : Int) ^ xs.length ≠ 0 by positivity)
    rw [List.length_cons, emod_pow_low]
    cases odd z
    · simp
    · simp only [Bool.toNat_true, Bool.true_or, decide_eq_true_eq]
      omega

theorem reducePairs_emits {s : σ} {xs : List β} {a : Bool} (h : ReadsOr W s xs a) :
    W.Emits s (reducePairs .bitOr xs) fun r t => r.length = (xs.length + 1) / 2 ∧ ReadsOr W t r a := by
  match xs with
  | [] => exact Emits.pure ⟨by simp, h⟩
  | [_] => exact Emits.pure ⟨by simp, h⟩
  | left :: right :: rest =>
    obtain ⟨b, _, hleft, ⟨c, d, hright, hrest, rfl⟩, rfl⟩ := h
    apply Emits.bind (W.or_emits hleft hright)
    intro bit t hgrows hbit
    apply Emits.bind (reducePairs_emits (hrest.mono hgrows))
    intro bits u hlater ⟨hlength, hbits⟩
    refine Emits.pure ⟨?_, b || c, d, W.mono hlater hbit, hbits, (Bool.or_assoc ..).symm⟩
    simp only [List.length_cons, hlength]
    omega

theorem reduceLoop_emits (fuel : Nat) {xs : List β} {a : Bool} (h : ReadsOr W s xs a)
    (hpos : 0 < xs.length) (hfuel : xs.length ≤ fuel) :
    W.Emits s (reduceLoop .bitOr fuel xs) fun x t => W.Reads t x a := by
  induction fuel generalizing s xs with
  | zero => omega
  | succ fuel ih =>
    match xs with
    | [x] =>
      obtain ⟨b, c, hx, rfl, rfl⟩ := h
      rw [Bool.or_false]
      exact Emits.pure hx
    | x :: y :: rest =>
      apply Emits.bind (reducePairs_emits h)
      intro next t _ ⟨hlength, hnext⟩
      simp only [List.length_cons] at hlength hfuel
      exact ih hnext (by omega) (by omega)

theorem reduceValues_emits {xs : List β} {z : Int} (h : W.Carries s xs z) (hpos : 0 < xs.length) :
    W.Emits s (reduceValues xs .bitOr) fun x t => W.Reads t x (decide (z % 2 ^ xs.length ≠ 0)) := by
  have hvalid : ¬xs.isEmpty := by
    rw [List.isEmpty_iff_length_eq_zero]
    omega
  rw [reduceValues, if_neg hvalid]
  exact reduceLoop_emits _ (Carries.readsOr h) hpos (Nat.le_refl _)

/-! The restoring loop. -/

/-- The remainder's next value: the divisor is taken away when it fits. -/
theorem restore_step {v d : Nat} (hd : 0 < d) (b : Bool) (hv : v = b.toNat + 2 * (v / 2)) :
    let rest := b.toNat + 2 * (v / 2 % d)
    v / d = (decide (d ≤ rest)).toNat + 2 * (v / 2 / d) ∧
      v % d = if d ≤ rest then rest - d else rest := by
  intro rest
  have hdivision := Nat.div_add_mod (v / 2) d
  have hrest := Nat.mod_lt (v / 2) hd
  have hbit := Bool.toNat_le b
  by_cases hfits : d ≤ rest
  · rw [decide_eq_true hfits, if_pos hfits, Bool.toNat_true]
    have hsplit : v = d * (1 + 2 * (v / 2 / d)) + (rest - d) := by
      rw [Nat.mul_add, Nat.mul_one, Nat.mul_left_comm]
      omega
    have hbelow : rest - d < d := by omega
    exact ⟨(Nat.div_eq_of_lt_le (by rw [Nat.mul_comm]; omega) (by rw [Nat.mul_comm, Nat.mul_add]; omega)),
      by rw [hsplit, Nat.mul_add_mod, Nat.mod_eq_of_lt hbelow]⟩
  · rw [decide_eq_false hfits, if_neg hfits, Bool.toNat_false]
    have hsplit : v = d * (0 + 2 * (v / 2 / d)) + rest := by
      rw [Nat.zero_add, Nat.mul_left_comm]
      omega
    exact ⟨(Nat.div_eq_of_lt_le (by rw [Nat.mul_comm]; omega) (by rw [Nat.mul_comm, Nat.mul_add]; omega)),
      by rw [hsplit, Nat.mul_add_mod, Nat.mod_eq_of_lt (by omega)]⟩

theorem mapM_mux_emits {choice : β} {c : Bool} {xs ys : List β} {a b : Int} (hchoice : W.Reads s choice c)
    (hx : W.Carries s xs a) (hy : W.Carries s ys b) (hlength : xs.length = ys.length) :
    Returns W s ((xs.zip ys).mapM fun pair => emitMux choice pair.2 pair.1) xs.length
      (if c then b else a) := by
  have hall := mapM_carries (W := W) (s := s) (l := xs.zip ys) (z := if c then b else a)
    (f := fun pair => emitMux choice pair.2 pair.1) fun i pair hpair t hgrows => by
      obtain ⟨hfirst, hsecond⟩ := List.getElem?_zip_eq_some.mp hpair
      apply (W.mux_emits (W.mono hgrows hchoice) (W.mono hgrows (hy.read hsecond))
        (W.mono hgrows (hx.read hfirst))).mono
      intro bit u _ hbit
      cases c <;> exact hbit
  rwa [List.length_zip, ← hlength, Nat.min_self] at hall

/-- What the remainder becomes when the difference is taken. -/
theorem dropLast_carries {xs : List β} {z : Int} (h : W.Carries s xs z) : W.Carries s xs.dropLast z := by
  rw [List.dropLast_eq_take]
  exact h.take _

/-- The loop leaves the quotient and the remainder, unless the divisor is zero. -/
theorem restoringLoop_emits {divisor : List β} {d n : Nat} (dividend : List β) {remaining : List β} {v : Nat}
    (hdivisor : W.Carries s divisor d) (hlength : divisor.length = n + 1) (hd : d < 2 ^ n)
    (hdividend : W.Carries s dividend v) (hv : v < 2 ^ dividend.length)
    (hremaining : W.Carries s remaining 0) (hstart : remaining.length = n + 1) :
    W.Emits s (restoringLoop divisor dividend remaining) fun r t =>
      r.1.length = dividend.length ∧ r.2.length = n + 1 ∧ ∃ q p : Int, W.Carries t r.1 q ∧
        W.Carries t r.2 p ∧ (0 < d → q = (v / d : Nat) ∧ p = (v % d : Nat)) := by
  induction dividend generalizing s v with
  | nil =>
    have hzero : v = 0 := by simpa using hv
    subst hzero
    refine Emits.pure ⟨rfl, hstart, 0, 0, trivial, hremaining, fun _ => ?_⟩
    rw [Nat.zero_div, Nat.zero_mod]
    exact ⟨rfl, rfl⟩
  | cons bit dividend ih =>
    obtain ⟨hbit, hrest⟩ := hdividend
    have hhalf : v / 2 < 2 ^ dividend.length := by
      rw [List.length_cons, pow_succ] at hv
      omega
    have hcast : (v : Int) / 2 = (v / 2 : Nat) := by push_cast; rfl
    rw [hcast] at hrest
    apply Emits.bind (ih hdivisor hrest hhalf hremaining)
    intro r s₁ g₁ ⟨hquotientLength, hremainingLength, q, p, hq, hp, hvalues⟩
    have hshifted : W.Carries s₁ (bit :: r.2.dropLast) ((odd (v : Int)).toNat + 2 * p) := by
      rw [carries_cons, odd_cast_add, half_cast_add]
      exact ⟨W.mono g₁ hbit, dropLast_carries hp⟩
    have hshiftedLength : (bit :: r.2.dropLast).length = n + 1 := by
      rw [List.length_cons, List.length_dropLast, hremainingLength]
      rfl
    apply Emits.bind (addSubVectors_emits true hshifted (hdivisor.mono g₁)
      (hshiftedLength.trans hlength.symm) (by omega))
    intro r' s₂ g₂ ⟨hdifferenceLength, hdifference, hborrow⟩
    rw [hshiftedLength] at hborrow
    apply Emits.bind (mapM_mux_emits hborrow (hshifted.mono g₂) hdifference hdifferenceLength.symm)
    intro next s₃ g₃ ⟨hnextLength, hnext⟩
    have g := W.trans g₂ g₃
    refine Emits.pure ⟨congrArg Nat.succ hquotientLength, hnextLength.trans hshiftedLength, ?_⟩
    refine ⟨(carryInto (n + 1) ((odd (v : Int)).toNat + 2 * p) (addend true d) true).toNat + 2 * q, _, ?_,
      hnext, fun hpos => ?_⟩
    · rw [carries_cons, odd_cast_add, half_cast_add]
      exact ⟨W.mono g₃ hborrow, hq.mono g⟩
    · obtain ⟨hq, hp⟩ := hvalues hpos
      have hstep := restore_step hpos (odd (v : Int)) (nat_odd_half v)
      have hbelow := Nat.mod_lt (v / 2) hpos
      have hbool := Bool.toNat_le (odd (v : Int))
      have hpow : 2 ^ (n + 1) = 2 * 2 ^ n := pow_succ' 2 n
      have hcastRest : ((odd (v : Int)).toNat : Int) + 2 * p =
          ((odd (v : Int)).toNat + 2 * (v / 2 % d) : Nat) := by
        rw [hp]
        push_cast
        rfl
      have hcastPow : ((2 ^ (n + 1) : Nat) : Int) = 2 ^ (n + 1) := by simp
      have hcarry : carryInto (n + 1) ((odd (v : Int)).toNat + 2 * p) (addend true d) true =
          decide (d ≤ (odd (v : Int)).toNat + 2 * (v / 2 % d)) := by
        rw [hcastRest, addend, if_pos rfl, carryInto_subtract (by omega) (by omega)]
        simp only [Nat.cast_le]
      rw [hcarry, hstep.1, hstep.2, hq, hcastRest]
      constructor
      · push_cast
        rfl
      · rw [addSub, if_pos rfl]
        simp only [decide_eq_true_eq]
        split_ifs
        · omega
        · rfl

theorem constants_emits (bits : List Bool) :
    Returns W s (bits.mapM (m := BlastM σ ε) fun bit => constant bit) bits.length (bitsValue bits) := by
  apply mapM_carries
  intro i bit hbit t _
  have hdigit : digit (bitsValue bits : Int) i = bit := by
    induction bits generalizing i with
    | nil => simp at hbit
    | cons first bits ih =>
      rw [bitsValue]
      push_cast
      cases i with
      | zero =>
        rw [digit_zero, odd_cast_add]
        simpa using hbit
      | succ i =>
        rw [digit_succ, half_cast_add]
        exact ih i hbit
  rw [hdigit]
  exact W.constant_emits t bit

/-- A divisor with a zero above it. -/
theorem extended_carries {divisor : List β} {zero : β} {d : Nat} (h : W.Carries s divisor d)
    (hd : d < 2 ^ divisor.length) (hzero : W.Reads s zero false) : W.Carries s (divisor ++ [zero]) d := by
  have hcast : ((2 ^ divisor.length : Nat) : Int) = 2 ^ divisor.length := by simp
  rw [carries_append, Int.ediv_eq_zero_of_lt (by omega) (by omega)]
  exact ⟨h, hzero, trivial⟩

variable (W) in
/-- Vectors of the width that carry a quotient and a remainder of `v` by `d`. -/
def Divides (s : σ) (width v d : Nat) (r : List β × List β) : Prop :=
  r.1.length = width ∧ r.2.length = width ∧ ∃ q p : Int, W.Carries s r.1 q ∧ W.Carries s r.2 p ∧
    (0 < d → q = (v / d : Nat) ∧ p = (v % d : Nat))

theorem restoringDivide_emits {dividend divisor : List β} {v d width : Nat} (hpos : 0 < width)
    (hdividend : W.Carries s dividend v) (hdivisor : W.Carries s divisor d)
    (hleft : dividend.length = width) (hright : divisor.length = width) (hv : v < 2 ^ width)
    (hd : d < 2 ^ width) :
    W.Emits s (restoringDivide dividend divisor) fun r t => Divides W t width v d r := by
  have hvalid : ¬(dividend.length ≠ divisor.length ∨ dividend.isEmpty) := by
    rw [List.isEmpty_iff_length_eq_zero]
    omega
  subst hright
  rw [restoringDivide, if_neg hvalid]
  apply Emits.bind (W.constant_emits s false)
  intro zero s₁ g₁ hzero
  apply Emits.bind (restoringLoop_emits dividend (extended_carries (hdivisor.mono g₁) hd hzero)
    (by rw [List.length_append]; rfl) hd (hdividend.mono g₁) (by rwa [hleft])
    (carries_zeros hzero _) (by rw [List.length_replicate, hleft]))
  intro r s₂ g₂ ⟨hquotient, hremaining, q, p, hq, hp, hvalues⟩
  refine Emits.pure ⟨hquotient.trans hleft, ?_, q, p, hq, dropLast_carries hp, hvalues⟩
  rw [List.length_dropLast, hremaining]
  rfl

theorem restoringDivideConstant_emits {dividend : List β} {divisor : List Bool} {v width : Nat}
    (hdividend : W.Carries s dividend v) (hlength : dividend.length = width) (hv : v < 2 ^ width)
    (hpos : 0 < bitsValue divisor) :
    W.Emits s (restoringDivideConstant dividend divisor) fun r t =>
      Divides W t width v (bitsValue divisor) r := by
  apply Emits.bind (W.constant_emits s false)
  intro zero s₁ g₁ hzero
  apply Emits.bind (constants_emits divisor)
  intro bits s₂ g₂ ⟨hbitsLength, hbits⟩
  have hzero := W.mono g₂ hzero
  have hd := bitsValue_lt divisor
  apply Emits.bind (restoringLoop_emits (n := divisor.length) dividend
    (extended_carries hbits (by rwa [hbitsLength]) hzero) (by rw [List.length_append, hbitsLength]; rfl) hd
    (hdividend.mono (W.trans g₁ g₂)) (by rwa [hlength]) (carries_zeros hzero _)
    (by rw [List.length_replicate, hbitsLength]))
  intro r s₃ g₃ ⟨hquotient, hremaining, q, p, hq, hp, hvalues⟩
  obtain ⟨hq', hp'⟩ := hvalues hpos
  have hrest := Nat.mod_lt v hpos
  have hpow : 2 ^ (divisor.length + 1) = 2 * 2 ^ divisor.length := pow_succ' 2 _
  have hcastPow : ((2 ^ (divisor.length + 1) : Nat) : Int) = 2 ^ (divisor.length + 1) := by simp
  refine Emits.pure ⟨hquotient.trans hlength, ?_, q, p, hq, ?_, hvalues⟩
  · rw [List.length_take, List.length_append, List.length_replicate]
    omega
  · apply Carries.take
    rw [carries_append, hremaining, hp', Int.ediv_eq_zero_of_lt (by omega) (by omega), ← hp']
    exact ⟨hp, carries_zeros (W.mono g₃ hzero) _⟩

end Opto.Bitblast
