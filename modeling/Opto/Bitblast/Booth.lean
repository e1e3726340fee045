import Mathlib.Data.List.TakeWhile
import Opto.Bitblast.Products

/-!
# Radix-4 products

Three neighbouring bits of the multiplier are a digit between minus two and two, and the
digits telescope to the multiplier. A row holds a digit's multiple of the multiplicand up
to its sign column, where a complemented bit and a correction stand for the sign.
-/

namespace Opto.Bitblast

open Word Growing TwosComplement

variable {σ ε β : Type} [BitBackend σ ε β] {W : Meaning σ ε β} {s : σ}

/-! Digits of the multiplier. -/

/-- The bit below a group. -/
def lowDigit (z : Int) : Nat → Bool
  | 0 => false
  | group + 1 => digit z (group * 2 + 1)

def radix4Digit (z : Int) (group : Nat) : Int :=
  (lowDigit z group).toNat + (digit z (group * 2)).toNat - 2 * (digit z (group * 2 + 1)).toNat

def radix4Sum (z : Int) : Nat → Int
  | 0 => 0
  | group + 1 => radix4Sum z group + radix4Digit z group * 2 ^ (group * 2)

/-- What the digits leave is above them, with the bit that they carry out. -/
theorem radix4Sum_rest (z : Int) (groups : Nat) :
    radix4Sum z groups + (z / 2 ^ (groups * 2) + (lowDigit z groups).toNat) * 2 ^ (groups * 2) = z := by
  induction groups with
  | zero => simp [radix4Sum, lowDigit]
  | succ group ih =>
    have hmiddle := odd_add_half (z / 2 ^ (group * 2))
    have hupper := odd_add_half (z / 2 ^ (group * 2 + 1))
    have hfirst := shift_add z (group * 2) 1
    have hsecond := shift_add z (group * 2 + 1) 1
    rw [pow_one] at hfirst hsecond
    rw [← hfirst] at hmiddle
    rw [← hsecond] at hupper
    have hexponent : (group + 1) * 2 = group * 2 + 1 + 1 := by ring
    rw [radix4Sum, radix4Digit, lowDigit, hexponent, digit, digit]
    linear_combination ih - 2 ^ (group * 2) * hmiddle - 2 * 2 ^ (group * 2) * hupper

/-- Once the groups pass the sign, the digits make up the multiplier. -/
theorem radix4Sum_eq {z : Int} {group : Nat} (hlo : -(2 ^ (group * 2 + 1)) ≤ z)
    (hhi : z < 2 ^ (group * 2 + 1)) : radix4Sum z (group + 1) = z := by
  have hrest := radix4Sum_rest z (group + 1)
  have hzero : z / 2 ^ ((group + 1) * 2) + (lowDigit z (group + 1)).toNat = 0 := by
    have hpow : (2 : Int) ^ ((group + 1) * 2) = 2 * 2 ^ (group * 2 + 1) := by ring
    rw [lowDigit, hpow]
    by_cases hz : 0 ≤ z
    · rw [digit_small hz hhi, Int.ediv_eq_zero_of_lt hz (by omega)]
      rfl
    · have hminus : z / (2 * 2 ^ (group * 2 + 1)) = -1 :=
        (Int.ediv_eq_iff_of_pos (by positivity)).mpr (by omega)
      rw [digit_negative hlo (by omega), hminus]
      rfl
  rwa [hzero, zero_mul, add_zero] at hrest

/-- Groups that are left out lie beyond the width. -/
theorem radix4Sum_modEq (z : Int) {groups width : Nat} (h : width ≤ groups * 2) :
    radix4Sum z groups ≡ z [ZMOD 2 ^ width] := by
  have hrest := radix4Sum_rest z groups
  obtain ⟨n, hn⟩ := Nat.exists_eq_add_of_le h
  rw [hn, pow_add] at hrest
  refine Int.modEq_iff_dvd.mpr ⟨(z / (2 ^ width * 2 ^ n) + (lowDigit z groups).toNat) * 2 ^ n, ?_⟩
  linear_combination -hrest

theorem takeWhile_range (p : Nat → Bool) (n : Nat) :
    ∃ k, (List.range n).takeWhile p = List.range k ∧ (k = n ∨ p k = false) := by
  induction n with
  | zero => exact ⟨0, rfl, .inl rfl⟩
  | succ n ih =>
    obtain ⟨k, hk, hstop⟩ := ih
    rw [List.range_succ, List.takeWhile_append, hk, List.length_range, List.length_range]
    by_cases heq : k = n
    · subst heq
      rw [if_pos rfl]
      cases hp : p k with
      | true => exact ⟨k + 1, by simp [hp, List.range_succ], .inl rfl⟩
      | false => exact ⟨k, by simp [hp], .inr hp⟩
    · rw [if_neg heq]
      exact ⟨k, rfl, .inr (hstop.resolve_left heq)⟩

/-! Rows. -/

/-- The multiple of the multiplicand that the digit selects. -/
def multiple (one two : Bool) (m : Int) : Int := if one then m else if two then 2 * m else 0

theorem digit_double (z : Int) (i : Nat) :
    digit (2 * z) i = if i = 0 then false else digit z (i - 1) := by
  cases i with
  | zero =>
    rw [if_pos rfl, digit_zero, odd_eq_iff]
    simp
  | succ i => rw [if_neg (Nat.succ_ne_zero i), digit_succ, Int.mul_ediv_cancel_left _ (by decide)]; rfl

theorem boothPartial_emits {multiplicand : List β} {one two upper zero : β} {a b u : Bool} {m : Int}
    {index : Nat} (hm : W.Carries s multiplicand m) (hone : W.Reads s one a) (htwo : W.Reads s two b)
    (hupper : W.Reads s upper u) (hzero : W.Reads s zero false) (hindex : index < multiplicand.length) :
    W.Emits s (boothPartial multiplicand one two upper zero index) fun x t =>
      W.Reads t x (digit (addend u (multiple a b m)) index) := by
  have hbit {t : σ} (hgrows : W.Grows s t) {i : Nat} (hi : i < multiplicand.length) :
      W.Emits t (multiplicandBit multiplicand i) fun x v => W.Reads v x (digit m i) := by
    have hget := List.getElem?_eq_getElem hi
    rw [multiplicandBit, hget]
    exact Emits.pure ((hm.mono hgrows).read hget)
  have hbelow : W.Emits s (multiplicandBelow multiplicand zero index) fun x t =>
      W.Reads t x (digit (2 * m) index) := by
    rw [digit_double, multiplicandBelow]
    split_ifs with hfirst
    · exact Emits.pure hzero
    · intro hgood
      exact hbit (W.refl hgood) (by omega) hgood
  apply Emits.bind hbelow
  intro below s₁ g₁ hbelow
  apply Emits.bind (W.and_emits (W.mono g₁ htwo) hbelow)
  intro doubled s₂ g₂ hdoubled
  have g := W.trans g₁ g₂
  apply Emits.bind (hbit g hindex)
  intro single s₃ g₃ hsingle
  have g := W.trans g g₃
  apply Emits.bind (W.mux_emits (W.mono g hone) hsingle (W.mono g₃ hdoubled))
  intro magnitude s₄ g₄ hmagnitude
  apply (W.xor_emits hmagnitude (W.mono (W.trans g g₄) hupper)).mono
  intro x t _ hx
  rw [digit_addend]
  have hselect : digit (multiple a b m) index =
      if a then digit m index else b && digit (2 * m) index := by
    have hnone : digit 0 index = false := by
      rw [digit, Int.zero_ediv]
      rfl
    cases a <;> cases b <;> simp [multiple, hnone]
  rwa [hselect]

/-- A digit's multiple, complemented for a negative digit and lifted to be nonnegative. -/
def lifted (u : Bool) (magnitudeWidth : Nat) (product : Int) : Int :=
  addend u product + 2 ^ (magnitudeWidth + 1)

theorem digit_lifted_low (u : Bool) {magnitudeWidth i : Nat} (product : Int) (h : i ≤ magnitudeWidth) :
    digit (lifted u magnitudeWidth product) i = digit (addend u product) i := by
  have hmod : lifted u magnitudeWidth product ≡ addend u product [ZMOD 2 ^ (magnitudeWidth + 1)] :=
    Int.modEq_iff_dvd.mpr ⟨-1, by rw [lifted]; ring⟩
  exact digit_congr hmod (by omega)

theorem digit_lifted_sign (u : Bool) (magnitudeWidth : Nat) (product : Int) :
    digit (lifted u magnitudeWidth product) (magnitudeWidth + 1) =
      !digit (addend u product) (magnitudeWidth + 1) := by
  have hstep : lifted u magnitudeWidth product / 2 ^ (magnitudeWidth + 1) =
      addend u product / 2 ^ (magnitudeWidth + 1) + 1 := by
    have hone := Int.add_mul_ediv_right (addend u product) 1
      (c := 2 ^ (magnitudeWidth + 1)) (by positivity)
    rwa [one_mul] at hone
  have hodd := odd_toNat (addend u product / 2 ^ (magnitudeWidth + 1))
  rw [digit, digit, hstep, odd_eq_iff]
  cases h : odd (addend u product / 2 ^ (magnitudeWidth + 1)) <;> rw [h] at hodd <;> simp at hodd ⊢ <;> omega

/-- The lifted multiple has no digits above the sign column. -/
theorem digit_lifted_high {u : Bool} {magnitudeWidth i : Nat} {product : Int} (hi : magnitudeWidth + 1 < i)
    (hlo : -(2 ^ (magnitudeWidth + 1)) ≤ addend u product) (hhi : addend u product < 2 ^ (magnitudeWidth + 1)) :
    digit (lifted u magnitudeWidth product) i = false := by
  have hpow : (2 : Int) ^ (magnitudeWidth + 1 + 1) ≤ 2 ^ i := pow_le_pow_right₀ (by decide) hi
  have hdouble : (2 : Int) ^ (magnitudeWidth + 1 + 1) = 2 * 2 ^ (magnitudeWidth + 1) := by ring
  rw [lifted]
  apply digit_small <;> omega

section Row

variable {multiplicand : List β} {group : BoothDigit β} {u mid l : Bool} {m : Int} {width : Nat}

variable (W) in
/-- The bits of a group, and zero. -/
structure ReadsDigit (s : σ) (group : BoothDigit β) (u mid l : Bool) : Prop where
  upper : W.Reads s group.upper u
  middle : W.Reads s group.middle mid
  low : W.Reads s group.low l
  zero : W.Reads s group.zero false

/-- A sign column inside the width is past the multiplicand. -/
def Magnitude (width magnitudeWidth : Nat) (m : Int) : Prop :=
  magnitudeWidth < width → -(2 ^ magnitudeWidth) ≤ m ∧ m < 2 ^ magnitudeWidth

theorem multiple_bounds {magnitudeWidth : Nat} (hm : Magnitude width magnitudeWidth m)
    (hlt : magnitudeWidth < width) (one two u : Bool) :
    -(2 ^ (magnitudeWidth + 1)) ≤ addend u (multiple one two m) ∧
      addend u (multiple one two m) < 2 ^ (magnitudeWidth + 1) := by
  obtain ⟨hlo, hhi⟩ := hm hlt
  have hpow : (2 : Int) ^ (magnitudeWidth + 1) = 2 * 2 ^ magnitudeWidth := by ring
  have hpositive : (0 : Int) < 2 ^ magnitudeWidth := by positivity
  cases one <;> cases two <;> cases u <;> simp [multiple, addend] <;> omega

theorem boothSlot_emits {one two : β} {a b : Bool} (hmultiplicand : W.Carries s multiplicand m)
    (hlength : multiplicand.length = width) (hone : W.Reads s one a) (htwo : W.Reads s two b)
    (hgroup : ReadsDigit W s group u mid l) (hmagnitude : Magnitude width group.magnitudeWidth m)
    {output : Nat} (houtput : output < width) :
    W.Emits s (boothSlot multiplicand group one two (group.shift + group.magnitudeWidth + 1) output)
      fun slot t => SlotReads W t slot
        (digit (lifted u group.magnitudeWidth (multiple a b m) * 2 ^ group.shift) output) := by
  rw [boothSlot, digit_mul_pow]
  by_cases houtside : output < group.shift ∨ group.shift + group.magnitudeWidth + 1 < output
  · rw [if_pos houtside]
    split_ifs with hbelow
    · exact Emits.pure rfl
    · have hpast : group.magnitudeWidth + 1 < output - group.shift := by omega
      obtain ⟨hlo, hhi⟩ := multiple_bounds hmagnitude (by omega) a b u
      exact Emits.pure (digit_lifted_high hpast hlo hhi)
  · rw [if_neg houtside, if_neg (by omega)]
    apply Emits.bind (boothPartial_emits hmultiplicand hone htwo hgroup.upper hgroup.zero (by omega))
    intro x t _ hx
    by_cases hsign : output = group.shift + group.magnitudeWidth + 1
    · rw [if_pos hsign]
      apply Emits.map (W.not_emits hx)
      intro y v _ hy
      have hindex : output - group.shift = group.magnitudeWidth + 1 := by omega
      rw [hindex] at hy ⊢
      rw [digit_lifted_sign]
      exact hy
    · rw [if_neg hsign, digit_lifted_low u _ (by omega)]
      exact Emits.pure hx

/-- The row of a group adds the digit times the multiplicand. -/
theorem appendBoothRow_emits [DecidableEq β] {matrix : BitMatrix β} {z : Int}
    (hmultiplicand : W.Carries s multiplicand m) (hlength : multiplicand.length = width)
    (hgroup : ReadsDigit W s group u mid l) (hmagnitude : Magnitude width group.magnitudeWidth m)
    (hshift : group.shift < width) (h : Totals W s width matrix z) :
    Collects W s (appendBoothRow multiplicand matrix group) width
      (z + ((l.toNat : Int) + mid.toNat - 2 * u.toNat) * 2 ^ group.shift * m) := by
  apply Emits.bind (W.xor_emits hgroup.middle hgroup.low)
  intro one s₁ g₁ hone
  apply Emits.bind (W.not_emits hone)
  intro notOne s₂ g₂ hnotOne
  have g := W.trans g₁ g₂
  apply Emits.bind (W.xor_emits (W.mono g hgroup.upper) (W.mono g hgroup.middle))
  intro upperMiddle s₃ g₃ hupperMiddle
  apply Emits.bind (W.and_emits (W.mono g₃ hnotOne) hupperMiddle)
  intro two s₄ g₄ htwo
  have g' := W.trans g₃ g₄
  have g := W.trans g g'
  have hone := W.mono (W.trans g₂ g') hone
  have hgroup₄ : ReadsDigit W s₄ group u mid l :=
    ⟨W.mono g hgroup.upper, W.mono g hgroup.middle, W.mono g hgroup.low, W.mono g hgroup.zero⟩
  have hrow := mapM_range_slots (W := W) (s := s₄) (n := width)
    (f := boothSlot multiplicand group one two (group.shift + group.magnitudeWidth + 1))
    fun output houtput t hgrows => boothSlot_emits ((hmultiplicand.mono g).mono hgrows) hlength
      (W.mono hgrows hone) (W.mono hgrows htwo)
      ⟨W.mono hgrows hgroup₄.upper, W.mono hgrows hgroup₄.middle, W.mono hgrows hgroup₄.low,
        W.mono hgrows hgroup₄.zero⟩ hmagnitude houtput
  rw [h.1]
  apply Emits.bind hrow
  intro row s₅ g₅ ⟨hrowLength, hrow⟩
  have hupper := W.mono g₅ hgroup₄.upper
  have hpushed := (((h.mono g).mono g₅).addCorrectionPower
    (group.shift + group.magnitudeWidth + 1) true).pushRow hrowLength hrow
  have hdigit : lifted u group.magnitudeWidth (multiple (mid ^^ l) (!(mid ^^ l) && (u ^^ mid)) m) -
      2 ^ (group.magnitudeWidth + 1) + u.toNat = ((l.toNat : Int) + mid.toNat - 2 * u.toNat) * m := by
    cases u <;> cases mid <;> cases l <;> simp [lifted, multiple, addend]
  have hpower : (2 : Int) ^ (group.shift + group.magnitudeWidth + 1) =
      2 ^ (group.magnitudeWidth + 1) * 2 ^ group.shift := by ring
  split_ifs with hsame
  · have hnone : (List.replicate width (none : Option β))[group.shift]? = some none := by
      rw [List.getElem?_replicate, if_pos hshift]
    have hsign := (rowCarries_none (W := W) (s := s₅) width).set hnone hupper
    apply Emits.pure
    simp only [width_pushRow, width_addCorrectionPower, h.1]
    apply (hpushed.pushRow (by simp) hsign).of_eq
    rw [sign, if_pos rfl, hpower]
    linear_combination 2 ^ group.shift * hdigit
  · have hfalse : u = false := by
      rw [not_not.mp hsame] at hupper
      exact W.unique hupper (W.mono g₅ hgroup₄.zero)
    apply Emits.pure
    apply hpushed.of_eq
    rw [sign, if_pos rfl, hpower]
    rw [hfalse] at hdigit ⊢
    rw [Bool.toNat_false] at hdigit ⊢
    linear_combination 2 ^ group.shift * hdigit

end Row

/-! The multiplier. -/

/-- What the low `n` bits of the multiplier stand for. -/
def multiplierValue (signed : Bool) (n y : Nat) : Int := read signed n (y % 2 ^ n)

theorem low_modEq (n y : Nat) : ((y % 2 ^ n : Nat) : Int) ≡ y [ZMOD 2 ^ n] := by
  push_cast
  exact Int.mod_modEq (y : Int) (2 ^ n)

theorem multiplierValue_modEq (signed : Bool) (n y : Nat) : multiplierValue signed n y ≡ y [ZMOD 2 ^ n] :=
  (read_modEq signed n (y % 2 ^ n)).trans (low_modEq n y)

theorem boothMultiplierBit_reads {bits : List β} {y n : Nat} {signed : Bool} {zero : β}
    (hbits : W.Carries s bits y) (hlength : bits.length = n) (hpos : 0 < n)
    (hzero : W.Reads s zero false) (i : Nat) :
    W.Reads s (boothMultiplierBit bits i signed zero) (digit (multiplierValue signed n y) i) := by
  have hmod : y % 2 ^ n < 2 ^ n := Nat.mod_lt _ (by positivity)
  have hdigit {i : Nat} (hi : i < n) : digit (multiplierValue signed n y) i = digit y i :=
    digit_congr (multiplierValue_modEq signed n y) hi
  rw [boothMultiplierBit, if_neg (by omega), Int.toNat_natCast]
  by_cases hi : i < bits.length
  · have hget := List.getElem?_eq_getElem hi
    rw [hget, Option.getD_some, hdigit (by omega)]
    exact hbits.read hget
  · rw [List.getElem?_eq_none (by omega), Option.getD_none]
    cases signed with
    | true =>
      have hlast : bits.length - 1 < bits.length := by omega
      have hget := List.getElem?_eq_getElem hlast
      rw [if_pos rfl, List.getLast?_eq_getElem?, hget, Option.getD_some, multiplierValue,
        digit_signed hmod hpos (by omega), ← hlength]
      rw [digit_congr (low_modEq bits.length y) hlast]
      exact hbits.read hget
    | false =>
      have hpow : 2 ^ n ≤ 2 ^ i := Nat.pow_le_pow_right (by decide) (by omega)
      have hcast : ((2 ^ i : Nat) : Int) = 2 ^ i := by simp
      rw [if_neg Bool.false_ne_true, multiplierValue, read_unsigned, digit_small (by omega) (by omega)]
      exact hzero

theorem boothDigit_reads {bits : List β} {y n : Nat} (signed : Bool) {zero : β}
    (hbits : W.Carries s bits y) (hlength : bits.length = n) (hpos : 0 < n)
    (hzero : W.Reads s zero false) (magnitudeWidth group : Nat) :
    ReadsDigit W s (boothDigit bits signed magnitudeWidth zero group)
      (digit (multiplierValue signed n y) (group * 2 + 1)) (digit (multiplierValue signed n y) (group * 2))
      (lowDigit (multiplierValue signed n y) group) where
  upper := boothMultiplierBit_reads hbits hlength hpos hzero (group * 2 + 1)
  middle := boothMultiplierBit_reads hbits hlength hpos hzero (group * 2)
  low := by
    cases group with
    | zero => exact hzero
    | succ group =>
      have hindex : (((group + 1) * 2 : Nat) : Int) - 1 = (group * 2 + 1 : Nat) := by omega
      simp only [boothDigit, hindex]
      exact boothMultiplierBit_reads hbits hlength hpos hzero (group * 2 + 1)
  zero := hzero

/-- The groups of an operand reach past its sign. -/
theorem radix4Sum_groups (ty : WordType) {width : Nat} (hpos : 0 < width) (y : Nat) :
    radix4Sum (multiplierValue ty.signed (min ty.width width) y) (boothGroupCount ty width) =
      multiplierValue ty.signed (min ty.width width) y := by
  have hpositive := ty.positive
  obtain ⟨n, hn⟩ : ∃ n, min ty.width width = n + 1 := ⟨min ty.width width - 1, by omega⟩
  have hmod : y % 2 ^ (n + 1) < 2 ^ (n + 1) := Nat.mod_lt _ (by positivity)
  have hcast : ((2 ^ (n + 1) : Nat) : Int) = 2 ^ (n + 1) := by simp
  have hgroups (group : Nat) (hgroup : boothGroupCount ty width = group + 1)
      (hlo : -(2 ^ (group * 2 + 1)) ≤ multiplierValue ty.signed (n + 1) y)
      (hhi : multiplierValue ty.signed (n + 1) y < 2 ^ (group * 2 + 1)) :
      radix4Sum (multiplierValue ty.signed (n + 1) y) (boothGroupCount ty width) =
        multiplierValue ty.signed (n + 1) y := by
    rw [hgroup]
    exact radix4Sum_eq hlo hhi
  rw [hn]
  cases hsigned : ty.signed with
  | true =>
    have hbounds := read_bounds hmod
    have hle : (2 : Int) ^ n ≤ 2 ^ (n / 2 * 2 + 1) := pow_le_pow_right₀ (by decide) (by omega)
    have hdouble : (2 : Int) ^ (n + 1) = 2 * 2 ^ n := pow_succ' 2 n
    rw [hsigned] at hgroups
    apply hgroups (n / 2)
    · rw [boothGroupCount, hn, hsigned, if_pos rfl]
      omega
    · rw [multiplierValue]
      omega
    · rw [multiplierValue]
      omega
  | false =>
    have hle : (2 : Int) ^ (n + 1) ≤ 2 ^ ((n + 1) / 2 * 2 + 1) := pow_le_pow_right₀ (by decide) (by omega)
    have hpower : (0 : Int) < 2 ^ ((n + 1) / 2 * 2 + 1) := by positivity
    rw [hsigned] at hgroups
    apply hgroups ((n + 1) / 2)
    · rw [boothGroupCount, hn, hsigned, if_neg Bool.false_ne_true]
      omega
    · rw [multiplierValue, read_unsigned]
      omega
    · rw [multiplierValue, read_unsigned]
      omega

/-- The groups that the loop visits make up the multiplier. -/
theorem visitedGroups (ty : WordType) {width y : Nat} (hpos : 0 < width) :
    ∃ groups, (List.range (boothGroupCount ty width)).takeWhile (· * 2 < width) = List.range groups ∧
      (∀ group < groups, group * 2 < width) ∧
      radix4Sum (multiplierValue ty.signed (min ty.width width) y) groups ≡
        multiplierValue ty.signed (min ty.width width) y [ZMOD 2 ^ width] := by
  obtain ⟨groups, hvisited, hstop⟩ :=
    takeWhile_range (fun group => decide (group * 2 < width)) (boothGroupCount ty width)
  refine ⟨groups, hvisited, ?_, ?_⟩
  · intro group hgroup
    have hmem : group ∈ (List.range (boothGroupCount ty width)).takeWhile (· * 2 < width) := by
      rw [hvisited]
      exact List.mem_range.mpr hgroup
    simpa using List.mem_takeWhile_imp hmem
  · cases hstop with
    | inl hall => rw [hall, radix4Sum_groups ty hpos y]
    | inr hpast => exact radix4Sum_modEq _ (by simpa using hpast)

theorem multiplier_reading {value : Operand β} {y : Nat} (hy : y < 2 ^ value.ty.width) (width : Nat) :
    multiplierValue value.ty.signed (min value.ty.width width) y ≡
      value.reading value.ty.signed y [ZMOD 2 ^ width] := by
  rw [Operand.reading, Bool.and_self]
  by_cases hle : value.ty.width ≤ width
  · rw [Nat.min_eq_left hle, multiplierValue, Nat.mod_eq_of_lt hy]
  · have hread := modEq_of_le (Nat.le_of_lt (not_le.mp hle)) (read_modEq value.ty.signed value.ty.width y)
    have hlow := multiplierValue_modEq value.ty.signed width y
    rw [Nat.min_eq_right (by omega)]
    exact hlow.trans hread.symm

theorem magnitude_reading {value : Operand β} {x : Nat} (hx : x < 2 ^ value.ty.width) (width : Nat) :
    Magnitude width (min value.ty.width width) (value.reading value.ty.signed x) := by
  intro hlt
  have hcast : ((2 ^ value.ty.width : Nat) : Int) = 2 ^ value.ty.width := by simp
  have hmin : min value.ty.width width = value.ty.width := by omega
  rw [hmin, Operand.reading, Bool.and_self]
  cases value.ty.signed with
  | true =>
    have hbounds := read_bounds hx
    omega
  | false =>
    rw [read_unsigned]
    omega

/-- The rows of all visited groups. -/
theorem boothRows_emits [DecidableEq β] {multiplicand multiplier : List β} {m : Int} {y n width : Nat}
    {signed : Bool} {zero : β} {magnitudeWidth groups : Nat} (hmultiplicand : W.Carries s multiplicand m)
    (hlength : multiplicand.length = width) (hmultiplier : W.Carries s multiplier y)
    (hmultiplierLength : multiplier.length = n) (hpos : 0 < n) (hzero : W.Reads s zero false)
    (hmagnitude : Magnitude width magnitudeWidth m) (hgroups : ∀ group < groups, group * 2 < width) :
    Collects W s ((List.range groups).foldlM (fun matrix group => appendBoothRow multiplicand matrix
        (boothDigit multiplier signed magnitudeWidth zero group)) (BitMatrix.new width)) width
      (radix4Sum (multiplierValue signed n y) groups * m) := by
  induction groups with
  | zero =>
    rw [radix4Sum, zero_mul]
    exact Emits.pure (totals_new width)
  | succ groups ih =>
    rw [List.range_succ, List.foldlM_append]
    apply Emits.bind (ih fun group hgroup => hgroups group (by omega))
    intro matrix t hgrows hmatrix
    rw [List.foldlM_cons]
    simp only [List.foldlM_nil, bind_pure]
    have hdigit := boothDigit_reads signed (hmultiplier.mono hgrows) hmultiplierLength hpos
      (W.mono hgrows hzero) magnitudeWidth groups
    apply (appendBoothRow_emits (hmultiplicand.mono hgrows) hlength hdigit hmagnitude
      (hgroups groups (by omega)) hmatrix).mono
    intro r u _ hr
    apply hr.of_eq
    rw [radix4Sum, radix4Digit]
    simp only [boothDigit]
    ring

theorem radix4ProductMatrix_emits [DecidableEq β] {left right : Operand β} {x y : Nat}
    (hx : Holds W s left x) (hy : Holds W s right y) (resultTy : WordType) :
    Collects W s (radix4ProductMatrix left right resultTy) resultTy.width
      (left.reading left.ty.signed x * right.reading right.ty.signed y) := by
  have hordered {multiplicand multiplier : Operand β} {x y : Nat} (hx : Holds W s multiplicand x)
      (hy : Holds W s multiplier y) (hpair : boothOperands left right resultTy.width = (multiplicand, multiplier)) :
      Collects W s (radix4ProductMatrix left right resultTy) resultTy.width
        (multiplicand.reading multiplicand.ty.signed x * multiplier.reading multiplier.ty.signed y) := by
    have hpositive := resultTy.positive
    have hwidth := multiplier.ty.positive
    obtain ⟨groups, hvisited, hgroups, hsum⟩ := visitedGroups multiplier.ty (y := y) hpositive
    rw [radix4ProductMatrix, hpair]
    apply Emits.bind (W.constant_emits s false)
    intro zero s₁ g₁ hzero
    apply Emits.bind (unsignedResizedBits_emits (hx.mono g₁) resultTy.width)
    intro multiplicandBits s₂ g₂ ⟨hlength, hmultiplicand⟩
    have g := W.trans g₁ g₂
    apply Emits.bind (unsignedOperandBits_emits (hy.mono g) (Nat.min_le_left _ resultTy.width))
    intro multiplierBits s₃ g₃ ⟨hmultiplierLength, hmultiplier⟩
    simp only [hvisited]
    apply (boothRows_emits (hmultiplicand.mono g₃) hlength hmultiplier hmultiplierLength
      (by omega) (W.mono (W.trans g₂ g₃) hzero) (magnitude_reading hx.1 resultTy.width) hgroups).mono
    intro r t _ hr
    apply hr.congr
    rw [mul_comm]
    exact (hsum.trans (multiplier_reading hy.1 resultTy.width)).mul_left _
  by_cases hcounts : boothGroupCount right.ty resultTy.width ≤ boothGroupCount left.ty resultTy.width
  · exact hordered hx hy (by rw [boothOperands, if_pos hcounts])
  · have hswapped := hordered hy hx (by rw [boothOperands, if_neg hcounts])
    rwa [mul_comm] at hswapped

/-! The recipes. -/

theorem productMatrix_emits [DecidableEq β] {left right : Operand β} {x y : Nat} {recipe : MultiplierRecipe}
    (hx : Holds W s left x) (hy : Holds W s right y)
    (hknown : recipe = .constantCsdWallace → Known s left.bits ∨ Known s right.bits) (resultTy : WordType) :
    Collects W s (productMatrix recipe left right resultTy) resultTy.width
      (left.reading left.ty.signed x * right.reading right.ty.signed y) := by
  cases recipe with
  | radix4Wallace => exact radix4ProductMatrix_emits hx hy resultTy
  | arrayWallace => exact arrayProductMatrix_emits hx hy resultTy
  | constantCsdWallace => exact constantProductMatrix_emits hx hy (hknown rfl) resultTy

/-- Every recipe returns the product of what the operands stand for. -/
theorem multipliers_exact [DecidableEq β] (W : Meaning σ ε β) (s : σ) (recipe : MultiplierRecipe)
    (left right : Operand β) (resultTy : WordType) (x y : Nat) (hx : Holds W s left x)
    (hy : Holds W s right y)
    (hknown : recipe = .constantCsdWallace → Known s left.bits ∨ Known s right.bits) :
    Returns W s (lowerMultiply recipe left right resultTy) resultTy.width
      (left.reading left.ty.signed x * right.reading right.ty.signed y) := by
  apply Emits.bind (productMatrix_emits hx hy hknown resultTy)
  intro matrix s₁ g₁ hmatrix
  apply Emits.bind (W.constant_emits s₁ false)
  intro zero s₂ g₂ hzero
  apply Emits.bind (W.constant_emits s₂ true)
  intro one s₃ g₃ hone
  exact wallaceReduce_emits (hmatrix.mono (W.trans g₂ g₃)) resultTy.positive (W.mono g₃ hzero) hone

open Logic in
/-- Minus one in two bits times five in three, as four bits. -/
theorem minusOne_times_five :
    Returns (AxmBackend.meaning fun _ => false) LogicBuilder.new
      (lowerMultiply .radix4Wallace (AxmBackend.constantOperand ⟨2, true, .twoState, by decide⟩ 3)
        (AxmBackend.constantOperand ⟨3, false, .twoState, by decide⟩ 5)
        ⟨4, true, .twoState, by decide⟩) 4 (-5) :=
  multipliers_exact (AxmBackend.meaning fun _ => false) LogicBuilder.new .radix4Wallace _ _ _ 3 5
    (AxmBackend.constantOperand_holds _ inv_new _ (by decide))
    (AxmBackend.constantOperand_holds _ inv_new _ (by decide))
    fun _ => .inl (AxmBackend.constantOperand_known _ _ _)

end Opto.Bitblast
