import Opto.Word.KnownBits
import Opto.Word.Semantics

/-!
# What known bits say

A fact contains the words that its known bits allow. Each transfer function keeps the
words that its operator computes; products do when no operand stands for a number that
its bits alone do not show.
-/

namespace Opto.Word

open Bits

namespace KnownBit

/-- An unknown bit leaves the digit open. -/
def allows : KnownBit → Bool → Bool
  | .zero, digit => !digit
  | .one, digit => digit
  | .unknown, _ => true

@[simp] theorem allows_unknown (digit : Bool) : unknown.allows digit = true := rfl

@[simp] theorem allows_zero {digit : Bool} : zero.allows digit = true ↔ digit = false := by simp [allows]

@[simp] theorem allows_one {digit : Bool} : one.allows digit = true ↔ digit = true := by simp [allows]

@[simp] theorem allows_ofBool {value digit : Bool} : (ofBool value).allows digit = true ↔ digit = value := by
  cases value <;> simp [ofBool]

theorem allows_invert {bit : KnownBit} {digit : Bool} (h : bit.allows digit = true) :
    bit.invert.allows (!digit) = true := by
  cases bit <;> simp_all [invert]

theorem allows_mergeEqual {left right : KnownBit} {digit : Bool}
    (h : left.allows digit = true ∨ right.allows digit = true) :
    (left.mergeEqual right).allows digit = true := by
  rw [mergeEqual]
  split_ifs with heq
  · subst heq
    simpa using h
  · rfl

section Pairs

variable {left right : KnownBit} {l r : Bool} (hl : left.allows l = true) (hr : right.allows r = true)

include hl hr

theorem allows_and : (bitwise .bitAnd left right).allows (l && r) = true := by
  revert hl hr
  cases left <;> cases right <;> cases l <;> cases r <;> decide

theorem allows_or : (bitwise .bitOr left right).allows (l || r) = true := by
  revert hl hr
  cases left <;> cases right <;> cases l <;> cases r <;> decide

theorem allows_xor : (bitwise .bitXor left right).allows (l ^^ r) = true := by
  revert hl hr
  cases left <;> cases right <;> cases l <;> cases r <;> decide

theorem digits_eq (hleft : left ≠ .unknown) (hright : right ≠ .unknown)
    (hlt : left = .zero → right = .one → False) (hgt : left = .one → right = .zero → False) : l = r := by
  cases left <;> cases right <;> simp_all

theorem allows_fullAdder {carry : KnownBit} {c : Bool} (hc : carry.allows c = true) :
    (fullAdder left right carry).1.allows ((l ^^ r) ^^ c) = true ∧
      (fullAdder left right carry).2.allows (majority l r c) = true := by
  revert hl hr hc
  cases left <;> cases right <;> cases carry <;> cases l <;> cases r <;> cases c <;> decide

end Pairs

end KnownBit

namespace FactRange

/-- The known bits of a fact are those of the word. -/
def Contains (fact : FactRange) (bits : Bits) : Prop :=
  List.Forall₂ (fun bit digit => KnownBit.allows bit digit = true) fact bits

variable {fact left right : FactRange} {bits l r : Bits} {signed : Bool} {width : Nat}

/-- Past the end nothing is known, so the digits may go on as they like. -/
theorem Contains.bit (h : fact.Contains bits) (i : Nat) (extension : Bool) :
    (fact.bit i).allows (bits.getD i extension) = true := by
  induction h generalizing i with
  | nil => rfl
  | cons hbit hrest ih =>
    cases i with
    | zero => exact hbit
    | succ i => exact ih i

theorem contains_of_bit (hlen : fact.length = bits.length)
    (h : ∀ i < bits.length, (fact.bit i).allows (bits.getD i false) = true) : fact.Contains bits := by
  apply List.forall₂_iff_get.mpr
  refine ⟨hlen, fun i hfact hbits => ?_⟩
  have hi := h i hbits
  rwa [FactRange.bit, List.getD_eq_getElem _ _ hfact, List.getD_eq_getElem _ _ hbits] at hi

@[simp] theorem length_generate (width : Nat) (f : Nat → KnownBit) : (generate width f).length = width := by
  simp [generate]

theorem bit_generate (f : Nat → KnownBit) {i : Nat} (hi : i < width) : (generate width f).bit i = f i := by
  rw [FactRange.bit, List.getD_eq_getElem _ _ (by simpa using hi)]
  simp [generate]

theorem contains_generate {f : Nat → KnownBit} (hlen : bits.length = width)
    (h : ∀ i < width, (f i).allows (bits.getD i false) = true) : (generate width f).Contains bits := by
  apply contains_of_bit (by rw [length_generate, hlen])
  intro i hi
  rw [bit_generate f (by omega)]
  exact h i (by omega)

theorem contains_unknown (hlen : bits.length = width) : (unknown width).Contains bits := by
  apply contains_of_bit (by simp [unknown, hlen])
  intro i hi
  rw [FactRange.bit, unknown, List.getD_eq_getElem _ _ (by simp; omega), List.getElem_replicate]
  rfl

theorem contains_store (h : fact.Contains bits) (hlen : bits.length = width) :
    (store fact width).Contains bits :=
  contains_generate hlen fun i _ => h.bit i false

theorem contains_scalar {bit : KnownBit} {digit : Bool} (h : bit.allows digit = true) :
    (scalar bit).Contains [digit] :=
  contains_store (.cons h .nil) rfl

theorem contains_copy (h : fact.Contains bits) : fact.copy.Contains bits :=
  contains_generate h.length_eq.symm fun i _ => h.bit i false

theorem contains_slice (h : fact.Contains bits) {lsb : Nat} (hle : lsb + width ≤ bits.length) :
    (fact.slice lsb width).Contains ((bits.drop lsb).take width) := by
  have hlen := h.length_eq
  rw [slice]
  split_ifs with hwhole
  · obtain ⟨rfl, rfl⟩ := hwhole
    rwa [List.drop_zero, hlen, List.take_length]
  · apply contains_generate (by simp; omega)
    intro i hi
    have hget : ((bits.drop lsb).take width).getD i false = bits.getD (lsb + i) false := by
      simp [List.getD, hi]
    rw [hget]
    exact h.bit _ _

theorem Contains.digit (h : fact.Contains bits) (signed : Bool) (i : Nat) :
    (fact.bit i).allows (digit (bits.number signed) i) = true := by
  rw [digit_number]
  exact h.bit i _

/-! Folds over the bits. -/

theorem allows_logicalFrom (h : fact.Contains bits) (allZero : Bool) :
    (fact.logicalFrom allZero).allows bits.truth = true := by
  induction h generalizing allZero with
  | nil => cases allZero <;> rfl
  | @cons bit digit fact bits hbit hrest ih =>
    have hcons : truth (digit :: bits) = (digit || truth bits) := rfl
    rw [hcons]
    cases bit with
    | zero =>
      rw [KnownBit.allows_zero.mp hbit, Bool.false_or]
      exact ih allZero
    | one =>
      rw [KnownBit.allows_one.mp hbit]
      rfl
    | unknown =>
      have hopen := ih false
      rw [logicalFrom]
      cases hvalue : logicalFrom false fact with
      | zero => exact absurd hvalue (logicalFrom_false_ne fact)
      | one =>
        rw [hvalue, KnownBit.allows_one] at hopen
        simp [hopen]
      | unknown => rfl
where
  logicalFrom_false_ne (fact : FactRange) : logicalFrom false fact ≠ .zero := by
    induction fact with
    | nil => simp [logicalFrom]
    | cons bit fact ih => cases bit <;> simp [logicalFrom, ih]

theorem allows_logicalValue (h : fact.Contains bits) : fact.logicalValue.allows bits.truth = true :=
  allows_logicalFrom h true

theorem allows_reductionAnd (h : fact.Contains bits) : fact.reductionAnd.allows (bits.all id) = true := by
  have hfrom (allOne : Bool) : (fact.reductionAndFrom allOne).allows (bits.all id) = true := by
    induction h generalizing allOne with
    | nil => cases allOne <;> rfl
    | @cons bit digit fact bits hbit hrest ih =>
      rw [List.all_cons, id]
      cases bit with
      | zero =>
        rw [KnownBit.allows_zero.mp hbit]
        rfl
      | one =>
        rw [KnownBit.allows_one.mp hbit, Bool.true_and]
        exact ih allOne
      | unknown =>
        have hopen := ih false
        rw [reductionAndFrom]
        cases hvalue : reductionAndFrom false fact with
        | zero =>
          rw [hvalue, KnownBit.allows_zero] at hopen
          simp [hopen]
        | one => exact absurd hvalue (reductionAndFrom_false_ne fact)
        | unknown => rfl
  exact hfrom true
where
  reductionAndFrom_false_ne (fact : FactRange) : reductionAndFrom false fact ≠ .one := by
    induction fact with
    | nil => simp [reductionAndFrom]
    | cons bit fact ih => cases bit <;> simp [reductionAndFrom, ih]

theorem allows_reductionXor (h : fact.Contains bits) :
    fact.reductionXor.allows (bits.foldl (· ^^ ·) false) = true := by
  have hfrom (parity : Bool) : (fact.reductionXorFrom parity).allows (bits.foldl (· ^^ ·) parity) = true := by
    induction h generalizing parity with
    | nil => exact KnownBit.allows_ofBool.mpr rfl
    | @cons bit digit fact bits hbit hrest ih =>
      rw [List.foldl_cons]
      cases bit with
      | zero =>
        rw [KnownBit.allows_zero.mp hbit, Bool.xor_false]
        exact ih parity
      | one =>
        rw [KnownBit.allows_one.mp hbit, Bool.xor_true]
        exact ih (!parity)
      | unknown => rfl
  exact hfrom false

/-! Comparisons. -/

theorem lt_of_known {i : Nat} (h : fact.bit i ≠ .unknown) : i < fact.length := by
  by_contra hge
  exact h (List.getD_eq_default _ _ (not_lt.mp hge))

/-- Words all of whose bits are known and equal have one width. -/
theorem Contains.eq_of_known (hl : left.Contains l) (hr : right.Contains r)
    (h : ∀ i < max left.length right.length, left.bit i ≠ .unknown ∧ right.bit i ≠ .unknown ∧
      Opto.digit (l.number signed) i = Opto.digit (r.number signed) i) : l = r := by
  have hl' := hl.length_eq
  have hr' := hr.length_eq
  have hlength : l.length = r.length := by
    rcases Nat.lt_trichotomy left.length right.length with hlt | heq | hgt
    · exact absurd (lt_of_known (h left.length (by omega)).1) (lt_irrefl _)
    · omega
    · exact absurd (lt_of_known (h right.length (by omega)).2.1) (lt_irrefl _)
  rw [← resize_self signed l, ← resize_self signed r, resize, resize, ← hlength]
  apply List.map_congr_left
  intro i hi
  rw [List.mem_range] at hi
  exact (h i (by omega)).2.2

theorem allows_equality (hl : left.Contains l) (hr : right.Contains r) (signed : Bool) :
    (left.equality right).allows (decide (l.number signed = r.number signed)) = true := by
  have hdiffer (i : Nat) (h : Opto.digit (l.number signed) i ≠ Opto.digit (r.number signed) i) :
      KnownBit.allows .zero (decide (l.number signed = r.number signed)) = true := by
    rw [KnownBit.allows_zero, decide_eq_false_iff_not]
    intro heq
    exact h (by rw [heq])
  have hfrom (indices : List Nat) (complete : Bool)
      (hdone : complete = true → ∀ i < max left.length right.length, i ∉ indices →
        left.bit i ≠ .unknown ∧ right.bit i ≠ .unknown ∧
          Opto.digit (l.number signed) i = Opto.digit (r.number signed) i) :
      (equalityFrom left right complete indices).allows
        (decide (l.number signed = r.number signed)) = true := by
    induction indices generalizing complete with
    | nil =>
      cases complete with
      | false => rfl
      | true =>
        have hword := hl.eq_of_known hr fun i hi => hdone rfl i hi List.not_mem_nil
        simp [equalityFrom, hword]
    | cons i indices ih =>
      have hleft := hl.digit signed i
      have hright := hr.digit signed i
      rw [equalityFrom]
      split
      · next hzero hone =>
        rw [hzero, KnownBit.allows_zero] at hleft
        rw [hone, KnownBit.allows_one] at hright
        exact hdiffer i (by simp [hleft, hright])
      · next hone hzero =>
        rw [hone, KnownBit.allows_one] at hleft
        rw [hzero, KnownBit.allows_zero] at hright
        exact hdiffer i (by simp [hleft, hright])
      · next hsame hsame' =>
        apply ih
        intro hcomplete j hj hout
        simp only [Bool.and_eq_true, decide_eq_true_eq] at hcomplete
        obtain ⟨⟨hcomplete, hknown⟩, hknown'⟩ := hcomplete
        by_cases hji : j = i
        · subst hji
          exact ⟨hknown, hknown', KnownBit.digits_eq hleft hright hknown hknown' hsame hsame'⟩
        · exact hdone hcomplete j hj (by simp [hji, hout])
  exact hfrom _ true fun _ i hi hout => absurd (List.mem_range.mpr hi) hout

theorem compare_shift (a b c : Int) : Ord.compare (a + c) (b + c) = Ord.compare a b := by
  have hsame := (compare_iff a b).mp rfl
  rw [compare_iff]
  revert hsame
  cases Ord.compare a b <;> simp [Ordering.Compares]

/-- The most significant difference decides between the low digits of two integers. -/
theorem compareFrom_sound {f g : Nat → KnownBit} {a b : Int} {w : Nat}
    (hf : ∀ i < w, (f i).allows (Opto.digit a i) = true) (hg : ∀ i < w, (g i).allows (Opto.digit b i) = true)
    {o : Ordering} (h : compareFrom f g (List.range w).reverse = some o) :
    o = Ord.compare (a % 2 ^ w) (b % 2 ^ w) := by
  induction w with
  | zero =>
    cases h
    simp
  | succ w ih =>
    have hpos : (0 : Int) < 2 ^ w := by positivity
    have ha := Int.emod_nonneg a hpos.ne'
    have hb := Int.emod_nonneg b hpos.ne'
    have ha' := Int.emod_lt_of_pos a hpos
    have hb' := Int.emod_lt_of_pos b hpos
    have hfw := hf w (Nat.lt_succ_self w)
    have hgw := hg w (Nat.lt_succ_self w)
    rw [List.range_succ, List.reverse_append, List.reverse_singleton, List.singleton_append, compareFrom] at h
    rw [emod_succ, emod_succ]
    split at h
    · next hzero hone =>
      cases h
      rw [hzero, KnownBit.allows_zero] at hfw
      rw [hone, KnownBit.allows_one] at hgw
      rw [hfw, hgw, Bool.toNat_false, Bool.toNat_true, eq_comm, compare_lt_iff_lt]
      push_cast
      omega
    · next hone hzero =>
      cases h
      rw [hone, KnownBit.allows_one] at hfw
      rw [hzero, KnownBit.allows_zero] at hgw
      rw [hfw, hgw, Bool.toNat_false, Bool.toNat_true, eq_comm, compare_gt_iff_gt]
      push_cast
      omega
    · next hzero hzero' =>
      rw [hzero, KnownBit.allows_zero] at hfw
      rw [hzero', KnownBit.allows_zero] at hgw
      rw [hfw, hgw, Bool.toNat_false]
      simpa using ih (fun i hi => hf i (by omega)) (fun i hi => hg i (by omega)) h
    · next hone hone' =>
      rw [hone, KnownBit.allows_one] at hfw
      rw [hone', KnownBit.allows_one] at hgw
      rw [hfw, hgw, Bool.toNat_true, Nat.cast_one, mul_one]
      rw [compare_shift]
      exact ih (fun i hi => hf i (by omega)) (fun i hi => hg i (by omega)) h
    · cases h
    · cases h

theorem allows_extendedBit (h : fact.Contains bits) (signed : Bool) (i : Nat) :
    (extendedBit signed fact i).allows (Opto.digit (bits.number signed) i) = true := by
  have hlen := h.length_eq
  have hdigit := digit_number signed bits i
  rw [extendedBit]
  split_ifs with hi hsigned
  · exact h.digit signed i
  · rw [hdigit, List.getD_eq_default _ _ (by omega), hsigned, Bool.true_and]
    have hlast := h.bit (fact.length - 1) false
    rwa [hlen, List.getD, ← List.getLast?_eq_getElem?, ← List.getLastD_eq_getLast?, ← hlen] at hlast
  · rw [hdigit, List.getD_eq_default _ _ (by omega), Bool.eq_false_of_not_eq_true hsigned]
    rfl

theorem compare_sound (hl : left.Contains l) (hr : right.Contains r) {o : Ordering}
    (h : left.compare right signed = some o) : o = Ord.compare (l.number signed) (r.number signed) := by
  have hl' := hl.length_eq
  have hr' := hr.length_eq
  have hbelow {o : Ordering} := compareFrom_sound (w := max left.length right.length) (o := o)
    (fun i _ => allows_extendedBit hl signed i) fun i _ => allows_extendedBit hr signed i
  rw [number_emod signed (by omega), number_emod signed (by omega)] at hbelow
  rw [FactRange.compare] at h
  cases signed with
  | false =>
    have hresult := hbelow h
    simpa using hresult
  | true =>
    have hls := allows_extendedBit hl true (max left.length right.length - 1)
    have hrs := allows_extendedBit hr true (max left.length right.length - 1)
    rw [digit_sign (by omega)] at hls hrs
    have hlneg := number_neg_iff l
    have hrneg := number_neg_iff r
    simp only [if_true] at h
    split at h
    · next hone hzero =>
      cases h
      rw [hone, KnownBit.allows_one] at hls
      rw [hzero, KnownBit.allows_zero] at hrs
      rw [hls] at hlneg
      rw [hrs] at hrneg
      rw [eq_comm, compare_lt_iff_lt]
      simp only [iff_true, Bool.false_eq_true, iff_false] at hlneg hrneg
      omega
    · next hzero hone =>
      cases h
      rw [hzero, KnownBit.allows_zero] at hls
      rw [hone, KnownBit.allows_one] at hrs
      rw [hls] at hlneg
      rw [hrs] at hrneg
      rw [eq_comm, compare_gt_iff_gt]
      simp only [iff_true, Bool.false_eq_true, iff_false] at hlneg hrneg
      omega
    · cases h
    · cases h
    · next hleft hright honeZero hzeroOne =>
      have hsame : sign l = sign r := by
        cases hlbit : extendedBit true left (max left.length right.length - 1) with
        | unknown => exact (hleft hlbit).elim
        | zero =>
          rw [hlbit, KnownBit.allows_zero] at hls
          cases hrbit : extendedBit true right (max left.length right.length - 1) with
          | unknown => exact (hright hrbit).elim
          | zero =>
            rw [hrbit, KnownBit.allows_zero] at hrs
            rw [hls, hrs]
          | one => exact (hzeroOne hlbit hrbit).elim
        | one =>
          rw [hlbit, KnownBit.allows_one] at hls
          cases hrbit : extendedBit true right (max left.length right.length - 1) with
          | unknown => exact (hright hrbit).elim
          | zero => exact (honeZero hlbit hrbit).elim
          | one =>
            rw [hrbit, KnownBit.allows_one] at hrs
            rw [hls, hrs]
      have hresult := hbelow h
      rwa [hsame, compare_shift] at hresult

/-! Numbers that the facts show. -/

theorem trailingZeros_dvd (h : fact.Contains bits) :
    fact.trailingZeros ≤ bits.length ∧ 2 ^ fact.trailingZeros ∣ bitsValue bits := by
  induction h with
  | nil => simp [trailingZeros]
  | @cons bit digit fact bits hbit hrest ih =>
    cases bit with
    | zero =>
      rw [KnownBit.allows_zero.mp hbit]
      have hcons : trailingZeros (.zero :: fact) = trailingZeros fact + 1 := by simp [trailingZeros]
      rw [hcons, List.length_cons, pow_succ', bitsValue, Bool.toNat_false, Nat.zero_add]
      exact ⟨by omega, Nat.mul_dvd_mul_left 2 ih.2⟩
    | one => simp [trailingZeros]
    | unknown => simp [trailingZeros]

theorem bitsValue_of_isZero (h : fact.Contains bits) (hzero : fact.isZero = true) : bitsValue bits = 0 := by
  have hdvd := (trailingZeros_dvd h).2
  rw [isZero, decide_eq_true_iff] at hzero
  rw [hzero, h.length_eq] at hdvd
  exact Nat.eq_zero_of_dvd_of_lt hdvd (bitsValue_lt bits)

/-- One bit of the fact is one and all others are zero. -/
theorem powerOfTwoFrom_some {input : FactRange} {s s' : Nat} {indices : List Nat}
    (h : powerOfTwoFrom input (some s) indices = some s') :
    s' = s ∧ ∀ i ∈ indices, input.bit i = .zero := by
  induction indices with
  | nil =>
    cases h
    simp
  | cons i indices ih =>
    rw [powerOfTwoFrom] at h
    cases hbit : input.bit i with
    | zero =>
      simp only [hbit] at h
      exact ⟨(ih h).1, List.forall_mem_cons.mpr ⟨hbit, (ih h).2⟩⟩
    | one => simp [hbit] at h
    | unknown => simp [hbit] at h

theorem powerOfTwoFrom_none {input : FactRange} {s : Nat} {indices : List Nat} (hnodup : indices.Nodup)
    (h : powerOfTwoFrom input none indices = some s) :
    s ∈ indices ∧ input.bit s = .one ∧ ∀ i ∈ indices, i ≠ s → input.bit i = .zero := by
  induction indices with
  | nil => cases h
  | cons i indices ih =>
    obtain ⟨hout, hnodup⟩ := List.nodup_cons.mp hnodup
    rw [powerOfTwoFrom] at h
    cases hbit : input.bit i with
    | zero =>
      simp only [hbit] at h
      obtain ⟨hmem, hone, hzero⟩ := ih hnodup h
      exact ⟨List.mem_cons_of_mem i hmem, hone, List.forall_mem_cons.mpr ⟨fun _ => hbit, hzero⟩⟩
    | one =>
      simp only [hbit, if_true] at h
      obtain ⟨rfl, hzero⟩ := powerOfTwoFrom_some h
      exact ⟨List.mem_cons_self, hbit, List.forall_mem_cons.mpr ⟨fun hne => absurd rfl hne, fun i hi _ => hzero i hi⟩⟩
    | unknown => simp [hbit] at h

theorem bitsValue_of_powerOfTwo (h : fact.Contains bits) {s : Nat} (hpower : fact.powerOfTwo = some s) :
    s < bits.length ∧ bitsValue bits = 2 ^ s := by
  obtain ⟨hmem, hone, hzero⟩ := powerOfTwoFrom_none List.nodup_range hpower
  rw [List.mem_range, h.length_eq] at hmem
  refine ⟨hmem, bitsValue_eq (Nat.pow_lt_pow_right (by decide) hmem) fun i hi => ?_⟩
  have hbit := h.bit i false
  rw [Nat.testBit_two_pow]
  by_cases his : s = i
  · subst his
    rw [hone, KnownBit.allows_one] at hbit
    exact hbit.trans (decide_eq_true rfl).symm
  · rw [hzero i (by rw [List.mem_range, h.length_eq]; exact hi) (Ne.symm his), KnownBit.allows_zero] at hbit
    exact hbit.trans (decide_eq_false his).symm

theorem powerOfTwo_of_isOne (hone : fact.isOne = true) : fact.powerOfTwo = some 0 := by
  rw [isOne, decide_eq_true_iff] at hone
  obtain ⟨hpos, hfirst, hrest⟩ := hone
  cases fact with
  | nil => cases hpos
  | cons bit fact =>
    have hfirst : bit = .one := hfirst
    subst hfirst
    have hzeros (indices : List Nat) (hpositive : ∀ i ∈ indices, ∃ j < fact.length, i = j + 1) :
        powerOfTwoFrom (.one :: fact) (some 0) indices = some 0 := by
      induction indices with
      | nil => rfl
      | cons i indices ih =>
        obtain ⟨j, hj, rfl⟩ := hpositive i List.mem_cons_self
        have hbit : FactRange.bit (.one :: fact) (j + 1) = .zero := by
          rw [FactRange.bit, List.getD_cons_succ, List.getD_eq_getElem _ _ hj]
          exact hrest _ (List.getElem_mem hj)
        rw [powerOfTwoFrom, hbit]
        exact ih fun i hi => hpositive i (List.mem_cons_of_mem _ hi)
    rw [powerOfTwo, List.length_cons, List.range_succ_eq_map, powerOfTwoFrom]
    apply hzeros
    intro i hi
    obtain ⟨j, hj, rfl⟩ := List.mem_map.mp hi
    exact ⟨j, List.mem_range.mp hj, rfl⟩

theorem knownUsizeFrom_sound {input : FactRange} {k v value : Nat} (h : Contains (input.drop k) bits)
    (hvalue : knownUsizeFrom input v (List.range' k bits.length) = some value) :
    value = v + 2 ^ k * bitsValue bits := by
  induction bits generalizing k v with
  | nil =>
    cases hvalue
    simp [bitsValue]
  | cons digit bits ih =>
    have hfirst : (input.bit k).allows digit = true := by
      have hbit := h.bit 0 false
      simpa [FactRange.bit, List.getD] using hbit
    have hrest : Contains (input.drop (k + 1)) bits := by
      rw [← List.drop_drop]
      cases hdrop : input.drop k with
      | nil =>
        rw [hdrop] at h
        cases h
      | cons bit fact =>
        rw [hdrop] at h
        cases h with
        | cons _ hrest => exact hrest
    rw [List.length_cons, List.range'_succ, knownUsizeFrom] at hvalue
    rw [bitsValue]
    cases hbit : input.bit k with
    | zero =>
      rw [hbit, KnownBit.allows_zero] at hfirst
      simp only [hbit] at hvalue
      rw [ih hrest hvalue, hfirst, Bool.toNat_false, pow_succ]
      ring
    | one =>
      rw [hbit, KnownBit.allows_one] at hfirst
      simp only [hbit] at hvalue
      split_ifs at hvalue
      rw [ih hrest hvalue, hfirst, Bool.toNat_true, pow_succ]
      ring
    | unknown => simp [hbit] at hvalue

theorem bitsValue_of_knownUsize (h : fact.Contains bits) {v : Nat} (hvalue : fact.knownUsize = some v) :
    bitsValue bits = v := by
  rw [knownUsize, h.length_eq, List.range_eq_range'] at hvalue
  rw [knownUsizeFrom_sound (k := 0) (by simpa using h) hvalue, pow_zero, Nat.zero_add, one_mul]

end FactRange

end Opto.Word
