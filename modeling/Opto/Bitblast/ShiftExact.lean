import Opto.Bitblast.BarrelExact
import Opto.Bitblast.Shift
import Opto.Word.Semantics

/-!
# Shifts and comparisons are exact

Each stage shifts by its power of two when its amount bit is set, and higher amount bits
shift everything out. The less-than network compares the low bits; where the signs of the
operands differ, the negative one is less.
-/

namespace Opto.Bitblast

open Word Growing TwosComplement

variable {σ ε β : Type} [BitBackend σ ε β] {W : Meaning σ ε β} {s : σ}

/-! Shifted numbers. -/

/-- The number of a word that is shifted: an arithmetic shift of a signed word keeps the sign. -/
def shiftOperand (op : BinaryOp) (signed : Bool) (width : Nat) (z : Int) : Int :=
  wrap (op = .ashr && signed) width z

/-- To the left by a product and to the right by a quotient that is rounded down. -/
def shiftBy (op : BinaryOp) (z : Int) (n : Nat) : Int := if op = .shl then z * 2 ^ n else z / 2 ^ n

theorem shiftBy_zero (op : BinaryOp) (z : Int) : shiftBy op z 0 = z := by
  unfold shiftBy
  split_ifs <;> simp

theorem shiftBy_add (op : BinaryOp) (z : Int) (m n : Nat) :
    shiftBy op z (m + n) = shiftBy op (shiftBy op z m) n := by
  unfold shiftBy
  split_ifs
  · rw [pow_add, mul_assoc]
  · rw [shift_add]

/-- All digits from the width on are the fill. -/
def FilledBy (width : Nat) (z : Int) (fill : Bool) : Prop := ∀ i, width ≤ i → digit z i = fill

theorem FilledBy.shift {width : Nat} {z : Int} {fill : Bool} (h : FilledBy width z fill) (n : Nat) :
    FilledBy width (z / 2 ^ n) fill := by
  intro i hi
  rw [digit_shift]
  exact h (n + i) (by omega)

/-- The digits of a number of the width go on with its fill. -/
theorem wrap_filled {width : Nat} (hpos : 0 < width) (signed : Bool) (z : Int) :
    FilledBy width (wrap signed width z) (signed && digit (wrap signed width z) (width - 1)) := by
  intro i hi
  have hlt := encode_lt width z
  cases signed with
  | true => rw [wrap, digit_signed hlt hpos hi, Bool.true_and, digit_reading_last hlt hpos]
  | false =>
    rw [wrap, read_unsigned, Bool.false_and]
    apply digit_small (Int.natCast_nonneg _)
    have hpow : (2 : Int) ^ width ≤ 2 ^ i := pow_le_pow_right₀ (by decide) hi
    have hcast : ((2 ^ width : Nat) : Int) = 2 ^ width := by simp
    omega
where
  digit_reading_last {x width : Nat} (hx : x < 2 ^ width) (hpos : 0 < width) :
      digit (read true width x) (width - 1) = digit x (width - 1) :=
    digit_congr (read_modEq true width x) (by omega)

/-! Stages. -/

theorem candidate_emits {xs : List β} {z : Int} (h : W.Carries s xs z) {i : Nat} (hi : i < xs.length) :
    W.Emits s (candidate xs i) fun x t => W.Reads t x (digit z i) := by
  have hx := List.getElem?_eq_getElem hi
  rw [candidate_some hx]
  exact Emits.pure (h.read hx)

/-- What moves in from the left. -/
def fillOf (op : BinaryOp) (signed : Bool) (width : Nat) (z : Int) : Bool :=
  (decide (op = .ashr) && signed) && digit z (width - 1)

/-- A number that is shifted to the right goes on with what moves in. -/
def Filled (op : BinaryOp) (signed : Bool) (width : Nat) (z : Int) : Prop :=
  op ≠ .shl → FilledBy width z (fillOf op signed width z)

theorem shiftOperand_filled {width : Nat} (hpos : 0 < width) (op : BinaryOp) (signed : Bool) (z : Int) :
    Filled op signed width (shiftOperand op signed width z) :=
  fun _ => wrap_filled hpos _ z

theorem fillOf_shl (signed : Bool) (width : Nat) (z : Int) : fillOf .shl signed width z = false := rfl

/-- A shift leaves what moves in. -/
theorem Filled.fillOf_shiftBy {op : BinaryOp} {signed : Bool} {width : Nat} {z : Int}
    (h : Filled op signed width z) (hpos : 0 < width) (n : Nat) :
    fillOf op signed width (shiftBy op z n) = fillOf op signed width z := by
  by_cases hop : op = .shl
  · rw [hop, fillOf_shl, fillOf_shl]
  · rw [fillOf, shiftBy, if_neg hop, digit_shift]
    by_cases hn : n = 0
    · rw [hn, Nat.zero_add, fillOf]
    · rw [h hop (n + (width - 1)) (by omega), fillOf, ← Bool.and_assoc, Bool.and_self]

theorem Filled.shiftBy {op : BinaryOp} {signed : Bool} {width : Nat} {z : Int}
    (h : Filled op signed width z) (hpos : 0 < width) (n : Nat) : Filled op signed width (shiftBy op z n) := by
  intro hop
  rw [h.fillOf_shiftBy hpos n, Bitblast.shiftBy, if_neg hop]
  exact (h hop).shift n

theorem shiftFill_emits {op : BinaryOp} {ty : WordType} {current : List β} {zero : β} {z : Int}
    (hcurrent : W.Carries s current z) (hlength : current.length = ty.width) (hzero : W.Reads s zero false) :
    W.Emits s (shiftFill op ty current zero) fun x t => W.Reads t x (fillOf op ty.signed ty.width z) := by
  have hpos := ty.positive
  rw [shiftFill, fillOf]
  split_ifs with hsign
  · rw [hsign, Bool.true_and, ← hlength]
    exact candidate_emits hcurrent (by omega)
  · rw [Bool.eq_false_iff.mpr hsign, Bool.false_and]
    exact Emits.pure hzero

/-- One bit of a stage: what lies the distance away, or what moves in. -/
theorem shiftedBit_emits {op : BinaryOp} (hop : op = .shl ∨ op = .shr ∨ op = .ashr) {signed : Bool} {width : Nat}
    {current : List β} {zero fill : β} {z : Int} (hcurrent : W.Carries s current z) (hlength : current.length = width)
    (hzero : W.Reads s zero false) (hfill : W.Reads s fill (fillOf op signed width z))
    (hfilled : Filled op signed width z) (shift : Nat) {index : Nat} (hindex : index < width) :
    W.Emits s (shiftedBit op width shift current zero fill index) fun x t =>
      W.Reads t x (digit (shiftBy op z shift) index) := by
  have hright (hne : op ≠ .shl) : W.Emits s
      (if index + shift < width then candidate current (index + shift) else pure fill)
      fun x t => W.Reads t x (digit (shiftBy op z shift) index) := by
    rw [shiftBy, if_neg hne, digit_shift, Nat.add_comm shift index]
    split_ifs with hin
    · exact candidate_emits hcurrent (by omega)
    · rw [hfilled hne (index + shift) (by omega)]
      exact Emits.pure hfill
  rcases hop with rfl | rfl | rfl
  · rw [shiftedBit, shiftBy, if_pos rfl, digit_mul_pow]
    by_cases hin : shift ≤ index
    · rw [if_pos hin, if_neg (by omega)]
      exact candidate_emits hcurrent (by omega)
    · rw [if_neg hin, if_pos (by omega)]
      exact Emits.pure hzero
  · exact hright (by decide)
  · exact hright (by decide)

theorem shiftStage_emits {op : BinaryOp} (hop : op = .shl ∨ op = .shr ∨ op = .ashr) {ty : WordType}
    {amount : Operand β} {n : Nat} {zero : β} {current : List β} {z : Int} (hamount : Holds W s amount n)
    (hcurrent : W.Carries s current z) (hlength : current.length = ty.width) (hzero : W.Reads s zero false)
    (hfilled : Filled op ty.signed ty.width z) {stage : Nat} (hstage : stage < amount.ty.width) :
    Returns W s (shiftStage op ty amount zero current stage) ty.width
      (if n.testBit stage then shiftBy op z (2 ^ stage) else z) := by
  unfold shiftStage
  apply Emits.bind (bit_emits hamount hstage)
  intro control t hgrows hcontrol
  rw [digit_testBit] at hcontrol
  apply Emits.bind (shiftFill_emits (hcurrent.mono hgrows) hlength (W.mono hgrows hzero))
  intro fill u hgrows' hfill
  apply mapM_range_carries
  intro index hindex v hlater
  have hfrom := W.trans hgrows (W.trans hgrows' hlater)
  apply Emits.bind (shiftedBit_emits hop (hcurrent.mono hfrom) hlength (W.mono hfrom hzero)
    (W.mono hlater hfill) hfilled (2 ^ stage) hindex)
  intro shifted w hshift hshifted
  apply Emits.bind (candidate_emits (hcurrent.mono (W.trans hfrom hshift)) (hlength.symm ▸ hindex))
  intro kept x hkept hread
  have hcontrol' := W.mono (W.trans hgrows' (W.trans hlater (W.trans hshift hkept))) hcontrol
  apply (W.mux_emits hcontrol' (W.mono hkept hshifted) hread).mono
  intro bit y _ hbit
  split_ifs at hbit ⊢ <;> exact hbit

/-- The stages shift by the amount's low bits. -/
theorem shiftStages_emits {op : BinaryOp} (hop : op = .shl ∨ op = .shr ∨ op = .ashr) {ty : WordType}
    {amount : Operand β} {n : Nat} {zero : β} {current : List β} {z : Int} (hamount : Holds W s amount n)
    (hcurrent : W.Carries s current z) (hlength : current.length = ty.width) (hzero : W.Reads s zero false)
    (hfilled : Filled op ty.signed ty.width z) {stages : Nat} (hstages : stages ≤ amount.ty.width) :
    Returns W s ((List.range stages).foldlM (shiftStage op ty amount zero) current) ty.width
      (shiftBy op z (n % 2 ^ stages)) := by
  have hloop := Emits.foldlM (W := W.toGrowing) (s := s) (f := shiftStage op ty amount zero)
    (l := List.range stages) (b := current) (fun done bits t => bits.length = ty.width ∧
      W.Carries t bits (shiftBy op z (n % 2 ^ done.length)))
    ⟨hlength, by rwa [List.length_nil, pow_zero, Nat.mod_one, shiftBy_zero]⟩ ?_
  · rwa [List.length_range] at hloop
  · intro done stage rest hsplit bits t hgrows ⟨hbits, hcarries⟩
    have hsize := congrArg List.length hsplit
    rw [List.length_append, List.length_cons, List.length_range] at hsize
    have hstage : stage = done.length := by
      have hat := congrArg (·[done.length]?) hsplit
      simpa [List.getElem?_range (show done.length < stages by omega)] using hat
    subst hstage
    have hstep := shiftStage_emits hop (hamount.mono hgrows) hcarries hbits (W.mono hgrows hzero)
      (hfilled.shiftBy ty.positive _) (show done.length < amount.ty.width by omega)
    have hmore : (if n.testBit done.length then shiftBy op (shiftBy op z (n % 2 ^ done.length)) (2 ^ done.length)
        else shiftBy op z (n % 2 ^ done.length)) = shiftBy op z (n % 2 ^ (done.length + 1)) := by
      rw [mod_pow_succ]
      split_ifs
      · rw [shiftBy_add]
      · rw [Nat.add_zero]
    rw [List.length_append, List.length_singleton, ← hmore]
    exact hstep

/-! Shifts. -/

theorem lt_relevantStages (width : Nat) : width ≤ 2 ^ relevantStages width := by
  unfold relevantStages
  split_ifs with hsmall
  · simpa using hsmall
  · have := Nat.lt_size_self (width - 1)
    omega

/-- An amount from the width on leaves what moves in. -/
theorem digit_shifted_out {op : BinaryOp} {signed : Bool} {width : Nat} {z : Int} (hfilled : Filled op signed width z)
    {n index : Nat} (hn : width ≤ n) (hindex : index < width) :
    digit (shiftBy op z n) index = fillOf op signed width z := by
  by_cases hop : op = .shl
  · rw [hop, fillOf_shl, shiftBy, if_pos rfl, digit_mul_pow, if_pos (by omega)]
  · rw [shiftBy, if_neg hop, digit_shift, hfilled hop (n + index) (by omega)]

/-- The amount bits above a stage are not all zero when the amount reaches its distance. -/
theorem high_bits_ne {n stage width : Nat} (hn : n < 2 ^ width) (hle : stage ≤ width) :
    decide ((n : Int) / 2 ^ stage % 2 ^ (width - stage) ≠ 0) = decide (2 ^ stage ≤ n) := by
  have hsplit : 2 ^ width = 2 ^ stage * 2 ^ (width - stage) := by rw [← pow_add, Nat.add_sub_cancel' hle]
  have hquotient : n / 2 ^ stage < 2 ^ (width - stage) := Nat.div_lt_of_lt_mul (hsplit ▸ hn)
  have hcast : (n : Int) / 2 ^ stage % 2 ^ (width - stage) = (n / 2 ^ stage % 2 ^ (width - stage) : Nat) := by
    push_cast
    rfl
  rw [hcast, Nat.mod_eq_of_lt hquotient, decide_eq_decide]
  have hpos : 0 < 2 ^ stage := by positivity
  constructor
  · intro hne
    by_contra hlt
    exact hne (by rw [Nat.div_eq_of_lt (not_le.mp hlt)]; rfl)
  · intro hle'
    have := Nat.div_pos hle' hpos
    omega

/-- The shift lowering returns the shifted word. -/
theorem shiftBits_returns {op : BinaryOp} (hop : op = .shl ∨ op = .shr ∨ op = .ashr) {value amount : Operand β}
    (ty : WordType) {x n : Nat} (hvalue : Holds W s value x) (hamount : Holds W s amount n) :
    Returns W s (shiftBits op value amount ty) ty.width
      (shiftBy op (shiftOperand op ty.signed ty.width (value.reading ty.signed x)) n) := by
  have hpos := ty.positive
  have hfilled := shiftOperand_filled hpos op ty.signed (value.reading ty.signed x)
  generalize hz : shiftOperand op ty.signed ty.width (value.reading ty.signed x) = z at hfilled ⊢
  unfold shiftBits
  apply Emits.bind (resizedBits_emits hvalue ty.width ty.signed)
  intro start t hgrows ⟨hlength, hstart⟩
  have hcurrent : W.Carries t start z := by
    apply hstart.congr
    rw [hlength, ← hz]
    exact wrap_modEq _ _ _
  apply Emits.bind (candidate_emits hcurrent (by omega))
  intro first u hgrows₁ _
  apply Emits.bind (W.constant_emits u false)
  intro zero v hgrows₂ hzero
  have hto := W.trans hgrows₁ hgrows₂
  have hall := W.trans hgrows hto
  rw [amount.sized]
  apply Emits.bind (shiftStages_emits hop (hamount.mono hall) (hcurrent.mono hto) hlength hzero hfilled
    (Nat.min_le_left _ _))
  intro current w hgrows₃ ⟨hsize, hcarries⟩
  have hn := hamount.1
  split_ifs with hmore
  · have hrelevant : min amount.ty.width (relevantStages ty.width) = relevantStages ty.width := by omega
    rw [hrelevant] at hcarries
    have hbits : Returns W w ((List.range' (relevantStages ty.width)
        (amount.ty.width - relevantStages ty.width)).mapM (bit amount))
        (amount.ty.width - relevantStages ty.width) ((n : Int) / 2 ^ relevantStages ty.width) := by
      have hmap := mapM_carries (W := W) (s := w) (f := bit amount)
        (l := List.range' (relevantStages ty.width) (amount.ty.width - relevantStages ty.width))
        (z := (n : Int) / 2 ^ relevantStages ty.width) fun i index hi t' ht' => by
          obtain ⟨hlt, rfl⟩ := List.getElem?_eq_some_iff.mp hi
          rw [List.length_range'] at hlt
          rw [List.getElem_range', Nat.one_mul, digit_shift]
          exact bit_emits (hamount.mono (W.trans hall (W.trans hgrows₃ ht'))) (by omega)
      rwa [List.length_range'] at hmap
    apply Emits.bind hbits
    intro highBits w₁ hgrows₄ ⟨hcount, hhigh⟩
    apply Emits.bind (reduceValues_emits hhigh (by omega))
    intro overflow w₂ hgrows₅ hoverflow
    have hlater := W.trans hgrows₄ hgrows₅
    apply Emits.bind (shiftFill_emits (hcarries.mono hlater) hsize (W.mono (W.trans hgrows₃ hlater) hzero))
    intro fill w₃ hgrows₆ hfill
    rw [hfilled.fillOf_shiftBy hpos] at hfill
    have hoverflows : decide ((n : Int) / 2 ^ relevantStages ty.width % 2 ^ highBits.length ≠ 0) =
        decide (2 ^ relevantStages ty.width ≤ n) := by
      rw [hcount]
      exact high_bits_ne hn hmore.le
    rw [hoverflows] at hoverflow
    rw [← hsize]
    apply mapM_carries
    intro index kept hkept w₄ hgrows₇
    have hread := W.mono (W.trans hlater (W.trans hgrows₆ hgrows₇)) (hcarries.read hkept)
    have hindex : index < ty.width := hsize ▸ (List.getElem?_eq_some_iff.mp hkept).1
    apply (W.mux_emits (W.mono (W.trans hgrows₆ hgrows₇) hoverflow) (W.mono hgrows₇ hfill) hread).mono
    intro out w₅ _ hout
    by_cases hover : 2 ^ relevantStages ty.width ≤ n
    · have hwide := lt_relevantStages ty.width
      rw [decide_eq_true hover, if_pos rfl] at hout
      rwa [digit_shifted_out hfilled (by omega) hindex]
    · rw [decide_eq_false hover, if_neg Bool.false_ne_true, Nat.mod_eq_of_lt (not_le.mp hover)] at hout
      exact hout
  · have hstages : min amount.ty.width (relevantStages ty.width) = amount.ty.width := by omega
    rw [hstages, Nat.mod_eq_of_lt hn] at hcarries
    exact Emits.pure ⟨hsize, hcarries⟩

/-! Comparisons. -/

/-- Numbers of a signed width are ordered by their words unless their signs differ. -/
theorem signed_less {width : Nat} (hpos : 0 < width) {a b : Int} (ha : -(2 ^ width) ≤ 2 * a ∧ 2 * a < 2 ^ width)
    (hb : -(2 ^ width) ≤ 2 * b ∧ 2 * b < 2 ^ width) : decide (a < b) =
      if digit a (width - 1) ^^ digit b (width - 1) then digit a (width - 1)
      else decide (a % 2 ^ width < b % 2 ^ width) := by
  have hdouble := double_pow hpos
  have hsign (z : Int) (hz : -(2 ^ width) ≤ 2 * z ∧ 2 * z < 2 ^ width) :
      digit z (width - 1) = decide (z < 0) ∧ z % 2 ^ width = if z < 0 then z + 2 ^ width else z := by
    by_cases hneg : z < 0
    · have hmod := Int.emod_eq_of_lt (show 0 ≤ z + 2 ^ width by omega) (show z + 2 ^ width < 2 ^ width by omega)
      rw [Int.add_emod_right] at hmod
      rw [decide_eq_true hneg, if_pos hneg, digit_negative (by omega) hneg]
      exact ⟨rfl, hmod⟩
    · rw [decide_eq_false hneg, if_neg hneg, digit_small (by omega) (by omega)]
      exact ⟨rfl, Int.emod_eq_of_lt (by omega) (by omega)⟩
  obtain ⟨ha₁, ha₂⟩ := hsign a ha
  obtain ⟨hb₁, hb₂⟩ := hsign b hb
  rw [ha₁, hb₁, ha₂, hb₂]
  by_cases hna : a < 0 <;> by_cases hnb : b < 0 <;> simp [hna, hnb] <;> omega

/-- A reading fits every width from its own on. -/
theorem reading_range {value : Operand β} {x width : Nat} (hx : x < 2 ^ value.ty.width)
    (hle : value.ty.width ≤ width) (signExtend : Bool) (hsigned : signExtend = true → value.ty.signed = true) :
    if signExtend = true
    then -(2 ^ width) ≤ 2 * value.reading signExtend x ∧ 2 * value.reading signExtend x < 2 ^ width
    else 0 ≤ value.reading signExtend x ∧ value.reading signExtend x < 2 ^ width := by
  have hpow : (2 : Int) ^ value.ty.width ≤ 2 ^ width := pow_le_pow_right₀ (by decide) hle
  have hcast : ((2 ^ value.ty.width : Nat) : Int) = 2 ^ value.ty.width := by simp
  split_ifs with hextend
  · have hbounds := read_bounds hx
    rw [Operand.reading, hextend, hsigned hextend, Bool.and_self]
    omega
  · rw [Operand.reading, Bool.eq_false_iff.mpr hextend, Bool.false_and, read_unsigned]
    omega

/-- Both operands, resized to the wider one. -/
theorem comparedBits_emits {left right : Operand β} {x y : Nat} (hleft : Holds W s left x)
    (hright : Holds W s right y) (width : Nat) (signExtend : Bool) :
    W.Emits s ((List.range width).mapM fun index => do
      let l ← resizedBit left index signExtend
      let r ← resizedBit right index signExtend
      return (l, r)) fun pairs t =>
        (pairs.map (·.1)).length = width ∧ W.Carries t (pairs.map (·.1)) (left.reading signExtend x) ∧
          (pairs.map (·.2)).length = width ∧ W.Carries t (pairs.map (·.2)) (right.reading signExtend y) := by
  have hall := Emits.mapM (W := W.toGrowing) (s := s) (l := List.range width)
    (f := fun index => do
      let l ← resizedBit left index signExtend
      let r ← resizedBit right index signExtend
      return (l, r))
    (P := fun i pair t => W.Reads t pair.1 (digit (left.reading signExtend x) i) ∧
      W.Reads t pair.2 (digit (right.reading signExtend y) i))
    (fun _ _ _ _ hgrows h => ⟨W.mono hgrows h.1, W.mono hgrows h.2⟩) fun i index hindex t hgrows => by
      obtain ⟨hlt, rfl⟩ := List.getElem?_eq_some_iff.mp hindex
      rw [List.getElem_range]
      apply Emits.bind (resizedBit_emits (hleft.mono hgrows) i signExtend)
      intro l u hgrows' hl
      apply Emits.bind (resizedBit_emits (hright.mono (W.trans hgrows hgrows')) i signExtend)
      intro r v hgrows'' hr
      exact Emits.pure ⟨W.mono hgrows'' hl, hr⟩
  apply hall.mono
  intro pairs t _ ⟨hlength, hreads⟩
  rw [List.length_range] at hlength
  refine ⟨by rw [List.length_map, hlength], carries_iff.mpr ?_, by rw [List.length_map, hlength], carries_iff.mpr ?_⟩
  · intro i b hb
    rw [List.getElem?_map] at hb
    obtain ⟨pair, hpair, rfl⟩ := Option.map_eq_some_iff.mp hb
    exact (hreads i pair hpair).1
  · intro i b hb
    rw [List.getElem?_map] at hb
    obtain ⟨pair, hpair, rfl⟩ := Option.map_eq_some_iff.mp hb
    exact (hreads i pair hpair).2

theorem signedLess_emits {left right : List β} {a b : Int} {width : Nat} (hpos : 0 < width) (ha : W.Carries s left a)
    (hb : W.Carries s right b) (hleft : left.length = width) (hright : right.length = width) (signed : Bool)
    (harange : if signed = true then -(2 ^ width) ≤ 2 * a ∧ 2 * a < 2 ^ width else 0 ≤ a ∧ a < 2 ^ width)
    (hbrange : if signed = true then -(2 ^ width) ≤ 2 * b ∧ 2 * b < 2 ^ width else 0 ≤ b ∧ b < 2 ^ width) :
    W.Emits s (signedLess signed width left right) fun x t => W.Reads t x (decide (a < b)) := by
  unfold signedLess
  apply Emits.bind (unsignedLess_emits ha hb (hleft.trans hright.symm) (hleft.symm ▸ hpos))
  intro less t hgrows hless
  rw [hleft] at hless
  split_ifs at harange hbrange ⊢ with hsigned
  · apply Emits.bind (candidate_emits (ha.mono hgrows) (show width - 1 < left.length by omega))
    intro leftSign u hgrows₁ hl
    apply Emits.bind (candidate_emits (hb.mono (W.trans hgrows hgrows₁)) (show width - 1 < right.length by omega))
    intro rightSign v hgrows₂ hr
    apply Emits.bind (W.xor_emits (W.mono hgrows₂ hl) hr)
    intro differ w hgrows₃ hdiffer
    have hlater := W.trans hgrows₂ hgrows₃
    apply (W.mux_emits hdiffer (W.mono hlater hl) (W.mono (W.trans hgrows₁ hlater) hless)).mono
    intro out w' _ hout
    rwa [signed_less hpos harange hbrange]
  · rw [Int.emod_eq_of_lt harange.1 harange.2, Int.emod_eq_of_lt hbrange.1 hbrange.2] at hless
    exact Emits.pure hless

/-- The comparison lowering returns one bit, the order of the operands. -/
theorem compareBits_returns {op : BinaryOp} (hop : op = .lt ∨ op = .le ∨ op = .gt ∨ op = .ge)
    {left right : Operand β} {x y : Nat} (hleft : Holds W s left x) (hright : Holds W s right y) :
    Returns W s (compareBits op left right) 1
      (op.compares (left.reading (left.ty.signed && right.ty.signed) x)
        (right.reading (left.ty.signed && right.ty.signed) y)).toNat := by
  have hpos : 0 < max left.ty.width right.ty.width := left.ty.positive.trans_le (le_max_left _ _)
  have hreading (value : Operand β) (z : Nat) (hsigned : (left.ty.signed && right.ty.signed) = true →
      value.ty.signed = true) (hz : z < 2 ^ value.ty.width) (hle : value.ty.width ≤ max left.ty.width right.ty.width) :=
    reading_range hz hle _ hsigned
  have hl := hreading left x (fun h => (Bool.and_eq_true _ _ ▸ h).1) hleft.1 (le_max_left _ _)
  have hr := hreading right y (fun h => (Bool.and_eq_true _ _ ▸ h).2) hright.1 (le_max_right _ _)
  generalize hsigned : (left.ty.signed && right.ty.signed) = signed at *
  unfold compareBits
  rw [hsigned]
  apply Emits.bind (comparedBits_emits hleft hright (max left.ty.width right.ty.width) signed)
  intro pairs t hgrows ⟨hlengthL, hcarriesL, hlengthR, hcarriesR⟩
  generalize left.reading signed x = a at *
  generalize right.reading signed y = b at *
  have hless := signedLess_emits hpos hcarriesL hcarriesR hlengthL hlengthR signed hl hr
  have hmore := signedLess_emits hpos hcarriesR hcarriesL hlengthR hlengthL signed hr hl
  have hone (m : BlastM σ ε β) (c : Bool) (hm : W.Emits t m fun r u => W.Reads u r c) :
      Returns W t (do let r ← m; return [r]) 1 c.toNat := by
    apply Emits.bind hm
    intro r u _ hr
    exact Emits.pure ⟨rfl, by rwa [odd_cast], trivial⟩
  have hnot (m : BlastM σ ε β) (c : Bool) (hm : W.Emits t m fun r u => W.Reads u r c) :
      Returns W t (do let r ← m; let n ← emitUnary .bitNot r; return [n]) 1 (!c).toNat := by
    apply Emits.bind hm
    intro r u _ hr
    apply Emits.bind (W.not_emits hr)
    intro n v _ hn
    exact Emits.pure ⟨rfl, by rwa [odd_cast], trivial⟩
  rcases hop with rfl | rfl | rfl | rfl
  · exact hone _ _ hless
  · have hle : BinaryOp.compares .le a b = !decide (b < a) := by
      simp only [BinaryOp.compares, ← decide_not, not_lt]
    rw [hle]
    exact hnot _ _ hmore
  · exact hone _ _ hmore
  · have hle : BinaryOp.compares .ge a b = !decide (a < b) := by
      simp only [BinaryOp.compares, ← decide_not, not_lt]
    rw [hle]
    exact hnot _ _ hless

/-! What the operations compute. -/

/-- A list that carries the low digits of an integer carries the number of those digits. -/
theorem Returns.ofDigits {m : BlastM σ ε (List β)} {width : Nat} {z : Int} {bits : Bits} (h : Returns W s m width z)
    (hbits : digits z width = bits) : Returns W s m width (bitsValue bits) := by
  apply h.mono
  intro r t _ ⟨hlength, hcarries⟩
  refine ⟨hlength, hcarries.congr ?_⟩
  rw [hlength, ← hbits, modEq_iff_digits]
  intro i hi
  rw [Bits.digit_bitsValue, digits, List.getD_eq_getElem?_getD, List.getElem?_map, List.getElem?_range hi]
  rfl

theorem getD_digits (z : Int) (b : Bool) {width i : Nat} (hi : i < width) : (digits z width).getD i b = digit z i := by
  rw [digits, List.getD_eq_getElem?_getD, List.getElem?_map, List.getElem?_range hi]
  rfl

theorem sign_digits (z : Int) {width : Nat} (hpos : 0 < width) : Bits.sign (digits z width) = digit z (width - 1) := by
  have hlast : (digits z width).getLast? = some (digit z (width - 1)) := by
    rw [List.getLast?_eq_getElem?, length_digits, digits, List.getElem?_map, List.getElem?_range (by omega)]
    rfl
  rw [Bits.sign, List.getLastD_eq_getLast?, hlast]
  rfl

/-- The shifted number has the bits that the operation computes. -/
theorem shift_denotes {op : BinaryOp} (hop : op = .shl ∨ op = .shr ∨ op = .ashr) (leftTy rightTy : WordType)
    (state : LogicStateKind) {x n : Nat} (hn : n < 2 ^ rightTy.width) :
    digits (shiftBy op (shiftOperand op leftTy.signed leftTy.width (read leftTy.signed leftTy.width x)) n)
      leftTy.width = op.denote leftTy rightTy { leftTy with state } (digits x leftTy.width) (digits n rightTy.width) := by
  have hpos := leftTy.positive
  have hamount : bitsValue (digits n rightTy.width) = n := by rw [bitsValue_digits, Nat.mod_eq_of_lt hn]
  have hfilled := shiftOperand_filled hpos op leftTy.signed (read leftTy.signed leftTy.width x)
  have hsame (i : Nat) (hi : i < leftTy.width) :
      digit (shiftOperand op leftTy.signed leftTy.width (read leftTy.signed leftTy.width x)) i = digit x i := by
    rw [shiftOperand, ← digit_congr (wrap_modEq _ _ _) hi, digit_congr (read_modEq _ _ x) hi]
  generalize shiftOperand op leftTy.signed leftTy.width (read leftTy.signed leftTy.width x) = z at *
  have hright (hne : op ≠ .shl) (i : Nat) (hi : i < leftTy.width) : digit (shiftBy op z n) i =
      (digits x leftTy.width).getD (i + n) (fillOf op leftTy.signed leftTy.width z) := by
    rw [shiftBy, if_neg hne, digit_shift, Nat.add_comm n i]
    by_cases hin : i + n < leftTy.width
    · rw [getD_digits x _ hin, hsame _ hin]
    · rw [List.getD_eq_default _ _ (by rw [length_digits]; omega), hfilled hne _ (by omega)]
  have hlast : fillOf op leftTy.signed leftTy.width z =
      (decide (op = .ashr) && leftTy.signed && Bits.sign (digits x leftTy.width)) := by
    rw [fillOf, hsame _ (by omega), sign_digits x hpos]
  rcases hop with rfl | rfl | rfl
  · simp only [BinaryOp.denote, hamount]
    apply List.map_congr_left
    intro i hi
    rw [List.mem_range] at hi
    rw [shiftBy, if_pos rfl, digit_mul_pow]
    split_ifs
    · rfl
    · rw [hsame _ (by omega), getD_digits x _ (by omega)]
  · simp only [BinaryOp.denote, hamount]
    apply List.map_congr_left
    intro i hi
    rw [hright (by decide) i (List.mem_range.mp hi), hlast]
    rfl
  · simp only [BinaryOp.denote, hamount]
    apply List.map_congr_left
    intro i hi
    rw [hright (by decide) i (List.mem_range.mp hi), hlast]
    rfl

/-- On every backend, shifts and comparisons of operands of any types return what the
operations compute. -/
theorem shifts_and_comparisons_exact (W : Meaning σ ε β) (s : σ) {left right : Operand β} {x y : Nat}
    (hleft : Holds W s left x) (hright : Holds W s right y) :
    (∀ op, op = .shl ∨ op = .shr ∨ op = .ashr → ∀ state, Returns W s (shiftBits op left right { left.ty with state })
      left.ty.width (bitsValue (op.denote left.ty right.ty { left.ty with state } (digits x left.ty.width)
        (digits y right.ty.width)))) ∧
    ∀ op, op = .lt ∨ op = .le ∨ op = .gt ∨ op = .ge → ∀ ty, Returns W s (compareBits op left right) 1
      (bitsValue (op.denote left.ty right.ty ty (digits x left.ty.width) (digits y right.ty.width))) := by
  constructor
  · intro op hop state
    have hshift := shiftBits_returns hop { left.ty with state } hleft hright
    have hreading : left.reading left.ty.signed x = read left.ty.signed left.ty.width x := by
      rw [Operand.reading, Bool.and_self]
    rw [hreading] at hshift
    exact hshift.ofDigits (shift_denotes hop left.ty right.ty state hright.1)
  · intro op hop ty
    have hcompare := compareBits_returns hop hleft hright
    have hnumber (value : Operand β) (z : Nat) (hz : z < 2 ^ value.ty.width) (signed : Bool)
        (hsigned : signed = true → value.ty.signed = true) :
        Bits.number signed (digits z value.ty.width) = value.reading signed z := by
      rw [Bits.number, length_digits, bitsValue_digits, Nat.mod_eq_of_lt hz, Operand.reading]
      cases signed with
      | false => rfl
      | true => rw [hsigned rfl]; rfl
    have hl := hnumber left x hleft.1 (left.ty.signed && right.ty.signed) fun h => (Bool.and_eq_true _ _ ▸ h).1
    have hr := hnumber right y hright.1 (left.ty.signed && right.ty.signed) fun h => (Bool.and_eq_true _ _ ▸ h).2
    have hdenote : op.denote left.ty right.ty ty (digits x left.ty.width) (digits y right.ty.width) =
        [op.compares (left.reading (left.ty.signed && right.ty.signed) x)
          (right.reading (left.ty.signed && right.ty.signed) y)] := by
      rw [← hl, ← hr]
      rcases hop with rfl | rfl | rfl | rfl <;> rfl
    rw [hdenote]
    have hone (b : Bool) : bitsValue [b] = b.toNat := by cases b <;> rfl
    rwa [hone]

open AxmBackend Logic in
/-- Minus three, shifted to the right by as many bits as it has, leaves its sign, and it is
less than minus one. -/
theorem minusThree_shifted :
    Returns (meaning fun _ => false) LogicBuilder.new
      (shiftBits .ashr (constantOperand ⟨3, true, .twoState, by decide⟩ 5)
        (constantOperand ⟨2, false, .twoState, by decide⟩ 3) ⟨3, true, .twoState, by decide⟩) 3 7 ∧
    Returns (meaning fun _ => false) LogicBuilder.new
      (compareBits .lt (constantOperand ⟨3, true, .twoState, by decide⟩ 5)
        (constantOperand ⟨2, true, .twoState, by decide⟩ 3)) 1 1 := by
  have hleft := constantOperand_holds (fun _ => false) inv_new ⟨3, true, .twoState, by decide⟩ (show 5 < 2 ^ 3 by decide)
  have hright (signed : Bool) := constantOperand_holds (fun _ => false) inv_new ⟨2, signed, .twoState, by decide⟩
    (show 3 < 2 ^ 2 by decide)
  exact ⟨(shifts_and_comparisons_exact _ _ hleft (hright false)).1 .ashr (.inr (.inr rfl)) .twoState,
    (shifts_and_comparisons_exact _ _ hleft (hright true)).2 .lt (.inl rfl) ⟨1, false, .twoState, by decide⟩⟩

end Opto.Bitblast
