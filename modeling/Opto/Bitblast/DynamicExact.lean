import Opto.Bitblast.OneHotExact
import Opto.Library.Words

/-!
# When the dynamic extract lowerings agree

Both lowerings of a dynamic extract return what the operation computes, with three
exceptions: the barrel has no stage for the 65th bit of an offset, the one-hot lowering
needs a tap that the fixed bits of the offset allow, and an offset that leaves the word only
beyond the bits that are implemented is not seen to be out of range.
-/

namespace Opto.Bitblast

open Word Growing Planning

/-! Backends that compute the bits. -/

/-- A bit with its value, and whether the lowering may look at it. -/
structure EvaluatedBit where
  value : Bool
  known : Bool

namespace EvaluatedBit

def join (f : Bool → Bool → Bool) (left right : EvaluatedBit) : EvaluatedBit :=
  ⟨f left.value right.value, left.known && right.known⟩

instance : BitBackend Unit Empty EvaluatedBit where
  constant value := pure ⟨value, true⟩
  unsignedBit bit := pure bit
  emitUnary op arg := match op with
    | .bitNot | .logicalNot => pure ⟨!arg.value, arg.known⟩
    | .reductionAnd | .reductionOr | .reductionXor => pure arg
  emitBinary op left right := match op with
    | .bitAnd | .logicalAnd => pure (join and left right)
    | .bitOr | .logicalOr => pure (join or left right)
    | .bitXor | .ne => pure (join xor left right)
    | _ => throw (.invariant "non-Boolean operation reached scalar emission")
  emitMux cond thenValue elseValue :=
    pure ⟨if cond.value then thenValue.value else elseValue.value, false⟩
  scalarConstant _ bit := if bit.known then some bit.value else none
  structuralLevel _ _ := none

def growing : Growing Unit (SynthError Empty) EvaluatedBit where
  Good _ := True
  Grows _ _ := True
  Reads _ bit value := bit.value = value
  Refuses _ := False
  refl _ := trivial
  trans _ _ := trivial
  good _ := trivial
  mono _ h := h
  unique h h' := h.symm.trans h'

def meaning : Meaning Unit Empty EvaluatedBit where
  toGrowing := growing
  refuses_backend h := h.elim
  constant_emits _ _ := Emits.pure rfl
  unsigned_emits h := Emits.pure h
  not_emits h := Emits.pure (congrArg (!·) h)
  and_emits hx hy := Emits.pure (congrArg₂ and hx hy)
  or_emits hx hy := Emits.pure (congrArg₂ or hx hy)
  xor_emits hx hy := Emits.pure (congrArg₂ xor hx hy)
  mux_emits {s c x y a b d} hc hx hy := by
    have hc' : c.value = a := hc
    have hx' : x.value = b := hx
    have hy' : y.value = d := hy
    have hvalue : (if c.value then x.value else y.value) = if a then b else d := by rw [hc', hx', hy']
    exact Emits.pure hvalue
  constant_reads {s x a b} h hb := by
    have hvalue : x.value = a := h
    simp only [BitBackend.scalarConstant] at hb
    split_ifs at hb
    exact hvalue.symm.trans (Option.some.inj hb)
  constant_known _ _ := Emits.pure rfl
  known_mono _ h := h

end EvaluatedBit

/-! Statement. -/

/-- What a dynamic extract of `resultWidth` bits gives: the bits from the offset on, and zero
when they would leave the word. -/
def extractReference (x n sourceWidth resultWidth : Nat) : Nat :=
  if n ≤ sourceWidth - resultWidth then x / 2 ^ n % 2 ^ resultWidth else 0

/-- What the catalog records for an extract from a source of this width. The maximum comes from
the range of the offset, whose bounds fit its type. -/
structure Recorded (operator : SemanticOperator) (extract : DynamicExtractOperator)
    (sourceWidth offsetWidth : Nat) : Prop where
  recorded : operator.dynamicExtract = some extract
  created : ∃ maximum alignment, extract = .new maximum (sourceWidth - operator.semanticWidth)
    alignment offsetWidth
  maximum_lt : extract.maximumOffset < 2 ^ offsetWidth
  implemented : 0 < operator.implementationWidth
  implementation_le : operator.implementationWidth ≤ operator.semanticWidth
  semantic_le : operator.semanticWidth ≤ sourceWidth
  source_le : sourceWidth ≤ Mapped.U32_MAX

/-- A number agrees with the fixed bits of an offset. -/
def FixedBits (constants : List (Option Bool)) (n : Nat) : Prop :=
  ∀ (index : Nat) (b : Bool), constants[index]? = some (some b) → n.testBit index = b

instance (constants : List (Option Bool)) (n : Nat) : Decidable (FixedBits constants n) :=
  decidable_of_iff (∀ index < constants.length, ∀ b, constants[index]? = some (some b) →
    n.testBit index = b)
    ⟨fun h index b hb => h index (List.getElem?_eq_some_iff.mp hb).1 b hb, fun h index _ => h index⟩

/-- An offset with these fixed bits takes the value, which respects the recorded facts. -/
structure OffsetFacts (extract : DynamicExtractOperator) (constants : List (Option Bool)) (n : Nat) :
    Prop where
  nonempty : constants ≠ []
  bounded : n < 2 ^ constants.length
  fixed : FixedBits constants n
  le_maximum : n ≤ extract.maximumOffset
  aligned : 2 ^ extract.alignment ∣ n

/-- On every backend and for every source word, the lowering returns the implemented bits of
what the operation computes at the offset, and fails only as the backend does. -/
def LowersExtract (operator : SemanticOperator) (sourceWidth : Nat) (constants : List (Option Bool))
    (n : Nat) (oneHot : Bool) : Prop :=
  ∀ (σ ε β : Type) [BitBackend σ ε β] (W : Meaning σ ε β) (s : σ) (value offset : Operand β) (x : Nat),
    Holds W s value x → value.ty.width = sourceWidth → Holds W s offset n →
    offset.bits.map (BitBackend.scalarConstant s) = constants →
      Returns W s (lowerDynamicExtractArchitecture operator oneHot value offset)
        operator.implementationWidth (extractReference x n sourceWidth operator.semanticWidth)

theorem take_drop_digits (z : Int) {n width length : Nat} (h : n + width ≤ length) :
    ((digits z length).drop n).take width = digits (z / 2 ^ n) width := by
  obtain ⟨rest, rfl⟩ := Nat.exists_eq_add_of_le h
  rw [Nat.add_assoc, digits_add, List.drop_left' (length_digits z n), digits_add,
    List.take_left' (length_digits _ width)]

theorem extractReference_extractAt (bits : Bits) (n resultWidth : Nat)
    (hwidth : resultWidth ≤ List.length bits) :
    bitsValue (Bits.extractAt bits n resultWidth) =
      extractReference (bitsValue bits) n (List.length bits) resultWidth := by
  rw [Bits.extractAt, extractReference]
  by_cases hin : n ≤ List.length bits - resultWidth
  · have hfit : n + resultWidth ≤ List.length bits := by omega
    rw [if_pos hfit, if_pos hin]
    conv_lhs => rw [← digits_bitsValue bits, take_drop_digits _ hfit]
    have hquotient : ((bitsValue bits : Nat) : Int) / 2 ^ n = ((bitsValue bits / 2 ^ n : Nat) : Int) := by
      push_cast
      rfl
    rw [hquotient, bitsValue_digits]
  · rw [if_neg (by omega), if_neg hin, ← digits_zero]
    have hzero := bitsValue_digits 0 resultWidth
    rwa [Nat.zero_mod] at hzero

section

variable {operator : SemanticOperator} {extract : DynamicExtractOperator}
variable {sourceWidth offsetWidth : Nat} {constants : List (Option Bool)} {n : Nat}
variable {σ ε β γ : Type} [BitBackend σ ε β] {W : Meaning σ ε β} {s : σ}

theorem Recorded.selectionMax (h : Recorded operator extract sourceWidth offsetWidth) :
    extract.selectionMax = min extract.maximumOffset (sourceWidth - operator.semanticWidth) := by
  obtain ⟨maximum, alignment, rfl⟩ := h.created
  rfl

theorem offsetBitConstant_eq {offset : Operand β}
    (h : offset.bits.map (BitBackend.scalarConstant s) = constants) (index : Nat) :
    offsetBitConstant s offset index = constants[index]?.join := by
  rw [← h, List.getElem?_map, offsetBitConstant]
  cases offset.bits[index]? <;> rfl

/-- An offset leaves the word, but not by the bits that are implemented. -/
def InGap (operator : SemanticOperator) (sourceWidth n : Nat) : Prop :=
  sourceWidth - operator.semanticWidth < n ∧ n ≤ sourceWidth - operator.implementationWidth

instance (operator : SemanticOperator) (sourceWidth n : Nat) : Decidable (InGap operator sourceWidth n) :=
  inferInstanceAs (Decidable (_ ∧ _))

/-- A tap that the lowering may enumerate. -/
def IsTap (extract : DynamicExtractOperator) (constants : List (Option Bool)) (tap : Nat) : Prop :=
  tap ≤ extract.selectionMax ∧ 2 ^ extract.alignment ∣ tap ∧ FixedBits constants tap

theorem OffsetFacts.isTap (h : OffsetFacts extract constants n) (hn : n ≤ extract.selectionMax) :
    IsTap extract constants n := ⟨hn, h.aligned, h.fixed⟩

/-! Both lowerings compute the reference. -/

theorem extractReference_congr (x : Nat) (hle : operator.implementationWidth ≤ operator.semanticWidth)
    (hin : n ≤ sourceWidth - operator.semanticWidth) :
    (x : Int) / 2 ^ n ≡ extractReference x n sourceWidth operator.semanticWidth
      [ZMOD 2 ^ operator.implementationWidth] := by
  rw [extractReference, if_pos hin]
  push_cast
  have hmod := (Int.mod_modEq ((x : Int) / 2 ^ n) (2 ^ operator.semanticWidth)).symm
  exact hmod.of_dvd (pow_dvd_pow 2 hle)

/-- What passes the range check is the reference. -/
theorem Recorded.reference (h : Recorded operator extract sourceWidth offsetWidth)
    (hgap : ¬InGap operator sourceWidth n) {m : BlastM σ ε (List β)} {x : Nat} {z : Int}
    (hz : n ≤ sourceWidth - operator.semanticWidth → z = (x : Int) / 2 ^ n)
    (hm : Returns W s m operator.implementationWidth
      (if sourceWidth - operator.implementationWidth < n then 0 else z)) :
    Returns W s m operator.implementationWidth
      (extractReference x n sourceWidth operator.semanticWidth) := by
  have hle := h.implementation_le
  apply hm.mono
  intro r t _ ⟨hlength, hcarries⟩
  refine ⟨hlength, ?_⟩
  by_cases hin : n ≤ sourceWidth - operator.semanticWidth
  · rw [if_neg (by omega), hz hin] at hcarries
    apply hcarries.congr
    rw [hlength]
    exact extractReference_congr x hle hin
  · have hout : sourceWidth - operator.implementationWidth < n :=
      Nat.not_le.mp fun hnot => hgap ⟨Nat.not_le.mp hin, hnot⟩
    rw [if_pos hout] at hcarries
    rwa [extractReference, if_neg hin]

theorem barrel_lowers (h : Recorded operator extract sourceWidth constants.length)
    (hfacts : OffsetFacts extract constants n) (hwidth : constants.length ≤ 64)
    (hgap : ¬InGap operator sourceWidth n) :
    LowersExtract operator sourceWidth constants n false := by
  intro σ ε β _ W s value offset x hvalue hsource hoffset hconstants
  have hlength : offset.ty.width = constants.length := by
    rw [← hconstants, List.length_map, offset.sized]
  have hsourceMax := h.source_le
  have hsemantic := h.semantic_le
  have himplementation := h.implementation_le
  have hreturns := barrel_returns h.recorded hvalue hoffset (by omega)
    (by rw [hsource]; exact Nat.lt_succ_of_le hsourceMax) (hlength ▸ h.maximum_lt) hfacts.le_maximum
    (by omega) rfl
  rw [hsource] at hreturns
  apply h.reference hgap (z := (x : Int) / 2 ^ selected n (stagesOf (offsetBitConstant s offset)
    extract.selectionMax (List.range offset.ty.width)))
  · intro hin
    have hselection := h.selectionMax
    have hmaximum := hfacts.le_maximum
    rw [selected_eq _ (by omega) _, Nat.mod_eq_of_lt hoffset.1]
  · rw [← ite_not]
    simpa only [Nat.not_lt] using hreturns

theorem supportsOneHot_facts (h : Recorded operator extract sourceWidth offsetWidth) {width : Nat}
    (hsupports : extract.supportsOneHot width = true) :
    extract.selectionMax < ONE_HOT_EXTRACT_MAX_OFFSET ∧ min extract.alignment 127 = extract.alignment := by
  obtain ⟨maximum, alignment, rfl⟩ := h.created
  simp only [DynamicExtractOperator.supportsOneHot, Bool.and_eq_true, decide_eq_true_eq] at hsupports
  obtain ⟨⟨⟨_, hbound⟩, hleast, _⟩, _⟩ := hsupports
  refine ⟨hbound, ?_⟩
  simp only [DynamicExtractOperator.new, ONE_HOT_EXTRACT_MAX_OFFSET, ONE_HOT_EXTRACT_MIN_TAPS] at *
  by_contra hlarge
  have hmin : min alignment 127 = 127 := by omega
  rw [hmin, Nat.div_eq_of_lt (Nat.lt_of_lt_of_le hbound (by decide))] at hleast
  exact absurd hleast (by decide)

theorem fixedBits_iff {offset : Operand β} {v : Nat}
    (hconstants : offset.bits.map (BitBackend.scalarConstant s) = constants) :
    (∀ index < offset.ty.width, ∀ b, offsetBitConstant s offset index = some b → v.testBit index = b) ↔
      FixedBits constants v := by
  have hlength : offset.ty.width = constants.length := by
    rw [← hconstants, List.length_map, offset.sized]
  simp only [offsetBitConstant_eq hconstants, Option.join_eq_some_iff, hlength]
  constructor
  · exact fun h index b hb => h index (List.getElem?_eq_some_iff.mp hb).1 b hb
  · exact fun h index _ b hb => h index b hb

theorem mem_taps_iff (h : Recorded operator extract sourceWidth offsetWidth) {width : Nat}
    (hsupports : extract.supportsOneHot width = true) {offset : Operand β}
    (hconstants : offset.bits.map (BitBackend.scalarConstant s) = constants) (tap : Nat) :
    tap ∈ tapsOf (offsetBitConstant s offset) offset.ty.width extract.selectionMax extract.alignment ↔
      IsTap extract constants tap := by
  obtain ⟨hbound, halignment⟩ := supportsOneHot_facts h hsupports
  have hsmall : extract.selectionMax < 2 ^ 128 := Nat.lt_of_lt_of_le hbound (by decide)
  rw [mem_tapsOf hsmall, halignment, fixedBits_iff hconstants, IsTap]

theorem taps_enumerated (h : Recorded operator extract sourceWidth constants.length) {width : Nat}
    (hsupports : extract.supportsOneHot width = true) {offset : Operand β}
    (hconstants : offset.bits.map (BitBackend.scalarConstant s) = constants) :
    Enumerated (offsetBitConstant s offset) offset.ty.width extract.alignment
      (tapsOf (offsetBitConstant s offset) offset.ty.width extract.selectionMax extract.alignment) := by
  have hmem := mem_taps_iff h hsupports hconstants
  have hlength : offset.ty.width = constants.length := by
    rw [← hconstants, List.length_map, offset.sized]
  have hbound := (supportsOneHot_facts h hsupports).1
  have hselection := h.selectionMax
  have hmaximum := h.maximum_lt
  constructor
  · exact tapsOf_nodup
  · intro tap htap
    exact Nat.lt_of_le_of_lt ((hmem tap).mp htap).1 (Nat.lt_of_lt_of_le hbound (by decide))
  · intro tap htap
    obtain ⟨hle, haligned, hfixed⟩ := (hmem tap).mp htap
    refine ⟨?_, haligned, (fixedBits_iff hconstants).mpr hfixed⟩
    rw [hlength]
    omega

theorem oneHot_lowers (h : Recorded operator extract sourceWidth constants.length)
    (hfacts : OffsetFacts extract constants n)
    (hsupports : extract.supportsOneHot operator.implementationWidth = true)
    (htap : ∃ tap, IsTap extract constants tap) (hgap : ¬InGap operator sourceWidth n) :
    LowersExtract operator sourceWidth constants n true := by
  intro σ ε β _ W s value offset x hvalue hsource hoffset hconstants
  have hlength : offset.ty.width = constants.length := by
    rw [← hconstants, List.length_map, offset.sized]
  have hsourceMax := h.source_le
  have hsemantic := h.semantic_le
  have himplementation := h.implementation_le
  have hselection := h.selectionMax
  have hmaximum := h.maximum_lt
  have hn := hfacts.le_maximum
  have hmem := mem_taps_iff h hsupports hconstants
  have htaps := taps_enumerated h hsupports hconstants
  have hfit : ∀ tap ∈ tapsOf (offsetBitConstant s offset) offset.ty.width extract.selectionMax
      extract.alignment, tap + operator.implementationWidth ≤ value.ty.width := by
    intro tap hin
    have hle := ((hmem tap).mp hin).1
    omega
  have hselected : n ≤ sourceWidth - operator.semanticWidth → n ∈ tapsOf (offsetBitConstant s offset)
      offset.ty.width extract.selectionMax extract.alignment :=
    fun hin => (hmem n).mpr (hfacts.isTap (by omega))
  unfold lowerDynamicExtractArchitecture
  simp only [h.recorded, value.sized, hsource, Nat.not_lt.mpr (Nat.le_trans himplementation hsemantic),
    if_false, if_true]
  apply Emits.bind (dynamicExtractTaps_emits extract.alignment (supportsOneHot_facts h hsupports).1)
  intro taps t hgrows ⟨ht, htapsEq⟩
  subst ht htapsEq
  generalize htapsOf : tapsOf (offsetBitConstant t offset) offset.ty.width extract.selectionMax
    extract.alignment = taps at *
  have hbits : ∃ z : Int, (n ≤ sourceWidth - operator.semanticWidth → z = (x : Int) / 2 ^ n) ∧
      Returns W t (oneHotDynamicExtractBits value offset taps extract.alignment
        operator.implementationWidth) operator.implementationWidth z := by
    match taps with
    | [] =>
      obtain ⟨tap, htap⟩ := htap
      exact absurd ((hmem tap).mpr htap) List.not_mem_nil
    | [tap] =>
      refine ⟨(x : Int) / 2 ^ tap, fun hin => ?_, oneHotSingle_returns hvalue (by omega)
        (hfit tap (List.mem_singleton_self _))⟩
      rw [List.mem_singleton.mp (hselected hin)]
    | first :: second :: rest =>
      refine ⟨_, fun hin => ?_, oneHotMany_returns hvalue hoffset hfacts.aligned (by omega) hfit htaps
        (by simp)⟩
      rw [if_pos (hselected hin)]
  obtain ⟨z, hz, hreturns⟩ := hbits
  apply h.reference hgap hz
  apply Emits.bind hreturns
  intro result u hlater ⟨hsize, hresult⟩
  have hguard := rangeGuard_returns (sourceWidth - operator.implementationWidth) hresult
    (hoffset.mono hlater) (Nat.lt_of_le_of_lt (Nat.sub_le _ _) (Nat.lt_succ_of_le hsourceMax))
    (hlength ▸ hmaximum) hn
  rwa [hsize] at hguard

/-! Lowerings that fail. -/

/-- An error of the lowering itself is not one of the backend's. -/
theorem not_emits {m : BlastM σ ε γ} {Q : γ → σ → Prop} {message : String} (hgood : W.Good s)
    (hm : m.run s = .error (.invariant message)) : ¬W.Emits s m Q := by
  intro hemits
  have hrefuses : W.Refuses (.invariant message) := by
    have hsettles := hemits hgood
    rwa [Ensures, hm] at hsettles
  obtain ⟨cause, hcause⟩ := W.refuses_backend hrefuses
  cases hcause

theorem barrelStages_overflow (offset : Operand β) (selectionMax : Nat) (hwidth : 64 < offset.ty.width) :
    (barrelStages offset selectionMax : BlastM σ ε _).run s =
      .error (.invariant "dynamic extract stage distance overflow") := by
  have hloop : ∀ (indices : List Nat) (stages : List BarrelStage), (∃ index ∈ indices, 64 ≤ index) →
      (indices.foldlM (fun stages stage =>
        if 64 ≤ stage then invariantError "dynamic extract stage distance overflow"
        else if selectionMax < 2 ^ stage then pure stages
        else pure (stages ++ [⟨stage, 2 ^ stage, offsetBitConstant s offset stage⟩])) stages :
          BlastM σ ε (List BarrelStage)).run s =
        .error (.invariant "dynamic extract stage distance overflow") := by
    intro indices
    induction indices with
    | nil => simp
    | cons index rest ih =>
      intro stages ⟨large, hmem, hlarge⟩
      rw [List.foldlM_cons]
      by_cases hindex : 64 ≤ index
      · rw [if_pos hindex]
        rfl
      · have hrest : ∃ index ∈ rest, 64 ≤ index := by
          rcases List.mem_cons.mp hmem with rfl | hmem
          · contradiction
          · exact ⟨large, hmem, hlarge⟩
        rw [if_neg hindex]
        split_ifs
        · exact ih _ hrest
        · exact ih _ hrest
  exact hloop _ _ ⟨64, List.mem_range.mpr (offset.sized ▸ hwidth), Nat.le_refl _⟩

theorem decodeBit_empty {offset : Operand β} {groups : List (TapGroup β)} {index : Nat}
    (hindex : index < offset.ty.width) (hgroups : ∀ group ∈ groups, group.1 = []) :
    (decodeBit offset groups index).run s = .ok ([], s) := by
  have hlt : index < offset.bits.length := by rwa [offset.sized]
  have hbit : bit offset index = (pure offset.bits[index] : BlastM σ ε β) := by
    rw [bit, List.getElem?_eq_getElem]
  have hinverse : inverseLiteral groups index offset.bits[index] = (pure none : BlastM σ ε (Option β)) := by
    rw [inverseLiteral, if_neg]
    simp only [List.any_eq_true, not_exists, not_and]
    intro group hgroup
    rw [hgroups group hgroup]
    simp
  have hsplit : ∀ rest : List (TapGroup β), (∀ group ∈ rest, group.1 = []) →
      rest.foldlM (splitGroup index offset.bits[index] none) [] = (pure [] : BlastM σ ε _) := by
    intro rest hrest
    induction rest with
    | nil => rfl
    | cons group rest ih =>
      have hgroup : splitGroup index offset.bits[index] none [] group =
          (pure [] : BlastM σ ε (List (TapGroup β))) := by
        rw [splitGroup]
        simp [splitHalf, hrest group List.mem_cons_self]
      rw [List.foldlM_cons, hgroup, pure_bind]
      exact ih fun other hother => hrest other (List.mem_cons_of_mem _ hother)
  rw [decodeBit, hbit, pure_bind, hinverse, pure_bind, hsplit groups hgroups]
  rfl

theorem decodeBits_empty (offset : Operand β) {indices : List Nat}
    (hindices : ∀ index ∈ indices, index < offset.ty.width) (hnonempty : indices ≠ []) :
    ∀ groups : List (TapGroup β), (∀ group ∈ groups, group.1 = []) →
      (indices.foldlM (decodeBit offset) groups).run s = .ok ([], s) := by
  induction indices with
  | nil => exact absurd rfl hnonempty
  | cons index rest ih =>
    intro groups hgroups
    rw [List.foldlM_cons, StateT.run_bind,
      decodeBit_empty (hindices index List.mem_cons_self) hgroups]
    by_cases hrest : rest = []
    · rw [hrest]
      rfl
    · exact ih (fun other hother => hindices other (List.mem_cons_of_mem _ hother)) hrest [] (by simp)

/-- Without a tap there is nothing to join. -/
theorem oneHot_empty (value offset : Operand β) (alignment : Nat) {width : Nat} (hwidth : 0 < width) :
    ∃ message, (oneHotDynamicExtractBits value offset [] alignment width).run s =
      .error (.invariant message) := by
  obtain ⟨last, rfl⟩ := Nat.exists_eq_succ_of_ne_zero hwidth.ne'
  by_cases hfree : freeBits (offsetBitConstant s offset) offset.ty.width alignment = []
  · refine ⟨"one-hot dynamic extract taps are not distinguishable", ?_⟩
    have hselects : (sharedOneHotSelects offset [] alignment).run s =
        .error (.invariant "one-hot dynamic extract taps are not distinguishable") := by
      rw [sharedOneHotSelects, offset.sized]
      change StateT.run (if (freeBits (offsetBitConstant s offset) offset.ty.width alignment).isEmpty
        then _ else _) s = _
      rw [hfree]
      rfl
    rw [oneHotDynamicExtractBits, StateT.run_bind, hselects]
    · rfl
    · simp
  · refine ⟨"cannot reduce an empty bit vector", ?_⟩
    have hselects : (sharedOneHotSelects offset [] alignment).run s = .ok ([], s) := by
      rw [sharedOneHotSelects, offset.sized]
      change StateT.run (if (freeBits (offsetBitConstant s offset) offset.ty.width alignment).isEmpty
        then _ else _) s = _
      rw [if_neg (by rwa [List.isEmpty_iff]), StateT.run_bind]
      have hgroups := decodeBits_empty (s := s) offset
        (fun index hindex => (mem_freeBits.mp hindex).1.2) hfree
        [([].zipIdx.map Prod.swap, none)] (by simp)
      rw [freeBits] at hgroups
      rw [hgroups]
      rfl
    rw [oneHotDynamicExtractBits, StateT.run_bind, hselects]
    · simp only [List.range_succ_eq_map, List.mapM_cons]
      rfl
    · simp

/-! Offsets of the evaluated backend. -/

/-- An evaluated word whose fixed bits are those that are listed. -/
def evaluated (constants : List (Option Bool)) (n : Nat) : List EvaluatedBit :=
  constants.zipIdx.map fun (constant, index) => ⟨n.testBit index, constant.isSome⟩

theorem evaluated_getElem? (constants : List (Option Bool)) (n index : Nat) :
    (evaluated constants n)[index]? =
      constants[index]?.map fun constant => ⟨n.testBit index, constant.isSome⟩ := by
  rw [evaluated, List.getElem?_map, List.getElem?_zipIdx, Nat.zero_add, Option.map_map]
  rfl

theorem evaluated_constants (hfixed : FixedBits constants n) :
    (evaluated constants n).map (BitBackend.scalarConstant ()) = constants := by
  apply List.ext_getElem?
  intro index
  rw [List.getElem?_map, evaluated_getElem?, Option.map_map]
  cases hconstant : constants[index]? with
  | none => rfl
  | some constant =>
    cases constant with
    | none => rfl
    | some b => simp [BitBackend.scalarConstant, hfixed index b hconstant]

/-- The word as an operand. -/
def evaluatedOperand (constants : List (Option Bool)) (n : Nat) (hnonempty : constants ≠ []) :
    Operand EvaluatedBit where
  bits := evaluated constants n
  ty := ⟨constants.length, false, .twoState, List.length_pos_iff.mpr hnonempty⟩
  sized := by simp [evaluated]

theorem evaluatedOperand_holds (hnonempty : constants ≠ []) (hn : n < 2 ^ constants.length) :
    Holds EvaluatedBit.meaning () (evaluatedOperand constants n hnonempty) n := by
  refine ⟨hn, carries_iff.mpr fun index bit hbit => ?_⟩
  rw [evaluatedOperand, evaluated_getElem?] at hbit
  obtain ⟨constant, _, rfl⟩ := Option.map_eq_some_iff.mp hbit
  exact (digit_testBit n index).symm

/-- A source word of which the lowering knows nothing. -/
def sourceOperand (h : Recorded operator extract sourceWidth offsetWidth) (x : Nat) :
    Operand EvaluatedBit :=
  evaluatedOperand (List.replicate sourceWidth none) x <| by
    have hpositive := h.implemented
    have hlarge := Nat.le_trans h.implementation_le h.semantic_le
    rw [ne_eq, List.replicate_eq_nil_iff]
    omega

theorem sourceOperand_width (h : Recorded operator extract sourceWidth offsetWidth) (x : Nat) :
    (sourceOperand h x).ty.width = sourceWidth := List.length_replicate

theorem sourceOperand_holds (h : Recorded operator extract sourceWidth offsetWidth) {x : Nat}
    (hx : x < 2 ^ sourceWidth) : Holds EvaluatedBit.meaning () (sourceOperand h x) x :=
  evaluatedOperand_holds _ (by rwa [List.length_replicate])

theorem OffsetFacts.constants_eq (h : OffsetFacts extract constants n) :
    (evaluatedOperand constants n h.nonempty).bits.map (BitBackend.scalarConstant ()) = constants :=
  evaluated_constants h.fixed

theorem OffsetFacts.holds (h : OffsetFacts extract constants n) :
    Holds EvaluatedBit.meaning () (evaluatedOperand constants n h.nonempty) n :=
  evaluatedOperand_holds h.nonempty h.bounded

/-! When the lowerings are right. -/

theorem LowersExtract.evaluated {oneHot : Bool} (hlowers : LowersExtract operator sourceWidth constants n oneHot)
    (h : Recorded operator extract sourceWidth constants.length)
    (hfacts : OffsetFacts extract constants n) {x : Nat} (hx : x < 2 ^ sourceWidth) :
    Returns EvaluatedBit.meaning ()
      (lowerDynamicExtractArchitecture operator oneHot (sourceOperand h x)
        (evaluatedOperand constants n hfacts.nonempty))
      operator.implementationWidth (extractReference x n sourceWidth operator.semanticWidth) :=
  hlowers Unit Empty EvaluatedBit EvaluatedBit.meaning () _ _ x (sourceOperand_holds h hx)
    (sourceOperand_width h x) hfacts.holds hfacts.constants_eq

theorem LowersExtract.offset_le (h : Recorded operator extract sourceWidth constants.length)
    (hfacts : OffsetFacts extract constants n)
    (hlowers : LowersExtract operator sourceWidth constants n false) : constants.length ≤ 64 := by
  by_contra hwide
  have hstages := barrelStages_overflow (s := ()) (evaluatedOperand constants n hfacts.nonempty)
    extract.selectionMax (Nat.not_le.mp hwide)
  have hwidth : ¬(sourceOperand h 0).bits.length < operator.implementationWidth := by
    rw [(sourceOperand h 0).sized, sourceOperand_width]
    exact Nat.not_lt.mpr (Nat.le_trans h.implementation_le h.semantic_le)
  apply not_emits trivial _ (hlowers.evaluated h hfacts (Nat.two_pow_pos sourceWidth))
  · exact "dynamic extract stage distance overflow"
  · unfold lowerDynamicExtractArchitecture
    simp only [h.recorded, hwidth, if_false, Bool.false_eq_true, StateT.run_bind, hstages]
    rfl

theorem LowersExtract.exists_tap (h : Recorded operator extract sourceWidth constants.length)
    (hfacts : OffsetFacts extract constants n)
    (hsupports : extract.supportsOneHot operator.implementationWidth = true)
    (hlowers : LowersExtract operator sourceWidth constants n true) :
    ∃ tap, IsTap extract constants tap := by
  by_contra hnone
  have hmem := mem_taps_iff h hsupports hfacts.constants_eq
  have hempty : tapsOf (offsetBitConstant () (evaluatedOperand constants n hfacts.nonempty))
      (evaluatedOperand constants n hfacts.nonempty).ty.width extract.selectionMax extract.alignment =
        [] :=
    List.eq_nil_iff_forall_not_mem.mpr fun tap htap => hnone ⟨tap, (hmem tap).mp htap⟩
  have htaps : (dynamicExtractTaps (evaluatedOperand constants n hfacts.nonempty) extract.selectionMax
      extract.alignment).run () = .ok (some [], ()) := by
    rw [← hempty, dynamicExtractTaps]
    have hbound := Nat.not_le.mpr (supportsOneHot_facts h hsupports).1
    simp only [StateT.run_bind, StateT.run_get, pure_bind, if_neg hbound]
    rw [(evaluatedOperand constants n hfacts.nonempty).sized]
    rfl
  have hwidth : ¬(sourceOperand h 0).bits.length < operator.implementationWidth := by
    rw [(sourceOperand h 0).sized, sourceOperand_width]
    exact Nat.not_lt.mpr (Nat.le_trans h.implementation_le h.semantic_le)
  obtain ⟨message, hfails⟩ := oneHot_empty (s := ()) (sourceOperand h 0)
    (evaluatedOperand constants n hfacts.nonempty) extract.alignment h.implemented
  apply not_emits trivial _ (hlowers.evaluated h hfacts (Nat.two_pow_pos sourceWidth))
  · exact message
  · unfold lowerDynamicExtractArchitecture
    simp only [h.recorded, hwidth, if_false, if_true, StateT.run_bind, htaps]
    change (do
      let p ← (oneHotDynamicExtractBits (sourceOperand h 0)
        (evaluatedOperand constants n hfacts.nonempty) [] extract.alignment
        operator.implementationWidth).run ()
      _ : Except _ _) = _
    rw [hfails]
    rfl

theorem LowersExtract.not_inGap (h : Recorded operator extract sourceWidth constants.length)
    (hfacts : OffsetFacts extract constants n) (hwidth : constants.length ≤ 64)
    (hlowers : LowersExtract operator sourceWidth constants n false) :
    ¬InGap operator sourceWidth n := by
  intro ⟨hout, hin⟩
  have hpositive := h.implemented
  have hsource := h.source_le
  have hlarge := Nat.le_trans h.implementation_le h.semantic_le
  have hx : 2 ^ sourceWidth - 1 < 2 ^ sourceWidth := Nat.sub_lt (Nat.two_pow_pos _) (by decide)
  have hsize := sourceOperand_width h (2 ^ sourceWidth - 1)
  have hbarrel := barrel_returns h.recorded (sourceOperand_holds h hx) hfacts.holds
    (by rw [hsize]; exact hlarge) (by rw [hsize]; exact Nat.lt_succ_of_le hsource) h.maximum_lt
    hfacts.le_maximum hwidth rfl
  rw [hsize, if_pos hin] at hbarrel
  have hle := selected_le n extract.selectionMax
    (offsetBitConstant () (evaluatedOperand constants n hfacts.nonempty))
    (evaluatedOperand constants n hfacts.nonempty).ty.width
  generalize selected n _ = moves at hbarrel hle
  have hmoves : moves < sourceWidth := by
    have := Nat.mod_le n (2 ^ (evaluatedOperand constants n hfacts.nonempty).ty.width)
    omega
  have hreference := hlowers.evaluated h hfacts hx
  rw [extractReference, if_neg (Nat.not_le.mpr hout)] at hreference
  have hboth := Emits.and hbarrel hreference trivial
  rw [Ensures] at hboth
  cases hrun : (lowerDynamicExtractArchitecture operator false (sourceOperand h (2 ^ sourceWidth - 1))
      (evaluatedOperand constants n hfacts.nonempty)).run () with
  | error e =>
    rw [hrun] at hboth
    exact hboth
  | ok r =>
    obtain ⟨_, ⟨hlength, hcarries⟩, _, hzero⟩ := hboth.ok hrun
    have hfirst := List.getElem?_eq_getElem (show 0 < r.1.length by omega)
    have hsame := EvaluatedBit.meaning.unique (hcarries.read hfirst) (hzero.read hfirst)
    rw [digit_shift, Nat.add_zero, digit_testBit, Nat.testBit_two_pow_sub_one] at hsame
    simp [hmoves, odd] at hsame

end

/-- The lowerings compute an offset's extract unless a stage, a tap or the range check is
missing. -/
theorem dynamic_extract_iff {operator : SemanticOperator} {extract : DynamicExtractOperator}
    {sourceWidth : Nat} {constants : List (Option Bool)} {n : Nat}
    (hrecorded : Recorded operator extract sourceWidth constants.length)
    (hfacts : OffsetFacts extract constants n) :
    (LowersExtract operator sourceWidth constants n false ∧
      (extract.supportsOneHot operator.implementationWidth = true →
        LowersExtract operator sourceWidth constants n true)) ↔
      constants.length ≤ 64 ∧
      (extract.supportsOneHot operator.implementationWidth = true →
        ∃ tap, IsTap extract constants tap) ∧
      ¬InGap operator sourceWidth n := by
  constructor
  · intro ⟨hbarrel, honeHot⟩
    have hwidth := hbarrel.offset_le hrecorded hfacts
    exact ⟨hwidth, fun hsupports => (honeHot hsupports).exists_tap hrecorded hfacts hsupports,
      hbarrel.not_inGap hrecorded hfacts hwidth⟩
  · intro ⟨hwidth, htap, hgap⟩
    exact ⟨barrel_lowers hrecorded hfacts hwidth hgap, fun hsupports =>
      oneHot_lowers hrecorded hfacts hsupports (htap hsupports) hgap⟩

/-- The operator of one extract. -/
def extractOf (source offset : WordType) (semanticWidth implementationWidth maximum alignment : Nat) :
    SemanticOperator where
  id := 0
  kind := .dynamicExtract
  sourceOperation := 0
  inputs := (0, 1)
  inputTypes := (source, offset)
  result := 2
  constantInput := none
  termCount := 0
  negativeTermCount := 0
  productTermCount := 0
  variableProductTermCount := 0
  semanticWidth
  implementationWidth
  signed := false
  dynamicExtract := some (.new maximum (source.width - semanticWidth) alignment offset.width)

theorem extractOf_recorded {source offset : WordType} {semanticWidth implementationWidth : Nat}
    {maximum : Nat} (alignment : Nat) (hmaximum : maximum < 2 ^ offset.width)
    (himplemented : 0 < implementationWidth) (hle : implementationWidth ≤ semanticWidth)
    (hsemantic : semanticWidth ≤ source.width) (hsource : source.width ≤ Mapped.U32_MAX) :
    Recorded (extractOf source offset semanticWidth implementationWidth maximum alignment)
      (.new maximum (source.width - semanticWidth) alignment offset.width) source.width offset.width :=
  ⟨rfl, ⟨maximum, alignment, rfl⟩, hmaximum, himplemented, hle, hsemantic, hsource⟩

def unsignedType (width : Nat) (positive : 0 < width) : WordType := ⟨width, false, .twoState, positive⟩

/-- Three bits from the second bit of an eight-bit word on. -/
theorem dynamic_extract_bounded :
    LowersExtract (extractOf (unsignedType 8 (by decide)) (unsignedType 2 (by decide)) 3 3 3 0) 8
      [none, none] 1 false :=
  ((dynamic_extract_iff (extractOf_recorded 0 (by decide) (by decide) (by decide) (by decide) (by decide))
    ⟨by decide, by decide, by decide, by decide, by decide⟩).mpr
      ⟨by decide, fun hsupports => absurd hsupports (by decide), by decide⟩).1

/-- A sixty-five-bit offset stops the barrel. No tap is left to an offset whose highest bit is
fixed to one, and a word that is only implemented in part keeps bits past its end. -/
theorem dynamic_extract_fails :
    ¬LowersExtract (extractOf (unsignedType 4 (by decide)) (unsignedType 65 (by decide)) 2 2
        (2 ^ 65 - 1) 0) 4 (List.replicate 65 none) 0 false ∧
      ¬LowersExtract (extractOf (unsignedType 19 (by decide)) (unsignedType 5 (by decide)) 4 4 28 2) 19
        [some false, some false, none, none, some true] 16 true ∧
      ¬LowersExtract (extractOf (unsignedType 8 (by decide)) (unsignedType 3 (by decide)) 4 2 7 0) 8
        [none, none, none] 5 false := by
  refine ⟨fun hlowers => ?_, fun hlowers => ?_, fun hlowers => ?_⟩
  · have hwidth := hlowers.offset_le
      (extractOf_recorded 0 (by decide) (by decide) (by decide) (by decide) (by decide))
      ⟨by decide, by decide, by decide, by decide, by decide⟩
    exact absurd hwidth (by decide)
  · obtain ⟨tap, hle, haligned, hfixed⟩ := hlowers.exists_tap
      (extractOf_recorded 2 (by decide) (by decide) (by decide) (by decide) (by decide))
      ⟨by decide, by decide, by decide, by decide, by decide⟩ (by decide)
    have hset := hfixed 4 true rfl
    have hsmall : tap ≤ 15 := hle
    rw [Nat.testBit_lt_two_pow (show tap < 2 ^ 4 by omega)] at hset
    exact absurd hset (by decide)
  · have hgap := hlowers.not_inGap
      (extractOf_recorded 0 (by decide) (by decide) (by decide) (by decide) (by decide))
      ⟨by decide, by decide, by decide, by decide, by decide⟩ (by decide)
    exact absurd hgap (by decide)

end Opto.Bitblast
