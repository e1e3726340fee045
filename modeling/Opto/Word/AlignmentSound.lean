import Opto.Word.RangeSound

/-!
# Alignment is sound

A value that is divided by a power of two shows zeros below it. Extensions keep these zeros,
and arithmetic keeps the power as a factor.
-/

namespace Opto.Word

open TwosComplement

/-! Low zeros. -/

def LowZeros (count : Nat) (bits : Bits) : Prop := ∀ index < count, List.getD bits index false = false

theorem pow_dvd_iff_lowZeros {count : Nat} {bits : Bits} :
    2 ^ count ∣ bitsValue bits ↔ LowZeros count bits := by
  have hbit : ∀ index, (bitsValue bits).testBit index = List.getD bits index false := by
    intro index
    rw [← digit_testBit, Bits.digit_bitsValue]
  rw [Nat.dvd_iff_mod_eq_zero]
  constructor
  · intro hzero index hindex
    have hlow := Nat.testBit_mod_two_pow (bitsValue bits) count index
    rw [hzero, Nat.zero_testBit] at hlow
    rw [← hbit]
    simpa [hindex] using hlow.symm
  · intro hzeros
    apply Nat.eq_of_testBit_eq
    intro index
    rw [Nat.testBit_mod_two_pow, Nat.zero_testBit, hbit]
    by_cases hindex : index < count
    · simpa [hindex] using hzeros index hindex
    · simp [hindex]

theorem LowZeros.mono {count fewer : Nat} {bits : Bits} (h : LowZeros count bits) (hle : fewer ≤ count) :
    LowZeros fewer bits := fun index hindex => h index (Nat.lt_of_lt_of_le hindex hle)

theorem lowZeros_resize {count : Nat} {bits : Bits} (h : LowZeros count bits)
    (hle : count ≤ List.length bits) (signed : Bool) (width : Nat) :
    LowZeros count (Bits.resize signed width bits) := by
  intro index hindex
  by_cases hwidth : index < width
  · have hlt : index < List.length bits := Nat.lt_of_lt_of_le hindex hle
    have hzero := h index hindex
    rw [List.getD_eq_getElem _ _ hlt] at hzero
    rw [List.getD, Bits.getElem?_resize hwidth, Option.getD_some, List.getD_eq_getElem _ _ hlt, hzero]
  · rw [List.getD_eq_default]
    rw [Bits.length_resize]
    exact Nat.not_lt.mp hwidth

theorem lowZeros_zipWith {f : Bool → Bool → Bool} {count : Nat} {left right : Bits}
    (h : ∀ index < count, f (List.getD left index false) (List.getD right index false) = false) :
    LowZeros count (List.zipWith f left right) := by
  intro index hindex
  have hf := h index hindex
  rw [List.getD, List.getElem?_zipWith]
  cases hleft : left[index]? with
  | none => simp
  | some l =>
    cases hright : right[index]? with
    | none => simp
    | some r =>
      simp only [List.getD, hleft, hright, Option.getD_some] at hf
      simpa using hf

theorem lowZeros_append {bits : Bits} (rest : Bits) {count : Nat} (h : LowZeros count bits)
    (hle : count ≤ List.length bits) : LowZeros count (bits ++ rest) := by
  intro index hindex
  rw [List.getD_append _ _ _ _ (Nat.lt_of_lt_of_le hindex hle)]
  exact h index hindex

theorem lowZeros_append_zero {bits rest : Bits} {count : Nat} (h : LowZeros (List.length bits) bits)
    (hrest : LowZeros count rest) : LowZeros (List.length bits + count) (bits ++ rest) := by
  intro index hindex
  by_cases hlt : index < List.length bits
  · rw [List.getD_append _ _ _ _ hlt]
    exact h index hlt
  · rw [List.getD_append_right _ _ _ _ (Nat.not_lt.mp hlt)]
    exact hrest _ (by omega)

theorem number_dvd {count : Nat} {bits : Bits} (h : 2 ^ count ∣ bitsValue bits)
    (hle : count ≤ List.length bits) (signed : Bool) : (2 : Int) ^ count ∣ Bits.number signed bits := by
  have hmod := (Bits.number_modEq signed bits).of_dvd (pow_dvd_pow 2 hle)
  have hvalue : (2 : Int) ^ count ∣ (bitsValue bits : Int) := by exact_mod_cast h
  exact hmod.dvd_iff.mpr hvalue

theorem encode_dvd {count width : Nat} {z : Int} (h : (2 : Int) ^ count ∣ z) :
    2 ^ min count width ∣ bitsValue (digits z width) := by
  rw [bitsValue_encode]
  have hmod := (encode_modEq width z).of_dvd (pow_dvd_pow 2 (Nat.min_le_right count width))
  have hz : (2 : Int) ^ min count width ∣ z := (pow_dvd_pow 2 (Nat.min_le_left _ _)).trans h
  have hencode := hmod.dvd_iff.mpr hz
  exact_mod_cast hencode

theorem constantAlignment_zeros {bits : List BitVal} {digits : Bits}
    (h : List.Forall₂ (fun bit digit => bit.allows digit = true) bits digits) :
    LowZeros (constantAlignment bits) digits := by
  induction h with
  | nil => exact fun index hindex => absurd hindex (Nat.not_lt_zero _)
  | @cons bit digit bits digits hbit hrest ih =>
    intro index hindex
    cases bit with
    | zero =>
      cases index with
      | zero => simpa [BitVal.allows] using hbit
      | succ index =>
        rw [constantAlignment] at hindex
        exact ih index (by omega)
    | one | x | z => exact absurd hindex (Nat.not_lt_zero _)

/-! The alignments of a module's values. -/

section Module

variable (m : WordModule) (value : Nat → Bits)

/-- The alignment of a value divides its word and fits its type. -/
def Aligned (v alignment : Nat) : Prop :=
  2 ^ alignment ∣ bitsValue (value v) ∧ ∀ ty, m.valueTy v = some ty → alignment ≤ ty.width

structure AlignedTable (table : List (Option Nat)) : Prop where
  sized : table.length = m.values.length
  aligned : ∀ (v alignment : Nat), table[v]? = some (some alignment) → Aligned m value v alignment

def unaligned (table : List (Option Nat)) : Nat := table.countP (·.isNone)

/-- An alignment that, cut to the result, holds of what an operation computes. -/
def AlignsResult (kind : OpKind) (ty : WordType) (alignment : Nat) : Prop :=
  alignment = 0 ∨ ∃ bits, kind.denote m.valueTy value ty = some bits ∧
    2 ^ min alignment ty.width ∣ bitsValue bits

variable {m value} {signal : Nat → Bits} {table : List (Option Nat)} {id fuel : Nat}
variable {alignment : Nat → AlignmentM Nat}

theorem aligned_zero (v : Nat) : Aligned m value v 0 := ⟨one_dvd _, fun _ _ => Nat.zero_le _⟩

theorem AlignedTable.set (h : AlignedTable m value table) {a : Nat} (ha : Aligned m value id a) :
    AlignedTable m value (table.set id (some a)) := by
  refine ⟨by rw [List.length_set, h.sized], fun v b hv => ?_⟩
  rw [List.getElem?_set] at hv
  split_ifs at hv with hid
  · rw [Option.some.injEq, Option.some.injEq] at hv
    exact hid ▸ hv ▸ ha
  · exact h.aligned v b hv

theorem unaligned_enter (h : table[id]? = some none) (a : Nat) :
    unaligned (table.set id (some a)) + 1 = unaligned table := by
  obtain ⟨hlt, hid⟩ := List.getElem?_eq_some_iff.mp h
  have hpos : 0 < unaligned table := List.countP_pos_iff.mpr ⟨_, List.getElem_mem hlt, by simp [hid]⟩
  rw [unaligned, List.countP_set hlt, hid]
  simp only [Option.isNone_none, if_true, Option.isNone_some, Bool.false_eq_true, if_false]
  rw [unaligned] at hpos ⊢
  omega

theorem unaligned_settle (a : Nat) : unaligned (table.set id (some a)) ≤ unaligned table := by
  by_cases hlt : id < table.length
  · rw [unaligned, List.countP_set hlt]
    simp only [Option.isNone_some, Bool.false_eq_true, if_false]
    exact Nat.sub_le _ _
  · rw [List.set_eq_of_length_le (not_lt.mp hlt)]

/-! Operations. -/

section Operation

variable {left right : Nat} {leftTy rightTy ty : WordType} {l r : Bits} {a b : Nat}

theorem AlignsResult.bits {kind : OpKind} {bits : Bits}
    (hdenote : kind.denote m.valueTy value ty = some bits) (h : LowZeros a bits) :
    AlignsResult m value kind ty a :=
  .inr ⟨bits, hdenote, pow_dvd_iff_lowZeros.mpr (h.mono (Nat.min_le_left _ _))⟩

theorem binary_aligns {op : BinaryOp} (hleftTy : m.valueTy left = some leftTy)
    (hrightTy : m.valueTy right = some rightTy)
    (hwidth : ∀ v ty, m.valueTy v = some ty → List.length (value v) = ty.width)
    (ha : Aligned m value left a) (hb : Aligned m value right b) :
    AlignsResult m value (.binary op left right) ty (match op with
      | .add | .sub | .bitOr | .bitXor => min a b
      | .bitAnd => max a b
      | .mul => min (a + b) (2 ^ 32 - 1)
      | .shl => a
      | _ => 0) := by
  have hdenote : (OpKind.binary op left right).denote m.valueTy value ty =
      some (op.denote leftTy rightTy ty (value left) (value right)) := by
    simp only [OpKind.denote, hleftTy, hrightTy, Option.bind_eq_bind, Option.bind_some]
  have hafit : a ≤ List.length (value left) := by
    rw [hwidth left leftTy hleftTy]
    exact ha.2 leftTy hleftTy
  have hbfit : b ≤ List.length (value right) := by
    rw [hwidth right rightTy hrightTy]
    exact hb.2 rightTy hrightTy
  have hleft := number_dvd ha.1 hafit (ty.signed && leftTy.signed)
  have hright := number_dvd hb.1 hbfit (ty.signed && rightTy.signed)
  have hlowLeft := pow_dvd_iff_lowZeros.mp ha.1
  have hlowRight := pow_dvd_iff_lowZeros.mp hb.1
  have hextendLeft := lowZeros_resize hlowLeft hafit (ty.signed && leftTy.signed) ty.width
  have hextendRight := lowZeros_resize hlowRight hbfit (ty.signed && rightTy.signed) ty.width
  cases op with
  | add =>
    exact .inr ⟨_, hdenote, encode_dvd (dvd_add ((pow_dvd_pow 2 (Nat.min_le_left a b)).trans hleft)
      ((pow_dvd_pow 2 (Nat.min_le_right a b)).trans hright))⟩
  | sub =>
    exact .inr ⟨_, hdenote, encode_dvd (dvd_sub ((pow_dvd_pow 2 (Nat.min_le_left a b)).trans hleft)
      ((pow_dvd_pow 2 (Nat.min_le_right a b)).trans hright))⟩
  | mul =>
    have hproduct := mul_dvd_mul hleft hright
    rw [← pow_add] at hproduct
    exact .inr ⟨_, hdenote, encode_dvd ((pow_dvd_pow 2 (Nat.min_le_left _ _)).trans hproduct)⟩
  | bitAnd =>
    apply AlignsResult.bits hdenote
    apply lowZeros_zipWith
    intro index hindex
    rcases lt_max_iff.mp hindex with hindex | hindex
    · rw [hextendLeft index hindex, Bool.false_and]
    · rw [hextendRight index hindex, Bool.and_false]
  | bitOr =>
    apply AlignsResult.bits hdenote
    apply lowZeros_zipWith
    intro index hindex
    obtain ⟨hindex, hindex'⟩ := lt_min_iff.mp hindex
    rw [hextendLeft index hindex, hextendRight index hindex', Bool.or_false]
  | bitXor =>
    apply AlignsResult.bits hdenote
    apply lowZeros_zipWith
    intro index hindex
    obtain ⟨hindex, hindex'⟩ := lt_min_iff.mp hindex
    rw [hextendLeft index hindex, hextendRight index hindex', Bool.xor_false]
  | shl =>
    apply AlignsResult.bits hdenote
    intro index hindex
    simp only [BinaryOp.denote]
    rw [List.getD, List.getElem?_map]
    by_cases hwidth : index < ty.width
    · rw [List.getElem?_range hwidth]
      simp only [Option.map_some, Option.getD_some]
      split_ifs with hshift
      · rfl
      · exact hlowLeft _ (Nat.lt_of_le_of_lt (Nat.sub_le _ _) hindex)
    · rw [List.getElem?_eq_none (by rw [List.length_range]; omega)]
      rfl
  | div | mod | logicalAnd | logicalOr | eq | ne | lt | le | gt | ge | shr | ashr => exact .inl rfl

end Operation

section Walk

variable (halignment : ∀ v, Within (AlignedTable m value) unaligned fuel (alignment v) (Aligned m value v))
include halignment

theorem concatAlignment_within {parts : List Nat} {tys : List WordType}
    (htys : List.Forall₂ (fun part ty => m.valueTy part = some ty) parts tys)
    (hwidth : ∀ v ty, m.valueTy v = some ty → List.length (value v) = ty.width) :
    Within (AlignedTable m value) unaligned fuel (concatAlignment m alignment parts)
      fun a => LowZeros a (parts.flatMap value) := by
  induction htys with
  | nil => exact Within.pure fun index hindex => absurd hindex (Nat.not_lt_zero _)
  | @cons part ty parts tys hpart hrest ih =>
    have hlength := hwidth part ty hpart
    rw [concatAlignment]
    simp only [hpart, Option.elim_some]
    apply Within.bind (halignment part)
    intro a ⟨hdvd, hfit⟩
    have hzeros := pow_dvd_iff_lowZeros.mp hdvd
    have hle := hfit ty hpart
    rw [List.flatMap_cons]
    split_ifs with hzero
    · apply Within.map ih
      intro b hb
      have heq : a = List.length (value part) := by omega
      rw [← hlength]
      exact lowZeros_append_zero (heq ▸ hzeros) hb
    · exact Within.pure (lowZeros_append _ hzeros (by omega))

theorem operationAlignment_within {kind : OpKind} {ty : WordType}
    (hwidth : ∀ v ty, m.valueTy v = some ty → List.length (value v) = ty.width)
    (hty : m.operationType kind = some ty) :
    Within (AlignedTable m value) unaligned fuel (operationAlignment m alignment kind)
      (AlignsResult m value kind ty) := by
  cases kind with
  | binary op left right =>
    obtain ⟨leftTy, hleft, hty⟩ := Option.bind_eq_some_iff.mp hty
    obtain ⟨rightTy, hright, _⟩ := Option.bind_eq_some_iff.mp hty
    apply Within.bind (halignment left)
    intro a ha
    apply Within.bind (halignment right)
    intro b hb
    exact Within.pure (binary_aligns hleft hright hwidth ha hb)
  | mux cond thenValue elseValue =>
    apply Within.bind (halignment thenValue)
    intro a ⟨ha, _⟩
    apply Within.bind (halignment elseValue)
    intro b ⟨hb, _⟩
    refine Within.pure (.bits rfl ?_)
    split_ifs
    · exact (pow_dvd_iff_lowZeros.mp ha).mono (Nat.min_le_left _ _)
    · exact (pow_dvd_iff_lowZeros.mp hb).mono (Nat.min_le_right _ _)
  | cast kind operand target =>
    obtain ⟨source, hsource, _⟩ := Option.bind_eq_some_iff.mp hty
    apply (halignment operand).mono
    intro a ⟨ha, hfit⟩
    have hle : a ≤ List.length (value operand) := hwidth operand source hsource ▸ hfit source hsource
    exact .bits rfl (lowZeros_resize (pow_dvd_iff_lowZeros.mp ha) hle _ _)
  | extract operand lsb width =>
    cases lsb with
    | zero =>
      apply (halignment operand).mono
      intro a ⟨ha, _⟩
      have hzeros := pow_dvd_iff_lowZeros.mp ha
      refine .bits rfl fun index hindex => ?_
      rw [List.drop_zero, List.getD, List.getElem?_take]
      split_ifs
      · exact hzeros index hindex
      · rfl
    | succ lsb => exact Within.pure (.inl rfl)
  | concat parts =>
    obtain ⟨tys, htys, _⟩ := concat_widths hty
    apply (concatAlignment_within halignment (List.forall₂_reverse_iff.mpr htys) hwidth).mono
    exact fun a ha => .bits rfl ha
  | unary | dynamicExtract | dynamicInsert | triState | register | latch =>
    exact Within.pure (.inl rfl)

theorem valueAlignment_within (hvalid : m.validate = true) (hsatisfies : Satisfies m value signal)
    {stored : Value} (hstored : m.values[id]? = some stored) :
    Within (AlignedTable m value) unaligned fuel (valueAlignment m alignment stored)
      fun a => 2 ^ min a stored.ty.width ∣ bitsValue (value id) := by
  have hty : m.valueTy id = some stored.ty := by rw [WordModule.valueTy, hstored]; rfl
  obtain ⟨kind, ty⟩ := stored
  cases kind with
  | signal reference => exact Within.pure (by simp)
  | constant bits =>
    refine Within.pure (pow_dvd_iff_lowZeros.mpr (LowZeros.mono ?_ (Nat.min_le_left _ _)))
    exact constantAlignment_zeros (hsatisfies.constant id bits ty hstored)
  | operation operation =>
    have hproducer : m.producer id = some operation := WordModule.producer_eq_some.mpr ⟨ty, hstored⟩
    obtain ⟨op, hop, hresult⟩ := WordModule.valid_producer hvalid hproducer
    obtain ⟨resultTy, hresultTy, _, hoperation, _⟩ := WordModule.valid_result hvalid hop
    rw [hresult, hty, Option.some.injEq] at hresultTy
    subst hresultTy
    simp only [valueAlignment, hop]
    apply (operationAlignment_within halignment hsatisfies.width hoperation).mono
    intro a ha
    rcases ha with rfl | ⟨bits, hdenote, hdvd⟩
    · simp
    · have hword := hsatisfies.operation operation op ty bits hop (hresult ▸ hty) hdenote
      rw [hresult] at hword
      rwa [hword]

theorem finishAlignment_within (hvalid : m.validate = true) (hsatisfies : Satisfies m value signal)
    (id : Nat) : Within (AlignedTable m value) unaligned fuel (finishAlignment m alignment id)
      (Aligned m value id) := by
  rw [finishAlignment]
  cases hstored : m.values[id]? with
  | none => exact Within.pure (aligned_zero id)
  | some stored =>
    apply Within.bind (valueAlignment_within halignment hvalid hsatisfies hstored)
    intro derived hderived table htable _
    have haligned : Aligned m value id (min derived stored.ty.width) := by
      refine ⟨hderived, fun ty hty => ?_⟩
      rw [WordModule.valueTy, hstored, Option.map_some, Option.some.injEq] at hty
      exact hty ▸ Nat.min_le_right _ _
    exact ⟨_, _, rfl, htable.set haligned, unaligned_settle _, haligned⟩

end Walk

theorem deriveAlignment_within (hvalid : m.validate = true) (hsatisfies : Satisfies m value signal)
    (fuel id : Nat) : Within (AlignedTable m value) unaligned fuel (deriveAlignment m fuel id)
      (Aligned m value id) := by
  induction fuel generalizing id with
  | zero => exact fun table _ hsize => absurd hsize (Nat.not_lt_zero _)
  | succ fuel ih =>
    intro table htable hsize
    rw [deriveAlignment]
    apply Yields.get
    cases hid : table[id]? with
    | none =>
      have hforeign : m.values[id]? = none := by
        rw [List.getElem?_eq_none_iff, ← htable.sized]
        exact List.getElem?_eq_none_iff.mp hid
      have hset : table.set id (some 0) = table :=
        List.set_eq_of_length_le (List.getElem?_eq_none_iff.mp hid)
      refine ⟨0, table, ?_, htable, Nat.le_refl _, aligned_zero id⟩
      change (finishAlignment m (deriveAlignment m fuel) id).run (table.set id (some 0)) = _
      rw [hset, finishAlignment, hforeign]
      rfl
    | some state =>
      cases state with
      | some alignment => exact ⟨alignment, table, rfl, htable, Nat.le_refl _, htable.aligned id alignment hid⟩
      | none =>
        have henter := unaligned_enter hid 0
        have hfinish := finishAlignment_within ih hvalid hsatisfies id _ (htable.set (aligned_zero id))
          (by omega)
        exact hfinish.mono fun a t h => ⟨h.1, h.2.1.trans (by omega), h.2.2⟩

end Module

/-! The analysis. -/

section Analysis

variable {m : WordModule} {value signal : Nat → Bits}

/-- A question to the analysis. -/
inductive Query
  | range (value : Nat)
  | alignment (value : Nat)

inductive Report
  | range (range : Option UnsignedValueRange)
  | alignment (alignment : Nat)

variable (m) in
def Query.ask : Query → UnsignedValueAnalysis.AnalysisM Report
  | .range value => Report.range <$> UnsignedValueAnalysis.range m value
  | .alignment value => Report.alignment <$> UnsignedValueAnalysis.alignment m value

variable (value) in
/-- What is reported of a value holds of its word as an unsigned number. -/
def Report.Holds : Query → Report → Prop
  | .range v, .range report => ∀ range, report = some range →
    range.minimum ≤ bitsValue (value v) ∧ bitsValue (value v) ≤ range.maximum
  | .alignment v, .alignment exponent => 2 ^ exponent ∣ bitsValue (value v)
  | _, _ => False

variable (m value) in
structure SoundAnalysis (analysis : UnsignedValueAnalysis) : Prop where
  ranges : BoundedTable m value analysis.ranges
  alignments : AlignedTable m value analysis.alignments

theorem SoundAnalysis.new : SoundAnalysis m value (.new m) where
  ranges := ⟨List.length_replicate, fun v range hv => by
    simp [UnsignedValueAnalysis.new, List.getElem?_replicate] at hv⟩
  alignments := ⟨List.length_replicate, fun v alignment hv => by
    simp [UnsignedValueAnalysis.new, List.getElem?_replicate] at hv⟩

theorem takeD_self {α : Type} {l : List α} {n : Nat} (h : l.length = n) (a : α) : l.takeD n a = l := by
  rw [List.takeD_eq_take a (by omega), ← h, List.take_length]

theorem SoundAnalysis.ensureCapacity {analysis : UnsignedValueAnalysis} (h : SoundAnalysis m value analysis) :
    analysis.ensureCapacity m = analysis := by
  rw [UnsignedValueAnalysis.ensureCapacity, takeD_self h.ranges.sized, takeD_self h.alignments.sized]

theorem ask_yields (hvalid : m.validate = true) (hsatisfies : Satisfies m value signal)
    {analysis : UnsignedValueAnalysis} (h : SoundAnalysis m value analysis) (query : Query) :
    Yields analysis (query.ask m) fun report after =>
      SoundAnalysis m value after ∧ report.Holds value query := by
  cases query with
  | range v =>
    have hbudget : unsettled analysis.ranges < m.values.length + 1 := by
      rw [← h.ranges.sized]
      exact Nat.lt_succ_of_le List.countP_le_length
    obtain ⟨answer, ranges, hrun, hranges, _, hanswer⟩ :=
      deriveRange_within hvalid hsatisfies _ v _ h.ranges hbudget
    refine ⟨.range answer, { analysis with ranges }, ?_, ⟨hranges, h.alignments⟩,
      fun found hfound => (hanswer found hfound).1⟩
    simp only [Query.ask, UnsignedValueAnalysis.range, StateT.run_map, StateT.run_bind, StateT.run_get,
      pure_bind, h.ensureCapacity, hrun]
    rfl
  | alignment v =>
    have hbudget : unaligned analysis.alignments < m.values.length + 1 := by
      rw [← h.alignments.sized]
      exact Nat.lt_succ_of_le List.countP_le_length
    obtain ⟨answer, alignments, hrun, halignments, _, hanswer⟩ :=
      deriveAlignment_within hvalid hsatisfies _ v _ h.alignments hbudget
    refine ⟨.alignment answer, { analysis with alignments }, ?_, ⟨h.ranges, halignments⟩, hanswer.1⟩
    simp only [Query.ask, UnsignedValueAnalysis.alignment, StateT.run_map, StateT.run_bind,
      StateT.run_get, pure_bind, h.ensureCapacity, hrun]
    rfl

theorem asks_yield (hvalid : m.validate = true) (hsatisfies : Satisfies m value signal)
    {analysis : UnsignedValueAnalysis} (h : SoundAnalysis m value analysis) (queries : List Query) :
    Yields analysis (queries.mapM (Query.ask m)) fun reports after =>
      SoundAnalysis m value after ∧ List.Forall₂ (Report.Holds value) queries reports := by
  induction queries generalizing analysis with
  | nil => exact Yields.pure ⟨h, .nil⟩
  | cons query queries ih =>
    rw [List.mapM_cons]
    apply Yields.bind (ask_yields hvalid hsatisfies h query)
    intro report after ⟨hafter, hreport⟩
    apply Yields.bind (ih hafter)
    exact fun reports last ⟨hlast, hreports⟩ => Yields.pure ⟨hlast, .cons hreport hreports⟩

end Analysis

/-- Whatever the analysis is asked, and in whatever order, what it reports holds in every
valuation. -/
theorem unsigned_value_analysis_sound (m : WordModule) (hvalid : m.validate = true)
    (value signal : Nat → Bits) (hsatisfies : Satisfies m value signal) (queries : List Query) :
    ∃ reports analysis, (queries.mapM (Query.ask m)).run (.new m) = .ok (reports, analysis) ∧
      List.Forall₂ (Report.Holds value) queries reports := by
  obtain ⟨reports, analysis, hrun, _, hreports⟩ := asks_yield hvalid hsatisfies .new queries
  exact ⟨reports, analysis, hrun, hreports⟩

def bitsType (width : Nat) (positive : 0 < width) : WordType := ⟨width, false, .twoState, positive⟩

theorem eight_positive : 0 < 8 := by decide

/-- A five-bit index and three zero bits below it, less four. -/
def scaledIndex : WordModule :=
  { WordModule.empty with
    signals := [⟨none, .wire, bitsType 5 (by decide), .singleDriver, none⟩]
    values := [⟨.constant [.zero, .zero, .zero], bitsType 3 (by decide)⟩,
      ⟨.signal ⟨0, 0, 5⟩, bitsType 5 (by decide)⟩, ⟨.operation 0, bitsType 8 eight_positive⟩,
      ⟨.constant [.one, .zero, .zero], bitsType 3 (by decide)⟩, ⟨.operation 1, bitsType 8 eight_positive⟩]
    operations := [⟨.concat [1, 0], 2⟩, ⟨.binary .sub 2 3, 4⟩] }

def scaledWord : Nat → Bits
  | 0 => digits 0 3
  | 1 => digits 3 5
  | 2 => digits 24 8
  | 3 => digits 4 3
  | 4 => digits 20 8
  | _ => []

theorem scaledWord_satisfies : Satisfies scaledIndex scaledWord fun _ => digits 3 5 where
  width v ty h := by
    rcases v with _ | _ | _ | _ | _ | v <;> cases h <;> rfl
  signalWidth s ty h := by
    rcases s with _ | s <;> cases h
    rfl
  constant v bits ty h := by
    rcases v with _ | _ | _ | _ | _ | v <;> cases h
    · exact .cons rfl (.cons rfl (.cons rfl .nil))
    · exact .cons rfl (.cons rfl (.cons rfl .nil))
  read v reference ty h := by
    rcases v with _ | _ | _ | _ | _ | v <;> cases h
    rfl
  operation o stored ty bits h hty hbits := by
    rcases o with _ | _ | o <;> cases h
    · cases hbits
      decide
    · cases hty
      cases hbits
      decide
  connect c offset s bit stored _ _ h _ _ := by cases h

/-- The scaled index is bounded by its type and a multiple of eight, which the subtraction cuts
to four. -/
theorem scaledIndex_sound :
    ∃ reports analysis, ([Query.range 2, .alignment 2, .range 4, .alignment 4].mapM
        (Query.ask scaledIndex)).run (.new scaledIndex) = .ok (reports, analysis) ∧
      List.Forall₂ (Report.Holds scaledWord) [.range 2, .alignment 2, .range 4, .alignment 4] reports :=
  unsigned_value_analysis_sound scaledIndex (by decide) scaledWord _ scaledWord_satisfies _

end Opto.Word
