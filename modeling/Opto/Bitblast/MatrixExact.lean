import Mathlib.Tactic.LinearCombination
import Opto.Bitblast.CompressorExact

/-!
# Matrices are reduced exactly

The value of a matrix is the weighted sum of its bits and of its correction. Whatever the
schedule, the two vectors that a reduction returns add up to it modulo the width.
-/

namespace Opto.Bitblast

open Word Growing

variable {σ ε β : Type} [BitBackend σ ε β] {W : Meaning σ ε β} {s : σ}

/-! From rows to columns and back. -/

theorem ColumnsCarry.congr {columns : List (BitColumn β)} {a b : Int} (h : ColumnsCarry W s columns a)
    (hab : a ≡ b [ZMOD 2 ^ columns.length]) : ColumnsCarry W s columns b := by
  induction columns generalizing a b with
  | nil => exact trivial
  | cons column columns ih =>
    obtain ⟨k, y, hk, hy, rfl⟩ := h
    obtain ⟨q, hq⟩ := hab.dvd
    have hdvd : b = (k : Int) + 2 * (y + 2 ^ columns.length * q) := by
      rw [List.length_cons, pow_succ'] at hq
      linear_combination hq
    exact ⟨k, _, hk, ih hy (Int.modEq_iff_dvd.mpr ⟨q, by ring⟩), hdvd⟩

theorem columnsCarry_empty (n : Nat) : ColumnsCarry W s (List.replicate n []) 0 := by
  induction n with
  | zero => exact trivial
  | succ n ih => exact ⟨0, 0, rfl, ih, rfl⟩

theorem SlotReads.counts {bit : Option β} {a : Bool} (h : SlotReads W s bit a) :
    Counts W s bit.toList a.toNat := by
  cases bit with
  | none =>
    cases h
    rfl
  | some x => exact ⟨a, 0, h, rfl, rfl⟩

theorem length_pushToColumns {columns : List (BitColumn β)} {row : BitRow β}
    (h : row.length = columns.length) : (pushToColumns columns row).length = columns.length := by
  simp [pushToColumns, h]

theorem pushToColumns_carry {columns : List (BitColumn β)} {row : BitRow β} {y z : Int}
    (h : ColumnsCarry W s columns z) (hrow : RowCarries W s row y)
    (hlength : row.length = columns.length) :
    ColumnsCarry W s (pushToColumns columns row) (z + y) := by
  induction columns generalizing row y z with
  | nil =>
    rw [List.length_nil, List.length_eq_zero_iff] at hlength
    subst hlength
    exact trivial
  | cons column columns ih =>
    match row with
    | bit :: row =>
      obtain ⟨k, x, hk, hx, rfl⟩ := h
      have hrest := ih hx hrow.2 (Nat.succ.inj hlength)
      refine ⟨k + (odd y).toNat, x + y / 2, counts_append hk hrow.1.counts, hrest, ?_⟩
      have hy := odd_add_half y
      push_cast
      linear_combination hy

theorem pushRows_carry {width : Nat} {rows : List (BitRow β)} {columns : List (BitColumn β)} {y z : Int}
    (h : ColumnsCarry W s columns y) (hlength : columns.length = width)
    (hrows : RowsCarry W s width rows z) :
    (rows.foldl pushToColumns columns).length = width ∧
      ColumnsCarry W s (rows.foldl pushToColumns columns) (y + z) := by
  induction rows generalizing columns y z with
  | nil =>
    refine ⟨hlength, h.congr ?_⟩
    rw [hlength]
    simpa using (Int.ModEq.add_left y hrows).symm
  | cons row rows ih =>
    obtain ⟨x, hrow, hx, hrest⟩ := hrows
    have hpush := pushToColumns_carry h hx (hrow.trans hlength.symm)
    have hpushed := (length_pushToColumns (hrow.trans hlength.symm)).trans hlength
    have hrows := ih hpush hpushed hrest
    have hsum : y + x + (z - x) = y + z := by ring
    rwa [hsum] at hrows

theorem rowsToColumns_carry {width : Nat} {rows : List (BitRow β)} {z : Int}
    (h : RowsCarry W s width rows z) :
    (rowsToColumns rows width).length = width ∧ ColumnsCarry W s (rowsToColumns rows width) z := by
  have hrows := pushRows_carry (columnsCarry_empty width) (List.length_replicate ..) h
  rwa [zero_add] at hrows

theorem le_foldl_max (heights : List Nat) (start : Nat) :
    start ≤ heights.foldl max start ∧ ∀ height ∈ heights, height ≤ heights.foldl max start := by
  induction heights generalizing start with
  | nil => exact ⟨le_refl start, fun _ h => by cases h⟩
  | cons first heights ih =>
    obtain ⟨hstart, hrest⟩ := ih (max start first)
    rw [List.foldl_cons, List.forall_mem_cons]
    exact ⟨by omega, by omega, hrest⟩

theorem reduceColumnsDadda_emits {columns : List (BitColumn β)} {z : Int}
    (h : ColumnsCarry W s columns z) :
    W.Emits s (reduceColumnsDadda columns) fun r t =>
      r.length ≤ 2 ∧ RowsCarry W t columns.length r z := by
  have hmaximum : ∀ column ∈ columns, column.length ≤ (columns.map List.length).foldl max 0 :=
    fun column hcolumn => (le_foldl_max _ _).2 _ (List.mem_map_of_mem hcolumn)
  apply Emits.bind (daddaTargets_emits (by decide) h hmaximum)
  intro r t _ ⟨hlength, hshort, hcarry⟩
  have hany : ¬r.any (2 < ·.length) := by simpa using hshort
  rw [if_neg hany, ← hlength]
  exact columnsToRows_emits hcarry hshort

theorem carries_zeros {zero : β} (hzero : W.Reads s zero false) (n : Nat) :
    W.Carries s (List.replicate n zero) 0 := by
  induction n with
  | zero => exact trivial
  | succ n ih => exact ⟨hzero, ih⟩

variable (W) in
/-- Two vectors of the width that add up to `z`. -/
def SumsTo (s : σ) (width : Nat) (vectors : List β × List β) (z : Int) : Prop :=
  vectors.1.length = width ∧ vectors.2.length = width ∧ ∃ a b : Int,
    W.Carries s vectors.1 a ∧ W.Carries s vectors.2 b ∧ a + b ≡ z [ZMOD 2 ^ width]

theorem rowsToVectors_emits {width : Nat} {rows : List (BitRow β)} {zero : β} {z : Int}
    (h : RowsCarry W s width rows z) (hshort : rows.length ≤ 2) (hzero : W.Reads s zero false) :
    W.Emits s (rowsToVectors rows width zero) fun r t => SumsTo W t width r z := by
  match rows with
  | [] =>
    have hzeros := carries_zeros hzero width
    exact Emits.pure ⟨List.length_replicate .., List.length_replicate .., 0, 0, hzeros, hzeros, h.symm⟩
  | [left] =>
    obtain ⟨a, hleft, ha, hrest⟩ := h
    have hsum := (hrest.add_right a).symm
    rw [zero_add, sub_add_cancel] at hsum
    exact Emits.pure ⟨(List.length_map _).trans hleft, List.length_replicate .., a, 0, ha.fill hzero,
      carries_zeros hzero width, by rwa [add_zero]⟩
  | [left, right] =>
    obtain ⟨a, hleft, ha, b, hright, hb, hrest⟩ := h
    have hsum := (hrest.add_right (a + b)).symm
    rw [zero_add, sub_sub, sub_add_cancel] at hsum
    exact Emits.pure ⟨(List.length_map _).trans hleft, (List.length_map _).trans hright, a, b,
      ha.fill hzero, hb.fill hzero, hsum⟩
  | _ :: _ :: _ :: _ => simp at hshort

theorem reduceRows_emits (schedule : CompressionSchedule) {width : Nat} {rows : List (BitRow β)} {z : Int}
    (h : RowsCarry W s width rows z) :
    W.Emits s (reduceRows schedule rows width) fun r t => r.length ≤ 2 ∧ RowsCarry W t width r z := by
  obtain ⟨hwidth, hcolumns⟩ := rowsToColumns_carry h
  cases schedule with
  | serial => exact reduceRowsSerial_emits h
  | balanced => exact reduceRowsBalanced_emits _ h (by omega)
  | wallace =>
    have hwallace := reduceColumnsWallace_emits _ hcolumns (Nat.lt_succ_self _)
    rwa [hwidth] at hwallace
  | dadda =>
    have hdadda := reduceColumnsDadda_emits hcolumns
    rwa [hwidth] at hdadda

/-! The correction. -/

/-- A signed unit. -/
def sign (negative : Bool) : Int := if negative then -1 else 1

theorem addOne_digits (negative : Bool) (z : Int) (n : Nat) :
    BitMatrix.addOne negative (digits z n) = digits (z + sign negative) n := by
  induction n generalizing z with
  | zero => rfl
  | succ n ih =>
    have hz := odd_toNat z
    have hflip : odd (z + sign negative) = !odd z := by
      rw [odd_eq_iff]
      cases hodd : odd z <;> cases negative <;> simp [hodd, sign] at hz ⊢ <;> omega
    have hhalf : (z + sign negative) / 2 = if odd z ^^ negative then z / 2 + sign negative else z / 2 := by
      cases hodd : odd z <;> cases negative <;> simp [hodd, sign] at hz ⊢ <;> omega
    rw [digits_succ, digits_succ, BitMatrix.addOne, hflip, hhalf]
    split_ifs with hcarry
    · rw [ih]
    · rfl

theorem correction_power (negative : Bool) (z : Int) {column width : Nat} (h : column ≤ width) :
    (digits z width).take column ++ BitMatrix.addOne negative ((digits z width).drop column) =
      digits (z + sign negative * 2 ^ column) width := by
  obtain ⟨n, rfl⟩ := Nat.exists_eq_add_of_le h
  have hlow : z ≡ z + sign negative * 2 ^ column [ZMOD 2 ^ column] :=
    Int.modEq_iff_dvd.mpr ⟨sign negative, by ring⟩
  have hhigh : (z + sign negative * 2 ^ column) / 2 ^ column = z / 2 ^ column + sign negative :=
    Int.add_mul_ediv_right _ _ (by positivity)
  rw [digits_add, digits_add, hhigh, ← addOne_digits, ← digits_congr hlow]
  rw [List.take_left' (length_digits ..), List.drop_left' (length_digits ..)]

/-! Matrices. -/

variable (W) in
/-- The rows and the correction make up `z`. -/
def MatrixCarries (s : σ) (matrix : BitMatrix β) (z : Int) : Prop :=
  ∃ c : Int, matrix.correction = digits c matrix.width ∧ RowsCarry W s matrix.width matrix.rows (z - c)

theorem MatrixCarries.mono {t : σ} {matrix : BitMatrix β} {z : Int} (h : MatrixCarries W s matrix z)
    (hgrows : W.Grows s t) : MatrixCarries W t matrix z := by
  obtain ⟨c, hc, hrows⟩ := h
  exact ⟨c, hc, hrows.mono hgrows⟩

theorem MatrixCarries.congr {matrix : BitMatrix β} {a b : Int} (h : MatrixCarries W s matrix a)
    (hab : a ≡ b [ZMOD 2 ^ matrix.width]) : MatrixCarries W s matrix b := by
  obtain ⟨c, hc, hrows⟩ := h
  exact ⟨c, hc, hrows.congr (hab.sub_right c)⟩

theorem matrixCarries_new (width : Nat) : MatrixCarries W s (BitMatrix.new width) 0 :=
  ⟨0, (digits_zero width).symm, Int.ModEq.refl 0⟩

theorem rowCarries_zeros {row : BitRow β} {z : Int} (h : RowCarries W s row z)
    (hzeros : ∀ slot ∈ row, ∀ a, SlotReads W s slot a → a = false) : z ≡ 0 [ZMOD 2 ^ row.length] := by
  rw [modEq_iff_digits]
  intro i hi
  have hslot := rowCarries_iff.mp h i row[i] (List.getElem?_eq_getElem hi)
  rw [hzeros _ (List.getElem_mem hi) _ hslot, digit, Int.zero_ediv]
  rfl

theorem rowCarries_missing {row : BitRow β} {z : Int} (h : RowCarries W s row z)
    (hmissing : ¬row.any Option.isSome) : z ≡ 0 [ZMOD 2 ^ row.length] := by
  apply rowCarries_zeros h
  intro slot hslot a ha
  cases slot with
  | none => exact ha
  | some x => exact (hmissing (List.any_eq_true.mpr ⟨some x, hslot, rfl⟩)).elim

theorem MatrixCarries.pushRow {matrix : BitMatrix β} {row : BitRow β} {y z : Int}
    (h : MatrixCarries W s matrix z) (hlength : row.length = matrix.width) (hrow : RowCarries W s row y) :
    MatrixCarries W s (matrix.pushRow row) (z + y) := by
  obtain ⟨c, hc, hrows⟩ := h
  rw [BitMatrix.pushRow]
  split_ifs with hsome
  · refine ⟨c, hc, ?_⟩
    have happend := rowsCarry_append hrows (rowsCarry_single hlength hrow)
    rwa [sub_add_eq_add_sub] at happend
  · have hy := rowCarries_missing hrow hsome
    rw [hlength] at hy
    have hsum := (hy.add_left z).symm
    rw [add_zero] at hsum
    exact MatrixCarries.congr ⟨c, hc, hrows⟩ hsum

@[simp] theorem width_pushRow (matrix : BitMatrix β) (row : BitRow β) :
    (matrix.pushRow row).width = matrix.width := by
  rw [BitMatrix.pushRow]
  split_ifs <;> rfl

theorem MatrixCarries.addCorrectionPower {matrix : BitMatrix β} {z : Int}
    (h : MatrixCarries W s matrix z) (column : Nat) (negative : Bool) :
    MatrixCarries W s (matrix.addCorrectionPower column negative) (z + sign negative * 2 ^ column) := by
  obtain ⟨c, hc, hrows⟩ := h
  rw [BitMatrix.addCorrectionPower]
  split_ifs with hcolumn
  · apply MatrixCarries.congr ⟨c, hc, hrows⟩
    obtain ⟨n, hn⟩ := Nat.exists_eq_add_of_le hcolumn
    rw [hn, pow_add]
    exact Int.modEq_iff_dvd.mpr ⟨sign negative * 2 ^ n, by ring⟩
  · refine ⟨c + sign negative * 2 ^ column, ?_, ?_⟩
    · simp only [hc]
      exact correction_power negative c (by omega)
    · have hrest : z + sign negative * 2 ^ column - (c + sign negative * 2 ^ column) = z - c := by ring
      simpa only [hrest] using hrows

@[simp] theorem width_addCorrectionPower (matrix : BitMatrix β) (column : Nat) (negative : Bool) :
    (matrix.addCorrectionPower column negative).width = matrix.width := by
  rw [BitMatrix.addCorrectionPower]
  split_ifs <;> rfl

theorem correctionRow {one : β} (hone : W.Reads s one true) (z : Int) (n : Nat) :
    RowCarries W s ((digits z n).map fun bit => if bit then some one else none) z := by
  induction n generalizing z with
  | zero => exact trivial
  | succ n ih =>
    rw [digits_succ]
    refine ⟨?_, ih (z / 2)⟩
    cases odd z
    · rfl
    · exact hone

theorem MatrixCarries.rows {matrix : BitMatrix β} {one : β} {z : Int} (h : MatrixCarries W s matrix z)
    (hone : W.Reads s one true) :
    RowsCarry W s matrix.width (matrix.takeRowsWithCorrection one) z := by
  obtain ⟨c, hc, hrows⟩ := h
  rw [BitMatrix.takeRowsWithCorrection]
  split_ifs with hany
  · rw [hc]
    have happend := rowsCarry_append hrows
      (rowsCarry_single (by simp) (correctionRow hone c matrix.width))
    rwa [sub_add_cancel] at happend
  · apply hrows.congr
    have hzero : c ≡ 0 [ZMOD 2 ^ matrix.width] := by
      rw [modEq_iff_digits]
      intro i hi
      have hdigit : digit c i ∈ matrix.correction := by
        rw [hc]
        exact List.mem_map_of_mem (List.mem_range.mpr hi)
      have hfalse : digit c i = false := by
        simp only [List.any_eq_true, not_exists, not_and, id] at hany
        exact Bool.eq_false_iff.mpr (hany _ hdigit)
      rw [hfalse, digit, Int.zero_ediv]
      rfl
    simpa using hzero.sub_left z

theorem reduceMatrix_emits {matrix : BitMatrix β} {zero one : β} {z : Int}
    (h : MatrixCarries W s matrix z) (schedule : CompressionSchedule) (hzero : W.Reads s zero false)
    (hone : W.Reads s one true) :
    W.Emits s (reduceMatrix matrix schedule zero one) fun r t => SumsTo W t matrix.width r z := by
  apply Emits.bind (reduceRows_emits schedule (h.rows hone))
  intro rows t hgrows ⟨hshort, hrows⟩
  exact rowsToVectors_emits hrows hshort (W.mono hgrows hzero)

/-! The value of a matrix. -/

/-- The bits, weighted by their columns. -/
def weight : List Bool → Int
  | [] => 0
  | bit :: bits => bit.toNat + 2 * weight bits

namespace BitMatrix

def WellFormed (matrix : BitMatrix β) : Prop :=
  (∀ row ∈ matrix.rows, row.length = matrix.width) ∧ matrix.correction.length = matrix.width

/-- A row's value when `v` says what its bits are. -/
def rowValue (v : β → Bool) (row : BitRow β) : Int := weight (row.map (·.any v))

def value (v : β → Bool) (matrix : BitMatrix β) : Int :=
  (matrix.rows.map (rowValue v)).sum + weight matrix.correction

end BitMatrix

theorem digits_weight (bits : List Bool) : digits (weight bits) bits.length = bits := by
  induction bits with
  | nil => rfl
  | cons bit bits ih => rw [List.length_cons, digits_succ, weight, odd_cast_add, half_cast_add, ih]

theorem rowCarries_value {v : β → Bool} {row : BitRow β}
    (h : ∀ x, some x ∈ row → W.Reads s x (v x)) : RowCarries W s row (BitMatrix.rowValue v row) := by
  induction row with
  | nil => exact trivial
  | cons bit row ih =>
    rw [BitMatrix.rowValue, List.map_cons, weight, RowCarries, odd_cast_add, half_cast_add]
    refine ⟨?_, ih fun x hx => h x (List.mem_cons_of_mem bit hx)⟩
    cases bit with
    | none => rfl
    | some x => exact h x List.mem_cons_self

theorem rowsCarry_value {v : β → Bool} {width : Nat} {rows : List (BitRow β)}
    (hwidth : ∀ row ∈ rows, row.length = width)
    (h : ∀ row ∈ rows, ∀ x, some x ∈ row → W.Reads s x (v x)) :
    RowsCarry W s width rows (rows.map (BitMatrix.rowValue v)).sum := by
  induction rows with
  | nil => exact Int.ModEq.refl 0
  | cons row rows ih =>
    have hrow := rowsCarry_single (hwidth row List.mem_cons_self) (rowCarries_value (h row List.mem_cons_self))
    exact rowsCarry_append hrow (ih (fun other hother => hwidth other (List.mem_cons_of_mem row hother))
      fun other hother => h other (List.mem_cons_of_mem row hother))

theorem matrixCarries_value {v : β → Bool} {matrix : BitMatrix β} (hmatrix : matrix.WellFormed)
    (h : ∀ row ∈ matrix.rows, ∀ x, some x ∈ row → W.Reads s x (v x)) :
    MatrixCarries W s matrix (matrix.value v) := by
  refine ⟨weight matrix.correction, ?_, ?_⟩
  · rw [← hmatrix.2, digits_weight]
  · rw [BitMatrix.value, add_sub_cancel_right]
    exact rowsCarry_value hmatrix.1 h

/-- The reduction finishes, and its vectors add up to the bits and the correction. -/
theorem reduction_exact (W : Meaning σ ε β) (s : σ) (matrix : BitMatrix β)
    (schedule : CompressionSchedule) (zero one : β) (v : β → Bool) (hmatrix : matrix.WellFormed)
    (hbits : ∀ row ∈ matrix.rows, ∀ x, some x ∈ row → W.Reads s x (v x))
    (hzero : W.Reads s zero false) (hone : W.Reads s one true) :
    W.Emits s (reduceMatrix matrix schedule zero one) fun r t =>
      SumsTo W t matrix.width r (matrix.value v) :=
  reduceMatrix_emits (matrixCarries_value hmatrix hbits) schedule hzero hone

open Logic in
/-- Four rows of two ones and a correction. -/
theorem ones_reduced :
    (AxmBackend.meaning fun _ => false).Emits LogicBuilder.new
      (reduceMatrix ⟨2, List.replicate 4 [some .TRUE, some .TRUE], [false, true]⟩ .dadda .FALSE .TRUE)
      fun r t => SumsTo (AxmBackend.meaning fun _ => false) t 2 r 14 := by
  apply reduction_exact (AxmBackend.meaning fun _ => false) LogicBuilder.new
    ⟨2, List.replicate 4 [some .TRUE, some .TRUE], [false, true]⟩ .dadda .FALSE .TRUE fun _ => true
  · exact ⟨by decide, rfl⟩
  · intro row hrow x hx
    obtain rfl := List.eq_of_mem_replicate hrow
    simp only [List.mem_cons, Option.some.injEq, List.not_mem_nil, or_false, or_self] at hx
    subst hx
    exact AxmBackend.reads_constant inv_new true
  · exact AxmBackend.reads_constant inv_new false
  · exact AxmBackend.reads_constant inv_new true

end Opto.Bitblast
