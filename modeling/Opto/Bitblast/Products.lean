import Opto.Bitblast.Coefficients

/-!
# Variable products

The radix-4 digits of the multiplier and the signed bits of an operand add up to the
integers that the operands stand for, modulo the width of the result. Every row of a
product matrix is one of these digits times the other operand.
-/

namespace Opto.Bitblast

open Word Growing TwosComplement

variable {σ ε β : Type} [BitBackend σ ε β] {W : Meaning σ ε β} {s : σ}

/-! Rows built slot by slot. -/

theorem mapM_range_slots {f : Nat → BlastM σ ε (Option β)} {n : Nat} {z : Int}
    (hf : ∀ i < n, ∀ t, W.Grows s t → W.Emits t (f i) fun slot u => SlotReads W u slot (digit z i)) :
    W.Emits s ((List.range n).mapM f) fun r t => r.length = n ∧ RowCarries W t r z := by
  have hall : W.Emits s ((List.range n).mapM f) fun r t => r.length = (List.range n).length ∧
      ∀ (i : Nat) (slot : Option β), r[i]? = some slot → SlotReads W t slot (digit z i) := by
    apply Emits.mapM (fun _ _ _ _ hgrows h => h.mono hgrows)
    intro i x hx t hgrows
    obtain ⟨hi, rfl⟩ := List.getElem?_eq_some_iff.mp hx
    rw [List.length_range] at hi
    rw [List.getElem_range]
    exact hf i hi t hgrows
  apply hall.mono
  intro r t _ ⟨hlength, hslots⟩
  exact ⟨hlength.trans List.length_range, rowCarries_iff.mpr hslots⟩

theorem odd_add_double (z k : Int) : odd (z + 2 * k) = odd z := by
  have hz := odd_toNat z
  rw [odd_eq_iff]
  omega

theorem half_add_double (z k : Int) : (z + 2 * k) / 2 = z / 2 + k := by omega

theorem RowCarries.set {row : BitRow β} {z : Int} {column : Nat} {x : β} {a : Bool}
    (h : RowCarries W s row z) (hnone : row[column]? = some none) (hx : W.Reads s x a) :
    RowCarries W s (row.set column (some x)) (z + a.toNat * 2 ^ column) := by
  induction row generalizing z column with
  | nil => simp at hnone
  | cons slot row ih =>
    obtain ⟨hslot, hrow⟩ := h
    cases column with
    | zero =>
      rw [List.getElem?_cons_zero, Option.some.injEq] at hnone
      rw [hnone] at hslot
      have heven : odd z = false := hslot
      have hz := odd_add_half z
      rw [heven, Bool.toNat_false, Nat.cast_zero, zero_add] at hz
      have hsum : z + a.toNat * 2 ^ 0 = a.toNat + 2 * (z / 2) := by linear_combination hz
      rw [hsum]
      refine ⟨?_, ?_⟩
      · rw [odd_cast_add]
        exact hx
      · rwa [half_cast_add]
    | succ column =>
      have hsum : z + a.toNat * 2 ^ (column + 1) = z + 2 * (a.toNat * 2 ^ column) := by ring
      rw [hsum]
      refine ⟨?_, ?_⟩
      · rwa [odd_add_double]
      · rw [half_add_double]
        exact ih hrow hnone

theorem getElem?_zipIdx_split {α : Type} {xs : List α} {done rest : List (α × Nat)} {entry : α × Nat}
    (h : done ++ entry :: rest = xs.zipIdx) :
    xs[done.length]? = some entry.1 ∧ entry.2 = done.length := by
  have hentry : xs.zipIdx[done.length]? = some entry := by
    rw [← h, List.getElem?_append_right (Nat.le_refl _), Nat.sub_self]
    rfl
  rw [List.getElem?_zipIdx, Nat.zero_add] at hentry
  obtain ⟨x, hx, rfl⟩ := Option.map_eq_some_iff.mp hentry
  exact ⟨hx, rfl⟩

theorem unsignedOperandBits_emits {value : Operand β} {x : Nat} (h : Holds W s value x) {n : Nat}
    (hn : n ≤ value.ty.width) :
    Returns W s ((List.range n).mapM (unsignedOperandBit value)) n x := by
  apply mapM_range_carries
  intro i hi t hgrows
  apply Emits.bind (bit_emits (h.mono hgrows) (by omega))
  exact fun b u _ hb => W.unsigned_emits hb

theorem unsignedResizedBits_emits {value : Operand β} {x : Nat} (h : Holds W s value x) (width : Nat) :
    Returns W s ((List.range width).mapM (unsignedResizedBit value)) width
      (value.reading value.ty.signed x) := by
  apply mapM_range_carries
  intro i _ t hgrows
  apply Emits.bind (resizedBit_emits (h.mono hgrows) i value.ty.signed)
  exact fun b u _ hb => W.unsigned_emits hb

/-! Low digits. -/

theorem emod_pow_succ (z : Int) (k : Nat) :
    z % 2 ^ (k + 1) = z % 2 ^ k + (digit z k).toNat * 2 ^ k := by
  have hdigit := odd_add_half (z / 2 ^ k)
  have hshift := shift_add z k 1
  rw [pow_one] at hshift
  rw [← hshift] at hdigit
  have hlow := Int.mul_ediv_add_emod z (2 ^ k)
  have hhigh := Int.mul_ediv_add_emod z (2 ^ (k + 1))
  rw [digit]
  linear_combination hhigh - hlow + 2 ^ k * hdigit

/-! The signed bits of an operand. -/

theorem sign_xor (a b : Bool) : sign (a ^^ b) = sign a * sign b := by
  cases a <;> cases b <;> rfl

/-- The first `k` of `n` bits, the last one negative when it is a sign. -/
def signedSum (negative : Bool) (n : Nat) (x : Int) : Nat → Int
  | 0 => 0
  | k + 1 => signedSum negative n x k +
      sign (negative && k = n - 1) * ((digit x k).toNat * 2 ^ k)

theorem signedSum_low (negative : Bool) (n : Nat) (x : Int) {k : Nat} (hk : k < n ∨ negative = false) :
    signedSum negative n x k = x % 2 ^ k := by
  induction k with
  | zero => simp [signedSum]
  | succ k ih =>
    have hplain : sign (negative && k = n - 1) = 1 := by
      rcases hk with hk | hk
      · rw [decide_eq_false (by omega), Bool.and_false, sign, if_neg Bool.false_ne_true]
      · rw [hk, Bool.false_and, sign, if_neg Bool.false_ne_true]
    rw [signedSum, ih (hk.imp_left (by omega)), hplain, emod_pow_succ, one_mul]

/-- The sign bit counts negative. -/
theorem read_sign {n x : Nat} (hx : x < 2 ^ (n + 1)) :
    read true (n + 1) x = x - (digit (x : Int) n).toNat * 2 ^ (n + 1) := by
  have hpow : 2 ^ (n + 1) = 2 * 2 ^ n := pow_succ' 2 n
  have hcast : ((2 ^ n : Nat) : Int) = 2 ^ n := by simp
  by_cases hneg : 2 ^ (n + 1) ≤ 2 * x
  · have hone : (x : Int) / 2 ^ n = 1 := (Int.ediv_eq_iff_of_pos (by positivity)).mpr (by omega)
    have hdigit : digit (x : Int) n = true := by
      rw [digit, hone]
      rfl
    rw [read_negative hneg, hdigit, Bool.toNat_true, Nat.cast_one, one_mul]
  · rw [read_nonneg _ (by omega), digit_small (by omega) (by omega), Bool.toNat_false]
    simp

/-- All bits make up what the operand stands for. -/
theorem signedSum_reading {value : Operand β} {x : Nat} (hx : x < 2 ^ value.ty.width) (width : Nat) :
    signedSum (value.ty.signed && value.ty.width ≤ width) (min value.ty.width width) x
      (min value.ty.width width) ≡ value.reading value.ty.signed x [ZMOD 2 ^ width] := by
  have hpositive := value.ty.positive
  have hcast : ((2 ^ value.ty.width : Nat) : Int) = 2 ^ value.ty.width := by simp
  rw [Operand.reading, Bool.and_self]
  by_cases hle : value.ty.width ≤ width
  · have hsmall : (x : Int) % 2 ^ value.ty.width = x := Int.emod_eq_of_lt (by omega) (by omega)
    rw [decide_eq_true hle, Bool.and_true, Nat.min_eq_left hle]
    cases value.ty.signed with
    | false => rw [signedSum_low false _ _ (.inr rfl), hsmall, read_unsigned]
    | true =>
      obtain ⟨n, hn⟩ := Nat.exists_eq_add_of_lt hpositive
      rw [Nat.zero_add] at hn
      rw [hn] at hx hsmall ⊢
      have hlow := emod_pow_succ (x : Int) n
      rw [hsmall] at hlow
      rw [signedSum, signedSum_low true (n + 1) _ (.inl (by omega)), Nat.add_sub_cancel,
        decide_eq_true rfl, Bool.and_true, sign, if_pos rfl, read_sign hx]
      apply congrArg (· % _)
      linear_combination -hlow
  · have hread := modEq_of_le (Nat.le_of_lt (not_le.mp hle)) (read_modEq value.ty.signed value.ty.width x)
    rw [decide_eq_false hle, Bool.and_false, signedSum_low false _ _ (.inr rfl),
      Nat.min_eq_right (by omega)]
    exact (Int.mod_modEq _ _).trans hread.symm

/-! The array of pairs. -/

section Array

variable {width row m : Nat} {x : Int} {leftBits : List β} {leftSign rowSign : Bool}

/-- A pair adds its bit, or takes it away by its complement and a unit. -/
theorem arrayPosition_emits {right : β} {b : Bool} {negative : Nat → Bool}
    {acc : BitRow β × BitMatrix β} {left : β × Nat} {a : Bool} {y z : Int}
    (hleft : W.Reads s left.1 a) (hright : W.Reads s right b) (hlength : acc.1.length = width)
    (hfree : ∀ k, left.2 + row ≤ k → k < width → acc.1[k]? = some none)
    (hrow : RowCarries W s acc.1 y) (hmatrix : Totals W s width acc.2 z) :
    W.Emits s (arrayPosition width row right negative acc left) fun r t =>
      r.1.length = width ∧ (∀ k, left.2 + 1 + row ≤ k → k < width → r.1[k]? = some none) ∧
        ∃ y' z', RowCarries W t r.1 y' ∧ Totals W t width r.2 z' ∧
          y' + z' ≡ y + z + sign (negative left.2) * ((a && b).toNat * 2 ^ (left.2 + row))
            [ZMOD 2 ^ width] := by
  rw [arrayPosition]
  split_ifs with hcolumn hnegative
  · refine Emits.pure ⟨hlength, fun k hk hlt => by omega, y, z, hrow, hmatrix, ?_⟩
    obtain ⟨n, hn⟩ := Nat.exists_eq_add_of_le hcolumn
    rw [hn, pow_add]
    exact Int.modEq_iff_dvd.mpr ⟨sign (negative left.2) * ((a && b).toNat * 2 ^ n), by ring⟩
  · apply Emits.bind (W.and_emits hleft hright)
    intro term t hgrows hterm
    apply Emits.bind (W.not_emits hterm)
    intro inverted u hlater hinverted
    have hslot := hfree (left.2 + row) (Nat.le_refl _) (by omega)
    have hset := (hrow.mono (W.trans hgrows hlater)).set hslot hinverted
    have hpower := (hmatrix.mono (W.trans hgrows hlater)).addCorrectionPower (left.2 + row) true
    refine Emits.pure ⟨by rw [List.length_set, hlength], ?_, _, _, hset, hpower, ?_⟩
    · intro k hk hlt
      rw [List.getElem?_set_ne (by omega)]
      exact hfree k (by omega) hlt
    · rw [hnegative, sign, if_pos rfl]
      apply congrArg (· % _)
      cases a && b <;> simp only [Bool.not_true, Bool.not_false, Bool.toNat_true, Bool.toNat_false] <;>
        push_cast <;> ring
  · apply Emits.bind (W.and_emits hleft hright)
    intro term t hgrows hterm
    have hslot := hfree (left.2 + row) (Nat.le_refl _) (by omega)
    have hset := (hrow.mono hgrows).set hslot hterm
    refine Emits.pure ⟨by rw [List.length_set, hlength], ?_, _, _, hset, hmatrix.mono hgrows, ?_⟩
    · intro k hk hlt
      rw [List.getElem?_set_ne (by omega)]
      exact hfree k (by omega) hlt
    · rw [Bool.eq_false_iff.mpr hnegative, sign, if_neg Bool.false_ne_true, one_mul]
      apply congrArg (· % _)
      ring

theorem and_toNat (a b : Bool) : ((a && b).toNat : Int) = a.toNat * b.toNat := by
  cases a <;> cases b <;> rfl

/-- A row of the array is the signed bit of one operand times the other operand. -/
theorem arrayRow_emits {matrix : BitMatrix β} {right : β × Nat} {b : Bool} {z : Int} {rightSign : Bool}
    (hleft : W.Carries s leftBits x) (hright : W.Reads s right.1 b) (hmatrix : Totals W s width matrix z) :
    Collects W s (arrayRow width leftBits leftSign m rightSign matrix right) width
      (z + sign (rightSign && right.2 = m - 1) * (b.toNat * 2 ^ right.2) *
        signedSum leftSign leftBits.length x leftBits.length) := by
  have hloop := Emits.foldlM (W := W.toGrowing) (s := s) (l := leftBits.zipIdx)
    (b := (List.replicate width none, matrix))
    (f := arrayPosition width right.2 right.1 fun i =>
      (leftSign && i = leftBits.length - 1) ^^ (rightSign && right.2 = m - 1))
    (fun done r t => r.1.length = width ∧
      (∀ k, done.length + right.2 ≤ k → k < width → r.1[k]? = some none) ∧
        ∃ y' z', RowCarries W t r.1 y' ∧ Totals W t width r.2 z' ∧
          y' + z' ≡ z + sign (rightSign && right.2 = m - 1) * (b.toNat * 2 ^ right.2) *
            signedSum leftSign leftBits.length x done.length [ZMOD 2 ^ width])
    ⟨List.length_replicate .., ?_, 0, z, rowCarries_none width, hmatrix, ?_⟩ ?_
  · apply Emits.bind hloop
    intro r t _ ⟨hlength, _, y', z', hy', hz', hmod⟩
    rw [List.length_zipIdx] at hmod
    exact Emits.pure ((hz'.pushRow hlength hy').congr (by rwa [add_comm]))
  · intro k _ hk
    rw [List.getElem?_replicate, if_pos hk]
  · rw [List.length_nil, signedSum]
    simp
  · intro done entry rest hsplit r t hgrows ⟨hlength, hfree, y', z', hy', hz', hmod⟩
    obtain ⟨hentry, hindex⟩ := getElem?_zipIdx_split hsplit
    have hread := (hleft.mono hgrows).read hentry
    rw [← hindex] at hfree
    apply (arrayPosition_emits hread (W.mono hgrows hright) hlength hfree hy' hz').mono
    intro r u _ ⟨hlength, hfree, y'', z'', hy'', hz'', hmod'⟩
    rw [hindex] at hfree
    refine ⟨hlength, ?_, y'', z'', hy'', hz'', ?_⟩
    · rw [List.length_append, List.length_singleton]
      exact hfree
    · apply hmod'.trans
      apply (hmod.add_right _).trans
      rw [List.length_append, List.length_singleton, signedSum, sign_xor, and_toNat, hindex]
      apply congrArg (· % _)
      ring

theorem arrayProductMatrix_emits {left right : Operand β} {x y : Nat} (hx : Holds W s left x)
    (hy : Holds W s right y) (resultTy : WordType) :
    Collects W s (arrayProductMatrix left right resultTy) resultTy.width
      (left.reading left.ty.signed x * right.reading right.ty.signed y) := by
  apply Emits.bind (unsignedOperandBits_emits hx (Nat.min_le_left _ resultTy.width))
  intro leftBits s₁ g₁ ⟨hleftLength, hleft⟩
  apply Emits.bind (unsignedOperandBits_emits (hy.mono g₁) (Nat.min_le_left _ resultTy.width))
  intro rightBits s₂ g₂ ⟨hrightLength, hright⟩
  have hleft := hleft.mono g₂
  have hloop := Emits.foldlM (W := W.toGrowing) (s := s₂) (l := rightBits.zipIdx)
    (b := BitMatrix.new resultTy.width)
    (f := arrayRow resultTy.width leftBits (left.ty.signed && left.ty.width ≤ resultTy.width)
      rightBits.length (right.ty.signed && right.ty.width ≤ resultTy.width))
    (fun done matrix t => Totals W t resultTy.width matrix
      (signedSum (right.ty.signed && right.ty.width ≤ resultTy.width) rightBits.length y done.length *
        signedSum (left.ty.signed && left.ty.width ≤ resultTy.width) leftBits.length x leftBits.length))
    ?_ ?_
  · apply hloop.mono
    intro matrix t _ hmatrix
    apply hmatrix.congr
    rw [List.length_zipIdx, hleftLength, hrightLength, mul_comm]
    exact (signedSum_reading hx.1 resultTy.width).mul (signedSum_reading hy.1 resultTy.width)
  · rw [List.length_nil, signedSum, zero_mul]
    exact totals_new resultTy.width
  · intro done entry rest hsplit matrix t hgrows hmatrix
    obtain ⟨hentry, hindex⟩ := getElem?_zipIdx_split hsplit
    have hread := (hright.mono hgrows).read hentry
    apply (arrayRow_emits (hleft.mono hgrows) hread hmatrix).mono
    intro r u _ hr
    apply hr.of_eq
    rw [List.length_append, List.length_singleton, signedSum, hindex]
    ring

end Array

end Opto.Bitblast
