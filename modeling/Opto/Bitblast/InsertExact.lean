import Opto.Bitblast.DynamicExact
import Opto.Bitblast.ShiftExact

/-!
# When a dynamic insert lowers

The stages move the replacement and its mask to the offset, and the mask selects between
them and the word. The distance of a stage is a 64-bit number, so the 65th bit of an offset
has none.
-/

namespace Opto.Bitblast

open Word Growing

variable {σ ε β : Type} [BitBackend σ ε β] {W : Meaning σ ε β} {s : σ}

/-! Statement. -/

/-- On every backend and for all words of these widths, the lowering returns the word with its
bits from the offset on replaced. -/
def LowersInsert (valueTy offsetTy replacementTy : WordType) (n : Nat) : Prop :=
  ∀ (σ ε β : Type) [BitBackend σ ε β] (W : Meaning σ ε β) (s : σ) (value offset replacement : Operand β)
    (x r : Nat), Holds W s value x → value.ty = valueTy → Holds W s offset n → offset.ty = offsetTy →
      Holds W s replacement r → replacement.ty = replacementTy →
        Returns W s (dynamicInsertBits value offset replacement) valueTy.width
          (bitsValue (Bits.insertAt (digits x valueTy.width) (digits r replacementTy.width) n))

/-! Moving bits away from the low end. -/

/-- Each position takes what lies the distance below. -/
def movedUp (distance : Nat) (v : Nat → Bool) (i : Nat) : Bool := decide (distance ≤ i) && v (i - distance)

theorem movedUp_zero (v : Nat → Bool) : movedUp 0 v = v := by
  funext i
  simp [movedUp]

theorem movedUp_add (m n : Nat) (v : Nat → Bool) : movedUp m (movedUp n v) = movedUp (n + m) v := by
  funext i
  have hle : (m ≤ i ∧ n ≤ i - m) ↔ n + m ≤ i := by omega
  have hsub : i - m - n = i - (n + m) := by omega
  simp only [movedUp, ← Bool.and_assoc, ← Bool.decide_and, hle, hsub]

/-- A stage that has reached down to a limit. -/
def movedUpFrom (control : Bool) (distance limit : Nat) (v : Nat → Bool) (i : Nat) : Bool :=
  if limit ≤ i ∧ control = true then movedUp distance v i else v i

theorem movedUpFrom_below {control : Bool} {distance limit i : Nat} {v : Nat → Bool} (hi : i < limit) :
    movedUpFrom control distance limit v i = v i := if_neg (by omega)

theorem movedUpFrom_at (control : Bool) (distance i : Nat) (v : Nat → Bool) :
    movedUpFrom control distance i v i = if control then movedUp distance v i else v i := by
  cases control <;> simp [movedUpFrom]

theorem movedUpFrom_succ {control : Bool} {distance limit i : Nat} {v : Nat → Bool} (hi : i ≠ limit) :
    movedUpFrom control distance limit v i = movedUpFrom control distance (limit + 1) v i := by
  have hiff : limit ≤ i ↔ limit + 1 ≤ i := by omega
  simp only [movedUpFrom, hiff]

/-! One index. -/

theorem Shows.set {bits : List β} {v w : Nat → Bool} {index : Nat} {y : β} (h : Shows W s bits v)
    (hy : W.Reads s y (w index)) (hsame : ∀ i, i ≠ index → w i = v i) : Shows W s (bits.set index y) w := by
  intro i c hc
  rw [List.getElem?_set] at hc
  split_ifs at hc with hi hin
  · rw [Option.some.injEq] at hc
    subst hc hi
    exact hy
  · rw [hsame i (Ne.symm hi)]
    exact h i c hc

theorem candidate_shows {bits : List β} {v : Nat → Bool} (h : Shows W s bits v) {index : Nat}
    (hindex : index < bits.length) : W.Emits s (candidate bits index) fun x t => W.Reads t x (v index) := by
  have hx := List.getElem?_eq_getElem hindex
  rw [candidate_some hx]
  exact Emits.pure (h _ _ hx)

/-- What an index takes lies below the limit, where the loop has not written yet. -/
theorem shiftedFrom_emits {bits : List β} {zero : β} {control : Bool} {distance index : Nat} {v : Nat → Bool}
    (h : Shows W s bits (movedUpFrom control distance (index + 1) v)) (hzero : W.Reads s zero false)
    (hdistance : 0 < distance) (hindex : index < bits.length) :
    W.Emits s (shiftedFrom bits zero index distance) fun x t => W.Reads t x (movedUp distance v index) := by
  rw [shiftedFrom]
  split_ifs with hle
  · have hread := candidate_shows h (show index - distance < bits.length by omega)
    rw [movedUpFrom_below (by omega)] at hread
    simpa only [movedUp, decide_eq_true hle, Bool.true_and] using hread
  · rw [movedUp, decide_eq_false hle, Bool.false_and]
    exact Emits.pure hzero

/-- The replacement and its mask, two words of the same width. -/
structure Places (W : Meaning σ ε β) (t : σ) (width : Nat) (p : List β × List β) (v m : Nat → Bool) : Prop where
  bits_length : p.1.length = width
  mask_length : p.2.length = width
  bits : Shows W t p.1 v
  mask : Shows W t p.2 m

section

variable {width : Nat} {p : List β × List β} {v m : Nat → Bool} {zero : β}

theorem Places.mono {t : σ} (h : Places W s width p v m) (hgrows : W.Grows s t) : Places W t width p v m :=
  ⟨h.bits_length, h.mask_length, h.bits.mono hgrows, h.mask.mono hgrows⟩

theorem insertIndex_emits {control : β} {c : Bool} {distance index : Nat}
    (h : Places W s width p (movedUpFrom c distance (index + 1) v) (movedUpFrom c distance (index + 1) m))
    (hcontrol : W.Reads s control c) (hzero : W.Reads s zero false) (hdistance : 0 < distance)
    (hindex : index < width) : W.Emits s (insertIndex control zero distance p index) fun q t =>
      Places W t width q (movedUpFrom c distance index v) (movedUpFrom c distance index m) := by
  have hbits : index < p.1.length := h.bits_length.symm ▸ hindex
  have hmask : index < p.2.length := h.mask_length.symm ▸ hindex
  unfold insertIndex
  apply Emits.bind (shiftedFrom_emits h.bits hzero hdistance hbits)
  intro shiftedValue t₁ h₁ hshiftedValue
  apply Emits.bind (shiftedFrom_emits (h.mask.mono h₁) (W.mono h₁ hzero) hdistance hmask)
  intro shiftedMask t₂ h₂ hshiftedMask
  have hto₂ := W.trans h₁ h₂
  apply Emits.bind (candidate_shows (h.bits.mono hto₂) hbits)
  intro keptValue t₃ h₃ hkeptValue
  rw [movedUpFrom_below (Nat.lt_succ_self index)] at hkeptValue
  have hto₃ := W.trans hto₂ h₃
  apply Emits.bind (W.mux_emits (W.mono hto₃ hcontrol) (W.mono (W.trans h₂ h₃) hshiftedValue) hkeptValue)
  intro value t₄ h₄ hvalue
  have hto₄ := W.trans hto₃ h₄
  apply Emits.bind (candidate_shows (h.mask.mono hto₄) hmask)
  intro keptMask t₅ h₅ hkeptMask
  rw [movedUpFrom_below (Nat.lt_succ_self index)] at hkeptMask
  have hto₅ := W.trans hto₄ h₅
  apply Emits.bind (W.mux_emits (W.mono hto₅ hcontrol) (W.mono (W.trans h₃ (W.trans h₄ h₅)) hshiftedMask)
    hkeptMask)
  intro mask t₆ h₆ hmaskRead
  have hto₆ := W.trans hto₅ h₆
  apply Emits.pure
  constructor
  · rw [List.length_set, h.bits_length]
  · rw [List.length_set, h.mask_length]
  · apply (h.bits.mono hto₆).set
    · rw [movedUpFrom_at]
      exact W.mono (W.trans h₅ h₆) hvalue
    · exact fun i hi => movedUpFrom_succ hi
  · apply (h.mask.mono hto₆).set
    · rwa [movedUpFrom_at]
    · exact fun i hi => movedUpFrom_succ hi

/-! Stages. -/

/-- The loop runs down from the highest index. -/
theorem insertLoop_emits {control : β} {c : Bool} {distance : Nat} (h : Places W s width p v m)
    (hcontrol : W.Reads s control c) (hzero : W.Reads s zero false) (hdistance : 0 < distance) :
    W.Emits s ((List.range width).reverse.foldlM (insertIndex control zero distance) p) fun q t =>
      Places W t width q (movedUpFrom c distance 0 v) (movedUpFrom c distance 0 m) := by
  have hstart (w : Nat → Bool) {bits : List β} (hlength : bits.length = width) (hbits : Shows W s bits w) :
      Shows W s bits (movedUpFrom c distance width w) := by
    intro i b hb
    rw [movedUpFrom_below (hlength ▸ (List.getElem?_eq_some_iff.mp hb).1)]
    exact hbits i b hb
  have hloop := Emits.foldlM (W := W.toGrowing) (s := s) (f := insertIndex control zero distance)
    (l := (List.range width).reverse) (b := p) (fun done q t => Places W t width q
      (movedUpFrom c distance (width - done.length) v) (movedUpFrom c distance (width - done.length) m))
    ⟨h.bits_length, h.mask_length, hstart v h.bits_length h.bits, hstart m h.mask_length h.mask⟩ ?_
  · simpa only [List.length_reverse, List.length_range, Nat.sub_self] using hloop
  · intro done index rest hsplit q t hgrows hq
    have hsize := congrArg List.length hsplit
    rw [List.length_append, List.length_cons, List.length_reverse, List.length_range] at hsize
    have hindex : index = width - 1 - done.length := by
      have hat := congrArg (·[done.length]?) hsplit
      simpa [List.getElem?_reverse, List.getElem?_range, show done.length < width by omega,
        show width - 1 - done.length < width by omega] using hat
    have hbefore : width - done.length = index + 1 := by omega
    have hafter : width - (done ++ [index]).length = index := by
      rw [List.length_append, List.length_singleton]
      omega
    rw [hbefore] at hq
    rw [hafter]
    exact insertIndex_emits hq (W.mono hgrows hcontrol) (W.mono hgrows hzero) hdistance (by omega)

theorem movedUpFrom_zero (c : Bool) (distance : Nat) (v : Nat → Bool) :
    movedUpFrom c distance 0 v = movedUp (if c then distance else 0) v := by
  funext i
  cases c <;> simp [movedUpFrom, movedUp_zero]

theorem insertStage_emits {offset : Operand β} {n stage : Nat} (h : Places W s width p v m)
    (hoffset : Holds W s offset n) (hzero : W.Reads s zero false) (hstage : stage < offset.ty.width)
    (hsmall : stage < 64) : W.Emits s (insertStage offset zero p stage) fun q t =>
      Places W t width q (movedUp (if n.testBit stage then 2 ^ stage else 0) v)
        (movedUp (if n.testBit stage then 2 ^ stage else 0) m) := by
  rw [insertStage, if_neg (by omega)]
  apply Emits.bind (bit_emits hoffset hstage)
  intro control t hgrows hcontrol
  rw [digit_testBit] at hcontrol
  rw [h.bits_length, ← movedUpFrom_zero, ← movedUpFrom_zero]
  exact insertLoop_emits (h.mono hgrows) hcontrol (W.mono hgrows hzero) (Nat.two_pow_pos stage)

theorem insertStages_emits {offset : Operand β} {n : Nat} (h : Places W s width p v m)
    (hoffset : Holds W s offset n) (hzero : W.Reads s zero false) (hsmall : offset.ty.width ≤ 64) :
    W.Emits s ((List.range offset.ty.width).foldlM (insertStage offset zero) p) fun q t =>
      Places W t width q (movedUp n v) (movedUp n m) := by
  have hloop := Emits.foldlM (W := W.toGrowing) (s := s) (f := insertStage offset zero)
    (l := List.range offset.ty.width) (b := p) (fun done q t => Places W t width q
      (movedUp (n % 2 ^ done.length) v) (movedUp (n % 2 ^ done.length) m)) ?_ ?_
  · rwa [List.length_range, Nat.mod_eq_of_lt hoffset.1] at hloop
  · rwa [List.length_nil, pow_zero, Nat.mod_one, movedUp_zero, movedUp_zero]
  · intro done stage rest hsplit q t hgrows hq
    have hsize := congrArg List.length hsplit
    rw [List.length_append, List.length_cons, List.length_range] at hsize
    have hstage : stage = done.length := by
      have hat := congrArg (·[done.length]?) hsplit
      simpa [List.getElem?_range (show done.length < offset.ty.width by omega)] using hat
    subst hstage
    have hstep := insertStage_emits hq (hoffset.mono hgrows) (W.mono hgrows hzero)
      (show done.length < offset.ty.width by omega) (by omega)
    rw [List.length_append, List.length_singleton, mod_pow_succ, ← movedUp_add, ← movedUp_add]
    exact hstep

end

/-! The whole insert. -/

/-- The replacement and its mask lie at the low end. -/
theorem places_start (spare : Nat) {replacement : Operand β} {r : Nat} {zero one : β} (hreplacement : Holds W s replacement r)
    (hzero : W.Reads s zero false) (hone : W.Reads s one true) :
    Places W s (replacement.ty.width + spare)
      (replacement.bits ++ List.replicate spare zero,
        List.replicate replacement.bits.length one ++ List.replicate spare zero)
      (digit r) (fun i => decide (i < replacement.ty.width)) := by
  constructor
  · rw [List.length_append, List.length_replicate, replacement.sized]
  · rw [List.length_append, List.length_replicate, List.length_replicate, replacement.sized]
  · intro i b hb
    by_cases hi : i < replacement.bits.length
    · rw [List.getElem?_append_left hi] at hb
      exact hreplacement.2.read hb
    · rw [List.getElem?_append_right (not_lt.mp hi), List.getElem?_replicate] at hb
      split_ifs at hb
      rw [Option.some.injEq] at hb
      have hpow : 2 ^ replacement.ty.width ≤ 2 ^ i :=
        Nat.pow_le_pow_right (by decide) (replacement.sized ▸ not_lt.mp hi)
      rw [digit_testBit, Nat.testBit_lt_two_pow (Nat.lt_of_lt_of_le hreplacement.1 hpow), ← hb]
      exact hzero
  · intro i b hb
    rw [← replacement.sized]
    by_cases hi : i < replacement.bits.length
    · rw [List.getElem?_append_left (by rwa [List.length_replicate]), List.getElem?_replicate, if_pos hi,
        Option.some.injEq] at hb
      simpa only [decide_eq_true hi, ← hb] using hone
    · rw [List.getElem?_append_right (by rw [List.length_replicate]; omega), List.getElem?_replicate] at hb
      split_ifs at hb
      rw [Option.some.injEq] at hb
      simpa only [decide_eq_false hi, ← hb] using hzero

/-- A position takes the replacement where the mask has come to lie. -/
theorem digit_insertAt (x r : Int) (width replacementWidth n : Nat) {i : Nat} (hi : i < width) :
    digit (bitsValue (Bits.insertAt (digits x width) (digits r replacementWidth) n)) i =
      if movedUp n (fun j => decide (j < replacementWidth)) i then movedUp n (digit r) i else digit x i := by
  have hlength : List.length (digits x width) = width := length_digits x width
  have hsize : List.length (digits r replacementWidth) = replacementWidth := length_digits r replacementWidth
  rw [Bits.digit_bitsValue, Bits.insertAt, List.getD_eq_getElem?_getD, List.getElem?_map, hlength,
    List.getElem?_range hi, Option.map_some, Option.getD_some, hsize]
  by_cases hle : n ≤ i
  · by_cases hlt : i < n + replacementWidth
    · rw [if_pos ⟨hle, hlt⟩, getD_digits r _ (by omega)]
      simp [movedUp, hle, show i - n < replacementWidth by omega]
    · rw [if_neg (by omega), getD_digits x _ hi]
      simp [movedUp, show ¬i - n < replacementWidth by omega]
  · rw [if_neg (by omega), getD_digits x _ hi]
    simp [movedUp, hle]

theorem dynamicInsertBits_returns {value offset replacement : Operand β} {x n r : Nat}
    (hvalue : Holds W s value x) (hoffset : Holds W s offset n) (hreplacement : Holds W s replacement r)
    (hfits : replacement.ty.width ≤ value.ty.width) (hsmall : offset.ty.width ≤ 64) :
    Returns W s (dynamicInsertBits value offset replacement) value.ty.width
      (bitsValue (Bits.insertAt (digits x value.ty.width) (digits r replacement.ty.width) n)) := by
  have hlength : replacement.bits.length ≤ value.bits.length := by
    rwa [replacement.sized, value.sized]
  unfold dynamicInsertBits
  rw [if_neg (by omega)]
  apply Emits.bind (W.constant_emits s false)
  intro zero t₁ h₁ hzero
  apply Emits.bind (W.constant_emits t₁ true)
  intro one t₂ h₂ hone
  have hto₂ := W.trans h₁ h₂
  have hstart := places_start (value.bits.length - replacement.bits.length)
    (hreplacement.mono hto₂) (W.mono h₂ hzero) hone
  have hwidth : replacement.ty.width + (value.bits.length - replacement.bits.length) = value.ty.width := by
    rw [← replacement.sized, ← value.sized]
    omega
  rw [hwidth] at hstart
  rw [offset.sized]
  apply Emits.bind (insertStages_emits hstart (hoffset.mono hto₂) (W.mono h₂ hzero) hsmall)
  intro (shifted, mask) t₃ h₃ hplaces
  have hto₃ := W.trans hto₂ h₃
  rw [value.sized]
  apply mapM_range_carries
  intro index hindex t₄ h₄
  apply Emits.bind (candidate_shows (hplaces.mask.mono h₄) (hplaces.mask_length.symm ▸ hindex))
  intro selects t₅ h₅ hselects
  apply Emits.bind (candidate_shows (hplaces.bits.mono (W.trans h₄ h₅)) (hplaces.bits_length.symm ▸ hindex))
  intro inserted t₆ h₆ hinserted
  apply Emits.bind (bit_emits (hvalue.mono (W.trans hto₃ (W.trans h₄ (W.trans h₅ h₆)))) hindex)
  intro kept t₇ h₇ hkept
  apply (W.mux_emits (W.mono (W.trans h₆ h₇) hselects) (W.mono h₇ hinserted) hkept).mono
  intro bit t₈ _ hbit
  rwa [digit_insertAt _ _ _ _ _ hindex]

/-! Inserts that fail. -/

/-- The loop does not get past the 65th bit of the offset. -/
theorem insertStages_overflow (offset : Operand β) (zero : β) {stages : List Nat}
    (hlarge : ∃ stage ∈ stages, 64 ≤ stage) (p : List β × List β) (s : σ) (q : (List β × List β) × σ) :
    (stages.foldlM (insertStage offset zero) p).run s ≠ .ok q := by
  obtain ⟨large, hmem, hlarge⟩ := hlarge
  induction stages generalizing p s with
  | nil => simp at hmem
  | cons stage rest ih =>
    rw [List.foldlM_cons, StateT.run_bind]
    intro hrun
    obtain ⟨⟨p', s'⟩, hstage, hrest⟩ := bind_eq_ok hrun
    rcases List.mem_cons.mp hmem with hfirst | hlater
    · rw [insertStage, if_pos (hfirst ▸ hlarge)] at hstage
      cases hstage
    · exact ih p' s' hlater hrest

/-- An operand of the type of whose bits the lowering knows nothing. -/
def evaluatedWord (ty : WordType) (x : Nat) : Operand EvaluatedBit where
  bits := evaluated (List.replicate ty.width none) x
  ty
  sized := by simp [evaluated]

theorem evaluatedWord_holds {ty : WordType} {x : Nat} (hx : x < 2 ^ ty.width) :
    Holds EvaluatedBit.meaning () (evaluatedWord ty x) x := by
  refine ⟨hx, carries_iff.mpr fun index bit hbit => ?_⟩
  rw [evaluatedWord, evaluated_getElem?] at hbit
  obtain ⟨constant, _, rfl⟩ := Option.map_eq_some_iff.mp hbit
  exact (digit_testBit x index).symm

section

variable {valueTy offsetTy replacementTy : WordType} {n : Nat}

/-- The evaluated backend refuses nothing, so the lowering succeeds there. -/
theorem LowersInsert.succeeds (h : LowersInsert valueTy offsetTy replacementTy n) (hn : n < 2 ^ offsetTy.width) :
    ∃ q, (dynamicInsertBits (evaluatedWord valueTy 0) (evaluatedWord offsetTy n)
      (evaluatedWord replacementTy 0)).run () = .ok q := by
  have hreturns := h Unit Empty EvaluatedBit EvaluatedBit.meaning () _ _ _ 0 0
    (evaluatedWord_holds (Nat.two_pow_pos _)) rfl (evaluatedWord_holds hn) rfl
    (evaluatedWord_holds (Nat.two_pow_pos _)) rfl trivial
  rw [Ensures] at hreturns
  cases hrun : (dynamicInsertBits (evaluatedWord valueTy 0) (evaluatedWord offsetTy n)
      (evaluatedWord replacementTy 0)).run () with
  | ok q => exact ⟨q, rfl⟩
  | error e =>
    rw [hrun] at hreturns
    exact hreturns.elim

theorem LowersInsert.replacement_le (h : LowersInsert valueTy offsetTy replacementTy n)
    (hn : n < 2 ^ offsetTy.width) : replacementTy.width ≤ valueTy.width := by
  by_contra hwide
  obtain ⟨q, hrun⟩ := h.succeeds hn
  rw [dynamicInsertBits, if_pos (by rw [(evaluatedWord _ _).sized, (evaluatedWord _ _).sized]; exact not_le.mp hwide)]
    at hrun
  cases hrun

theorem LowersInsert.offset_le (h : LowersInsert valueTy offsetTy replacementTy n)
    (hn : n < 2 ^ offsetTy.width) : offsetTy.width ≤ 64 := by
  by_contra hwide
  have hfits := h.replacement_le hn
  obtain ⟨q, hrun⟩ := h.succeeds hn
  rw [dynamicInsertBits, if_neg (by rw [(evaluatedWord _ _).sized, (evaluatedWord _ _).sized]; exact not_lt.mpr hfits)]
    at hrun
  -- the evaluated constants reduce, so the stages are the first step that is left
  obtain ⟨⟨p, _⟩, hstages, _⟩ := bind_eq_ok hrun
  have hlarge : ∃ stage ∈ List.range (evaluatedWord offsetTy n).bits.length, 64 ≤ stage :=
    ⟨64, List.mem_range.mpr ((evaluatedWord offsetTy n).sized ▸ not_le.mp hwide), Nat.le_refl _⟩
  exact insertStages_overflow _ _ hlarge _ _ _ hstages

end

/-- The lowering inserts a replacement that is no wider than the word, unless the offset has a
65th bit. -/
theorem dynamic_insert_iff {valueTy offsetTy replacementTy : WordType} {n : Nat} (hn : n < 2 ^ offsetTy.width) :
    LowersInsert valueTy offsetTy replacementTy n ↔
      replacementTy.width ≤ valueTy.width ∧ offsetTy.width ≤ 64 := by
  constructor
  · exact fun h => ⟨h.replacement_le hn, h.offset_le hn⟩
  · rintro ⟨hfits, hsmall⟩ σ ε β _ W s value offset replacement x r hvalue rfl hoffset rfl hreplacement rfl
    exact dynamicInsertBits_returns hvalue hoffset hreplacement hfits hsmall

/-- Four bits into a byte at offset six, of which two are left. -/
theorem dynamic_insert_clipped :
    LowersInsert (unsignedType 8 (by decide)) (unsignedType 3 (by decide)) (unsignedType 4 (by decide)) 6 :=
  (dynamic_insert_iff (by decide)).mpr ⟨by decide, by decide⟩

/-- No offset of sixty-five bits is lowered, not even zero. -/
theorem dynamic_insert_fails : ¬LowersInsert (unsignedType 8 (by decide)) (unsignedType 65 (by decide))
    (unsignedType 4 (by decide)) 0 :=
  fun h => absurd (h.offset_le (by decide)) (by decide)

end Opto.Bitblast
