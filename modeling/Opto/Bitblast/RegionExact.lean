import Opto.Bitblast.Region

/-!
# Regions are exact

The matrix and the groups of a region make up the signed sum of the terms read so far, and
the carry input takes out of the matrix exactly what it puts into the adder.
-/

namespace Opto.Bitblast

open Word Growing TwosComplement
open Planning (ArithmeticTerm SemanticOperator)

variable {σ ε β : Type} [BitBackend σ ε β] {W : Meaning σ ε β} {s : σ}

/-! What a region may rely on. -/

section

variable (W) (s : σ) (context : RegionContext σ ε β) (x : Nat → Nat)

/-- The value is lowered to bits of the type that hold its word. -/
def Lowers (value : Nat) (ty : WordType) : Prop :=
  ∀ t, W.Grows s t → W.Emits t (context.value value ty) fun operand u =>
    operand.ty = ty ∧ Holds W u operand (x value)

/-- The value is lowered to constants. -/
def LowersConstant (value : Nat) (ty : WordType) : Prop :=
  ∀ t, W.Grows s t → W.Emits t (context.value value ty) fun operand u => Known u operand.bits

/-- The operands of a term are lowered, the one that it calls constant to constants. -/
def TermLowers : ArithmeticTerm → Prop
  | .value value ty _ => Lowers W s context x value ty
  | .product inputs types _ _ constantInput =>
    Lowers W s context x inputs.1 types.1 ∧ Lowers W s context x inputs.2 types.2 ∧
      match constantInput with
      | none => True
      | some 0 => LowersConstant W s context inputs.1 types.1
      | some 1 => LowersConstant W s context inputs.2 types.2
      | some _ => False

end

section

variable {context : RegionContext σ ε β} {x : Nat → Nat}

theorem Lowers.mono {t : σ} {value : Nat} {ty : WordType} (h : Lowers W s context x value ty)
    (hgrows : W.Grows s t) : Lowers W t context x value ty :=
  fun u hu => h u (W.trans hgrows hu)

theorem LowersConstant.mono {t : σ} {value : Nat} {ty : WordType} (h : LowersConstant W s context value ty)
    (hgrows : W.Grows s t) : LowersConstant W t context value ty :=
  fun u hu => h u (W.trans hgrows hu)

theorem TermLowers.mono {t : σ} {term : ArithmeticTerm} (h : TermLowers W s context x term)
    (hgrows : W.Grows s t) : TermLowers W t context x term := by
  cases term with
  | value value ty negative => exact Lowers.mono h hgrows
  | product inputs types ty negative constantInput =>
    obtain ⟨hleft, hright, hconstant⟩ := h
    refine ⟨hleft.mono hgrows, hright.mono hgrows, ?_⟩
    match constantInput with
    | none => trivial
    | some 0 => exact hconstant.mono hgrows
    | some 1 => exact hconstant.mono hgrows
    | some (_ + 2) => exact hconstant

end

/-- What a term's operand stands for. -/
def operandValue (x : Nat → Nat) (value : Nat) (ty : WordType) : Int := read ty.signed ty.width (x value)

theorem signed_eq (negative : Bool) (z : Int) : Planning.signed negative z = sign negative * z := by
  cases negative <;> simp [Planning.signed, sign]

def rename (f : Nat → Nat) : ArithmeticTerm → ArithmeticTerm
  | .value value ty negative => .value (f value) ty negative
  | .product inputs types ty negative constantInput =>
    .product (f inputs.1, f inputs.2) types ty negative constantInput

theorem denote_rename (x f : Nat → Nat) (term : ArithmeticTerm) :
    (rename f term).denote x = term.denote (x ∘ f) := by
  cases term <;> rfl

theorem localSourceValue_emits {context : RegionContext σ ε β} {source value : Nat}
    (h : context.localOf source = some value) :
    W.Emits s (context.localSourceValue source) fun v _ => v = value := by
  rw [RegionContext.localSourceValue, h]
  exact Emits.pure rfl

theorem localArithmeticTerm_emits {context : RegionContext σ ε β} {locals : Nat → Nat} {term : ArithmeticTerm}
    (h : ∀ value ∈ term.inputs, context.localOf value = some (locals value)) :
    W.Emits s (context.localArithmeticTerm term) fun r _ => r = rename locals term := by
  cases term with
  | value value ty negative =>
    apply Emits.bind (localSourceValue_emits (h value List.mem_cons_self))
    intro v t _ hv
    subst hv
    exact Emits.pure rfl
  | product inputs types ty negative constantInput =>
    apply Emits.bind (localSourceValue_emits (h inputs.1 List.mem_cons_self))
    intro left t _ hleft
    subst hleft
    apply Emits.bind (localSourceValue_emits (h inputs.2 (List.mem_cons_of_mem _ List.mem_cons_self)))
    intro right u _ hright
    subst hright
    exact Emits.pure rfl

/-! The carry input. -/

theorem rowsCarry_eraseIdx {width : Nat} {rows : List (BitRow β)} {z : Int}
    (h : RowsCarry W s width rows z) {index : Nat} {row : BitRow β} (hrow : rows[index]? = some row) :
    ∃ y, row.length = width ∧ RowCarries W s row y ∧ RowsCarry W s width (rows.eraseIdx index) (z - y) := by
  induction rows generalizing index z with
  | nil => simp at hrow
  | cons first rows ih =>
    obtain ⟨y, hlength, hy, hrest⟩ := h
    cases index with
    | zero =>
      rw [List.getElem?_cons_zero, Option.some.injEq] at hrow
      subst hrow
      exact ⟨y, hlength, hy, hrest⟩
    | succ index =>
      obtain ⟨y', hlength', hy', hrest'⟩ := ih hrest hrow
      refine ⟨y', hlength', hy', y, hlength, hy, ?_⟩
      rwa [sub_right_comm]

/-- A row of one early bit stands for the bit. -/
theorem early_row {row bits : BitRow β} {carry : β} {isZero : β → Bool} {y : Int}
    (hzeros : ∀ bit a, isZero bit = true → W.Reads s bit a → a = false)
    (h : RowCarries W s row y) (hrow : row = some carry :: bits)
    (hbits : bits.all (fun slot => slot.all isZero) = true) :
    W.Reads s carry (odd y) ∧ y ≡ (odd y).toNat [ZMOD 2 ^ row.length] := by
  subst hrow
  obtain ⟨hcarry, hrest⟩ := h
  refine ⟨hcarry, ?_⟩
  have hzero : y / 2 ≡ 0 [ZMOD 2 ^ bits.length] := by
    apply rowCarries_zeros hrest
    intro slot hslot a ha
    cases slot with
    | none => exact ha
    | some bit => exact hzeros bit a (List.all_eq_true.mp hbits _ hslot) ha
  apply modEq_of_half
  · rw [odd_cast]
  · rwa [half_cast]

theorem takeCarryInput_spec (isZero : β → Bool) (level : β → Option Nat) {matrix : BitMatrix β}
    {width : Nat} {z : Int} (hzeros : ∀ bit a, isZero bit = true → W.Reads s bit a → a = false)
    (h : Totals W s width matrix z) {zero : β} (hzero : W.Reads s zero false) :
    ∃ c : Bool, Totals W s width (takeCarryInput isZero level matrix).1 (z - c.toNat) ∧
      W.Reads s ((takeCarryInput isZero level matrix).2.getD zero) c := by
  have hkept : ∃ c : Bool, Totals W s width matrix (z - c.toNat) ∧
      W.Reads s ((none : Option β).getD zero) c :=
    ⟨false, h.of_eq (by simp), hzero⟩
  rw [takeCarryInput]
  split_ifs with hshape
  · exact hkept
  · cases hfind : (List.range matrix.rows.length).find? (carriesEarly isZero level matrix.rows) with
    | none => exact hkept
    | some index =>
      have hearly := List.find?_some hfind
      obtain ⟨hwidth, c, hc, hrows⟩ := h
      rw [hwidth] at hrows
      cases hrow : matrix.rows[index]? with
      | none => simp [carriesEarly, hrow] at hearly
      | some row =>
        obtain ⟨y, hlength, hy, hrest⟩ := rowsCarry_eraseIdx hrows hrow
        match row with
        | [] => simp [carriesEarly, hrow] at hearly
        | none :: bits => simp [carriesEarly, hrow] at hearly
        | some carry :: bits =>
          have hbits : bits.all (fun slot => slot.all isZero) = true := by
            rw [carriesEarly, hrow] at hearly
            cases hlevel : level carry <;> simp_all
          obtain ⟨hcarry, hmod⟩ := early_row hzeros hy rfl hbits
          refine ⟨odd y, ⟨hwidth, c, hc, ?_⟩, ?_⟩
          · rw [hlength] at hmod
            simp only [hwidth]
            apply hrest.congr
            rw [sub_right_comm z (odd y).toNat]
            exact hmod.sub_left (z - c)
          · simp only [hrow]
            exact hcarry

/-! Coefficients. -/

theorem addModularLoop_digits (negative : Bool) (a c : Int) (carry : Bool) (n : Nat) :
    addModularLoop negative (digits a n) (digits c n) carry =
      digits (a + addend negative c + carry.toNat) n := by
  induction n generalizing a c carry with
  | zero => rfl
  | succ n ih =>
    have hodd : (odd c ^^ negative) = odd (addend negative c) := by
      rw [← digit_zero, ← digit_zero, digit_addend]
    have hhalf : addend negative (c / 2) = addend negative c / 2 := by
      cases negative
      · rfl
      · exact (half_complement c).symm
    have hcarry : (odd a && odd (addend negative c) || carry && (odd a || odd (addend negative c))) =
        majority (odd a) (odd (addend negative c)) carry := by
      cases odd a <;> cases odd (addend negative c) <;> cases carry <;> rfl
    rw [digits_succ, digits_succ, digits_succ, odd_sum, half_sum, addModularLoop, hodd, hcarry, ih, hhalf]

theorem addModularCoefficient_digits (negative : Bool) (a c : Int) (n : Nat) :
    addModularCoefficient (digits a n) (digits c n) negative = digits (a + sign negative * c) n := by
  have hsum : a + addend negative c + negative.toNat = a + sign negative * c := by
    cases negative
    · simp [addend, sign]
    · simp only [addend, sign, if_true, Bool.toNat_true]
      push_cast
      ring
  rw [addModularCoefficient, addModularLoop_digits, hsum]

section Groups

variable (x : Nat → Nat) (width : Nat)

/-- The coefficients of the groups times their multiplicands make up the number. -/
def GroupsCarry : List ConstantProductGroup → Int → Prop
  | [], y => y ≡ 0 [ZMOD 2 ^ width]
  | group :: groups, y => ∃ c : Int, group.coefficient = digits c width ∧
    GroupsCarry groups (y - c * operandValue x group.multiplicand group.multiplicandTy)

variable {x width}

theorem GroupsCarry.congr {groups : List ConstantProductGroup} {y z : Int} (h : GroupsCarry x width groups y)
    (hyz : y ≡ z [ZMOD 2 ^ width]) : GroupsCarry x width groups z := by
  induction groups generalizing y z with
  | nil => exact hyz.symm.trans h
  | cons group groups ih =>
    obtain ⟨c, hc, hrest⟩ := h
    exact ⟨c, hc, ih hrest (hyz.sub_right _)⟩

theorem addToGroups_carry {groups : List ConstantProductGroup} {y c : Int} {coefficient : List Bool}
    (h : GroupsCarry x width groups y) (multiplicand : Nat) (ty : WordType)
    (hc : coefficient = digits c width) (negative : Bool) :
    GroupsCarry x width (addToGroups width multiplicand ty coefficient negative groups)
      (y + sign negative * (c * operandValue x multiplicand ty)) := by
  induction groups generalizing y with
  | nil =>
    refine ⟨0 + sign negative * c, ?_, ?_⟩
    · rw [hc, ← digits_zero, addModularCoefficient_digits]
    · apply GroupsCarry.congr h
      apply congrArg (· % _)
      ring
  | cons group groups ih =>
    obtain ⟨d, hd, hrest⟩ := h
    rw [addToGroups]
    split_ifs with hsame
    · obtain ⟨rfl, rfl⟩ := hsame
      refine ⟨d + sign negative * c, ?_, ?_⟩
      · simp only [hd, hc, addModularCoefficient_digits]
      · apply hrest.congr
        apply congrArg (· % _)
        ring
    · refine ⟨d, hd, (ih hrest).congr ?_⟩
      apply congrArg (· % _)
      ring

theorem addToGroups_keys {groups : List ConstantProductGroup} {multiplicand : Nat} {ty : WordType}
    {coefficient : List Bool} {negative : Bool} {P : Nat → WordType → Prop} (hnew : P multiplicand ty)
    (h : ∀ group ∈ groups, P group.multiplicand group.multiplicandTy) :
    ∀ group ∈ addToGroups width multiplicand ty coefficient negative groups,
      P group.multiplicand group.multiplicandTy := by
  induction groups with
  | nil => simpa [addToGroups] using hnew
  | cons first groups ih =>
    obtain ⟨hfirst, hrest⟩ := List.forall_mem_cons.mp h
    rw [addToGroups]
    split_ifs
    · exact List.forall_mem_cons.mpr ⟨hfirst, hrest⟩
    · exact List.forall_mem_cons.mpr ⟨hfirst, ih hrest⟩

end Groups

theorem coefficientBits_emits {value : Operand β} {x : Nat} (h : Holds W s value x)
    (hknown : Known s value.bits) (width : Nat) :
    W.Emits s ((List.range width).mapM (coefficientBit value)) fun bits _ =>
      bits = digits (value.reading value.ty.signed x) width := by
  have hbits : W.Emits s ((List.range width).mapM (coefficientBit value)) fun bits _ =>
      bits.length = (List.range width).length ∧ ∀ (i : Nat) (b : Bool), bits[i]? = some b →
        b = digit (value.reading value.ty.signed x) i := by
    apply Emits.mapM (P := fun i b _ => b = digit (value.reading value.ty.signed x) i)
      (fun _ _ _ _ _ hb => hb)
    intro i index hindex t hgrows
    obtain ⟨hi, rfl⟩ := List.getElem?_eq_some_iff.mp hindex
    rw [List.getElem_range]
    apply Emits.bind ((resizedBit_emits (h.mono hgrows) i value.ty.signed).and
      (resizedBit_known (hknown.mono hgrows) i value.ty.signed))
    intro bit u _ ⟨hbit, a, ha⟩
    apply Emits.get
    intro _
    rw [ha]
    exact Emits.pure (W.constant_reads hbit ha).symm
  apply hbits.mono
  intro bits t _ ⟨hlength, hread⟩
  rw [List.length_range] at hlength
  apply List.ext_getElem (by rw [hlength, length_digits])
  intro i hi hi'
  rw [hread i _ (List.getElem?_eq_getElem hi)]
  simp [digits]

/-! Terms. -/

section Terms

variable {context : RegionContext σ ε β} {x : Nat → Nat} {resultTy : WordType} {matrix : BitMatrix β} {z : Int}

theorem operand_reading {operand : Operand β} {value : Nat} {ty : WordType} (hty : operand.ty = ty) :
    operand.reading operand.ty.signed (x value) = operandValue x value ty := by
  rw [Operand.reading, Bool.and_self, hty, operandValue]

theorem appendValue_emits {value : Nat} {ty : WordType} (hvalue : Lowers W s context x value ty)
    (h : Totals W s resultTy.width matrix z) (negative : Bool) :
    Collects W s (appendValue context resultTy matrix value ty negative) resultTy.width
      (z + sign negative * operandValue x value ty) := by
  intro hgood
  refine Emits.bind (W := W.toGrowing) (hvalue s (W.refl hgood)) ?_ hgood
  rintro operand s₁ g₁ ⟨hty, hoperand⟩
  have hreading : operand.reading true (x value) = operandValue x value ty := by
    rw [Operand.reading, Bool.true_and, hty, operandValue]
  apply Emits.bind (resizedBits_emits hoperand resultTy.width true)
  rintro row s₂ g₂ ⟨hlength, hrow⟩
  rw [hreading] at hrow
  have h := h.mono (W.trans g₁ g₂)
  apply Emits.bind (boolVector_emits hrow)
  rintro known s₃ g₃ ⟨hknown, _⟩
  cases known with
  | some bools =>
    have hbools := hknown bools rfl
    rw [hlength] at hbools
    apply Emits.pure
    apply (addCorrection_totals bools negative (h.mono g₃)).congr
    rw [hbools]
    exact ((weight_digits _ resultTy.width).mul_left _).add_left z
  | none =>
    exact appendSignedRow_emits (h.mono g₃) ((List.length_map _).trans hlength)
      (carries_row (hrow.mono g₃)) negative

theorem appendProductRows_emits [DecidableEq β] {inputs : Nat × Nat} {types : WordType × WordType}
    (hleft : Lowers W s context x inputs.1 types.1) (hright : Lowers W s context x inputs.2 types.2)
    (h : Totals W s resultTy.width matrix z) (encoding : ProductEncoding) (negative : Bool) :
    Collects W s (appendProductRows context encoding resultTy matrix inputs types negative) resultTy.width
      (z + sign negative * (operandValue x inputs.1 types.1 * operandValue x inputs.2 types.2)) := by
  intro hgood
  refine Emits.bind (W := W.toGrowing) (hleft s (W.refl hgood)) ?_ hgood
  intro left s₁ g₁ ⟨hleftTy, hleft⟩
  apply Emits.bind (hright s₁ g₁)
  intro right s₂ g₂ ⟨hrightTy, hright⟩
  have hproduct : Collects W s₂ (variableProductMatrix encoding left right resultTy) resultTy.width
      (left.reading left.ty.signed (x inputs.1) * right.reading right.ty.signed (x inputs.2)) := by
    cases encoding with
    | radix4 => exact radix4ProductMatrix_emits (hleft.mono g₂) hright resultTy
    | array => exact arrayProductMatrix_emits (hleft.mono g₂) hright resultTy
  rw [operand_reading hleftTy, operand_reading hrightTy] at hproduct
  apply Emits.bind hproduct
  intro product s₃ g₃ hproduct
  exact appendMatrix_emits (h.mono (W.trans (W.trans g₁ g₂) g₃)) hproduct negative

theorem appendConstantCoefficientRows_emits {group : ConstantProductGroup} {c : Int}
    (hvalue : Lowers W s context x group.multiplicand group.multiplicandTy)
    (hc : group.coefficient = digits c resultTy.width) (h : Totals W s resultTy.width matrix z) :
    Collects W s (appendConstantCoefficientRows context resultTy matrix group) resultTy.width
      (z + c * operandValue x group.multiplicand group.multiplicandTy) := by
  intro hgood
  refine Emits.bind (W := W.toGrowing) (hvalue s (W.refl hgood)) ?_ hgood
  intro operand s₁ g₁ ⟨hty, hoperand⟩
  apply Emits.bind (resizedBits_emits hoperand resultTy.width operand.ty.signed)
  intro bits s₂ g₂ ⟨hlength, hbits⟩
  rw [operand_reading hty] at hbits
  apply Emits.bind (constantCoefficientMatrix_emits group.coefficient hbits (fills_of_le _ hlength.ge))
  intro product s₃ g₃ hproduct
  apply (appendMatrix_emits (h.mono (W.trans (W.trans g₁ g₂) g₃)) hproduct false).mono
  intro r t _ hr
  apply hr.congr
  have hcoefficient := (weight_digits c resultTy.width).mul_left
    (operandValue x group.multiplicand group.multiplicandTy)
  rw [← hc] at hcoefficient
  rw [sign, if_neg Bool.false_ne_true, one_mul, mul_comm c]
  exact hcoefficient.add_left z

theorem appendGroups_emits {groups : List ConstantProductGroup} {y : Int}
    (hvalues : ∀ group ∈ groups, Lowers W s context x group.multiplicand group.multiplicandTy)
    (hgroups : GroupsCarry x resultTy.width groups y) (h : Totals W s resultTy.width matrix z) :
    Collects W s (groups.foldlM (appendConstantCoefficientRows context resultTy) matrix) resultTy.width
      (z + y) := by
  induction groups generalizing s matrix y z with
  | nil =>
    have hy := Int.ModEq.add_left z hgroups
    rw [add_zero] at hy
    exact Emits.pure (h.congr hy.symm)
  | cons group groups ih =>
    obtain ⟨hvalue, hrest⟩ := List.forall_mem_cons.mp hvalues
    obtain ⟨c, hc, hgroups⟩ := hgroups
    rw [List.foldlM_cons]
    apply Emits.bind (appendConstantCoefficientRows_emits hvalue hc h)
    intro r t hgrows hr
    apply (ih (fun group hgroup => (hrest group hgroup).mono hgrows) hgroups hr).mono
    intro r u _ hr
    exact hr.of_eq (by ring)

variable (W x) in
/-- The matrix and the groups make up the number, and the groups can be lowered. -/
def RegionCarries (s : σ) (context : RegionContext σ ε β) (width : Nat)
    (acc : BitMatrix β × List ConstantProductGroup) (z : Int) : Prop :=
  (∃ a b, Totals W s width acc.1 a ∧ GroupsCarry x width acc.2 b ∧ a + b = z) ∧
    ∀ group ∈ acc.2, Lowers W s context x group.multiplicand group.multiplicandTy

theorem RegionCarries.mono {t : σ} {width : Nat} {acc : BitMatrix β × List ConstantProductGroup}
    (h : RegionCarries W x s context width acc z) (hgrows : W.Grows s t) :
    RegionCarries W x t context width acc z := by
  obtain ⟨⟨a, b, ha, hb, hab⟩, hlowers⟩ := h
  exact ⟨⟨a, b, ha.mono hgrows, hb, hab⟩, fun group hgroup => (hlowers group hgroup).mono hgrows⟩

/-- A change of the matrix is a change of the sum. -/
theorem RegionCarries.collect {acc : BitMatrix β × List ConstantProductGroup} {y : Int} {width : Nat}
    {m : BlastM σ ε (BitMatrix β)} (h : RegionCarries W x s context width acc z)
    (hm : ∀ a, Totals W s width acc.1 a → Collects W s m width (a + y)) :
    W.Emits s (do return (← m, acc.2)) fun r t => RegionCarries W x t context width r (z + y) := by
  obtain ⟨⟨a, b, ha, hb, hab⟩, hlowers⟩ := h
  apply Emits.bind (hm a ha)
  intro r t hgrows hr
  refine Emits.pure ⟨⟨a + y, b, hr, hb, ?_⟩, fun group hgroup => (hlowers group hgroup).mono hgrows⟩
  rw [← hab]
  ring

/-- A product with a constant joins a group. -/
theorem constantTerm_emits {acc : BitMatrix β × List ConstantProductGroup} (known multiplicand : Nat × WordType)
    (h : RegionCarries W x s context resultTy.width acc z)
    (hknown : Lowers W s context x known.1 known.2) (hconstant : LowersConstant W s context known.1 known.2)
    (hmultiplicand : Lowers W s context x multiplicand.1 multiplicand.2) (negative : Bool) :
    W.Emits s (do
      let operand ← context.value known.1 known.2
      let coefficient ← (List.range resultTy.width).mapM (coefficientBit operand)
      return (acc.1, addToGroups resultTy.width multiplicand.1 multiplicand.2 coefficient negative acc.2))
      fun r t => RegionCarries W x t context resultTy.width r (z + sign negative *
        (operandValue x known.1 known.2 * operandValue x multiplicand.1 multiplicand.2)) := by
  intro hgood
  have hrefl := W.refl hgood
  refine Emits.bind (W := W.toGrowing) ((hknown s hrefl).and (hconstant s hrefl)) ?_ hgood
  intro operand s₁ g₁ ⟨⟨hty, hoperand⟩, hbits⟩
  apply Emits.bind (coefficientBits_emits hoperand hbits resultTy.width)
  intro coefficient s₂ g₂ hcoefficient
  rw [operand_reading hty] at hcoefficient
  have hgrows := W.trans g₁ g₂
  obtain ⟨⟨a, b, ha, hb, hab⟩, hlowers⟩ := h.mono hgrows
  refine Emits.pure ⟨⟨a, _, ha, addToGroups_carry hb multiplicand.1 multiplicand.2 hcoefficient negative,
    by rw [← hab]; ring⟩, ?_⟩
  exact addToGroups_keys (P := Lowers W s₂ context x) (hmultiplicand.mono hgrows) hlowers

theorem regionTerm_emits [DecidableEq β] {locals : Nat → Nat} {term : ArithmeticTerm}
    {acc : BitMatrix β × List ConstantProductGroup} (encoding : ProductEncoding)
    (hlocal : ∀ value ∈ term.inputs, context.localOf value = some (locals value))
    (hterm : TermLowers W s context x (rename locals term))
    (h : RegionCarries W x s context resultTy.width acc z) :
    W.Emits s (regionTerm context encoding resultTy acc term) fun r t =>
      RegionCarries W x t context resultTy.width r (z + term.denote (x ∘ locals)) := by
  rw [← denote_rename]
  apply Emits.bind (localArithmeticTerm_emits hlocal)
  intro r t hgrows hr
  subst hr
  have h := h.mono hgrows
  have hterm := hterm.mono hgrows
  cases term with
  | value value ty negative =>
    simp only [rename, ArithmeticTerm.denote, signed_eq]
    exact h.collect fun a ha => appendValue_emits hterm ha negative
  | product inputs types ty negative constantInput =>
    obtain ⟨hleft, hright, hconstant⟩ := hterm
    simp only [rename, ArithmeticTerm.denote, signed_eq]
    rcases constantInput with _ | _ | _ | _
    · exact h.collect fun a ha => appendProductRows_emits hleft hright ha encoding negative
    · exact constantTerm_emits (_, _) (_, _) h hleft hconstant hright negative
    · have hproduct := constantTerm_emits (locals inputs.2, types.2) (locals inputs.1, types.1) h hright
        hconstant hleft negative
      rwa [mul_comm (operandValue ..)] at hproduct
    · exact hconstant.elim

theorem regionTerms_emits [DecidableEq β] {locals : Nat → Nat} {terms : List ArithmeticTerm}
    {acc : BitMatrix β × List ConstantProductGroup} (encoding : ProductEncoding)
    (hlocal : ∀ term ∈ terms, ∀ value ∈ term.inputs, context.localOf value = some (locals value))
    (hterms : ∀ term ∈ terms, TermLowers W s context x (rename locals term))
    (h : RegionCarries W x s context resultTy.width acc z) :
    W.Emits s (terms.foldlM (regionTerm context encoding resultTy) acc) fun r t =>
      RegionCarries W x t context resultTy.width r
        (z + (terms.map fun term => term.denote (x ∘ locals)).sum) := by
  induction terms generalizing s acc z with
  | nil => exact Emits.pure (by simpa using h)
  | cons term terms ih =>
    obtain ⟨hfirst, hrest⟩ := List.forall_mem_cons.mp hterms
    obtain ⟨hfirstLocal, hrestLocal⟩ := List.forall_mem_cons.mp hlocal
    rw [List.foldlM_cons]
    apply Emits.bind (regionTerm_emits encoding hfirstLocal hfirst h)
    intro r t hgrows hr
    apply (ih hrestLocal (fun term hterm => (hrest term hterm).mono hgrows) hr).mono
    intro r u _ hr
    rwa [List.map_cons, List.sum_cons, ← add_assoc]

end Terms

/-- A region returns the signed sum of its terms. -/
theorem regions_exact [DecidableEq β] (W : Meaning σ ε β) (s : σ) (context : RegionContext σ ε β)
    (operator : SemanticOperator) (terms : List ArithmeticTerm) (recipe : RegionRecipe)
    (resultTy : WordType) (x locals : Nat → Nat)
    (hcount : 2 ≤ terms.length ∧ (operator.productTermCount = 0 → 3 ≤ terms.length) ∧
      terms.length = operator.termCount)
    (hlocal : ∀ term ∈ terms, ∀ value ∈ term.inputs, context.localOf value = some (locals value))
    (hterms : ∀ term ∈ terms, TermLowers W s context x (rename locals term)) :
    Returns W s (arithmeticRegionBits context operator terms recipe resultTy) resultTy.width
      (terms.map fun term => term.denote (x ∘ locals)).sum := by
  obtain ⟨htwo, hthree, hcount⟩ := hcount
  have hvalid : ¬(terms.length < 2 ∨ (terms.length < 3 ∧ operator.productTermCount = 0) ∨
      terms.length ≠ operator.termCount) := by
    rintro (hshort | ⟨hshort, hproducts⟩ | hne)
    · omega
    · exact absurd (hthree hproducts) (by omega)
    · exact hne hcount
  rw [arithmeticRegionBits, if_neg hvalid]
  apply Emits.bind (W.constant_emits s false)
  intro zero s₁ g₁ hzero
  apply Emits.bind (W.constant_emits s₁ true)
  intro one s₂ g₂ hone
  have g := W.trans g₁ g₂
  have hstart : RegionCarries W x s₂ context resultTy.width (BitMatrix.new resultTy.width, []) 0 :=
    ⟨⟨0, 0, totals_new _, Int.ModEq.refl 0, rfl⟩, fun group hgroup => by cases hgroup⟩
  apply Emits.bind (regionTerms_emits recipe.encoding hlocal (fun term hterm => (hterms term hterm).mono g) hstart)
  intro acc s₃ g₃ ⟨⟨a, b, ha, hb, hab⟩, hlowers⟩
  apply Emits.bind (appendGroups_emits hlowers hb ha)
  intro matrix s₄ g₄ hmatrix
  rw [hab, zero_add] at hmatrix
  have hzero := W.mono (W.trans g₂ (W.trans g₃ g₄)) hzero
  have hone := W.mono (W.trans g₃ g₄) hone
  apply Emits.get
  intro _
  obtain ⟨c, ⟨hwidth, htaken⟩, hcarry⟩ := takeCarryInput_spec (W := W) (s := s₄)
    (fun bit => BitBackend.scalarConstant s₄ bit == some false) (BitBackend.structuralLevel s₄) (fun bit a hbit ha => W.constant_reads ha (by simpa using hbit))
    hmatrix hzero
  apply Emits.bind (reduceMatrix_emits htaken recipe.schedule hzero hone)
  intro r s₅ g₅ ⟨hleft, hright, p, q, hp, hq, hpq⟩
  rw [hwidth] at hleft hright hpq
  have hpos := resultTy.positive
  apply (carryNetworkAdd_emits recipe.network hp hq (W.mono g₅ hcarry) (hleft.trans hright.symm)
    (by omega)).mono
  intro bits t _ ⟨hlength, hbits⟩
  rw [hleft] at hlength
  refine ⟨hlength, hbits.congr ?_⟩
  rw [hlength]
  have hsum := hpq.add_right (c.toNat : Int)
  rwa [sub_add_cancel] at hsum

namespace AxmBackend

open Logic

/-- A blaster whose values are constants. -/
def constantContext (x : Nat → Nat) : RegionContext LogicBuilder Panic Lit where
  sourceValues := none
  value value ty := pure (constantOperand ty (x value))

theorem constantContext_lowers (g : Nat → Bool) {t : LogicBuilder} {x : Nat → Nat} {value : Nat}
    {ty : WordType} (hx : x value < 2 ^ ty.width) :
    Lowers (meaning g) t (constantContext x) x value ty := by
  intro u hgrows
  have hinv : Inv u := (meaning g).good hgrows
  exact Emits.pure ⟨rfl, constantOperand_holds g hinv ty hx⟩

theorem constantContext_constant (g : Nat → Bool) {t : LogicBuilder} (x : Nat → Nat) (value : Nat)
    (ty : WordType) : LowersConstant (meaning g) t (constantContext x) value ty :=
  fun u _ => Emits.pure (constantOperand_known u ty (x value))

end AxmBackend

open Logic in
/-- Minus one, less two times two. -/
theorem minusOne_less_four :
    Returns (AxmBackend.meaning fun _ => false) LogicBuilder.new
      (arithmeticRegionBits (AxmBackend.constantContext fun value => if value = 0 then 3 else 2)
        ⟨0, .sum, 0, (0, 1), (⟨2, true, .twoState, by decide⟩, ⟨2, false, .twoState, by decide⟩), 3, none,
          2, 1, 1, 0, 4, 4, true, none⟩
        [.value 0 ⟨2, true, .twoState, by decide⟩ false,
          .product (1, 2) (⟨2, false, .twoState, by decide⟩, ⟨3, false, .twoState, by decide⟩)
            ⟨4, true, .twoState, by decide⟩ true (some 1)]
        ⟨.wallace, .koggeStone, .radix4⟩ ⟨4, true, .twoState, by decide⟩) 4 (-5) := by
  apply regions_exact (AxmBackend.meaning fun _ => false) LogicBuilder.new _ _ _ _
    ⟨4, true, .twoState, by decide⟩ (fun value => if value = 0 then 3 else 2) id
  · exact ⟨by decide, by decide, rfl⟩
  · exact fun _ _ _ _ => rfl
  · intro term hterm
    rw [List.mem_cons, List.mem_singleton] at hterm
    cases hterm with
    | inl h =>
      subst h
      exact AxmBackend.constantContext_lowers _ (by decide)
    | inr h =>
      subst h
      exact ⟨AxmBackend.constantContext_lowers _ (by decide), AxmBackend.constantContext_lowers _ (by decide),
        AxmBackend.constantContext_constant _ _ _ _⟩

end Opto.Bitblast
