import Opto.Bitblast.AddersExact

/-!
# Adders with a constant operand

A position with a known digit needs one gate for its sum and at most one for its carry. The
recipe looks for the constant operand itself; a variable subtrahend is inverted first.
-/

namespace Opto.Bitblast

open Word Growing Scan

variable {σ ε β γ : Type} [BitBackend σ ε β]

/-- The values of bits that are all known constants. -/
def boolVector (bits : List β) : BlastM σ ε (Option (List Bool)) := do
  return bits.mapM (BitBackend.scalarConstant (← get))

def rippleAddConstantLoop : List (β × Bool) → β → BlastM σ ε (List β)
  | [], _ => pure []
  | (bit, known) :: rest, carry => do
    let xor ← emitBinary .bitXor bit carry
    if known then do
      let sum ← emitUnary .bitNot xor
      let carry ← emitBinary .bitOr bit carry
      let sums ← rippleAddConstantLoop rest carry
      return sum :: sums
    else do
      let carry ← emitBinary .bitAnd bit carry
      let sums ← rippleAddConstantLoop rest carry
      return xor :: sums

def rippleAddConstant (varying : List β) (known : List Bool) (carry : Bool) :
    BlastM σ ε (List β) := do
  let carry ← constant carry
  rippleAddConstantLoop (varying.zip known) carry

/-- A known one generates what arrives and lets every carry pass. -/
def constantNetwork (zero one : β) (inputs : List (β × Bool)) : PrefixNetwork β where
  propagate := inputs.map fun input => if input.2 then one else input.1
  generate := inputs.map fun input => if input.2 then input.1 else zero

def scanNonempty (network : PrefixNetwork β) : BlastM σ ε (PrefixNetwork β) :=
  if network.generate.isEmpty then pure network else brentKungPrefix network

def constantCarry (network : PrefixNetwork β) (zero one : β) (carryIn : Bool) (index : Nat) :
    BlastM σ ε β :=
  if index = 0 then pure (if carryIn then one else zero) else scannedCarry network carryIn (index - 1)

def constantSum (network : PrefixNetwork β) (zero one : β) (carryIn : Bool) (input : β × Bool)
    (index : Nat) : BlastM σ ε β := do
  let carry ← constantCarry network zero one carryIn index
  let sum ← emitBinary .bitXor input.1 carry
  invertIf input.2 sum

def prefixAddConstant (varying : List β) (known : List Bool) (carryIn : Bool) :
    BlastM σ ε (List β) := do
  let zero ← constant false
  let one ← constant true
  let inputs := varying.zip known
  let network ← scanNonempty (constantNetwork zero one (inputs.take (varying.length - 1)))
  inputs.zipIdx.mapM fun position => constantSum network zero one carryIn position.1 position.2

/-- The variable operand, the constant one, and which of them are inverted. -/
structure ConstantOperands (β : Type) where
  varying : List β
  known : List Bool
  invertVariable : Bool
  invertConstant : Bool

def constantOperands (leftBits rightBits : List β) (left right : Option (List Bool))
    (subtract : Bool) : Option (ConstantOperands β) :=
  match left, right, subtract with
  | _, some known, false => some ⟨leftBits, known, false, false⟩
  | some known, none, false => some ⟨rightBits, known, false, false⟩
  | _, some known, true => some ⟨leftBits, known, false, true⟩
  | some known, none, true => some ⟨rightBits, known, true, false⟩
  | none, none, _ => none

def constantAddSubBits (left right : Operand β) (subtract prefixed : Bool) (resultTy : WordType) :
    BlastM σ ε (List β) := do
  let leftBits ← resizedBits left resultTy.width resultTy.signed
  let rightBits ← resizedBits right resultTy.width resultTy.signed
  let leftConstant ← boolVector leftBits
  let rightConstant ← boolVector rightBits
  match constantOperands leftBits rightBits leftConstant rightConstant subtract with
  | none => invariantError "constant adder recipe has no defined constant operand"
  | some operands => do
    let varying ← operands.varying.mapM (invertIf operands.invertVariable)
    let known := operands.known.map (· ^^ operands.invertConstant)
    if prefixed then prefixAddConstant varying known subtract
    else rippleAddConstant varying known subtract

/-! What they return. -/

section

variable {W : Meaning σ ε β} {s : σ}

theorem digits_addend (subtract : Bool) (b : Int) (n : Nat) :
    (digits b n).map (· ^^ subtract) = digits (addend subtract b) n := by
  rw [digits, List.map_map, digits]
  exact List.map_congr_left fun i _ => (digit_addend subtract b i).symm

theorem mapM_constants {bits : List β} {z : Int} (h : W.Carries s bits z) {known : List Bool}
    (hknown : bits.mapM (BitBackend.scalarConstant s) = some known) :
    known = digits z bits.length := by
  induction bits generalizing z known with
  | nil =>
    rw [List.mapM_nil, Option.pure_def, Option.some.injEq] at hknown
    rw [← hknown]
    rfl
  | cons bit bits ih =>
    rw [List.mapM_cons] at hknown
    obtain ⟨b, hb, hrest⟩ := Option.bind_eq_some_iff.mp hknown
    obtain ⟨bs, hbs, hcons⟩ := Option.bind_eq_some_iff.mp hrest
    rw [Option.pure_def, Option.some.injEq] at hcons
    rw [← hcons, ih h.2 hbs, ← W.constant_reads h.1 hb, List.length_cons, digits_succ]

/-- All bits are known constants. -/
def Known (s : σ) (bits : List β) : Prop := ∀ x ∈ bits, ∃ a, BitBackend.scalarConstant s x = some a

omit [BitBackend σ ε β] in
theorem mapM_some {f : β → Option Bool} {bits : List β} (h : ∀ x ∈ bits, ∃ a, f x = some a) :
    ∃ known, bits.mapM f = some known := by
  induction bits with
  | nil => exact ⟨[], rfl⟩
  | cons bit bits ih =>
    obtain ⟨a, ha⟩ := h bit List.mem_cons_self
    obtain ⟨known, hknown⟩ := ih fun x hx => h x (List.mem_cons_of_mem bit hx)
    exact ⟨a :: known, by rw [List.mapM_cons, ha, hknown]; rfl⟩

theorem Known.mono {t : σ} {bits : List β} (h : Known s bits) (hgrows : W.Grows s t) :
    Known t bits := by
  intro x hx
  obtain ⟨a, ha⟩ := h x hx
  exact ⟨a, W.known_mono hgrows ha⟩

theorem boolVector_emits {bits : List β} {z : Int} (h : W.Carries s bits z) :
    W.Emits s (boolVector bits) fun known t =>
      (∀ bools, known = some bools → bools = digits z bits.length) ∧
        (Known t bits → known ≠ none) := by
  apply Emits.get
  intro _
  refine Emits.pure ⟨fun bools hbools => mapM_constants h hbools, fun hknown hnone => ?_⟩
  obtain ⟨bools, hbools⟩ := mapM_some hknown
  rw [hnone] at hbools
  cases hbools

theorem resizedBit_known {value : Operand β} (h : Known s value.bits) (index : Nat)
    (signExtend : Bool) : W.Emits s (resizedBit value index signExtend) fun x t =>
      ∃ a, BitBackend.scalarConstant t x = some a := by
  have hbit {i : Nat} (hi : i < value.bits.length) :
      W.Emits s (bit value i) fun x t => ∃ a, BitBackend.scalarConstant t x = some a := by
    have hx := List.getElem?_eq_getElem hi
    rw [bit, hx]
    exact Emits.pure (h _ (List.mem_of_getElem? hx))
  have hpositive := value.ty.positive
  have hsized := value.sized
  rw [resizedBit]
  split_ifs
  · exact hbit (by assumption)
  · exact hbit (by omega)
  · exact (W.constant_known s false).mono fun x t _ hx => ⟨false, hx⟩

theorem resizedBits_known {value : Operand β} (h : Known s value.bits) (width : Nat)
    (signExtend : Bool) :
    W.Emits s (resizedBits value width signExtend) fun xs t => Known t xs := by
  have hall : W.Emits s (resizedBits value width signExtend) fun xs t =>
      xs.length = (List.range width).length ∧ ∀ (i : Nat) (x : β), xs[i]? = some x →
        ∃ a, BitBackend.scalarConstant t x = some a := by
    apply Emits.mapM
    · intro i x s t hgrows ⟨a, ha⟩
      exact ⟨a, W.known_mono hgrows ha⟩
    · exact fun i index _ t hgrows => resizedBit_known (h.mono hgrows) index signExtend
  apply hall.mono
  intro xs t _ ⟨_, hxs⟩ x hx
  obtain ⟨i, hi⟩ := List.mem_iff_getElem?.mp hx
  exact hxs i x hi

/-- Resized bits keep the operand's integer and, of a constant operand, are constants. -/
theorem resizedBits_constant {value : Operand β} {x : Nat} (h : Holds W s value x) (width : Nat)
    (signExtend : Bool) : W.Emits s (resizedBits value width signExtend) fun xs t =>
      (xs.length = width ∧ W.Carries t xs (value.reading signExtend x)) ∧
        (Known s value.bits → Known t xs) := by
  by_cases hknown : Known s value.bits
  · apply ((resizedBits_emits h width signExtend).and (resizedBits_known hknown width signExtend)).mono
    exact fun xs t _ ⟨hxs, hconstant⟩ => ⟨hxs, fun _ => hconstant⟩
  · apply (resizedBits_emits h width signExtend).mono
    exact fun xs t _ hxs => ⟨hxs, fun hk => (hknown hk).elim⟩

theorem rippleAddConstantLoop_emits (inputs : List (β × Bool)) {a b : Int} {carry : β} {c : Bool}
    (h : W.Carries s (inputs.map Prod.fst) a) (hknown : inputs.map Prod.snd = digits b inputs.length)
    (hcarry : W.Reads s carry c) :
    Returns W s (rippleAddConstantLoop inputs carry) inputs.length (a + b + c.toNat) := by
  induction inputs generalizing s a b carry c with
  | nil => exact Emits.pure ⟨rfl, trivial⟩
  | cons input rest ih =>
    obtain ⟨bit, known⟩ := input
    obtain ⟨hbit, hrest⟩ := h
    rw [List.map_cons, List.length_cons, digits_succ, List.cons.injEq] at hknown
    obtain ⟨hdigit, htail⟩ := hknown
    apply Emits.bind (W.xor_emits hbit hcarry)
    intro xor s₁ g₁ hxor
    cases hb : odd b with
    | true =>
      rw [hb] at hdigit
      subst hdigit
      apply Emits.bind (W.not_emits hxor)
      intro sum s₂ g₂ hsum
      have g₀₂ := W.trans g₁ g₂
      apply Emits.bind (W.or_emits (W.mono g₀₂ hbit) (W.mono g₀₂ hcarry))
      intro above s₃ g₃ habove
      apply Emits.bind (ih (hrest.mono (W.trans g₀₂ g₃)) htail habove)
      intro sums s₄ g₄ ⟨hlength, hsums⟩
      refine Emits.pure ⟨by rw [List.length_cons, hlength, List.length_cons], ?_⟩
      rw [carries_cons, odd_sum, half_sum, hb]
      have hmajority : majority (odd a) true c = (odd a || c) := by cases odd a <;> cases c <;> rfl
      have hparity : ((odd a ^^ true) ^^ c) = !(odd a ^^ c) := by cases odd a <;> cases c <;> rfl
      rw [hmajority, hparity]
      exact ⟨W.mono (W.trans g₃ g₄) hsum, hsums⟩
    | false =>
      rw [hb] at hdigit
      subst hdigit
      apply Emits.bind (W.and_emits (W.mono g₁ hbit) (W.mono g₁ hcarry))
      intro above s₂ g₂ habove
      apply Emits.bind (ih (hrest.mono (W.trans g₁ g₂)) htail habove)
      intro sums s₃ g₃ ⟨hlength, hsums⟩
      refine Emits.pure ⟨by rw [List.length_cons, hlength, List.length_cons], ?_⟩
      rw [carries_cons, odd_sum, half_sum, hb]
      have hmajority : majority (odd a) false c = (odd a && c) := by cases odd a <;> cases c <;> rfl
      rw [hmajority, Bool.xor_false]
      exact ⟨W.mono (W.trans g₂ g₃) hxor, hsums⟩

theorem map_fst_zip_known {xs : List β} {b : Int} :
    (xs.zip (digits b xs.length)).map Prod.fst = xs := List.map_fst_zip (by simp)

theorem rippleAddConstant_emits {xs : List β} {a b : Int} (h : W.Carries s xs a) (c : Bool) :
    Returns W s (rippleAddConstant xs (digits b xs.length) c) xs.length (a + b + c.toNat) := by
  apply Emits.bind (W.constant_emits s c)
  intro carry s₁ g₁ hcarry
  have hzip : (xs.zip (digits b xs.length)).length = xs.length := by simp
  have hloop := rippleAddConstantLoop_emits (W := W) (s := s₁) (xs.zip (digits b xs.length)) (a := a)
    (b := b) (c := c) (by rw [map_fst_zip_known]; exact h.mono g₁)
    (by rw [hzip]; exact List.map_snd_zip (by simp)) hcarry
  rwa [hzip] at hloop

/-- The pair of a position with a known digit. -/
def knownPairs (a b : Int) (i : Nat) : Carry :=
  ⟨if digit b i then digit a i else false, if digit b i then true else digit a i⟩

theorem adds_knownPairs (a b : Int) (n : Nat) : Carry.Adds (knownPairs a b) a b n := by
  intro i _ c
  rw [knownPairs, Carry.act]
  cases digit b i <;> cases digit a i <;> cases c <;> rfl

theorem zip_digits {xs : List β} {b : Int} {i : Nat} {input : β × Bool}
    (h : (xs.zip (digits b xs.length))[i]? = some input) :
    xs[i]? = some input.1 ∧ input.2 = digit b i := by
  rw [List.getElem?_zip_eq_some] at h
  obtain ⟨hx, hb⟩ := h
  obtain ⟨hi, hb⟩ := List.getElem?_eq_some_iff.mp hb
  refine ⟨hx, ?_⟩
  rw [← hb]
  simp [digits]

theorem constantNetwork_network {xs : List β} {a b : Int} {zero one : β} (h : W.Carries s xs a)
    (hzero : W.Reads s zero false) (hone : W.Reads s one true) :
    Network W s (constantNetwork zero one ((xs.zip (digits b xs.length)).take (xs.length - 1)))
      (xs.length - 1) (knownPairs a b) := by
  refine ⟨by simp [constantNetwork], by simp [constantNetwork], ?_, ?_⟩ <;>
  · intro i y hy
    simp only [constantNetwork, List.getElem?_map, Option.map_eq_some_iff] at hy
    obtain ⟨input, hinput, rfl⟩ := hy
    rw [List.getElem?_take] at hinput
    split_ifs at hinput
    obtain ⟨hx, hb⟩ := zip_digits hinput
    have hread := h.read hx
    rw [hb, knownPairs]
    cases digit b i <;> assumption

theorem scanNonempty_emits {network : PrefixNetwork β} {n : Nat} {x : Nat → Carry}
    (h : Network W s network n x) :
    W.Emits s (scanNonempty network) fun r t => Scanned W t r n x := by
  rw [scanNonempty]
  split_ifs with hempty
  · rw [List.isEmpty_iff_length_eq_zero, h.generates] at hempty
    exact Emits.pure (h.congr fun i hi => by omega)
  · exact brentKungPrefix_emits h

theorem prefixAddConstant_emits {xs : List β} {a b : Int} (h : W.Carries s xs a) (c : Bool) :
    Returns W s (prefixAddConstant xs (digits b xs.length) c) xs.length (a + b + c.toNat) := by
  apply Emits.bind (W.constant_emits s false)
  intro zero s₁ g₁ hzero
  apply Emits.bind (W.constant_emits s₁ true)
  intro one s₂ g₂ hone
  have g₀₂ := W.trans g₁ g₂
  have hzero := W.mono g₂ hzero
  apply Emits.bind (scanNonempty_emits (constantNetwork_network (h.mono g₀₂) hzero hone))
  intro network s₃ g₃ hscanned
  have hzip : (xs.zip (digits b xs.length)).length = xs.length := by simp
  have hsums := mapM_zipIdx_carries (W := W) (s := s₃) (k := 0) (z := a + b + c.toNat)
    (f := fun position => constantSum network zero one c position.1 position.2)
    (l := xs.zip (digits b xs.length)) fun i input hinput t g => by
      obtain ⟨hx, hb⟩ := zip_digits hinput
      have hi : i < xs.length := (List.getElem?_eq_some_iff.mp hx).1
      have hcarry : W.Emits t (constantCarry network zero one c (0 + i)) fun y u =>
          W.Reads u y (carryInto i a b c) := by
        rw [constantCarry, Nat.zero_add]
        split_ifs with hzero_index hone_carry
        · rw [hzero_index, hone_carry]
          exact Emits.pure (W.mono (W.trans g₃ g) hone)
        · rw [hzero_index, Bool.eq_false_iff.mpr hone_carry]
          exact Emits.pure (W.mono (W.trans g₃ g) hzero)
        · have hcarry := scannedCarry_emits (n := xs.length) (adds_knownPairs a b _) (hscanned.mono g) c
            (show i - 1 < xs.length - 1 by omega)
          rwa [Nat.sub_add_cancel (by omega)] at hcarry
      apply Emits.bind hcarry
      intro carry s₄ g₄ hcarry
      apply Emits.bind (W.xor_emits (((h.mono g₀₂).mono (W.trans g₃ (W.trans g g₄))).read hx) hcarry)
      intro sum s₅ g₅ hsum
      rw [digit_sum, ← hb]
      have hparity : ((digit a i ^^ input.2) ^^ carryInto i a b c) =
          ((digit a i ^^ carryInto i a b c) ^^ input.2) := by
        cases digit a i <;> cases input.2 <;> cases carryInto i a b c <;> rfl
      rw [hparity]
      exact invertIf_emits hsum input.2
  rwa [hzip] at hsums

theorem invert_all {xs : List β} {b : Int} (h : W.Carries s xs b) (invert : Bool) :
    Returns W s (xs.mapM (invertIf invert)) xs.length (addend invert b) := by
  apply mapM_carries
  intro i x hx t hgrows
  rw [digit_addend]
  exact invertIf_emits (W.mono hgrows (h.read hx)) invert

/-- The operands that the recipe finds add up to the sum or the difference. -/
theorem constantOperands_spec {leftBits rightBits : List β} {a b : Int} {n : Nat}
    (hleft : leftBits.length = n ∧ W.Carries s leftBits a)
    (hright : rightBits.length = n ∧ W.Carries s rightBits b) {left right : Option (List Bool)}
    (hl : ∀ bools, left = some bools → bools = digits a n)
    (hr : ∀ bools, right = some bools → bools = digits b n) {subtract : Bool}
    {operands : ConstantOperands β}
    (h : constantOperands leftBits rightBits left right subtract = some operands) :
    ∃ u v, operands.varying.length = n ∧ W.Carries s operands.varying u ∧
      operands.known = digits v n ∧
      addend operands.invertVariable u + addend operands.invertConstant v + (subtract.toNat : Int) =
        addSub subtract a b := by
  cases right with
  | some known =>
    have hknown := hr known rfl
    cases subtract with
    | false =>
      simp only [constantOperands, Option.some.injEq] at h
      subst h
      exact ⟨a, b, hleft.1, hleft.2, hknown, by simp [addend, addSub]⟩
    | true =>
      simp only [constantOperands, Option.some.injEq] at h
      subst h
      exact ⟨a, b, hleft.1, hleft.2, hknown, by simp [addend, addSub]; ring⟩
  | none =>
    cases left with
    | none => simp [constantOperands] at h
    | some known =>
      have hknown := hl known rfl
      cases subtract with
      | false =>
        simp only [constantOperands, Option.some.injEq] at h
        subst h
        exact ⟨b, a, hright.1, hright.2, hknown, by simp [addend, addSub]; ring⟩
      | true =>
        simp only [constantOperands, Option.some.injEq] at h
        subst h
        exact ⟨b, a, hright.1, hright.2, hknown, by simp [addend, addSub]; ring⟩

theorem constantOperands_ne_none {leftBits rightBits : List β} {left right : Option (List Bool)}
    (h : left ≠ none ∨ right ≠ none) (subtract : Bool) :
    constantOperands leftBits rightBits left right subtract ≠ none := by
  cases left <;> cases right <;> cases subtract <;> simp [constantOperands] at h ⊢

theorem constantAddSubBits_emits {left right : Operand β} {x y : Nat} (hx : Holds W s left x)
    (hy : Holds W s right y) (hknown : Known s left.bits ∨ Known s right.bits)
    (subtract prefixed : Bool) (resultTy : WordType) :
    Returns W s (constantAddSubBits left right subtract prefixed resultTy) resultTy.width
      (addSub subtract (left.reading resultTy.signed x) (right.reading resultTy.signed y)) := by
  apply Emits.bind (resizedBits_constant hx resultTy.width resultTy.signed)
  intro leftBits s₁ g₁ ⟨⟨hleftLength, hleft⟩, hleftKnown⟩
  apply Emits.bind (resizedBits_constant (hy.mono g₁) resultTy.width resultTy.signed)
  intro rightBits s₂ g₂ ⟨⟨hrightLength, hright⟩, hrightKnown⟩
  have hleft := hleft.mono g₂
  apply Emits.bind (boolVector_emits hleft)
  intro leftConstant s₃ g₃ ⟨hl, hlSome⟩
  apply Emits.bind (boolVector_emits (hright.mono g₃))
  intro rightConstant s₄ g₄ ⟨hr, hrSome⟩
  rw [hleftLength] at hl
  rw [hrightLength] at hr
  have g₂₄ := W.trans g₃ g₄
  have hsome : leftConstant ≠ none ∨ rightConstant ≠ none := by
    refine hknown.imp (fun hk => hlSome ?_) (fun hk => hrSome ?_)
    · exact (hleftKnown hk).mono (W.trans g₂ g₃)
    · exact (hrightKnown (hk.mono g₁)).mono g₂₄
  cases hoperands : constantOperands leftBits rightBits leftConstant rightConstant subtract with
  | none => exact (constantOperands_ne_none hsome subtract hoperands).elim
  | some operands =>
    obtain ⟨u, v, hlength, hu, hv, hsum⟩ := constantOperands_spec (W := W) (s := s₄)
      ⟨hleftLength, hleft.mono g₂₄⟩ ⟨hrightLength, hright.mono g₂₄⟩ hl hr hoperands
    apply Emits.bind (invert_all hu operands.invertVariable)
    intro varying s₅ _ ⟨hvaryingLength, hvarying⟩
    rw [hlength] at hvaryingLength
    rw [hv, digits_addend, ← hvaryingLength, ← hsum]
    cases prefixed with
    | true => exact prefixAddConstant_emits hvarying subtract
    | false => exact rippleAddConstant_emits hvarying subtract

end

/-! Constant operands of the AXM backend. -/

namespace AxmBackend

open Logic

def constantOperand (ty : WordType) (x : Nat) : Operand Lit where
  bits := (digits x ty.width).map LogicBuilder.constant
  ty := ty
  sized := by rw [List.length_map, length_digits]

theorem constants_carry (g : Nat → Bool) {t : LogicBuilder} (ht : Inv t) (z : Int) (n : Nat) :
    (meaning g).Carries t ((digits z n).map LogicBuilder.constant) z := by
  induction n generalizing z with
  | zero => exact trivial
  | succ n ih =>
    rw [digits_succ]
    exact ⟨reads_constant ht (odd z), ih (z / 2)⟩

theorem constantOperand_holds (g : Nat → Bool) {t : LogicBuilder} (ht : Inv t) (ty : WordType) {x : Nat}
    (hx : x < 2 ^ ty.width) : Holds (meaning g) t (constantOperand ty x) x :=
  ⟨hx, constants_carry g ht x ty.width⟩

theorem constantOperand_known (t : LogicBuilder) (ty : WordType) (x : Nat) :
    Known t (constantOperand ty x).bits := by
  intro l hl
  obtain ⟨bit, _, rfl⟩ := List.mem_map.mp hl
  exact ⟨bit, by cases bit <;> rfl⟩

end AxmBackend
end Opto.Bitblast
