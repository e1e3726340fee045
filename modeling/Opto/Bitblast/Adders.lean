import Opto.Bitblast.Vectors

/-!
# Ripple adders

Every adder returns the digits of an integer sum: a position's bit is the exclusive or of
the operands' digits and the carry into it. A subtraction adds the complement of the right
operand and one.
-/

namespace Opto.Bitblast

open Word Growing

variable {σ ε β : Type} [BitBackend σ ε β]

def fullAdder (left right carryIn : β) : BlastM σ ε (β × β) := do
  let propagate ← emitBinary .bitXor left right
  let sum ← emitBinary .bitXor propagate carryIn
  let generate ← emitBinary .bitAnd left right
  let propagated ← emitBinary .bitAnd propagate carryIn
  let carry ← emitBinary .bitOr generate propagated
  return (sum, carry)

def halfAdder (left right : β) : BlastM σ ε (β × β) := do
  let sum ← emitBinary .bitXor left right
  let carry ← emitBinary .bitAnd left right
  return (sum, carry)

/-- The last position emits no carry. -/
def addVectorsLoop : List (β × β) → β → BlastM σ ε (List β)
  | [], _ => pure []
  | [(left, right)], carry => do
    let propagate ← emitBinary .bitXor left right
    let sum ← emitBinary .bitXor propagate carry
    return [sum]
  | (left, right) :: rest, carry => do
    let (sum, carry) ← fullAdder left right carry
    let sums ← addVectorsLoop rest carry
    return sum :: sums

def addVectors (left right : List β) (carry : β) : BlastM σ ε (List β) :=
  if left.length ≠ right.length ∨ left.isEmpty then
    invariantError "adder inputs must have equal non-zero widths"
  else addVectorsLoop (left.zip right) carry

def addVectorsWithCarryLoop : List (β × β) → β → BlastM σ ε (List β × β)
  | [], carry => pure ([], carry)
  | (left, right) :: rest, carry => do
    let (sum, carry) ← fullAdder left right carry
    let (sums, carry) ← addVectorsWithCarryLoop rest carry
    return (sum :: sums, carry)

def addVectorsWithCarry (left right : List β) (carry : β) : BlastM σ ε (List β × β) :=
  if left.length ≠ right.length ∨ left.isEmpty then
    invariantError "carry-producing adder inputs must have equal non-zero widths"
  else addVectorsWithCarryLoop (left.zip right) carry

def invertIf (invert : Bool) (bit : β) : BlastM σ ε β :=
  if invert then emitUnary .bitNot bit else pure bit

/-- One position of the operands, extended as the result's type says. -/
def addSubPosition (left right : Operand β) (subtract : Bool) (resultTy : WordType) (index : Nat) :
    BlastM σ ε (β × β) := do
  let left ← resizedBit left index resultTy.signed
  let right ← resizedBit right index resultTy.signed
  let right ← invertIf subtract right
  return (left, right)

def addSubOperands (left right : Operand β) (subtract : Bool) (resultTy : WordType) :
    BlastM σ ε (List (β × β)) :=
  (List.range resultTy.width).mapM (addSubPosition left right subtract resultTy)

def rippleAddSubBits (left right : Operand β) (subtract : Bool) (resultTy : WordType) :
    BlastM σ ε (List β) := do
  let bits ← addSubOperands left right subtract resultTy
  let carry ← constant subtract
  addVectors (bits.map Prod.fst) (bits.map Prod.snd) carry

/-! What the adders return. -/

section

variable {W : Meaning σ ε β} {s : σ}

theorem fullAdder_emits {x y z : β} {a b c : Bool} (hx : W.Reads s x a) (hy : W.Reads s y b)
    (hz : W.Reads s z c) : W.Emits s (fullAdder x y z) fun r t =>
      W.Reads t r.1 ((a ^^ b) ^^ c) ∧ W.Reads t r.2 (majority a b c) := by
  apply Emits.bind (W.xor_emits hx hy)
  intro propagate s₁ g₁ hpropagate
  apply Emits.bind (W.xor_emits hpropagate (W.mono g₁ hz))
  intro sum s₂ g₂ hsum
  have g₀₂ := W.trans g₁ g₂
  apply Emits.bind (W.and_emits (W.mono g₀₂ hx) (W.mono g₀₂ hy))
  intro generate s₃ g₃ hgenerate
  have g₁₃ := W.trans g₂ g₃
  apply Emits.bind (W.and_emits (W.mono g₁₃ hpropagate) (W.mono (W.trans g₁ g₁₃) hz))
  intro propagated s₄ g₄ hpropagated
  apply Emits.bind (W.or_emits (W.mono g₄ hgenerate) hpropagated)
  intro carry s₅ g₅ hcarry
  exact Emits.pure ⟨W.mono (W.trans g₃ (W.trans g₄ g₅)) hsum, hcarry⟩

theorem halfAdder_emits {x y : β} {a b : Bool} (hx : W.Reads s x a) (hy : W.Reads s y b) :
    W.Emits s (halfAdder x y) fun r t => W.Reads t r.1 (a ^^ b) ∧ W.Reads t r.2 (a && b) := by
  apply Emits.bind (W.xor_emits hx hy)
  intro sum s₁ g₁ hsum
  apply Emits.bind (W.and_emits (W.mono g₁ hx) (W.mono g₁ hy))
  intro carry s₂ g₂ hcarry
  exact Emits.pure ⟨W.mono g₂ hsum, hcarry⟩

variable (W) in
/-- The two rows of a list of pairs carry `a` and `b`. -/
def CarriesPair (s : σ) (pairs : List (β × β)) (a b : Int) : Prop :=
  W.Carries s (pairs.map Prod.fst) a ∧ W.Carries s (pairs.map Prod.snd) b

theorem CarriesPair.mono {t : σ} {pairs : List (β × β)} {a b : Int} (h : CarriesPair W s pairs a b)
    (hgrows : W.Grows s t) : CarriesPair W t pairs a b := ⟨h.1.mono hgrows, h.2.mono hgrows⟩

theorem carriesPair_zip {xs ys : List β} {a b : Int} (hx : W.Carries s xs a) (hy : W.Carries s ys b)
    (hlength : xs.length = ys.length) : CarriesPair W s (xs.zip ys) a b := by
  rw [CarriesPair, List.map_fst_zip hlength.le, List.map_snd_zip hlength.ge]
  exact ⟨hx, hy⟩

theorem addVectorsLoop_emits (pairs : List (β × β)) {a b : Int} {carry : β} {c : Bool}
    (h : CarriesPair W s pairs a b) (hcarry : W.Reads s carry c) :
    Returns W s (addVectorsLoop pairs carry) pairs.length (a + b + c.toNat) := by
  induction pairs generalizing s a b carry c with
  | nil => exact Emits.pure ⟨rfl, trivial⟩
  | cons pair rest ih =>
    obtain ⟨⟨hleft, hlefts⟩, ⟨hright, hrights⟩⟩ := h
    cases rest with
    | nil =>
      apply Emits.bind (W.xor_emits hleft hright)
      intro propagate s₁ g₁ hpropagate
      apply Emits.bind (W.xor_emits hpropagate (W.mono g₁ hcarry))
      intro sum s₂ g₂ hsum
      refine Emits.pure ⟨rfl, ?_, trivial⟩
      rwa [odd_sum]
    | cons next rest =>
      apply Emits.bind (fullAdder_emits hleft hright hcarry)
      intro r s₁ g₁ ⟨hsum, hcarry⟩
      apply Emits.bind (ih ⟨hlefts.mono g₁, hrights.mono g₁⟩ hcarry)
      intro sums s₂ g₂ ⟨hlength, hsums⟩
      refine Emits.pure ⟨by simpa using hlength, ?_⟩
      rw [carries_cons, odd_sum, half_sum]
      exact ⟨W.mono g₂ hsum, hsums⟩

theorem addVectors_emits {xs ys : List β} {a b : Int} {carry : β} {c : Bool}
    (hx : W.Carries s xs a) (hy : W.Carries s ys b) (hcarry : W.Reads s carry c)
    (hlength : xs.length = ys.length) (hpos : 0 < xs.length) :
    Returns W s (addVectors xs ys carry) xs.length (a + b + c.toNat) := by
  rw [addVectors, if_neg]
  · apply (addVectorsLoop_emits _ (carriesPair_zip hx hy hlength) hcarry).mono
    intro r t _ ⟨hr, hsum⟩
    refine ⟨?_, hsum⟩
    rw [hr, List.length_zip, hlength, Nat.min_self]
  · rintro (hne | hempty)
    · exact hne hlength
    · rw [List.isEmpty_iff_length_eq_zero] at hempty
      omega

theorem addVectorsWithCarryLoop_emits (pairs : List (β × β)) {a b : Int} {carry : β} {c : Bool}
    (h : CarriesPair W s pairs a b) (hcarry : W.Reads s carry c) :
    W.Emits s (addVectorsWithCarryLoop pairs carry) fun r t =>
      r.1.length = pairs.length ∧ W.Carries t r.1 (a + b + c.toNat) ∧
        W.Reads t r.2 (carryInto pairs.length a b c) := by
  induction pairs generalizing s a b carry c with
  | nil => exact Emits.pure ⟨rfl, trivial, hcarry⟩
  | cons pair rest ih =>
    obtain ⟨⟨hleft, hlefts⟩, ⟨hright, hrights⟩⟩ := h
    apply Emits.bind (fullAdder_emits hleft hright hcarry)
    intro r s₁ g₁ ⟨hsum, hcarry⟩
    apply Emits.bind (ih ⟨hlefts.mono g₁, hrights.mono g₁⟩ hcarry)
    intro sums s₂ g₂ ⟨hlength, hsums, hout⟩
    refine Emits.pure ⟨by simpa using hlength, ?_, hout⟩
    rw [carries_cons, odd_sum, half_sum]
    exact ⟨W.mono g₂ hsum, hsums⟩

theorem addVectorsWithCarry_emits {xs ys : List β} {a b : Int} {carry : β} {c : Bool}
    (hx : W.Carries s xs a) (hy : W.Carries s ys b) (hcarry : W.Reads s carry c)
    (hlength : xs.length = ys.length) (hpos : 0 < xs.length) :
    W.Emits s (addVectorsWithCarry xs ys carry) fun r t =>
      r.1.length = xs.length ∧ W.Carries t r.1 (a + b + c.toNat) ∧
        W.Reads t r.2 (carryInto xs.length a b c) := by
  have hzip : (xs.zip ys).length = xs.length := by rw [List.length_zip, hlength, Nat.min_self]
  rw [addVectorsWithCarry, if_neg]
  · have hloop := addVectorsWithCarryLoop_emits _ (carriesPair_zip hx hy hlength) hcarry
    rwa [hzip] at hloop
  · rintro (hne | hempty)
    · exact hne hlength
    · rw [List.isEmpty_iff_length_eq_zero] at hempty
      omega

/-- The addend that a subtraction adds together with a carry. -/
def addend (subtract : Bool) (b : Int) : Int := if subtract then -b - 1 else b

/-- The sum or the difference. -/
def addSub (subtract : Bool) (a b : Int) : Int := if subtract then a - b else a + b

theorem addend_carry (subtract : Bool) (a b : Int) :
    a + addend subtract b + (subtract.toNat : Int) = addSub subtract a b := by
  cases subtract <;> simp [addend, addSub]
  ring

theorem digit_addend (subtract : Bool) (b : Int) (i : Nat) :
    digit (addend subtract b) i = (digit b i ^^ subtract) := by
  cases subtract
  · simp [addend]
  · simp [addend, digit_complement]

theorem invertIf_emits {x : β} {a : Bool} (h : W.Reads s x a) (invert : Bool) :
    W.Emits s (invertIf invert x) fun y t => W.Reads t y (a ^^ invert) := by
  cases invert with
  | false =>
    rw [Bool.xor_false]
    exact Emits.pure h
  | true =>
    rw [Bool.xor_true]
    exact W.not_emits h

section Operands

variable {left right : Operand β} {x y : Nat} (hx : Holds W s left x) (hy : Holds W s right y)
  (subtract : Bool) (resultTy : WordType)

include hx hy

theorem addSubPosition_emits (index : Nat) :
    W.Emits s (addSubPosition left right subtract resultTy index) fun r t =>
      W.Reads t r.1 (digit (left.reading resultTy.signed x) index) ∧
        W.Reads t r.2 (digit (addend subtract (right.reading resultTy.signed y)) index) := by
  apply Emits.bind (resizedBit_emits hx index resultTy.signed)
  intro l s₁ g₁ hl
  apply Emits.bind (resizedBit_emits (hy.mono g₁) index resultTy.signed)
  intro r s₂ g₂ hr
  apply Emits.bind (invertIf_emits hr subtract)
  intro r s₃ g₃ hr
  rw [← digit_addend] at hr
  exact Emits.pure ⟨W.mono (W.trans g₂ g₃) hl, hr⟩

theorem addSubOperands_emits :
    W.Emits s (addSubOperands left right subtract resultTy) fun r t =>
      r.length = resultTy.width ∧ CarriesPair W t r (left.reading resultTy.signed x)
        (addend subtract (right.reading resultTy.signed y)) := by
  have hall : W.Emits s (addSubOperands left right subtract resultTy) fun r t =>
      r.length = (List.range resultTy.width).length ∧ ∀ (i : Nat) (pair : β × β), r[i]? = some pair →
        W.Reads t pair.1 (digit (left.reading resultTy.signed x) i) ∧
        W.Reads t pair.2 (digit (addend subtract (right.reading resultTy.signed y)) i) := by
    apply Emits.mapM
    · exact fun _ _ _ _ hgrows h => ⟨W.mono hgrows h.1, W.mono hgrows h.2⟩
    · intro i index hindex t hgrows
      obtain ⟨_, rfl⟩ := List.getElem?_eq_some_iff.mp hindex
      rw [List.getElem_range]
      exact addSubPosition_emits (hx.mono hgrows) (hy.mono hgrows) subtract resultTy i
  apply hall.mono
  intro r t _ ⟨hlength, hr⟩
  rw [List.length_range] at hlength
  refine ⟨hlength, carries_iff.mpr fun i b hb => ?_, carries_iff.mpr fun i b hb => ?_⟩
  · rw [List.getElem?_map, Option.map_eq_some_iff] at hb
    obtain ⟨pair, hpair, rfl⟩ := hb
    exact (hr i pair hpair).1
  · rw [List.getElem?_map, Option.map_eq_some_iff] at hb
    obtain ⟨pair, hpair, rfl⟩ := hb
    exact (hr i pair hpair).2

theorem rippleAddSubBits_emits :
    Returns W s (rippleAddSubBits left right subtract resultTy) resultTy.width
      (addSub subtract (left.reading resultTy.signed x) (right.reading resultTy.signed y)) := by
  apply Emits.bind (addSubOperands_emits hx hy subtract resultTy)
  intro bits s₁ g₁ ⟨hlength, hbits⟩
  apply Emits.bind (W.constant_emits s₁ subtract)
  intro carry s₂ g₂ hcarry
  have hpositive := resultTy.positive
  apply (addVectors_emits (hbits.1.mono g₂) (hbits.2.mono g₂) hcarry (by simp) (by simp; omega)).mono
  intro r t _ ⟨hr, hsum⟩
  rw [addend_carry] at hsum
  exact ⟨by rw [hr, List.length_map, hlength], hsum⟩

end Operands
end
end Opto.Bitblast
