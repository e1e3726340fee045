import Mathlib.Data.Nat.Sqrt
import Opto.Bitblast.ConstantAdders
import Opto.Planning.Catalog

/-!
# The adder recipes

The provider of additions offers several recipes for one operator. Whichever is chosen, and
whatever its network looks like, the lowering returns the same sum.
-/

namespace Opto.Bitblast

open Word Growing Scan Planning

inductive AdderRecipe
  | rippleCarry
  | brentKung
  | koggeStone
  | hybridBrentKung
  | areaHybridBrentKung
  | increment
  | decrement
  | constantRipple
  | constantBrentKung
deriving DecidableEq, Repr

/-- The recipes that the provider emits for an operator with two operands. -/
def enumerateRecipes (kind : OperatorKind) (hasConstant : Bool) (width : Nat) : List AdderRecipe :=
  match kind with
  | .add | .subtract =>
    if hasConstant then [.constantRipple] ++ (if 2 ≤ width then [.constantBrentKung] else [])
    else [.rippleCarry] ++ (if 2 ≤ width then [.brentKung] else []) ++
      (if 3 ≤ width then [.koggeStone] else []) ++ (if 4 ≤ width then [.hybridBrentKung] else []) ++
      (if 5 ≤ width then [.areaHybridBrentKung] else [])
  | .increment => [.increment]
  | .decrement => [.decrement]
  | .sum | .multiply | .divide | .modulo | .dynamicExtract => []

/-- The recipes that look for a constant operand. -/
def AdderRecipe.usesConstant (recipe : AdderRecipe) : Bool :=
  recipe ∈ [.increment, .decrement, .constantRipple, .constantBrentKung]

/-- The adder that sums the two vectors of a compressed matrix. -/
inductive CarryNetwork
  | ripple
  | brentKung
  | koggeStone
deriving DecidableEq, Repr

variable {σ ε β : Type} [BitBackend σ ε β]

def carryNetworkAdd (network : CarryNetwork) (left right : List β) (carry : β) :
    BlastM σ ε (List β) :=
  match network with
  | .brentKung => brentKungAddVectors left right carry
  | .koggeStone => koggeStoneAddVectors left right carry
  | .ripple => addVectors left right carry

def lowerAddSub (recipe : AdderRecipe) (kind : OperatorKind) (left right : Operand β)
    (resultTy : WordType) : BlastM σ ε (List β) :=
  let subtract := kind = .subtract
  match recipe with
  | .rippleCarry => rippleAddSubBits left right subtract resultTy
  | .brentKung => brentKungAddSubBits left right subtract resultTy
  | .koggeStone => koggeStoneAddSubBits left right subtract resultTy
  | .hybridBrentKung =>
    hybridBrentKungAddSubBits left right subtract resultTy (max resultTy.width.sqrt 2)
  | .areaHybridBrentKung =>
    hybridBrentKungAddSubBits left right subtract resultTy (resultTy.width.sqrt + 1)
  | .increment => constantAddSubBits left right false false resultTy
  | .decrement => constantAddSubBits left right true false resultTy
  | .constantRipple => constantAddSubBits left right subtract false resultTy
  | .constantBrentKung => constantAddSubBits left right subtract true resultTy

section

variable {W : Meaning σ ε β} {s : σ} {left right : Operand β} {x y : Nat}

theorem prefixAdderInputs_emits (hx : Holds W s left x) (hy : Holds W s right y) (subtract : Bool)
    (resultTy : WordType) : W.Emits s (prefixAdderInputs left right subtract resultTy) fun r t =>
      Inputs W t r.1 r.2.generate resultTy.width (left.reading resultTy.signed x)
        (addend subtract (right.reading resultTy.signed y)) ∧
      Network W t r.2 (resultTy.width - 1) (pairs (left.reading resultTy.signed x)
        (addend subtract (right.reading resultTy.signed y))) := by
  have hsupplies : Supplies W s (addSubPosition left right subtract resultTy)
      (List.range resultTy.width) (left.reading resultTy.signed x)
      (addend subtract (right.reading resultTy.signed y)) := by
    intro i index hindex t hgrows
    obtain ⟨_, rfl⟩ := List.getElem?_eq_some_iff.mp hindex
    rw [List.getElem_range]
    exact addSubPosition_emits (hx.mono hgrows) (hy.mono hgrows) subtract resultTy i
  have hinputs := prefixInputs_emits hsupplies
  rwa [List.length_range] at hinputs

section Operands

variable (hx : Holds W s left x) (hy : Holds W s right y) (subtract : Bool) (resultTy : WordType)

include hx hy

theorem koggeStoneAddSubBits_emits :
    Returns W s (koggeStoneAddSubBits left right subtract resultTy) resultTy.width
      (addSub subtract (left.reading resultTy.signed x) (right.reading resultTy.signed y)) := by
  apply Emits.bind (prefixAdderInputs_emits hx hy subtract resultTy)
  intro r s₁ g₁ ⟨hinputs, hnetwork⟩
  apply Emits.bind (koggeStonePrefix_emits hnetwork)
  intro network s₂ g₂ hscanned
  rw [← addend_carry]
  exact prefixAdderSum_emits (hinputs.mono g₂) resultTy.positive hscanned subtract

theorem brentKungAddSubBits_emits :
    Returns W s (brentKungAddSubBits left right subtract resultTy) resultTy.width
      (addSub subtract (left.reading resultTy.signed x) (right.reading resultTy.signed y)) := by
  apply Emits.bind (prefixAdderInputs_emits hx hy subtract resultTy)
  intro r s₁ g₁ ⟨hinputs, hnetwork⟩
  apply Emits.bind (brentKungPrefix_emits hnetwork)
  intro network s₂ g₂ hscanned
  rw [← addend_carry]
  exact prefixAdderSum_emits (hinputs.mono g₂) resultTy.positive hscanned subtract

theorem hybridBrentKungAddSubBits_emits (hwidth : 4 ≤ resultTy.width) (requested : Nat) :
    Returns W s (hybridBrentKungAddSubBits left right subtract resultTy requested) resultTy.width
      (addSub subtract (left.reading resultTy.signed x) (right.reading resultTy.signed y)) := by
  rw [hybridBrentKungAddSubBits]
  generalize hsplit : min (max requested 2) (resultTy.width - 2) = split
  apply Emits.bind (addSubOperands_emits hx hy subtract resultTy)
  intro bits s₁ g₁ ⟨hlength, hbits⟩
  apply Emits.bind (W.constant_emits s₁ subtract)
  intro initial s₂ g₂ hinitial
  have hbits := hbits.mono g₂
  generalize left.reading resultTy.signed x = a at hbits ⊢
  generalize right.reading resultTy.signed y = b at hbits ⊢
  have hshort : split ≤ resultTy.width - 2 := by omega
  have htake {xs : List β} (hxs : xs.length = resultTy.width) : (xs.take split).length = split := by
    rw [List.length_take, hxs]
    omega
  have hdrop {xs : List β} (hxs : xs.length = resultTy.width) :
      (xs.drop split).length = resultTy.width - split := by rw [List.length_drop, hxs]
  have hleft : (bits.map Prod.fst).length = resultTy.width := by rw [List.length_map, hlength]
  have hright : (bits.map Prod.snd).length = resultTy.width := by rw [List.length_map, hlength]
  apply Emits.bind (addVectorsWithCarry_emits (hbits.1.take split) (hbits.2.take split) hinitial
    (by rw [htake hleft, htake hright]) (by rw [htake hleft]; omega))
  intro low s₃ g₃ ⟨hlowLength, hlow, hcarry⟩
  rw [htake hleft] at hlowLength hcarry
  have hbits := hbits.mono g₃
  apply Emits.bind (prefixInputsFromBits_emits (hbits.1.drop split) (hbits.2.drop split)
    (by rw [hdrop hleft, hdrop hright]) (by rw [hdrop hleft]; omega))
  intro r s₄ g₄ ⟨hinputs, hnetwork⟩
  apply Emits.bind (brentKungPrefix_emits hnetwork)
  intro network s₅ g₅ hscanned
  have g₃₅ := W.trans g₄ g₅
  apply Emits.bind (prefixAdderSumWithCarry_emits (hinputs.mono g₅) (by rw [hdrop hleft]; omega)
    hscanned (W.mono g₃₅ hcarry))
  intro high s₆ g₆ ⟨hhighLength, hhigh⟩
  refine Emits.pure ⟨?_, ?_⟩
  · rw [List.length_append, hlowLength, hhighLength, hdrop hleft]
    omega
  · rw [← addend_carry, carries_append, hlowLength, sum_shift]
    exact ⟨hlow.mono (W.trans g₃₅ g₆), hhigh⟩

end Operands

theorem koggeStoneAddVectors_emits {xs ys : List β} {a b : Int} {carry : β} {c : Bool}
    (hx : W.Carries s xs a) (hy : W.Carries s ys b) (hcarry : W.Reads s carry c)
    (hlength : xs.length = ys.length) (hpos : 0 < xs.length) :
    Returns W s (koggeStoneAddVectors xs ys carry) xs.length (a + b + c.toNat) := by
  rw [koggeStoneAddVectors]
  split_ifs with hwidth
  · exact addVectors_emits hx hy hcarry hlength hpos
  · apply Emits.bind (prefixInputsFromBits_emits hx hy hlength (by omega))
    intro r s₁ g₁ ⟨hinputs, hnetwork⟩
    have hcarry := W.mono g₁ hcarry
    apply Emits.bind (seedPrefixCarry_emits hnetwork (by omega) hcarry)
    intro network s₂ g₂ hseeded
    apply Emits.bind (koggeStonePrefix_emits hseeded)
    intro network s₃ g₃ hscanned
    have g₁₃ := W.trans g₂ g₃
    exact seededPrefixSum_emits (hinputs.mono g₁₃) hscanned (W.mono g₁₃ hcarry)

theorem brentKungAddVectors_emits {xs ys : List β} {a b : Int} {carry : β} {c : Bool}
    (hx : W.Carries s xs a) (hy : W.Carries s ys b) (hcarry : W.Reads s carry c)
    (hlength : xs.length = ys.length) (hpos : 0 < xs.length) :
    Returns W s (brentKungAddVectors xs ys carry) xs.length (a + b + c.toNat) := by
  rw [brentKungAddVectors]
  split_ifs with hwidth
  · exact addVectors_emits hx hy hcarry hlength hpos
  · apply Emits.bind (prefixInputsFromBits_emits hx hy hlength (by omega))
    intro r s₁ g₁ ⟨hinputs, hnetwork⟩
    have hcarry := W.mono g₁ hcarry
    apply Emits.bind (seedPrefixCarry_emits hnetwork (by omega) hcarry)
    intro network s₂ g₂ hseeded
    apply Emits.bind (brentKungPrefix_emits hseeded)
    intro network s₃ g₃ hscanned
    have g₁₃ := W.trans g₂ g₃
    exact seededPrefixSum_emits (hinputs.mono g₁₃) hscanned (W.mono g₁₃ hcarry)

theorem carryNetworkAdd_emits (network : CarryNetwork) {xs ys : List β} {a b : Int} {carry : β}
    {c : Bool} (hx : W.Carries s xs a) (hy : W.Carries s ys b) (hcarry : W.Reads s carry c)
    (hlength : xs.length = ys.length) (hpos : 0 < xs.length) :
    Returns W s (carryNetworkAdd network xs ys carry) xs.length (a + b + c.toNat) := by
  cases network with
  | ripple => exact addVectors_emits hx hy hcarry hlength hpos
  | brentKung => exact brentKungAddVectors_emits hx hy hcarry hlength hpos
  | koggeStone => exact koggeStoneAddVectors_emits hx hy hcarry hlength hpos

/-- The operators whose recipes subtract. -/
def subtracts (kind : OperatorKind) : Bool := kind = .subtract ∨ kind = .decrement

/-- What the provider promises of a recipe of an addition or a subtraction. -/
theorem enumerated {recipe : AdderRecipe} {kind : OperatorKind} {hasConstant : Bool} {width : Nat}
    (hkind : kind = .add ∨ kind = .subtract)
    (hrecipe : recipe ∈ enumerateRecipes kind hasConstant width) :
    recipe ≠ .increment ∧ recipe ≠ .decrement ∧
      (recipe = .hybridBrentKung ∨ recipe = .areaHybridBrentKung → 4 ≤ width) := by
  have hlist : recipe ∈ enumerateRecipes .add hasConstant width := by
    cases hkind with
    | inl h => subst h; exact hrecipe
    | inr h => subst h; exact hrecipe
  cases recipe <;> cases hasConstant <;> simp_all [enumerateRecipes]
  omega

section Recipes

variable {recipe : AdderRecipe} {kind : OperatorKind} {resultTy : WordType}
  (hknown : recipe.usesConstant → Known s left.bits ∨ Known s right.bits)
  (hx : Holds W s left x) (hy : Holds W s right y)

include hknown hx hy

theorem lowerAddSub_plain (hplain : recipe ≠ .increment ∧ recipe ≠ .decrement ∧
      (recipe = .hybridBrentKung ∨ recipe = .areaHybridBrentKung → 4 ≤ resultTy.width)) :
    Returns W s (lowerAddSub recipe kind left right resultTy) resultTy.width
      (addSub (kind = .subtract) (left.reading resultTy.signed x)
        (right.reading resultTy.signed y)) := by
  obtain ⟨hincrement, hdecrement, hhybrid⟩ := hplain
  cases recipe with
  | rippleCarry => exact rippleAddSubBits_emits hx hy _ resultTy
  | brentKung => exact brentKungAddSubBits_emits hx hy _ resultTy
  | koggeStone => exact koggeStoneAddSubBits_emits hx hy _ resultTy
  | hybridBrentKung => exact hybridBrentKungAddSubBits_emits hx hy _ resultTy (hhybrid (.inl rfl)) _
  | areaHybridBrentKung =>
    exact hybridBrentKungAddSubBits_emits hx hy _ resultTy (hhybrid (.inr rfl)) _
  | increment => exact (hincrement rfl).elim
  | decrement => exact (hdecrement rfl).elim
  | constantRipple => exact constantAddSubBits_emits hx hy (hknown rfl) _ _ resultTy
  | constantBrentKung => exact constantAddSubBits_emits hx hy (hknown rfl) _ _ resultTy

theorem lowerAddSub_emits {hasConstant : Bool}
    (hrecipe : recipe ∈ enumerateRecipes kind hasConstant resultTy.width) :
    Returns W s (lowerAddSub recipe kind left right resultTy) resultTy.width
      (addSub (subtracts kind) (left.reading resultTy.signed x)
        (right.reading resultTy.signed y)) := by
  cases kind with
  | add => exact lowerAddSub_plain hknown hx hy (enumerated (.inl rfl) hrecipe)
  | subtract => exact lowerAddSub_plain hknown hx hy (enumerated (.inr rfl) hrecipe)
  | increment =>
    rw [enumerateRecipes, List.mem_singleton] at hrecipe
    subst hrecipe
    exact constantAddSubBits_emits hx hy (hknown rfl) false false resultTy
  | decrement =>
    rw [enumerateRecipes, List.mem_singleton] at hrecipe
    subst hrecipe
    exact constantAddSubBits_emits hx hy (hknown rfl) true false resultTy
  | sum | multiply | divide | modulo | dynamicExtract => cases hrecipe

end Recipes

variable (W) in
/-- The bits are the carries out of the positions of an addition. -/
def CarryBits (s : σ) (bits : List β) (a b : Int) (c : Bool) : Prop :=
  ∀ (i : Nat) (x : β), bits[i]? = some x → W.Reads s x (carryInto (i + 1) a b c)

/-- A scan of seeded pairs leaves the carries in the generate bits. -/
theorem seeded_carryBits {network : PrefixNetwork β} {n : Nat} {a b : Int} {c : Bool}
    (h : Scanned W s network n (seeded a b c)) : CarryBits W s network.generate a b c := by
  intro i x hx
  rw [← generate_seeded]
  exact h.generate i x hx

/-- Without a carry-in the generate bits of the scanned pairs are the carries. -/
theorem pairs_carryBits {network : PrefixNetwork β} {n : Nat} {a b : Int}
    (h : Scanned W s network n (pairs a b)) : CarryBits W s network.generate a b false := by
  intro i x hx
  have hcarry := Carry.act_segment (adds_pairs a b (i + 1)) false (Nat.le_refl _)
  rw [Carry.act, Bool.and_false, Bool.or_false] at hcarry
  rw [← hcarry]
  exact h.generate i x hx

variable (W s) in
/-- Every adder returns the bits of the sum, and every carry vector that an adder works with
holds the carries of a ripple adder. -/
structure AddersAgree : Prop where
  recipes : ∀ recipe kind hasConstant resultTy (left right : Operand β) x y,
    recipe ∈ enumerateRecipes kind hasConstant resultTy.width →
    (recipe.usesConstant → Known s left.bits ∨ Known s right.bits) →
    Holds W s left x → Holds W s right y →
    Returns W s (lowerAddSub recipe kind left right resultTy) resultTy.width
      (addSub (subtracts kind) (left.reading resultTy.signed x) (right.reading resultTy.signed y))
  vectors : ∀ network (xs ys : List β) a b carry c,
    W.Carries s xs a → W.Carries s ys b → W.Reads s carry c →
    xs.length = ys.length → 0 < xs.length →
    Returns W s (carryNetworkAdd network xs ys carry) xs.length (a + b + c.toNat)
  carryOut : ∀ (xs ys : List β) a b carry c,
    W.Carries s xs a → W.Carries s ys b → W.Reads s carry c →
    xs.length = ys.length → 0 < xs.length →
    W.Emits s (addVectorsWithCarry xs ys carry) fun r t =>
      r.1.length = xs.length ∧ W.Carries t r.1 (a + b + c.toNat) ∧
        W.Reads t r.2 (carryInto xs.length a b c)
  scans : ∀ (network : PrefixNetwork β) n a b, Network W s network n (pairs a b) →
    (W.Emits s (koggeStonePrefix network) fun r t => CarryBits W t r.generate a b false) ∧
      W.Emits s (brentKungPrefix network) fun r t => CarryBits W t r.generate a b false
  seededScans : ∀ (network : PrefixNetwork β) n a b carry c,
    Network W s network n (pairs a b) → 0 < n → W.Reads s carry c →
    (W.Emits s (seedPrefixCarry network carry >>= koggeStonePrefix) fun r t =>
        CarryBits W t r.generate a b c) ∧
      W.Emits s (seedPrefixCarry network carry >>= brentKungPrefix) fun r t =>
        CarryBits W t r.generate a b c

theorem adders_exact (W : Meaning σ ε β) (s : σ) : AddersAgree W s where
  recipes _ _ _ _ _ _ _ _ hrecipe hknown hx hy := lowerAddSub_emits hknown hx hy hrecipe
  vectors network _ _ _ _ _ _ hx hy hcarry hlength hpos :=
    carryNetworkAdd_emits network hx hy hcarry hlength hpos
  carryOut _ _ _ _ _ _ hx hy hcarry hlength hpos :=
    addVectorsWithCarry_emits hx hy hcarry hlength hpos
  scans _ _ _ _ h :=
    ⟨(koggeStonePrefix_emits h).mono fun _ _ _ hr => pairs_carryBits hr,
      (brentKungPrefix_emits h).mono fun _ _ _ hr => pairs_carryBits hr⟩
  seededScans _ _ _ _ _ _ h hpos hcarry :=
    ⟨(seedPrefixCarry_emits h hpos hcarry).bind fun _ _ _ hseeded =>
        (koggeStonePrefix_emits hseeded).mono fun _ _ _ hr => seeded_carryBits hr,
      (seedPrefixCarry_emits h hpos hcarry).bind fun _ _ _ hseeded =>
        (brentKungPrefix_emits hseeded).mono fun _ _ _ hr => seeded_carryBits hr⟩

end
end Opto.Bitblast
