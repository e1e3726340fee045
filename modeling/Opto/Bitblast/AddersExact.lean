import Opto.Bitblast.PrefixExact

/-!
# Sums of prefix adders

The inputs of a prefix network are the pairs of the operands' digits. A sum bit is the
propagate bit of its position and the carry that the scanned network has for it.
-/

namespace Opto.Bitblast

open Word Growing Scan

variable {σ ε β γ : Type} [BitBackend σ ε β] {W : Meaning σ ε β} {s : σ}

variable (W) in
/-- The positions give the digits of `a` and `b`. -/
def Supplies (s : σ) (position : γ → BlastM σ ε (β × β)) (positions : List γ) (a b : Int) : Prop :=
  ∀ i p, positions[i]? = some p → ∀ t, W.Grows s t → W.Emits t (position p) fun r u =>
    W.Reads u r.1 (digit a i) ∧ W.Reads u r.2 (digit b i)

theorem Supplies.tail {position : γ → BlastM σ ε (β × β)} {p : γ} {rest : List γ} {a b : Int} {t : σ}
    (h : Supplies W s position (p :: rest) a b) (hgrows : W.Grows s t) :
    Supplies W t position rest (a / 2) (b / 2) := by
  intro i q hq u hu
  rw [← digit_succ, ← digit_succ]
  exact h (i + 1) q hq u (W.trans hgrows hu)

variable (W) in
/-- The propagate bits of `n` positions and the generate bits of all but the last. -/
structure Inputs (s : σ) (propagates generates : List β) (n : Nat) (a b : Int) : Prop where
  propagates_length : propagates.length = n
  generates_length : generates.length = n - 1
  propagate : ∀ (i : Nat) (x : β), propagates[i]? = some x → W.Reads s x (digit a i ^^ digit b i)
  generate : ∀ (i : Nat) (x : β), generates[i]? = some x → W.Reads s x (digit a i && digit b i)

theorem Inputs.mono {t : σ} {propagates generates : List β} {n : Nat} {a b : Int}
    (h : Inputs W s propagates generates n a b) (hgrows : W.Grows s t) :
    Inputs W t propagates generates n a b where
  propagates_length := h.propagates_length
  generates_length := h.generates_length
  propagate i x hx := W.mono hgrows (h.propagate i x hx)
  generate i x hx := W.mono hgrows (h.generate i x hx)

theorem reads_cons {x : β} {xs : List β} {v : Nat → Bool} (hx : W.Reads s x (v 0))
    (hxs : ∀ (i : Nat) (y : β), xs[i]? = some y → W.Reads s y (v (i + 1))) (i : Nat) (y : β)
    (hy : (x :: xs)[i]? = some y) : W.Reads s y (v i) := by
  cases i with
  | zero =>
    rw [List.getElem?_cons_zero, Option.some.injEq] at hy
    exact hy ▸ hx
  | succ i => exact hxs i y hy

theorem prefixInputsLoop_emits {position : γ → BlastM σ ε (β × β)} (positions : List γ) {a b : Int}
    (h : Supplies W s position positions a b) :
    W.Emits s (prefixInputsLoop position positions) fun r t =>
      Inputs W t r.1 r.2 positions.length a b := by
  induction positions generalizing s a b with
  | nil => exact Emits.pure ⟨rfl, rfl, fun i x hx => by simp at hx, fun i x hx => by simp at hx⟩
  | cons p rest ih =>
    cases rest with
    | nil =>
      intro hgood
      refine Emits.bind (h 0 p rfl s (W.refl hgood)) ?_ hgood
      intro r s₁ g₁ ⟨hleft, hright⟩
      apply Emits.bind (W.xor_emits hleft hright)
      intro propagate s₂ g₂ hpropagate
      refine Emits.pure ⟨rfl, rfl, ?_, fun i x hx => by simp at hx⟩
      exact reads_cons (v := fun i => digit a i ^^ digit b i) hpropagate fun i x hx => by simp at hx
    | cons q rest =>
      intro hgood
      refine Emits.bind (h 0 p rfl s (W.refl hgood)) ?_ hgood
      intro r s₁ g₁ ⟨hleft, hright⟩
      apply Emits.bind (W.xor_emits hleft hright)
      intro propagate s₂ g₂ hpropagate
      apply Emits.bind (W.and_emits (W.mono g₂ hleft) (W.mono g₂ hright))
      intro generate s₃ g₃ hgenerate
      apply Emits.bind (ih (h.tail (W.trans g₁ (W.trans g₂ g₃))))
      intro r s₄ g₄ hr
      refine Emits.pure ⟨?_, ?_, ?_, ?_⟩
      · simpa using hr.propagates_length
      · simpa using hr.generates_length
      · apply reads_cons (v := fun i => digit a i ^^ digit b i) (W.mono (W.trans g₃ g₄) hpropagate)
        simpa only [digit_succ] using hr.propagate
      · apply reads_cons (v := fun i => digit a i && digit b i) (W.mono g₄ hgenerate)
        simpa only [digit_succ] using hr.generate

/-- The pair of a position. -/
def pairs (a b : Int) (i : Nat) : Carry := ⟨digit a i && digit b i, digit a i ^^ digit b i⟩

theorem adds_pairs (a b : Int) (n : Nat) : Carry.Adds (pairs a b) a b n := fun _ _ _ => rfl

theorem prefixInputs_emits {position : γ → BlastM σ ε (β × β)} {positions : List γ} {a b : Int}
    (h : Supplies W s position positions a b) :
    W.Emits s (prefixInputs position positions) fun r t =>
      Inputs W t r.1 r.2.generate positions.length a b ∧
        Network W t r.2 (positions.length - 1) (pairs a b) := by
  apply Emits.bind (prefixInputsLoop_emits positions h)
  intro r t _ hr
  refine Emits.pure ⟨hr, hr.generates_length, ?_, hr.generate, ?_⟩
  · have hp := hr.propagates_length
    have hg := hr.generates_length
    simp only [List.length_take]
    omega
  · intro i x hx
    rw [List.getElem?_take] at hx
    split_ifs at hx
    exact hr.propagate i x hx

theorem supplies_zip {xs ys : List β} {a b : Int} (hx : W.Carries s xs a) (hy : W.Carries s ys b) :
    Supplies W s (pure : β × β → BlastM σ ε (β × β)) (xs.zip ys) a b := by
  intro i p hp t hgrows
  rw [List.getElem?_zip_eq_some] at hp
  exact Emits.pure ⟨(hx.mono hgrows).read hp.1, (hy.mono hgrows).read hp.2⟩

theorem prefixInputsFromBits_emits {xs ys : List β} {a b : Int} (hx : W.Carries s xs a)
    (hy : W.Carries s ys b) (hlength : xs.length = ys.length) (hwidth : 2 ≤ xs.length) :
    W.Emits s (prefixInputsFromBits xs ys) fun r t =>
      Inputs W t r.1 r.2.generate xs.length a b ∧ Network W t r.2 (xs.length - 1) (pairs a b) := by
  have hzip : (xs.zip ys).length = xs.length := by rw [List.length_zip, hlength, Nat.min_self]
  rw [prefixInputsFromBits, if_neg (by omega), ← hzip]
  exact prefixInputs_emits (supplies_zip hx hy)

/-- One bit after the other, each from its entry and its position. -/
theorem mapM_zipIdx_carries {f : γ × Nat → BlastM σ ε β} {l : List γ} {k : Nat} {z : Int}
    (hf : ∀ (i : Nat) (x : γ), l[i]? = some x → ∀ t, W.Grows s t →
      W.Emits t (f (x, k + i)) fun y u => W.Reads u y (digit z i)) :
    Returns W s ((l.zipIdx k).mapM f) l.length z := by
  have hall := mapM_carries (W := W) (s := s) (f := f) (l := l.zipIdx k) (z := z) fun i p hp => by
    rw [List.getElem?_zipIdx, Option.map_eq_some_iff] at hp
    obtain ⟨x, hx, rfl⟩ := hp
    exact hf i x hx
  rwa [List.length_zipIdx] at hall

theorem carries_head {x : β} {xs : List β} {a b : Int} {c : Bool}
    (hx : W.Reads s x ((digit a 0 ^^ digit b 0) ^^ c))
    (hxs : W.Carries s xs ((a + b + c.toNat) / 2)) : W.Carries s (x :: xs) (a + b + c.toNat) := by
  rw [carries_cons, odd_sum]
  exact ⟨by simpa using hx, hxs⟩

section Sums

variable {propagates generates : List β} {network : PrefixNetwork β} {n : Nat} {a b : Int}
  {x : Nat → Carry} {carry : β} {c : Bool}

/-- The carries of a scanned network. -/
theorem act_scanned (hadds : Carry.Adds x a b (n - 1)) {i : Nat} (hi : i < n - 1) (c : Bool) :
    ((Scan.segment x 0 (i + 1)).generate || ((Scan.segment x 0 (i + 1)).propagate && c)) =
      carryInto (i + 1) a b c := Carry.act_segment hadds c (by omega)

theorem scannedCarry_emits (hadds : Carry.Adds x a b (n - 1)) (h : Scanned W s network (n - 1) x)
    (one : Bool) {i : Nat} (hi : i < n - 1) :
    W.Emits s (scannedCarry network one i) fun y t => W.Reads t y (carryInto (i + 1) a b one) := by
  have hcarry := act_scanned hadds hi one
  apply Emits.bind (h.entry_generate hi)
  intro generate s₁ g₁ hgenerate
  cases one with
  | false =>
    rw [Bool.and_false, Bool.or_false] at hcarry
    exact Emits.pure (hcarry ▸ hgenerate)
  | true =>
    rw [Bool.and_true] at hcarry
    apply Emits.bind ((h.mono g₁).entry_propagate hi)
    intro propagate s₂ g₂ hpropagate
    rw [← hcarry]
    exact W.or_emits (W.mono g₂ hgenerate) hpropagate

theorem prefixAdderSum_emits (hinputs : Inputs W s propagates generates n a b) (hpos : 0 < n)
    (hscanned : Scanned W s network (n - 1) (pairs a b)) (subtract : Bool) :
    Returns W s (prefixAdderSum propagates network subtract) n (a + b + subtract.toNat) := by
  have hlength := hinputs.propagates_length
  cases propagates with
  | nil => rw [List.length_nil] at hlength; omega
  | cons first rest =>
    rw [List.length_cons] at hlength
    apply Emits.bind (invertIf_emits (hinputs.propagate 0 first rfl) subtract)
    intro sum s₁ g₁ hsum
    have hrest : Returns W s₁ ((rest.zipIdx 1).mapM fun position =>
        scannedSum network subtract position.1 position.2) rest.length ((a + b + subtract.toNat) / 2) := by
      apply mapM_zipIdx_carries
      intro i x hx t g₂
      have hi : i < rest.length := (List.getElem?_eq_some_iff.mp hx).1
      have g₀ := W.trans g₁ g₂
      rw [← digit_succ, digit_sum, scannedSum, Nat.add_sub_cancel_left]
      apply Emits.bind (scannedCarry_emits (adds_pairs a b _) (hscanned.mono g₀) subtract (by omega))
      intro carry s₃ g₃ hcarry
      exact W.xor_emits (W.mono (W.trans g₀ g₃) (hinputs.propagate (i + 1) x hx)) hcarry
    apply Emits.bind hrest
    intro sums s₂ g₂ ⟨hsums, hcarries⟩
    exact Emits.pure ⟨by rw [List.length_cons, hsums, hlength], carries_head (W.mono g₂ hsum) hcarries⟩

theorem prefixAdderSumWithCarry_emits (hinputs : Inputs W s propagates generates n a b) (hpos : 0 < n)
    (hscanned : Scanned W s network (n - 1) (pairs a b)) (hcarry : W.Reads s carry c) :
    Returns W s (prefixAdderSumWithCarry propagates network carry) n (a + b + c.toNat) := by
  have hlength := hinputs.propagates_length
  cases propagates with
  | nil => rw [List.length_nil] at hlength; omega
  | cons first rest =>
    rw [List.length_cons] at hlength
    apply Emits.bind (W.xor_emits (hinputs.propagate 0 first rfl) hcarry)
    intro sum s₁ g₁ hsum
    have hrest : Returns W s₁ ((rest.zipIdx 1).mapM fun position =>
        carriedSum network carry position.1 position.2) rest.length ((a + b + c.toNat) / 2) := by
      apply mapM_zipIdx_carries
      intro i x hx t g₂
      have hi : i < rest.length := (List.getElem?_eq_some_iff.mp hx).1
      have g₀ := W.trans g₁ g₂
      rw [← digit_succ, digit_sum, carriedSum, Nat.add_sub_cancel_left]
      apply Emits.bind ((hscanned.mono g₀).entry_propagate (by omega))
      intro propagate s₃ g₃ hpropagate
      apply Emits.bind (W.and_emits hpropagate (W.mono (W.trans g₀ g₃) hcarry))
      intro propagated s₄ g₄ hpropagated
      have g₀₄ := W.trans g₀ (W.trans g₃ g₄)
      apply Emits.bind ((hscanned.mono g₀₄).entry_generate (by omega))
      intro generate s₅ g₅ hgenerate
      apply Emits.bind (W.or_emits hgenerate (W.mono g₅ hpropagated))
      intro above s₆ g₆ habove
      rw [act_scanned (n := n) (adds_pairs a b _) (by omega)] at habove
      exact W.xor_emits (W.mono (W.trans g₀₄ (W.trans g₅ g₆)) (hinputs.propagate (i + 1) x hx)) habove
    apply Emits.bind hrest
    intro sums s₂ g₂ ⟨hsums, hcarries⟩
    exact Emits.pure ⟨by rw [List.length_cons, hsums, hlength], carries_head (W.mono g₂ hsum) hcarries⟩

/-- The pairs after carry-in has joined position zero. -/
def seeded (a b : Int) (c : Bool) (i : Nat) : Carry :=
  if i = 0 then ⟨carryInto 1 a b c, digit a 0 ^^ digit b 0⟩ else pairs a b i

theorem generate_seeded (a b : Int) (c : Bool) (n : Nat) :
    (Scan.segment (seeded a b c) 0 (n + 1)).generate = carryInto (n + 1) a b c := by
  induction n with
  | zero => rw [segment_one]; rfl
  | succ n ih =>
    have hpair : seeded a b c (0 + (n + 1)) = pairs a b (n + 1) := by simp [seeded]
    rw [Scan.segment, hpair, Carry.mul_def, ih, carryInto_succ (n + 1)]
    rfl

theorem seedPrefixCarry_emits (h : Network W s network n (pairs a b)) (hpos : 0 < n)
    (hcarry : W.Reads s carry c) :
    W.Emits s (seedPrefixCarry network carry) fun r t => Network W t r n (seeded a b c) := by
  apply Emits.bind (h.entry_propagate hpos)
  intro propagate s₁ g₁ hpropagate
  apply Emits.bind (W.and_emits hpropagate (W.mono g₁ hcarry))
  intro propagated s₂ g₂ hpropagated
  have g₀₂ := W.trans g₁ g₂
  apply Emits.bind ((h.mono g₀₂).entry_generate hpos)
  intro generate s₃ g₃ hgenerate
  apply Emits.bind (W.or_emits hgenerate (W.mono g₃ hpropagated))
  intro out s₄ g₄ hout
  have hlater := h.mono (W.trans g₀₂ (W.trans g₃ g₄))
  refine Emits.pure ⟨?_, hlater.propagates, ?_, ?_⟩
  · rw [List.length_set, hlater.generates]
  · apply Network.set_reads (w := fun i => (seeded a b c i).generate) hlater.generate
    · simpa [seeded, pairs, carryInto, majority] using hout
    · exact fun i hi => by simp [seeded, hi]
  · intro i y hy
    have hread := hlater.propagate i y hy
    by_cases hi : i = 0
    · subst hi; exact hread
    · simpa [seeded, hi] using hread

theorem seededCarry_emits (hscanned : Scanned W s network (n - 1) (seeded a b c))
    (hcarry : W.Reads s carry c) {i : Nat} (hi : i < n) :
    W.Emits s (seededCarry network carry i) fun y t => W.Reads t y (carryInto i a b c) := by
  rw [seededCarry]
  cases i with
  | zero => exact Emits.pure hcarry
  | succ i =>
    rw [if_neg (Nat.succ_ne_zero i), Nat.add_sub_cancel]
    apply (hscanned.entry_generate (show i < n - 1 by omega)).mono
    intro y t _ hy
    rwa [generate_seeded] at hy

theorem seededPrefixSum_emits (hinputs : Inputs W s propagates generates n a b)
    (hscanned : Scanned W s network (n - 1) (seeded a b c)) (hcarry : W.Reads s carry c) :
    Returns W s (seededPrefixSum propagates network carry) n (a + b + c.toNat) := by
  rw [← hinputs.propagates_length]
  apply mapM_zipIdx_carries
  intro i x hx t g₁
  have hi : i < propagates.length := (List.getElem?_eq_some_iff.mp hx).1
  rw [hinputs.propagates_length] at hi
  rw [digit_sum, Nat.zero_add]
  apply Emits.bind (seededCarry_emits (hscanned.mono g₁) (W.mono g₁ hcarry) hi)
  intro above s₂ g₂ habove
  exact W.xor_emits (W.mono (W.trans g₁ g₂) (hinputs.propagate i x hx)) habove

end Sums
end Opto.Bitblast
