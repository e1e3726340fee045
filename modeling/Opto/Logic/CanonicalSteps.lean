import Opto.Logic.CanonicalSpec

/-!
# Parity and multiplexer steps

One lemma a decision table says that its step denotes the requested function,
that what it hands on is valid and lighter, and that what it interns is
canonical. The recursive runners then need no further case analysis.
-/

namespace Opto.Logic

variable {b : LogicBuilder}

def XorStep.denote (v : Lit → Bool) : XorStep → Bool
  | .value l => v l
  | .again l r | .intern l r => v l ^^ v r

/-- A step that may follow a parity whose arguments weigh `w`. -/
def XorStep.Good (b : LogicBuilder) (w : Nat) : XorStep → Prop
  | .value l => Valid b l ∧ weight b.nodes l ≤ 1 + w
  | .again l r => Valid b l ∧ Valid b r ∧ weight b.nodes l + weight b.nodes r < w
  | .intern l r => Valid b l ∧ Valid b r ∧ weight b.nodes l + weight b.nodes r ≤ w ∧
      (Node.mk .xor l r .FALSE 0 0).Canonical b.nodes

theorem weight_FALSE (hb : Inv b) : weight b.nodes .FALSE = 1 := by
  rw [weight_node hb.topological (l := .FALSE) hb.constant]; rfl

theorem weight_TRUE (hb : Inv b) : weight b.nodes .TRUE = 1 := weight_FALSE hb

theorem xorRemaining_eq_some {f : Lit × Lit} {s r : Lit} (h : xorRemaining f s = some r) :
    (f.1 = s ∧ f.2 = r) ∨ (f.2 = s ∧ f.1 = r) := by
  simp only [xorRemaining] at h
  split_ifs at h <;> simp_all

theorem xorSharedRemaining_eq_some {f g : Lit × Lit} {x y : Lit}
    (h : xorSharedRemaining f g = some (x, y)) :
    (x = f.2 ∧ xorRemaining g f.1 = some y) ∨ (x = f.1 ∧ xorRemaining g f.2 = some y) := by
  simp only [xorSharedRemaining] at h
  split at h <;> simp_all

/-- The facts the parity rules take from a parity's fanins. -/
theorem xor_fanins (hb : Inv b) {l : Lit} (hl : Valid b l) {f : Lit × Lit}
    (h : binaryFanins b l .xor = some f) :
    Valid b f.1 ∧ Valid b f.2 ∧ weight b.nodes l = 1 + weight b.nodes f.1 + weight b.nodes f.2 ∧
      ∀ leaf, eval leaf b.nodes l = (eval leaf b.nodes f.1 ^^ eval leaf b.nodes f.2) := by
  have hr := binaryFanins_reads_xor h
  have hw := hr.weight hb
  simp only [NodeKey.fanins, List.map_cons, List.map_nil, List.sum_cons, List.sum_nil] at hw
  exact ⟨hr.valid hb hl (by simp [NodeKey.fanins]), hr.valid hb hl (by simp [NodeKey.fanins]),
    by omega, hr.eval hb⟩

theorem xorPositive_good (hb : Inv b) {l r : Lit} (hl : Valid b l) (hr : Valid b r)
    (hlp : l.isInverted = false) (hrp : r.isInverted = false) (hl0 : l.node ≠ 0)
    (hr0 : r.node ≠ 0) (hne : l ≠ r) :
    (xorPositive b l r).Good b (weight b.nodes l + weight b.nodes r) ∧
      ∀ leaf, (xorPositive b l r).denote (eval leaf b.nodes) =
        (eval leaf b.nodes l ^^ eval leaf b.nodes r) := by
  simp only [xorPositive]
  split
  · rename_i x h
    obtain ⟨f, hf, hx⟩ := Option.bind_eq_some_iff.mp h
    obtain ⟨hv₁, hv₂, hw, he⟩ := xor_fanins hb hl hf
    rcases xorRemaining_eq_some hx with ⟨rfl, rfl⟩ | ⟨rfl, rfl⟩
    · exact ⟨⟨hv₂, by omega⟩, fun leaf => by simp [XorStep.denote, he, Bool.xor_comm]⟩
    · exact ⟨⟨hv₁, by omega⟩, fun leaf => by simp [XorStep.denote, he]⟩
  · split
    · rename_i x h
      obtain ⟨f, hf, hx⟩ := Option.bind_eq_some_iff.mp h
      obtain ⟨hv₁, hv₂, hw, he⟩ := xor_fanins hb hr hf
      rcases xorRemaining_eq_some hx with ⟨rfl, rfl⟩ | ⟨rfl, rfl⟩
      · exact ⟨⟨hv₂, by omega⟩, fun leaf => by simp [XorStep.denote, he]⟩
      · exact ⟨⟨hv₁, by omega⟩, fun leaf => by
          simp [XorStep.denote, he, Bool.xor_left_comm (eval leaf b.nodes f.2)]⟩
    · split
      · rename_i x y h
        obtain ⟨f, hf, h⟩ := Option.bind_eq_some_iff.mp h
        obtain ⟨g, hg, h⟩ := Option.bind_eq_some_iff.mp h
        obtain ⟨hf₁, hf₂, hfw, hfe⟩ := xor_fanins hb hl hf
        obtain ⟨hg₁, hg₂, hgw, hge⟩ := xor_fanins hb hr hg
        -- the shared fanin cancels from both sides
        rcases xorSharedRemaining_eq_some h with ⟨rfl, hx⟩ | ⟨rfl, hx⟩ <;>
          rcases xorRemaining_eq_some hx with ⟨hs, rfl⟩ | ⟨hs, rfl⟩ <;>
          refine ⟨⟨by assumption, by assumption, by omega⟩, fun leaf => ?_⟩ <;>
          simp only [XorStep.denote, hfe, hge, hs] <;>
          cases eval leaf b.nodes f.1 <;> cases eval leaf b.nodes f.2 <;> simp
      · have hlt := ordered_lt hne
        rcases ordered_eq_or l r with ho | ho <;> simp only [ho] at hlt ⊢
        · exact ⟨⟨hl, hr, le_rfl, hlp, hrp, hl0, hr0, hlt⟩, fun leaf => rfl⟩
        · exact ⟨⟨hr, hl, by omega, hrp, hlp, hr0, hl0, hlt⟩, fun leaf => Bool.xor_comm _ _⟩

theorem xorRule_good (hb : Inv b) {l r : Lit} (hl : Valid b l) (hr : Valid b r) :
    (xorRule b l r).1.Good b (weight b.nodes l + weight b.nodes r) ∧
      ∀ leaf, ((xorRule b l r).1.denote (eval leaf b.nodes) ^^ (xorRule b l r).2) =
        (eval leaf b.nodes l ^^ eval leaf b.nodes r) := by
  have hF := weight_FALSE hb
  have hT := weight_TRUE hb
  simp only [xorRule]
  split_ifs with h₁ h₂ h₃ h₄ h₅ h₆ h₇
  · exact ⟨⟨hr, by omega⟩, fun leaf => by simp [XorStep.denote, h₁, hb.eval_FALSE]⟩
  · exact ⟨⟨hl, by omega⟩, fun leaf => by simp [XorStep.denote, h₂, hb.eval_FALSE]⟩
  · exact ⟨⟨hr.inverted, by simp only [weight_inverted]; omega⟩, fun leaf => by
      simp [XorStep.denote, h₃, hb.eval_TRUE]⟩
  · exact ⟨⟨hl.inverted, by simp only [weight_inverted]; omega⟩, fun leaf => by
      simp [XorStep.denote, h₄, hb.eval_TRUE]⟩
  · exact ⟨⟨hb.valid_FALSE, by omega⟩, fun leaf => by simp [XorStep.denote, h₅, hb.eval_FALSE]⟩
  · exact ⟨⟨hb.valid_TRUE, by omega⟩, fun leaf => by simp [XorStep.denote, h₆, hb.eval_TRUE]⟩
  · -- equal positive parts would make the arguments equal or complementary
    have hnode : l.node = r.node := by simpa using congrArg Lit.node h₇
    rcases Lit.eq_or_eq_inverted_of_node_eq hnode with h | h
    · exact absurd h h₅
    · exact absurd h h₆
  · have hl0 : l.node ≠ 0 := Valid.ne_constant h₁ h₃
    have hr0 : r.node ≠ 0 := Valid.ne_constant h₂ h₄
    obtain ⟨hg, he⟩ := xorPositive_good hb hl.positive hr.positive rfl rfl hl0 hr0 h₇
    refine ⟨hg, fun leaf => ?_⟩
    rw [he, eval_positive, eval_positive]
    cases l.isInverted <;> cases r.isInverted <;> simp

theorem canonicalXor_meets (fuel : Nat) {l r : Lit} (hb : Inv b) (hl : Valid b l)
    (hr : Valid b r) (hw : weight b.nodes l + weight b.nodes r ≤ fuel) (origin : Nat) :
    Meets b (1 + (weight b.nodes l + weight b.nodes r)) (fun v => v l ^^ v r)
      (canonicalXor fuel l r origin) := by
  induction fuel generalizing l r with
  | zero => have := weight_pos b.nodes l; omega
  | succ fuel ih =>
    refine Meets.get ?_
    obtain ⟨hg, he⟩ := xorRule_good hb hl hr
    generalize xorRule b l r = rule at hg he
    obtain ⟨step, phase⟩ := rule
    refine Meets.mono (f := fun v => step.denote v ^^ phase) ?_ le_rfl he
    refine Meets.withPhase (f := step.denote) ?_ phase
    cases step with
    | value l => exact Meets.pure hb hg.1 hg.2 fun leaf => rfl
    | again x y =>
      obtain ⟨hx, hy, hlt⟩ := hg
      exact (ih hx hy (by omega)).mono (by omega) fun leaf => rfl
    | intern x y =>
      obtain ⟨hx, hy, hle, hc⟩ := hg
      exact (intern_meets hb origin rfl (by simp [NodeKey.fanins, hx, hy]) hc).mono
        (by simp [NodeKey.fanins]; omega) fun leaf => rfl

def MuxStep.denote (v : Lit → Bool) : MuxStep → Bool
  | .value l => v l
  | .viaXor l r => v l ^^ v r
  | .viaOr l r => v l || v r
  | .viaAnd l r => v l && v r
  | .again s t e | .intern s t e => if v s then v t else v e
  | .combineAnd l r t e => if v l && v r then v t else v e
  | .combineOr l r t e => if v l || v r then v t else v e
  | .factorElse s t e outer t' => if v outer then v t' else if v s then v t else v e
  | .factorThen s t e outer e' => if v outer then (if v s then v t else v e) else v e'

/-- A step that may follow a multiplexer whose arguments weigh `w`. -/
def MuxStep.Good (b : LogicBuilder) (w : Nat) : MuxStep → Prop
  | .value l => Valid b l ∧ weight b.nodes l ≤ 1 + w
  | .viaXor l r | .viaOr l r | .viaAnd l r =>
    (Valid b l ∧ Valid b r) ∧ weight b.nodes l + weight b.nodes r < w
  | .again s t e => (Valid b s ∧ Valid b t ∧ Valid b e) ∧
      weight b.nodes s + weight b.nodes t + weight b.nodes e < w
  | .combineAnd l r t e | .combineOr l r t e =>
    (Valid b l ∧ Valid b r ∧ Valid b t ∧ Valid b e) ∧
      1 + weight b.nodes l + weight b.nodes r + weight b.nodes t + weight b.nodes e < w ∧
      ∃ inner, Reads b inner (.mux r t e)
  | .factorElse s t e outer a | .factorThen s t e outer a =>
    (Valid b s ∧ Valid b t ∧ Valid b e ∧ Valid b outer ∧ Valid b a) ∧
      1 + weight b.nodes s + weight b.nodes t + weight b.nodes e + weight b.nodes outer +
        weight b.nodes a < w
  | .intern s t e => (Valid b s ∧ Valid b t ∧ Valid b e) ∧
      weight b.nodes s + weight b.nodes t + weight b.nodes e ≤ w ∧
      MuxShape b.nodes s t e ∧ Unfactored b.nodes t e

/-- The facts the factoring rules take from an inner multiplexer. -/
theorem mux_fanins (hb : Inv b) {l : Lit} (hl : Valid b l) {f : Lit × Lit × Lit}
    (h : muxFanins b l = some f) :
    (Valid b f.1 ∧ Valid b f.2.1 ∧ Valid b f.2.2) ∧
      weight b.nodes l = 1 + weight b.nodes f.1 + weight b.nodes f.2.1 + weight b.nodes f.2.2 ∧
      ∀ leaf, eval leaf b.nodes l = if eval leaf b.nodes f.1 then eval leaf b.nodes f.2.1
        else eval leaf b.nodes f.2.2 := by
  obtain ⟨s, t, e⟩ := f
  have hr := muxFanins_reads h
  have hw := hr.weight hb
  simp only [NodeKey.fanins, List.map_cons, List.map_nil, List.sum_cons, List.sum_nil] at hw
  have hv (x : Lit) (hx : x ∈ NodeKey.fanins (.mux s t e)) : Valid b x :=
    hr.valid hb hl hx
  exact ⟨⟨hv _ (by simp [NodeKey.fanins]), hv _ (by simp [NodeKey.fanins]),
    hv _ (by simp [NodeKey.fanins])⟩, by dsimp only; omega, hr.eval hb⟩

/-- The requested function and the requirements on the step, together. -/
def MuxStep.Serves (b : LogicBuilder) (s t e : Lit) (step : MuxStep) : Prop :=
  step.Good b (weight b.nodes s + weight b.nodes t + weight b.nodes e) ∧
    ∀ leaf, step.denote (eval leaf b.nodes) =
      if eval leaf b.nodes s then eval leaf b.nodes t else eval leaf b.nodes e

section MuxSteps

variable {s t e : Lit}

theorem combinedThen_serves (hb : Inv b) (hs : Valid b s) (ht : Valid b t) {step : MuxStep}
    (h : combinedThen b s t e = some step) : step.Serves b s t e := by
  obtain ⟨f, hf, h⟩ := Option.bind_eq_some_iff.mp h
  obtain ⟨⟨hv₁, hv₂, hv₃⟩, hw, he⟩ := mux_fanins hb ht hf
  have := weight_pos b.nodes e
  split_ifs at h with h₁ h₂ <;> cases h
  · refine ⟨⟨⟨hs, hv₁, hv₂, hv₃⟩, by omega, _, muxFanins_reads hf⟩, fun leaf => ?_⟩
    simp only [MuxStep.denote, he, h₁]
    cases eval leaf b.nodes s <;> simp
  · refine ⟨⟨⟨hs.inverted, hv₁, hv₂, hv₃⟩, by simp only [weight_inverted]; omega, _,
      muxFanins_reads hf⟩, fun leaf => ?_⟩
    simp only [MuxStep.denote, he, h₂, eval_inverted]
    cases eval leaf b.nodes s <;> simp

theorem combinedElse_serves (hb : Inv b) (hs : Valid b s) (he : Valid b e) {step : MuxStep}
    (h : combinedElse b s t e = some step) : step.Serves b s t e := by
  obtain ⟨f, hf, h⟩ := Option.bind_eq_some_iff.mp h
  obtain ⟨⟨hv₁, hv₂, hv₃⟩, hw, he'⟩ := mux_fanins hb he hf
  have := weight_pos b.nodes t
  split_ifs at h with h₁ h₂ <;> cases h
  · refine ⟨⟨⟨hs, hv₁, hv₂, hv₃⟩, by omega, _, muxFanins_reads hf⟩, fun leaf => ?_⟩
    simp only [MuxStep.denote, he', h₁]
    cases eval leaf b.nodes s <;> simp
  · refine ⟨⟨⟨hs.inverted, hv₁, hv₂, hv₃⟩, by simp only [weight_inverted]; omega, _,
      muxFanins_reads hf⟩, fun leaf => ?_⟩
    simp only [MuxStep.denote, he', h₂, eval_inverted]
    cases eval leaf b.nodes s <;> simp

theorem factored_serves (hb : Inv b) (hs : Valid b s) (ht : Valid b t) (he : Valid b e)
    {step : MuxStep} (h : factored b s t e = some step) : step.Serves b s t e := by
  obtain ⟨f, hf, h⟩ := Option.bind_eq_some_iff.mp h
  obtain ⟨g, hg, h⟩ := Option.bind_eq_some_iff.mp h
  obtain ⟨⟨hf₁, hf₂, hf₃⟩, hfw, hfe⟩ := mux_fanins hb ht hf
  obtain ⟨⟨hg₁, hg₂, hg₃⟩, hgw, hge⟩ := mux_fanins hb he hg
  split_ifs at h with h₁ h₂ h₃ <;> cases h
  · refine ⟨⟨⟨hs, hf₃, hg₃, hf₁, hf₂⟩, by omega⟩, fun leaf => ?_⟩
    simp only [MuxStep.denote, hfe, hge, ← h₁, ← h₂]
    cases eval leaf b.nodes s <;> simp
  · refine ⟨⟨⟨hs, hf₂, hg₂, hf₁, hf₃⟩, by omega⟩, fun leaf => ?_⟩
    simp only [MuxStep.denote, hfe, hge, ← h₁, ← h₃]
    cases eval leaf b.nodes s <;> simp

theorem muxFanins_of_muxAt {l : Lit} {m : Node} (h : MuxAt b.nodes l m) :
    muxFanins b l = some (m.fanin0, m.fanin1, m.fanin2) := by
  simp [muxFanins, Canonical.kind, LogicBuilder.kind, Canonical.fanin, LogicBuilder.fanin, h.1, h.2]

theorem muxAt_of_muxFanins {l : Lit} {f : Lit × Lit × Lit} (h : muxFanins b l = some f) :
    ∃ m : Node, MuxAt b.nodes l m ∧ f = (m.fanin0, m.fanin1, m.fanin2) := by
  obtain ⟨hpos, n, hn, hk⟩ := muxFanins_reads h
  have hkind : n.kind = .mux := by
    cases hkind : n.kind <;> simp_all [Node.key?]
  simp only [Node.key?, hkind, Option.some.injEq, NodeKey.mux.injEq] at hk
  exact ⟨n, ⟨hn, hpos, hkind⟩, by rw [hk.1, hk.2.1, hk.2.2]⟩

/-- When no factoring rule applies, the arms are unfactored. -/
theorem unfactored_of_none (h₁ : combinedThen b s t e = none) (h₂ : combinedElse b s t e = none)
    (h₃ : factored b s t e = none) : Unfactored b.nodes t e where
  then_arm m hm := by
    simp only [combinedThen, muxFanins_of_muxAt hm, Option.bind_some] at h₁
    split_ifs at h₁ with hx hy
    exact ⟨hy, hx⟩
  else_arm m hm := by
    simp only [combinedElse, muxFanins_of_muxAt hm, Option.bind_some] at h₂
    split_ifs at h₂ with hx hy
    exact ⟨hx, hy⟩
  both m k hm hk hs := by
    simp only [factored, muxFanins_of_muxAt hm, muxFanins_of_muxAt hk, Option.bind_some,
      if_pos hs] at h₃
    split_ifs at h₃ with hx hy
    exact ⟨hx, hy⟩

theorem muxFactor_unfactored (h : Unfactored b.nodes t e) :
    muxFactor b s t e = .intern s t e := by
  have h₁ : combinedThen b s t e = none := by
    cases hf : muxFanins b t with
    | none => rw [combinedThen, hf]; rfl
    | some f =>
      obtain ⟨m, hm, rfl⟩ := muxAt_of_muxFanins hf
      obtain ⟨hx, hy⟩ := h.then_arm m hm
      simp only [combinedThen, hf, Option.bind_some, if_neg hy, if_neg hx]
  have h₂ : combinedElse b s t e = none := by
    cases hf : muxFanins b e with
    | none => rw [combinedElse, hf]; rfl
    | some f =>
      obtain ⟨m, hm, rfl⟩ := muxAt_of_muxFanins hf
      obtain ⟨hx, hy⟩ := h.else_arm m hm
      simp only [combinedElse, hf, Option.bind_some, if_neg hx, if_neg hy]
  have h₃ : factored b s t e = none := by
    cases hf : muxFanins b t with
    | none => rw [factored, hf]; rfl
    | some f =>
      cases hg : muxFanins b e with
      | none => rw [factored, hf, hg]; rfl
      | some g =>
        obtain ⟨m, hm, rfl⟩ := muxAt_of_muxFanins hf
        obtain ⟨k, hk, rfl⟩ := muxAt_of_muxFanins hg
        by_cases hsel : m.fanin0 = k.fanin0
        · obtain ⟨hx, hy⟩ := h.both m k hm hk hsel
          simp only [factored, hf, hg, Option.bind_some, if_pos hsel, if_neg hx, if_neg hy]
        · simp only [factored, hf, hg, Option.bind_some, if_neg hsel]
  rw [muxFactor, h₁, h₂, h₃]
  rfl

theorem muxFactor_serves (hb : Inv b) (hs : Valid b s) (ht : Valid b t) (he : Valid b e)
    (hshape : MuxShape b.nodes s t e) : (muxFactor b s t e).Serves b s t e := by
  unfold muxFactor
  cases h₁ : combinedThen b s t e with
  | some step => exact combinedThen_serves hb hs ht h₁
  | none =>
    cases h₂ : combinedElse b s t e with
    | some step => exact combinedElse_serves hb hs he h₂
    | none =>
      cases h₃ : factored b s t e with
      | some step => exact factored_serves hb hs ht he h₃
      | none =>
        exact ⟨⟨⟨hs, ht, he⟩, le_rfl, hshape, unfactored_of_none h₁ h₂ h₃⟩, fun leaf => rfl⟩

/-- An arm the collapsing rule leaves alone is no multiplexer on the selector. -/
theorem not_nested_of_none {l : Lit} {pick : Lit × Lit × Lit → Lit}
    (h : ((muxFanins b l).bind fun f => if f.1 = s then some (pick f) else none) = none)
    (m : Node) (hm : b.nodes[l.node]? = some m) (hpos : l.isInverted = false)
    (hk : m.kind = .mux) : m.fanin0 ≠ s := by
  rintro rfl
  simp [muxFanins_of_muxAt ⟨hm, hpos, hk⟩] at h

theorem muxNested_serves (hb : Inv b) (hs : Valid b s) (ht : Valid b t) (he : Valid b e)
    (hshape : sameSelectThen b s t = none → sameSelectElse b s e = none →
      MuxShape b.nodes s t e) : (muxNested b s t e).Serves b s t e := by
  have then_inner (x : Lit) (h : sameSelectThen b s t = some x) :
      Valid b x ∧ weight b.nodes x < weight b.nodes t ∧
        ∀ leaf, eval leaf b.nodes s = true → eval leaf b.nodes t = eval leaf b.nodes x := by
    obtain ⟨f, hf, h⟩ := Option.bind_eq_some_iff.mp h
    obtain ⟨⟨_, hv, _⟩, hw, he⟩ := mux_fanins hb ht hf
    split_ifs at h with hsel
    cases h
    exact ⟨hv, by omega, fun leaf hse => by rw [he, hsel, if_pos hse]⟩
  have else_inner (x : Lit) (h : sameSelectElse b s e = some x) :
      Valid b x ∧ weight b.nodes x < weight b.nodes e ∧
        ∀ leaf, eval leaf b.nodes s = false → eval leaf b.nodes e = eval leaf b.nodes x := by
    obtain ⟨f, hf, h⟩ := Option.bind_eq_some_iff.mp h
    obtain ⟨⟨_, _, hv⟩, hw, he⟩ := mux_fanins hb he hf
    split_ifs at h with hsel
    cases h
    exact ⟨hv, by omega, fun leaf hse => by rw [he, hsel, hse]; rfl⟩
  unfold muxNested
  cases h₁ : sameSelectThen b s t with
  | none =>
    cases h₂ : sameSelectElse b s e with
    | none => exact muxFactor_serves hb hs ht he (hshape h₁ h₂)
    | some y =>
      obtain ⟨hy, hyw, hye⟩ := else_inner y h₂
      refine ⟨⟨⟨hs, ht, hy⟩, by simp only [Option.getD]; omega⟩, fun leaf => ?_⟩
      cases hse : eval leaf b.nodes s <;> simp_all [MuxStep.denote]
  | some x =>
    obtain ⟨hx, hxw, hxe⟩ := then_inner x h₁
    cases h₂ : sameSelectElse b s e with
    | none =>
      refine ⟨⟨⟨hs, hx, he⟩, by simp only [Option.getD]; omega⟩, fun leaf => ?_⟩
      cases hse : eval leaf b.nodes s <;> simp_all [MuxStep.denote]
    | some y =>
      obtain ⟨hy, hyw, hye⟩ := else_inner y h₂
      refine ⟨⟨⟨hs, hx, hy⟩, by simp only [Option.getD]; omega⟩, fun leaf => ?_⟩
      cases hse : eval leaf b.nodes s <;> simp_all [MuxStep.denote]

theorem muxReduced_serves (hb : Inv b) (hs : Valid b s) (ht : Valid b t) (he : Valid b e)
    (hspos : s.isInverted = false) (hs0 : s.node ≠ 0) (hne : t ≠ e)
    (hphase : ¬(t.isInverted = true ∧ e.isInverted = true)) :
    (muxReduced b s t e).Serves b s t e := by
  have hpt := weight_pos b.nodes t
  have hpe := weight_pos b.nodes e
  unfold muxReduced
  split_ifs with h₁ h₂ h₃ h₄ h₅
  · refine ⟨⟨⟨hs, he⟩, by omega⟩, fun leaf => ?_⟩
    simp only [MuxStep.denote, h₁, eval_inverted]
    cases eval leaf b.nodes s <;> simp
  · refine ⟨⟨⟨hs, he⟩, by omega⟩, fun leaf => ?_⟩
    rcases h₂ with h | h <;> simp only [MuxStep.denote, h, hb.eval_TRUE] <;>
      cases eval leaf b.nodes s <;> simp
  · refine ⟨⟨⟨hs.inverted, he⟩, by simp only [weight_inverted]; omega⟩, fun leaf => ?_⟩
    rcases h₃ with h | h <;> simp only [MuxStep.denote, h, hb.eval_FALSE, eval_inverted] <;>
      cases eval leaf b.nodes s <;> simp
  · refine ⟨⟨⟨hs, ht⟩, by omega⟩, fun leaf => ?_⟩
    rcases h₄ with h | h <;> simp only [MuxStep.denote, h, hb.eval_FALSE] <;>
      cases eval leaf b.nodes s <;> simp
  · refine ⟨⟨⟨hs.inverted, ht⟩, by simp only [weight_inverted]; omega⟩, fun leaf => ?_⟩
    rcases h₅ with h | h <;> simp only [MuxStep.denote, h, hb.eval_TRUE, eval_inverted] <;>
      cases eval leaf b.nodes s <;> simp
  · simp only [not_or] at h₂ h₃ h₄ h₅
    refine muxNested_serves hb hs ht he fun hn₁ hn₂ => ?_
    exact {
      select_positive := hspos
      select_node := hs0
      not_both_inverted := hphase
      then_node := Valid.ne_constant h₃.1 h₂.1
      else_node := Valid.ne_constant h₄.1 h₅.1
      arms_differ := fun h => (Lit.eq_or_eq_inverted_of_node_eq h).elim hne h₁
      then_ne_select := fun h => (Lit.eq_or_eq_inverted_of_node_eq h).elim h₂.2 h₃.2
      else_ne_select := fun h => (Lit.eq_or_eq_inverted_of_node_eq h).elim h₄.2 h₅.2
      then_not_nested := not_nested_of_none hn₁
      else_not_nested := not_nested_of_none hn₂ }

end MuxSteps

theorem muxPhased_serves (hb : Inv b) {s t e : Lit} (hs : Valid b s) (ht : Valid b t)
    (he : Valid b e) (hspos : s.isInverted = false) (hs0 : s.node ≠ 0) (hne : t ≠ e) :
    (muxPhased b s t e).1.Good b (weight b.nodes s + weight b.nodes t + weight b.nodes e) ∧
      ∀ leaf, ((muxPhased b s t e).1.denote (eval leaf b.nodes) ^^ (muxPhased b s t e).2) =
        if eval leaf b.nodes s then eval leaf b.nodes t else eval leaf b.nodes e := by
  unfold muxPhased
  split_ifs with h
  · rw [Bool.and_eq_true] at h
    have hpos : t.positive ≠ e.positive := fun hp => hne <| by
      rw [← Lit.inverted_positive_of_inverted h.1, hp, Lit.inverted_positive_of_inverted h.2]
    obtain ⟨hg, hd⟩ := muxReduced_serves hb hs ht.positive he.positive hspos hs0 hpos (by simp)
    refine ⟨hg, fun leaf => ?_⟩
    rw [hd, eval_positive, eval_positive, h.1, h.2]
    split <;> simp
  · rw [Bool.and_eq_true] at h
    obtain ⟨hg, hd⟩ := muxReduced_serves hb hs ht he hspos hs0 hne h
    exact ⟨hg, fun leaf => by rw [hd, Bool.xor_false]⟩

theorem muxRule_serves (hb : Inv b) {s t e : Lit} (hs : Valid b s) (ht : Valid b t)
    (he : Valid b e) :
    (muxRule b s t e).1.Good b (weight b.nodes s + weight b.nodes t + weight b.nodes e) ∧
      ∀ leaf, ((muxRule b s t e).1.denote (eval leaf b.nodes) ^^ (muxRule b s t e).2) =
        if eval leaf b.nodes s then eval leaf b.nodes t else eval leaf b.nodes e := by
  unfold muxRule
  split_ifs with h₁ h₂ h₃ h₄ h₅
  · exact ⟨⟨he, by omega⟩, fun leaf => by simp [MuxStep.denote, h₁, hb.eval_FALSE]⟩
  · refine ⟨⟨ht, by omega⟩, fun leaf => ?_⟩
    rcases h₂ with rfl | rfl <;> simp [MuxStep.denote, hb.eval_TRUE]
  · refine ⟨⟨hs, by omega⟩, fun leaf => ?_⟩
    simp only [MuxStep.denote, h₃, hb.eval_TRUE, hb.eval_FALSE]
    cases eval leaf b.nodes s <;> simp
  · refine ⟨⟨hs.inverted, by simp only [weight_inverted]; omega⟩, fun leaf => ?_⟩
    simp only [MuxStep.denote, h₄, hb.eval_TRUE, hb.eval_FALSE, eval_inverted]
    cases eval leaf b.nodes s <;> simp
  · simp only [not_or] at h₂
    have hs0 : s.node ≠ 0 := Valid.ne_constant h₁ h₂.1
    obtain ⟨hg, hd⟩ := muxPhased_serves hb hs.positive he ht rfl hs0 (Ne.symm h₂.2)
    refine ⟨by simpa only [weight_positive, Nat.add_right_comm] using hg, fun leaf => ?_⟩
    rw [hd, eval_positive, h₅]
    cases eval leaf b.nodes s <;> simp
  · simp only [not_or] at h₂
    have hs0 : s.node ≠ 0 := Valid.ne_constant h₁ h₂.1
    exact muxPhased_serves hb hs ht he (by simpa using h₅) hs0 h₂.2

theorem canonicalOrWith_meets {mux : Lit → Lit → Lit → BuildM Lit} (hb : Inv b) {l r : Lit}
    (hl : Valid b l) (hr : Valid b r) (origin : Nat)
    (hmux : ∀ s t e, Valid b s → Valid b t → Valid b e →
      weight b.nodes s + weight b.nodes t + weight b.nodes e <
        weight b.nodes l + weight b.nodes r →
      Meets b (1 + (weight b.nodes s + weight b.nodes t + weight b.nodes e))
        (fun v => if v s then v t else v e) (mux s t e)) :
    Meets b (1 + (weight b.nodes l + weight b.nodes r)) (fun v => v l || v r)
      (canonicalOrWith mux l r origin) := by
  refine Meets.get ?_
  cases h : orFactor b l r with
  | some f =>
    obtain ⟨s, t, e⟩ := f
    obtain ⟨⟨hs, ht, he⟩, hw, hd⟩ := orFactor_sound hb hl hr h
    exact (hmux s t e hs ht he (by omega)).mono (by omega) hd
  | none =>
    have hand := canonicalAnd_meets hb hl.inverted hr.inverted origin
    refine Meets.mono (f := fun v => v l.inverted && v r.inverted ^^ true) ?_ le_rfl ?_
    · exact Meets.withPhase hand true
    · intro leaf
      simp only [eval_inverted]
      cases eval leaf b.nodes l <;> simp

/-- Every call of the multiplexer rules lands on the requested function. The
recursive calls are lighter than the arguments, in whatever state they start. -/
theorem canonicalMux_meets (fuel : Nat) {s t e : Lit} (hb : Inv b) (hs : Valid b s)
    (ht : Valid b t) (he : Valid b e)
    (hw : weight b.nodes s + weight b.nodes t + weight b.nodes e ≤ fuel) (origin : Nat) :
    Meets b (1 + (weight b.nodes s + weight b.nodes t + weight b.nodes e))
      (fun v => if v s then v t else v e) (canonicalMux fuel s t e origin) := by
  induction fuel generalizing b s t e with
  | zero => have := weight_pos b.nodes s; omega
  | succ fuel ih =>
    refine Meets.get ?_
    obtain ⟨hg, hd⟩ := muxRule_serves hb hs ht he
    generalize muxRule b s t e = rule at hg hd
    obtain ⟨step, phase⟩ := rule
    refine Meets.mono (f := fun v => step.denote v ^^ phase) ?_ le_rfl hd
    refine Meets.withPhase (f := step.denote) ?_ phase
    have grown {u : LogicBuilder} (hu : Grows b u) {x : Lit} (hx : Valid b x) :
        Valid u x ∧ weight u.nodes x = weight b.nodes x := ⟨hu.valid hx, hu.weight hx⟩
    cases step with
    | value l => exact Meets.pure hb hg.1 hg.2 fun leaf => rfl
    | viaXor x y =>
      obtain ⟨⟨hx, hy⟩, hlt⟩ := hg
      exact (canonicalXor_meets fuel hb hx hy (by omega) origin).mono (by omega) fun leaf => rfl
    | viaOr x y =>
      obtain ⟨⟨hx, hy⟩, hlt⟩ := hg
      exact (canonicalOrWith_meets hb hx hy origin fun s t e hs ht he h =>
        ih hb hs ht he (by omega)).mono (by omega) fun leaf => rfl
    | viaAnd x y =>
      obtain ⟨⟨hx, hy⟩, hlt⟩ := hg
      exact (canonicalAnd_meets hb hx hy origin).mono (by omega) fun leaf => rfl
    | again x y z =>
      obtain ⟨⟨hx, hy, hz⟩, hlt⟩ := hg
      exact (ih hb hx hy hz (by omega)).mono (by omega) fun leaf => rfl
    | combineAnd x y p q =>
      obtain ⟨⟨hx, hy, hp, hq⟩, hlt, -⟩ := hg
      refine (canonicalAnd_meets hb hx hy origin).bind
        (k := fun c v => if v c then v p else v q) (fun c u hu hc hcw => ?_)
        fun c u hu hce leaf => ?_
      · obtain ⟨hp', hpw⟩ := grown hu hp
        obtain ⟨hq', hqw⟩ := grown hu hq
        exact (ih hu.inv hc hp' hq' (by omega)).mono (by omega) fun leaf => rfl
      · simp only [hce, hu.eval hp, hu.eval hq, MuxStep.denote]
    | combineOr x y p q =>
      obtain ⟨⟨hx, hy, hp, hq⟩, hlt, -⟩ := hg
      refine (canonicalOrWith_meets hb hx hy origin fun s t e hs ht he h =>
        ih hb hs ht he (by omega)).bind
        (k := fun c v => if v c then v p else v q) (fun c u hu hc hcw => ?_)
        fun c u hu hce leaf => ?_
      · obtain ⟨hp', hpw⟩ := grown hu hp
        obtain ⟨hq', hqw⟩ := grown hu hq
        exact (ih hu.inv hc hp' hq' (by omega)).mono (by omega) fun leaf => rfl
      · simp only [hce, hu.eval hp, hu.eval hq, MuxStep.denote]
    | factorElse x y z o a =>
      obtain ⟨⟨hx, hy, hz, ho, ha⟩, hlt⟩ := hg
      refine (ih hb hx hy hz (by omega)).bind
        (k := fun c v => if v o then v a else v c) (fun c u hu hc hcw => ?_)
        fun c u hu hce leaf => ?_
      · obtain ⟨ho', how⟩ := grown hu ho
        obtain ⟨ha', haw⟩ := grown hu ha
        exact (ih hu.inv ho' ha' hc (by omega)).mono (by omega) fun leaf => rfl
      · simp only [hce, hu.eval ho, hu.eval ha, MuxStep.denote]
    | factorThen x y z o a =>
      obtain ⟨⟨hx, hy, hz, ho, ha⟩, hlt⟩ := hg
      refine (ih hb hx hy hz (by omega)).bind
        (k := fun c v => if v o then v c else v a) (fun c u hu hc hcw => ?_)
        fun c u hu hce leaf => ?_
      · obtain ⟨ho', how⟩ := grown hu ho
        obtain ⟨ha', haw⟩ := grown hu ha
        exact (ih hu.inv ho' hc ha' (by omega)).mono (by omega) fun leaf => rfl
      · simp only [hce, hu.eval ho, hu.eval ha, MuxStep.denote]
    | intern x y z =>
      obtain ⟨⟨hx, hy, hz⟩, hle, hc⟩ := hg
      have hc' : (Node.mk .mux x y z 0 0).Canonical b.nodes := hc
      exact (intern_meets hb origin rfl (by simp [NodeKey.fanins, hx, hy, hz]) hc').mono
        (by simp [NodeKey.fanins]; omega) fun leaf => rfl

/-! The builder's own calls. -/

namespace LogicBuilder

variable {l r s t e : Lit}

theorem and_meets (hb : Inv b) (hl : Valid b l) (hr : Valid b r) (origin : Nat) :
    Meets b (1 + (weight b.nodes l + weight b.nodes r)) (fun v => v l && v r)
      (LogicBuilder.and l r origin) := canonicalAnd_meets hb hl hr origin

theorem or_meets (hb : Inv b) (hl : Valid b l) (hr : Valid b r) (origin : Nat) :
    Meets b (1 + (weight b.nodes l + weight b.nodes r)) (fun v => v l || v r)
      (LogicBuilder.or l r origin) :=
  Meets.get <| canonicalOrWith_meets hb hl hr origin fun _ _ _ hs ht he h =>
    canonicalMux_meets _ hb hs ht he h.le origin

theorem xor_meets (hb : Inv b) (hl : Valid b l) (hr : Valid b r) (origin : Nat) :
    Meets b (1 + (weight b.nodes l + weight b.nodes r)) (fun v => v l ^^ v r)
      (LogicBuilder.xor l r origin) :=
  Meets.get <| canonicalXor_meets _ hb hl hr le_rfl origin

theorem mux_meets (hb : Inv b) (hs : Valid b s) (ht : Valid b t) (he : Valid b e)
    (origin : Nat) :
    Meets b (1 + (weight b.nodes s + weight b.nodes t + weight b.nodes e))
      (fun v => if v s then v t else v e) (LogicBuilder.mux s t e origin) :=
  Meets.get <| canonicalMux_meets _ hb hs ht he le_rfl origin

end LogicBuilder
end Opto.Logic
