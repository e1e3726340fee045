import Opto.Logic.CanonicalForm

/-!
# The canonical rules terminate

The rules recurse at most as deep as their arguments weigh, the recursion over freshly
built selectors included: a new gate weighs one more than its fanins, which is less than
what the multiplexer it replaces weighed. From that depth on, more fuel changes nothing.
-/

namespace Opto.Logic

section Fuel

variable {σ ε α β : Type}

/-- The second run repeats the first one, or the first one ran out of fuel. -/
def Refines (m m' : EStateM (Halt ε) σ α) : Prop :=
  ∀ s, (∃ t, m.run s = .error .fuel t) ∨ m'.run s = m.run s

namespace Refines

variable {m m' m'' : EStateM (Halt ε) σ α}

theorem refl (m : EStateM (Halt ε) σ α) : Refines m m := fun _ => .inr rfl

theorem exhausted (m : EStateM (Halt ε) σ α) : Refines (throw .fuel) m := fun s => .inl ⟨s, rfl⟩

theorem trans (h : Refines m m') (h' : Refines m' m'') : Refines m m'' := by
  intro s
  rcases h s with hfuel | hsame
  · exact .inl hfuel
  · rcases h' s with ⟨t, ht⟩ | hsame'
    · exact .inl ⟨t, hsame ▸ ht⟩
    · exact .inr (hsame'.trans hsame)

theorem bind {k k' : α → EStateM (Halt ε) σ β} (h : Refines m m') (hk : ∀ a, Refines (k a) (k' a)) :
    Refines (m >>= k) (m' >>= k') := by
  intro s
  have hrun (n : EStateM (Halt ε) σ α) (j : α → EStateM (Halt ε) σ β) :
      (n >>= j).run s = match n.run s with
        | .ok a t => (j a).run t
        | .error e t => .error e t := by
    change EStateM.bind n j s = _
    rw [EStateM.bind, EStateM.run]
    cases n s <;> rfl
  rcases h s with ⟨t, ht⟩ | hsame
  · exact .inl ⟨t, by rw [hrun, ht]⟩
  · rw [hrun, hrun, hsame]
    cases m.run s with
    | ok a t => exact hk a t
    | error e t => exact .inr rfl

theorem map (h : Refines m m') (f : α → β) : Refines (f <$> m) (f <$> m') := by
  have hbind : Refines (m >>= fun a => pure (f a)) (m' >>= fun a => pure (f a)) := h.bind fun a => refl _
  exact hbind

theorem get {k k' : σ → EStateM (Halt ε) σ β} (h : ∀ s, Refines (k s) (k' s)) :
    Refines (MonadState.get >>= k) (MonadState.get >>= k') := (refl _).bind h

/-- Fuel that suffices one step at a time suffices in any amount. -/
theorem of_step {run : Nat → EStateM (Halt ε) σ α} (h : ∀ fuel, Refines (run fuel) (run (fuel + 1)))
    {fuel fuel' : Nat} (hle : fuel ≤ fuel') : Refines (run fuel) (run fuel') := by
  induction fuel', hle using Nat.le_induction with
  | base => exact refl _
  | succ fuel' _ ih => exact ih.trans (h fuel')

theorem run_eq (h : Refines m m') {s : σ} (hs : ∀ t, m.run s ≠ .error .fuel t) : m'.run s = m.run s :=
  (h s).resolve_left fun ⟨t, ht⟩ => hs t ht

end Refines

end Fuel

section Rules

variable {σ ε : Type} [Canonical σ ε] (origin : Nat)

theorem canonicalXor_refines (fuel : Nat) (left right : Lit) :
    Refines (canonicalXor (σ := σ) fuel left right origin) (canonicalXor (fuel + 1) left right origin) := by
  induction fuel generalizing left right with
  | zero => exact .exhausted _
  | succ fuel ih =>
    refine .get fun store => ?_
    generalize xorRule store left right = rule
    obtain ⟨step, inverted⟩ := rule
    refine Refines.map ?_ _
    cases step with
    | value l => exact .refl _
    | again l r => exact ih l r
    | intern l r => exact .refl _

variable {mux mux' : Lit → Lit → Lit → EStateM (Halt ε) σ Lit}

theorem canonicalOrWith_refines (hmux : ∀ s t e, Refines (mux s t e) (mux' s t e)) (left right : Lit) :
    Refines (canonicalOrWith mux left right origin) (canonicalOrWith mux' left right origin) := by
  refine .get fun store => ?_
  cases orFactor store left right with
  | some factors => exact hmux _ _ _
  | none => exact .refl _

theorem runMuxStep_refines (hmux : ∀ s t e, Refines (mux s t e) (mux' s t e)) (fuel : Nat) (step : MuxStep) :
    Refines (runMuxStep mux fuel origin step) (runMuxStep mux' (fuel + 1) origin step) := by
  cases step with
  | value l => exact .refl _
  | viaXor left right => exact canonicalXor_refines origin fuel left right
  | viaOr left right => exact canonicalOrWith_refines origin hmux left right
  | viaAnd left right => exact .refl _
  | again s t e => exact hmux s t e
  | combineAnd left right t e => exact (Refines.refl _).bind fun combined => hmux combined t e
  | combineOr left right t e =>
    exact (canonicalOrWith_refines origin hmux left right).bind fun combined => hmux combined t e
  | factorElse s t e outer outerThen => exact (hmux s t e).bind fun remaining => hmux outer outerThen remaining
  | factorThen s t e outer outerElse => exact (hmux s t e).bind fun remaining => hmux outer remaining outerElse
  | intern s t e => exact .refl _

theorem canonicalMux_refines (fuel : Nat) (s t e : Lit) :
    Refines (canonicalMux (σ := σ) fuel s t e origin) (canonicalMux (fuel + 1) s t e origin) := by
  induction fuel generalizing s t e with
  | zero => exact .exhausted _
  | succ fuel ih =>
    refine .get fun store => ?_
    generalize muxRule store s t e = rule
    obtain ⟨step, inverted⟩ := rule
    exact (runMuxStep_refines origin ih fuel step).map _

theorem canonicalOr_refines (fuel : Nat) (left right : Lit) :
    Refines (canonicalOr (σ := σ) fuel left right origin) (canonicalOr (fuel + 1) left right origin) :=
  canonicalOrWith_refines origin (canonicalMux_refines origin fuel) left right

end Rules

variable {b : LogicBuilder} {l r s t e : Lit}

/-- The recursion ends within a depth, whatever depth it is allowed beyond it. -/
def EndsWithin (b : LogicBuilder) (run : Nat → BuildM Lit) (depth : Nat) : Prop :=
  ∀ fuel, depth ≤ fuel → (∀ t, (run fuel).run b ≠ .error .fuel t) ∧ (run fuel).run b = (run depth).run b

theorem EndsWithin.of_meets {run : Nat → BuildM Lit} (hstep : ∀ fuel, Refines (run fuel) (run (fuel + 1)))
    {depth w : Nat} {f : (Lit → Bool) → Bool} (h : Meets b w f (run depth)) : EndsWithin b run depth := by
  intro fuel hfuel
  have hends (u : LogicBuilder) : (run depth).run b ≠ .error .fuel u := fun hu => (Outcome.error h hu).1 rfl
  have hsame := (Refines.of_step hstep hfuel).run_eq hends
  exact ⟨fun u => hsame ▸ hends u, hsame⟩

theorem canonicalOr_meets (hb : Inv b) (hl : Valid b l) (hr : Valid b r) (origin : Nat) :
    Meets b (1 + (weight b.nodes l + weight b.nodes r)) (fun v => v l || v r)
      (canonicalOr (weight b.nodes l + weight b.nodes r) l r origin) :=
  canonicalOrWith_meets hb hl hr origin fun _ _ _ hs ht he h => canonicalMux_meets _ hb hs ht he h.le origin

/-- In every reachable state each rule ends on all literals, in as many nested calls as its
arguments weigh. -/
theorem rules_terminate (h : Reachable b) (hl : Valid b l) (hr : Valid b r) (hs : Valid b s) (ht : Valid b t)
    (he : Valid b e) (origin : Nat) :
    EndsWithin b (fun _ => canonicalAnd l r origin) 0 ∧
    EndsWithin b (fun fuel => canonicalOr fuel l r origin) (weight b.nodes l + weight b.nodes r) ∧
    EndsWithin b (fun fuel => canonicalXor fuel l r origin) (weight b.nodes l + weight b.nodes r) ∧
    EndsWithin b (fun fuel => canonicalMux fuel s t e origin)
      (weight b.nodes s + weight b.nodes t + weight b.nodes e) := by
  have hb := h.inv
  refine ⟨?_, ?_, ?_, ?_⟩
  · exact .of_meets (fun _ => .refl _) (canonicalAnd_meets hb hl hr origin)
  · exact .of_meets (fun fuel => canonicalOr_refines origin fuel l r) (canonicalOr_meets hb hl hr origin)
  · exact .of_meets (fun fuel => canonicalXor_refines origin fuel l r) (canonicalXor_meets _ hb hl hr le_rfl origin)
  · exact .of_meets (fun fuel => canonicalMux_refines origin fuel s t e)
      (canonicalMux_meets _ hb hs ht he le_rfl origin)

/-- A multiplexer whose else arm repeats its then arm: the selectors are combined first. -/
def nestedArm : LogicBuilder :=
  ⟨(leaves 4).nodes ++ [⟨.mux, ⟨2, false⟩, ⟨1, false⟩, ⟨3, false⟩, 1, 0⟩],
    [(.mux ⟨2, false⟩ ⟨1, false⟩ ⟨3, false⟩, 5)]⟩

theorem nestedArm_terminates :
    EndsWithin nestedArm (fun fuel => canonicalMux fuel ⟨4, false⟩ ⟨5, false⟩ ⟨3, false⟩ 0) 6 := by
  have hreachable : Reachable nestedArm :=
    .ok (c := .mux ⟨2, false⟩ ⟨1, false⟩ ⟨3, false⟩ 0) (l := ⟨5, false⟩)
      (reachable_leaves (show 4 < 2 ^ 31 by decide))
      (by simp [Call.args, Valid, leaves]) rfl
  have hvalid {i : Nat} (hi : i < 6) : Valid nestedArm ⟨i, false⟩ :=
    ⟨hi, by simp only; omega⟩
  exact (rules_terminate hreachable (hvalid (by omega)) (hvalid (by omega)) (hvalid (by omega))
    (hvalid (by omega)) (hvalid (by omega)) 0 (l := ⟨1, false⟩) (r := ⟨2, false⟩)).2.2.2

end Opto.Logic
