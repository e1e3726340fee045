import Opto.Logic.Boundary

/-!
# The rules add gates only

Whatever a connective's rules do, and even when they fail, the nodes that join the table are
gates: leaves come from the calls that name them.
-/

namespace Opto.Logic

/-- The later table has the earlier one in front and gates behind it. -/
def AddsGates (b t : LogicBuilder) : Prop :=
  ∃ tail, b.nodes ++ tail = t.nodes ∧ ∀ n ∈ tail, n.kind.IsGate

theorem AddsGates.refl (b : LogicBuilder) : AddsGates b b := ⟨[], List.append_nil _, fun _ h => by cases h⟩

theorem AddsGates.trans {b c t : LogicBuilder} (h : AddsGates b c) (h' : AddsGates c t) : AddsGates b t := by
  obtain ⟨first, hfirst, hgates⟩ := h
  obtain ⟨second, hsecond, hgates'⟩ := h'
  refine ⟨first ++ second, by rw [← List.append_assoc, hfirst, hsecond], fun n hn => ?_⟩
  exact (List.mem_append.mp hn).elim (hgates n) (hgates' n)

/-- A node of the later table that is no gate was there before. -/
theorem AddsGates.old {b t : LogicBuilder} (h : AddsGates b t) {i : Nat} {n : Node} (hn : t.nodes[i]? = some n)
    (hkind : ¬n.kind.IsGate) : b.nodes[i]? = some n := by
  obtain ⟨tail, htail, hgates⟩ := h
  rw [← htail] at hn
  by_cases hi : i < b.nodes.length
  · rwa [List.getElem?_append_left hi] at hn
  · rw [List.getElem?_append_right (Nat.le_of_not_lt hi)] at hn
    exact absurd (hgates n (List.mem_of_getElem? hn)) hkind

/-- From every table, running the computation adds gates only. -/
def Gates {α : Type} (m : BuildM α) : Prop :=
  ∀ b, Outcome b m (fun _ t => AddsGates b t) fun _ t => AddsGates b t

namespace Gates

variable {α β : Type} {m : BuildM α}

theorem pure (a : α) : Gates (Pure.pure a : BuildM α) := fun b => .refl b

theorem throw (e : Halt LogicError) : Gates (MonadExcept.throw e : BuildM α) := fun b => .refl b

theorem check (r : Except LogicError α) : Gates (Logic.check r) := by
  cases r with
  | ok a => exact pure a
  | error e => exact throw _

theorem bind {k : α → BuildM β} (h : Gates m) (hk : ∀ a, Gates (k a)) : Gates (m >>= k) := by
  intro b
  apply Outcome.bind (h b) ?_ fun _ _ ht => ht
  intro a t ht
  apply Outcome.mono (hk a t)
  · exact fun _ _ hu => ht.trans hu
  · exact fun _ _ hu => ht.trans hu

theorem get {k : LogicBuilder → BuildM α} (h : ∀ b, Gates (k b)) : Gates (MonadState.get >>= k) :=
  fun b => h b b

theorem map {f : α → β} (h : Gates m) : Gates (f <$> m) := fun b => Outcome.map (h b) fun _ _ ht => ht

end Gates

section Rules

variable {kind : NodeKind} {left right fanin0 fanin1 fanin2 : Lit} {origin : Nat}

theorem push_gates (hkind : kind.IsGate) : Gates (LogicBuilder.push kind fanin0 fanin1 fanin2 origin) := by
  intro b
  have happend (level : Nat) : AddsGates b ⟨b.nodes ++ [⟨kind, fanin0, fanin1, fanin2, level, origin⟩], b.interned⟩ :=
    ⟨_, rfl, fun n hn => by rwa [List.mem_singleton.mp hn]⟩
  apply Outcome.mono (LogicBuilder.push_outcome b kind fanin0 fanin1 fanin2 origin)
  · rintro l t ⟨level, -, -, -, rfl⟩
    exact happend level
  · rintro e t ⟨-, rfl | ⟨level, -, -, -, rfl⟩⟩
    · exact .refl t
    · exact happend level

theorem intern_gates {key : NodeKey} (hkind : kind.IsGate) :
    Gates (LogicBuilder.intern key kind fanin0 fanin1 fanin2 origin) := by
  refine .get fun b => ?_
  cases b.interned.lookup key with
  | some node => exact .check _
  | none =>
    refine .bind (push_gates hkind) fun literal => .bind ?_ fun _ => .pure _
    exact fun t => ⟨[], List.append_nil _, fun _ h => by cases h⟩

theorem canonicalAnd_gates : Gates (canonicalAnd left right origin) := by
  refine .get fun b => ?_
  cases andIdentity b left right with
  | some l => exact .pure l
  | none => exact intern_gates (.inl rfl)

theorem canonicalXor_gates (fuel : Nat) : Gates (canonicalXor fuel left right origin) := by
  induction fuel generalizing left right with
  | zero => exact .throw _
  | succ fuel ih =>
    refine .get fun b => ?_
    generalize xorRule b left right = rule
    obtain ⟨step, inverted⟩ := rule
    refine Gates.map ?_
    cases step with
    | value l => exact .pure l
    | again l r => exact ih
    | intern l r => exact intern_gates (.inr (.inl rfl))

variable {mux : Lit → Lit → Lit → BuildM Lit}

theorem canonicalOrWith_gates (hmux : ∀ s t e, Gates (mux s t e)) :
    Gates (canonicalOrWith mux left right origin) := by
  refine .get fun b => ?_
  cases orFactor b left right with
  | some factors => exact hmux _ _ _
  | none => exact canonicalAnd_gates.map

theorem runMuxStep_gates (hmux : ∀ s t e, Gates (mux s t e)) (fuel : Nat) (step : MuxStep) :
    Gates (runMuxStep mux fuel origin step) := by
  cases step with
  | value l => exact .pure l
  | viaXor left right => exact canonicalXor_gates fuel
  | viaOr left right => exact canonicalOrWith_gates hmux
  | viaAnd left right => exact canonicalAnd_gates
  | again s t e => exact hmux s t e
  | combineAnd left right t e => exact canonicalAnd_gates.bind fun combined => hmux combined t e
  | combineOr left right t e => exact (canonicalOrWith_gates hmux).bind fun combined => hmux combined t e
  | factorElse s t e outer outerThen => exact (hmux s t e).bind fun remaining => hmux outer outerThen remaining
  | factorThen s t e outer outerElse => exact (hmux s t e).bind fun remaining => hmux outer remaining outerElse
  | intern s t e => exact intern_gates (.inr (.inr rfl))

theorem canonicalMux_gates (fuel : Nat) {s t e : Lit} : Gates (canonicalMux fuel s t e origin) := by
  induction fuel generalizing s t e with
  | zero => exact .throw _
  | succ fuel ih =>
    refine .get fun b => ?_
    generalize muxRule b s t e = rule
    obtain ⟨step, inverted⟩ := rule
    exact (runMuxStep_gates (fun _ _ _ => ih) fuel step).map

end Rules

namespace LogicBuilder

variable {left right select thenValue elseValue : Lit} {origin : Nat}

theorem and_gates : Gates (and left right origin) := canonicalAnd_gates

theorem or_gates : Gates (or left right origin) :=
  .get fun _ => canonicalOrWith_gates fun _ _ _ => canonicalMux_gates _

theorem xor_gates : Gates (xor left right origin) := .get fun _ => canonicalXor_gates _

theorem mux_gates : Gates (mux select thenValue elseValue origin) := .get fun _ => canonicalMux_gates _

end LogicBuilder

/-- The calls that name a gate. -/
def Call.Connects : Call → Prop
  | .input _ => False
  | _ => True

theorem Call.gates {c : Call} (h : c.Connects) : Gates c.exec := by
  cases c with
  | input origin => exact h.elim
  | and l r origin => exact LogicBuilder.and_gates
  | or l r origin => exact LogicBuilder.or_gates
  | xor l r origin => exact LogicBuilder.xor_gates
  | mux s t e origin => exact LogicBuilder.mux_gates

theorem outcome_and {α : Type} {m : BuildM α} {b : LogicBuilder} {Q Q' : α → LogicBuilder → Prop}
    {E E' : Halt LogicError → LogicBuilder → Prop} (h : Outcome b m Q E) (h' : Outcome b m Q' E') :
    Outcome b m (fun a t => Q a t ∧ Q' a t) fun e t => E e t ∧ E' e t := by
  unfold Outcome at *
  cases hm : m.run b with
  | ok a t =>
    rw [hm] at h h'
    exact ⟨h, h'⟩
  | error e t =>
    rw [hm] at h h'
    exact ⟨h, h'⟩

/-- A call that names a gate gives the literal of its function, and adds gates only. -/
theorem Call.connects_denotes {b : LogicBuilder} (hb : Inv b) {c : Call} (hc : c.Connects)
    (hargs : ∀ a ∈ c.args, Valid b a) :
    Outcome b c.exec (fun l t => (Grows b t ∧ AddsGates b t) ∧ Denotes t l fun g => c.denote false (networkValue b.freeze g))
      fun e t => e ≠ .fuel ∧ Grows b t ∧ AddsGates b t := by
  apply Outcome.mono (outcome_and (c.denotes hb hargs) (Call.gates hc b))
  · intro l t ⟨⟨hgrows, hl⟩, hgates⟩
    refine ⟨⟨hgrows, hgates⟩, hl.congr fun g => ?_⟩
    cases c with
    | input origin => exact hc.elim
    | _ => rfl
  · exact fun e t ⟨⟨hfuel, hgrows⟩, hgates⟩ => ⟨hfuel, hgrows, hgates⟩

end Opto.Logic
