import Opto.Logic.BuilderRuns

/-!
# Functions of the boundary

Inputs are told apart by their origins, so an assignment of the origins gives
every literal of a network a value. A call on a builder returns a literal whose
function of the boundary is the call's, and no later call changes it.
-/

namespace Opto.Logic

/-- An assignment of the boundary gives every input leaf the value of its origin. -/
def leafOf (net : LogicNetwork) (g : Nat → Bool) (node : Nat) : Bool :=
  g ((net.origin node).getD 0)

def networkValue (net : LogicNetwork) (g : Nat → Bool) (l : Lit) : Bool :=
  eval (leafOf net g) net.nodes l

theorem networkValue_inverted (net : LogicNetwork) (g : Nat → Bool) (l : Lit) :
    networkValue net g l.inverted = !networkValue net g l := eval_inverted l

theorem networkValue_withPhase (net : LogicNetwork) (g : Nat → Bool) (l : Lit) (p : Bool) :
    networkValue net g (withPhase l p) = (networkValue net g l ^^ p) := eval_withPhase l p

theorem networkValue_phase (net : LogicNetwork) (g : Nat → Bool) (l : Lit) :
    networkValue net g l = (networkValue net g ⟨l.node, false⟩ ^^ l.isInverted) := eval_phase l

theorem networkValue_node {net : LogicNetwork} (ht : Topological net.nodes) {i : Nat} {n : Node}
    (hn : net.nodes[i]? = some n) (g : Nat → Bool) : networkValue net g ⟨i, false⟩ =
      n.denote (g n.origin) (networkValue net g) := by
  have horigin : leafOf net g i = g n.origin := by simp [leafOf, LogicNetwork.origin, hn]
  rw [networkValue, eval_node ht hn rfl, horigin]
  rfl

/-- Only the leaves that are there matter. -/
theorem eval_leaf_congr {nodes : List Node} (ht : Topological nodes) {leaf leaf' : Nat → Bool}
    (h : ∀ i < nodes.length, leaf i = leaf' i) {l : Lit} (hl : l.node < nodes.length) :
    eval leaf nodes l = eval leaf' nodes l := by
  have positive (i : Nat) (hi : i < nodes.length) :
      eval leaf nodes ⟨i, false⟩ = eval leaf' nodes ⟨i, false⟩ := by
    induction i using Nat.strong_induction_on with
    | _ i ih =>
      have hn := List.getElem?_eq_getElem hi
      rw [eval_node ht hn rfl, eval_node ht hn rfl, h i hi]
      apply Node.denote_congr
      intro f hf
      have hlt := ht i _ hn f hf
      rw [eval_phase, ih f.node hlt (Nat.lt_trans hlt hi), ← eval_phase]
  rw [eval_phase, positive l.node hl, ← eval_phase]

/-! Literals of a builder. -/

/-- The literal stands for the function `f` of the boundary. -/
structure Denotes (b : LogicBuilder) (l : Lit) (f : (Nat → Bool) → Bool) : Prop where
  valid : Valid b l
  value : ∀ g, networkValue b.freeze g l = f g

theorem leafOf_grows {b t : LogicBuilder} (h : Grows b t) (g : Nat → Bool) {i : Nat}
    (hi : i < b.nodes.length) : leafOf t.freeze g i = leafOf b.freeze g i := by
  obtain ⟨tail, htail⟩ := h.nodes
  have hsame : t.nodes[i]? = b.nodes[i]? := by rw [← htail, List.getElem?_append_left hi]
  simp only [leafOf, LogicNetwork.origin, LogicBuilder.freeze, hsame]

theorem networkValue_grows {b t : LogicBuilder} (hb : Inv b) (h : Grows b t) (g : Nat → Bool)
    {l : Lit} (hl : Valid b l) :
    eval (leafOf t.freeze g) b.nodes l = networkValue b.freeze g l :=
  eval_leaf_congr hb.topological (fun _ hi => leafOf_grows h g hi) hl.1

theorem Denotes.grows {b t : LogicBuilder} (hb : Inv b) (h : Grows b t) {l : Lit}
    {f : (Nat → Bool) → Bool} (hl : Denotes b l f) : Denotes t l f where
  valid := h.valid hl.valid
  value g := by
    have hstep : networkValue t.freeze g l = eval (leafOf t.freeze g) b.nodes l := h.eval hl.valid _
    rw [hstep, networkValue_grows hb h g hl.valid, hl.value g]

theorem Denotes.congr {b : LogicBuilder} {l : Lit} {f p : (Nat → Bool) → Bool}
    (h : Denotes b l f) (hfp : ∀ g, f g = p g) : Denotes b l p :=
  ⟨h.valid, fun g => (h.value g).trans (hfp g)⟩

theorem Denotes.withPhase {b : LogicBuilder} {l : Lit} {f : (Nat → Bool) → Bool}
    (h : Denotes b l f) (p : Bool) : Denotes b (withPhase l p) fun g => f g ^^ p where
  valid := by cases p <;> exact h.valid
  value g := by rw [networkValue_withPhase, h.value g]

theorem Denotes.inverted {b : LogicBuilder} {l : Lit} {f : (Nat → Bool) → Bool}
    (h : Denotes b l f) : Denotes b l.inverted fun g => !f g where
  valid := h.valid
  value g := by rw [networkValue_inverted, h.value g]

theorem denotes_constant {b : LogicBuilder} (hb : Inv b) (value : Bool) :
    Denotes b (LogicBuilder.constant value) fun _ => value where
  valid := by cases value <;> [exact hb.valid_FALSE; exact hb.valid_TRUE]
  value g := by
    have hfalse : networkValue b.freeze g .FALSE = false :=
      eval_FALSE hb.constant rfl hb.topological
    cases value with
    | false => exact hfalse
    | true => exact (networkValue_inverted _ g .FALSE).trans (by rw [hfalse]; rfl)

theorem Valid.denotes {b : LogicBuilder} {l : Lit} (h : Valid b l) :
    Denotes b l fun g => networkValue b.freeze g l := ⟨h, fun _ => rfl⟩

/-- A call returns a literal for the call's function of the boundary; a failure is
the source's own. -/
theorem Call.denotes {b : LogicBuilder} (hb : Inv b) (c : Call) (hargs : ∀ a ∈ c.args, Valid b a) :
    Outcome b c.exec
      (fun l t => Grows b t ∧
        Denotes t l fun g => c.denote (leafOf t.freeze g l.node) (networkValue b.freeze g))
      (fun e t => e ≠ .fuel ∧ Grows b t) := by
  apply Outcome.mono (c.outcome hb hargs)
  · rintro l t ⟨hg, hv, he⟩
    refine ⟨hg, hv, fun g => (he (leafOf t.freeze g)).trans ?_⟩
    apply c.denote_congr
    intro a ha
    exact networkValue_grows hb hg g (hargs a ha)
  · exact fun _ _ h => h

theorem input_denotes {b : LogicBuilder} (hb : Inv b) (origin : Nat) :
    Outcome b (LogicBuilder.input origin)
      (fun l t => Grows b t ∧ Denotes t l fun g => g origin) (fun e t => e ≠ .fuel ∧ Grows b t) := by
  have hcall := Call.denotes hb (.input origin) fun a ha => by cases ha
  have hnode : Outcome b (LogicBuilder.input origin)
      (fun l t => t.freeze.origin l.node = some origin) fun _ _ => True := by
    apply Outcome.mono (LogicBuilder.push_outcome b .input .FALSE .FALSE .FALSE origin)
    · rintro l t ⟨level, -, -, rfl, rfl⟩
      simp [LogicNetwork.origin, LogicBuilder.freeze]
    · exact fun _ _ _ => trivial
  unfold Outcome at *
  cases hrun : (LogicBuilder.input origin).run b with
  | error e t =>
    have hexec : (Call.input origin).exec.run b = .error e t := hrun
    rwa [hexec] at hcall
  | ok l t =>
    have hexec : (Call.input origin).exec.run b = .ok l t := hrun
    rw [hexec] at hcall
    rw [hrun] at hnode
    refine ⟨hcall.1, hcall.2.congr fun g => ?_⟩
    rw [Call.denote, leafOf, hnode]
    rfl

end Opto.Logic
