import Opto.Bitblast.DontCare

/-!
# Don't-care refinement

Each emission refines the pessimistic value of its operands' values, whatever was chosen
for unknown bits before, and so does every composition.
-/

namespace Opto.Bitblast

open Word Logic Synth

namespace Pessimistic

/-! An operator has its value for every choice of the unknown operands. -/

def apply (op : BinaryOp) (x y : Bool) : Bool :=
  match op with
  | .bitAnd | .logicalAnd => x && y
  | .bitOr | .logicalOr => x || y
  | .bitXor | .ne => x ^^ y
  | .eq => !(x ^^ y)
  | _ => false

variable {op : BinaryOp} {left right cond : Option Bool} {x y c b : Bool}

theorem unary_choice {op : UnaryOp} (hx : ∀ d, left = some d → x = d) (h : unary op left = some b) :
    (match op with
      | .bitNot | .logicalNot => !x
      | .reductionAnd | .reductionOr | .reductionXor => x) = b := by
  cases op with
  | bitNot | logicalNot =>
    obtain ⟨d, hd, rfl⟩ := Option.map_eq_some_iff.mp h
    rw [hx d hd]
  | reductionAnd | reductionOr | reductionXor => exact hx b h

theorem and_choice (hx : ∀ d, left = some d → x = d) (hy : ∀ d, right = some d → y = d)
    (h : and left right = some b) : (x && y) = b := by
  cases left with
  | none => cases right with
    | none => cases h
    | some d =>
      cases d with
      | false =>
        cases h
        rw [hy false rfl, Bool.and_false]
      | true => cases h
  | some d =>
    cases d with
    | false =>
      cases h
      rw [hx false rfl, Bool.false_and]
    | true =>
      cases right with
      | none => cases h
      | some e =>
        rw [hx true rfl, hy e rfl, Bool.true_and]
        cases e <;> cases h <;> rfl

theorem xor_choice (hx : ∀ d, left = some d → x = d) (hy : ∀ d, right = some d → y = d)
    (h : xor left right = some b) : (x ^^ y) = b := by
  obtain ⟨d, hd, h⟩ := Option.bind_eq_some_iff.mp h
  obtain ⟨e, he, h⟩ := Option.bind_eq_some_iff.mp h
  cases h
  rw [hx d hd, hy e he]

theorem binary_choice (hx : ∀ d, left = some d → x = d) (hy : ∀ d, right = some d → y = d)
    (h : binary op left right = some b) : apply op x y = b := by
  have hnot {p : Option Bool} {z : Bool} (hz : ∀ d, p = some d → z = d) (d : Bool)
      (hd : p.map (!·) = some d) : (!z) = d := by
    obtain ⟨e, he, rfl⟩ := Option.map_eq_some_iff.mp hd
    rw [hz e he]
  cases op with
  | bitAnd | logicalAnd => exact and_choice hx hy h
  | bitOr | logicalOr =>
    obtain ⟨d, hd, rfl⟩ := Option.map_eq_some_iff.mp h
    have hand := and_choice (hnot hx) (hnot hy) hd
    rw [apply, ← hand, Bool.not_and, Bool.not_not, Bool.not_not]
  | bitXor | ne => exact xor_choice hx hy h
  | eq =>
    obtain ⟨d, hd, rfl⟩ := Option.map_eq_some_iff.mp h
    rw [apply, xor_choice hx hy hd]
  | _ => cases h

theorem mux_choice (hc : ∀ d, cond = some d → c = d) (hx : ∀ d, left = some d → x = d)
    (hy : ∀ d, right = some d → y = d) (h : mux cond left right = some b) : (if c then x else y) = b := by
  cases cond with
  | none =>
    rw [mux] at h
    split_ifs at h with hsame
    rw [hx b h, hy b (hsame ▸ h), ite_self]
  | some d =>
    rw [hc d rfl]
    cases d with
    | false => simpa using hy b h
    | true => simpa using hx b h

/-! An unknown operand leaves the result to the other one. -/

theorem binary_unknown_left (h : binary op none right = some b) : right = some b := by
  cases right with
  | none => cases op <;> cases h
  | some d => cases op <;> cases d <;> cases h <;> rfl

theorem binary_unknown_right (h : binary op left none = some b) : left = some b := by
  cases left with
  | none => cases op <;> cases h
  | some d => cases op <;> cases d <;> cases h <;> rfl

theorem mux_unknown_then (h : mux cond none right = some b) : right = some b := by
  cases cond with
  | none =>
    rw [mux] at h
    split_ifs at h
  | some d =>
    cases d with
    | false => exact h
    | true => cases h

theorem mux_unknown_else (h : mux cond left none = some b) : left = some b := by
  cases cond with
  | none =>
    rw [mux] at h
    split_ifs at h
    exact h
  | some d =>
    cases d with
    | false => cases h
    | true => exact h

theorem mux_unknown_cond (h : mux none left right = some b) : right = some b := by
  rw [mux] at h
  split_ifs at h with hsame
  exact hsame ▸ h

end Pessimistic

/-! What a bit of the backend stands for. -/

/-- The bit has the value, where there is one. -/
def Stands (g : Nat → Bool) (graph : LogicBuilder) : ScalarBit → Option Bool → Prop
  | .logic l, p => Valid graph l ∧ ∀ b, p = some b → networkValue graph.freeze g l = b
  | .dontCare _, p => p = none
  | .word _, _ => False

section

variable {g : Nat → Bool} {graph later : LogicBuilder} {bit : ScalarBit} {p q : Option Bool}

theorem Stands.mono (hgraph : Inv graph) (hgrows : Grows graph later) (h : Stands g graph bit p) :
    Stands g later bit p := by
  cases bit with
  | word value => exact h
  | dontCare value => exact h
  | logic l =>
    have hlater := h.1.denotes.grows hgraph hgrows
    exact ⟨hlater.valid, fun b hb => (hlater.value g).trans (h.2 b hb)⟩

/-- A bit of a known value stands for less. -/
theorem Stands.weaken (h : Stands g graph bit p) (hq : ∀ b, q = some b → p = some b) :
    Stands g graph bit q := by
  cases bit with
  | word value => exact h
  | logic l => exact ⟨h.1, fun b hb => h.2 b (hq b hb)⟩
  | dontCare value =>
    have hp : p = none := h
    cases q with
    | none => rfl
    | some b => exact absurd (hq b rfl) (by rw [hp]; exact nofun)

end

namespace AxmBackend

/-- The graph's inputs have the values that the assignment gives them. -/
def Agrees (assignment : Nat → Bool) (s : AxmBackend) (g : Nat → Bool) : Prop :=
  ∀ i value, s.inputs[i]? = some value → g i = assignment value

def Refines (assignment : Nat → Bool) (s : AxmBackend) (bit : ScalarBit) (p : Option Bool) : Prop :=
  ∀ g, Agrees assignment s g → Stands g s.graph bit p

structure Extends (s t : AxmBackend) : Prop where
  graph : Grows s.graph t.graph
  inputs : s.inputs <+: t.inputs

variable {m : WordModule} {assignment : Nat → Bool} {s t u : AxmBackend}

theorem Extends.trans (h : Extends s t) (h' : Extends t u) : Extends s u :=
  ⟨h.graph.trans h'.graph, h.inputs.trans h'.inputs⟩

theorem Agrees.earlier {g : Nat → Bool} (h : Agrees assignment t g) (hst : Extends s t) :
    Agrees assignment s g := by
  intro i value hi
  obtain ⟨rest, hrest⟩ := hst.inputs
  have hlt : i < s.inputs.length := (List.getElem?_eq_some_iff.mp hi).1
  exact h i value (by rw [← hrest, List.getElem?_append_left hlt, hi])

theorem Refines.mono {bit : ScalarBit} {p : Option Bool} (h : Refines assignment s bit p)
    (hs : Inv s.graph) (hst : Extends s t) : Refines assignment t bit p :=
  fun g hg => (h g (hg.earlier hst)).mono hs hst.graph

/-- Word values that read the same signal bit have the same value. -/
def Consistent (m : WordModule) (assignment : Nat → Bool) : Prop :=
  ∀ left right l r, signalBit m left = some l → signalBit m right = some r →
    (l.signal, l.lsb) = (r.signal, r.lsb) → assignment left = assignment right

/-- The backend's tables map word values and signal bits to bits of their values. -/
structure Tracks (m : WordModule) (assignment : Nat → Bool) (s : AxmBackend) : Prop where
  graph : Inv s.graph
  values : ∀ value bit, s.values.lookup value = some bit →
    Refines assignment s bit (some (assignment value))
  signals : ∀ key bit, s.signals.lookup key = some bit → ∀ value reference,
    signalBit m value = some reference → (reference.signal, reference.lsb) = key →
      Refines assignment s bit (some (assignment value))

theorem Tracks.refl (h : Tracks m assignment s) : Extends s s :=
  ⟨.refl h.graph, List.prefix_rfl⟩

theorem tracks_default : Tracks m assignment default where
  graph := inv_new
  values _ _ h := by cases h
  signals _ _ h := by cases h

/-- A larger graph or more inputs, and the same tables. -/
theorem Tracks.extends (h : Tracks m assignment s) {graph : LogicBuilder} {inputs : List Nat}
    (hst : Extends s { s with graph := graph, inputs := inputs }) :
    Tracks m assignment { s with graph := graph, inputs := inputs } where
  graph := hst.graph.inv
  values value bit hbit := (h.values value bit hbit).mono h.graph hst
  signals key bit hbit value reference hread hkey :=
    (h.signals key bit hbit value reference hread hkey).mono h.graph hst

/-- What an emission establishes. -/
def Emitted (m : WordModule) (assignment : Nat → Bool) (s : AxmBackend) (p : Option Bool)
    (bit : ScalarBit) (t : AxmBackend) : Prop :=
  Tracks m assignment t ∧ Extends s t ∧ Refines assignment t bit p

/-- The graph is out of identifiers. -/
def OutOfCapacity (e : SynthError Panic) : Prop := e = .backend .capacity

theorem emitted_pure {bit : ScalarBit} {p : Option Bool} (h : Tracks m assignment s)
    (hbit : Refines assignment s bit p) :
    Ensures s (pure bit : AxmM ScalarBit) (Emitted m assignment s p) OutOfCapacity :=
  Ensures.pure ⟨h, h.refl, hbit⟩

theorem withGraph_ensures {m : GraphM Lit} {f : (Nat → Bool) → Bool}
    (h : Ensures s.graph m (Builds s.graph f) IsCapacity) :
    Ensures s (withGraph m) (fun l t => ∃ graph, t = { s with graph := graph } ∧
      Grows s.graph graph ∧ Denotes graph l f) OutOfCapacity := by
  unfold Ensures at h ⊢
  have hrun : (withGraph m).run s = withGraph m s := rfl
  rw [hrun, withGraph]
  cases hm : m.run s.graph with
  | error e =>
    rw [hm] at h
    exact congrArg SynthError.backend h
  | ok r =>
    rw [hm] at h
    exact ⟨r.2, rfl, h.1, h.2⟩

/-- A gate over the graph stands for every value that its function guarantees. -/
theorem gate_emitted (h : Tracks m assignment s) {gate : GraphM Lit} {f : (Nat → Bool) → Bool}
    (hgate : Ensures s.graph gate (Builds s.graph f) IsCapacity) (invert : Bool) {p : Option Bool}
    (hp : ∀ g, Agrees assignment s g → ∀ b, p = some b → (f g ^^ invert) = b) :
    Ensures s ((fun l => .logic (withPhase l invert)) <$> withGraph gate) (Emitted m assignment s p)
      OutOfCapacity := by
  rw [← bind_pure_comp]
  apply Ensures.bind (withGraph_ensures hgate)
  rintro l t ⟨graph, rfl, hgrows, hl⟩
  have hst : Extends s { s with graph := graph } := ⟨hgrows, List.prefix_rfl⟩
  refine Ensures.pure ⟨h.extends hst, hst, fun g hg => ?_⟩
  refine ⟨(hl.withPhase invert).valid, fun b hb => ?_⟩
  rw [(hl.withPhase invert).value]
  exact hp g hg b hb

/-! Imported word values. -/

theorem Tracks.cache (h : Tracks m assignment s) {value : Nat} {bit : ScalarBit}
    (hbit : Refines assignment s bit (some (assignment value))) :
    Tracks m assignment { s with values := (value, bit) :: s.values } where
  graph := h.graph
  values v b hlookup := by
    rw [List.lookup_cons] at hlookup
    split at hlookup
    · next heq =>
      cases hlookup
      rw [eq_of_beq heq]
      exact hbit
    · exact h.values v b hlookup
  signals := h.signals

theorem Tracks.cacheSignal (h : Tracks m assignment s) (hm : Consistent m assignment) {value : Nat}
    {bit : ScalarBit} (hbit : Refines assignment s bit (some (assignment value)))
    {signal : Option SignalRef} (hsignal : ∀ reference, signal = some reference →
      signalBit m value = some reference) :
    Tracks m assignment { s with signals :=
      (signal.map fun reference => ((reference.signal, reference.lsb), bit)).toList ++ s.signals } where
  graph := h.graph
  values := h.values
  signals key b hlookup other r hread hkey := by
    cases signal with
    | none => exact h.signals key b hlookup other r hread hkey
    | some reference =>
      rw [Option.map_some, Option.toList_some, List.singleton_append, List.lookup_cons] at hlookup
      split at hlookup
      · next heq =>
        cases hlookup
        rw [hm other value r reference hread (hsignal reference rfl) (hkey.trans (eq_of_beq heq))]
        exact hbit
      · exact h.signals key b hlookup other r hread hkey

theorem input_emitted (h : Tracks m assignment s) (hm : Consistent m assignment) {value : Nat}
    {signal : Option SignalRef} (hsignal : ∀ reference, signal = some reference →
      signalBit m value = some reference) :
    Ensures s (input value signal) (Emitted m assignment s (some (assignment value))) OutOfCapacity := by
  rw [input]
  apply Ensures.get
  cases hvalue : s.values.lookup value with
  | some bit => exact emitted_pure h (h.values value bit hvalue)
  | none =>
    cases hlookup : signal.bind fun reference => s.signals.lookup (reference.signal, reference.lsb) with
    | some bit =>
      obtain ⟨reference, hreference, hbit⟩ := Option.bind_eq_some_iff.mp hlookup
      have hrefines := h.signals _ bit hbit value reference (hsignal reference hreference) rfl
      apply Ensures.set
      exact Ensures.pure ⟨h.cache hrefines, ⟨h.refl.graph, List.prefix_rfl⟩, hrefines⟩
    | none =>
      apply Ensures.bind (withGraph_ensures (variable_builds h.graph s.inputs.length))
      rintro l t ⟨graph, rfl, hgrows, hl⟩
      apply Ensures.modify
      have hst : Extends s { s with graph := graph, inputs := s.inputs ++ [value] } :=
        ⟨hgrows, List.prefix_append ..⟩
      have hrefines : Refines assignment { s with graph := graph, inputs := s.inputs ++ [value] }
          (.logic l) (some (assignment value)) := by
        refine fun g hg => ⟨hl.valid, fun b hb => ?_⟩
        rw [hl.value g, hg _ value List.getElem?_concat_length]
        exact Option.some.inj hb
      have htracks := (h.extends hst).cache hrefines
      exact Ensures.pure ⟨htracks.cacheSignal hm hrefines hsignal, ⟨hst.graph, hst.inputs⟩, hrefines⟩

theorem importWord_emitted (h : Tracks m assignment s) (hm : Consistent m assignment) (value : Nat) :
    Ensures s (importWord m value) (Emitted m assignment s (Pessimistic.leaf m assignment value))
      OutOfCapacity := by
  have hconstant (a : Bool) : Refines assignment s (.logic (LogicBuilder.constant a)) (some a) := by
    refine fun g _ => ⟨(denotes_constant h.graph a).valid, fun b hb => ?_⟩
    rw [(denotes_constant h.graph a).value]
    exact Option.some.inj hb
  unfold importWord Pessimistic.leaf
  cases constantBit m value with
  | none => exact input_emitted h hm fun _ hreference => hreference
  | some bit =>
    cases bit with
    | zero => exact emitted_pure h (hconstant false)
    | one => exact emitted_pure h (hconstant true)
    | x => exact emitted_pure h fun _ _ => rfl
    | z =>
      apply (input_emitted h hm fun _ hreference => by cases hreference).mono
      intro bit t ⟨ht, hst, hbit⟩
      exact ⟨ht, hst, fun g hg => (hbit g hg).weaken nofun⟩

/-! The gates. -/

section

variable {x y c : ScalarBit} {p q r : Option Bool}

/-- A bit that is a literal wherever it stands for something. -/
theorem Refines.literal {l : Lit} (h : Refines assignment s (.logic l) p) (g : Nat → Bool)
    (hg : Agrees assignment s g) (b : Bool) (hb : p = some b) : networkValue s.graph.freeze g l = b :=
  (h g hg).2 b hb

/-- Some assignment of the graph's inputs agrees. -/
theorem agrees_inputs : Agrees assignment s fun i => assignment ((s.inputs[i]?).getD 0) := by
  intro i value hi
  exact congrArg (fun stored => assignment (stored.getD 0)) hi

theorem Refines.valid {l : Lit} (h : Refines assignment s (.logic l) p) : Valid s.graph l :=
  (h _ agrees_inputs).1

theorem Refines.unknown {value : Nat} (h : Refines assignment s (.dontCare value) p) : p = none :=
  h _ agrees_inputs

theorem Refines.noWord {value : Nat} (h : Refines assignment s (.word value) p) : False :=
  h _ agrees_inputs

theorem Refines.weaken {bit : ScalarBit} (h : Refines assignment s bit p)
    (hq : ∀ b, q = some b → p = some b) : Refines assignment s bit q :=
  fun g hg => (h g hg).weaken hq

theorem unary_emitted (h : Tracks m assignment s) (op : UnaryOp) (hx : Refines assignment s x p) :
    Ensures s (emitUnary op x) (Emitted m assignment s (Pessimistic.unary op p)) OutOfCapacity := by
  cases x with
  | word value => exact hx.noWord.elim
  | dontCare value =>
    have hp := hx.unknown
    subst hp
    exact emitted_pure h fun g hg => by cases op <;> rfl
  | logic l =>
    have hnot : Refines assignment s (.logic l.inverted) (p.map (!·)) := by
      refine fun g hg => ⟨hx.valid.inverted, fun b hb => ?_⟩
      obtain ⟨d, hd, rfl⟩ := Option.map_eq_some_iff.mp hb
      rw [networkValue_inverted, hx.literal g hg d hd]
    cases op with
    | bitNot | logicalNot => exact emitted_pure h hnot
    | reductionAnd | reductionOr | reductionXor => exact emitted_pure h hx

theorem binary_emitted (h : Tracks m assignment s) {op : BinaryOp} (hop : BinaryOp.IsBoolean op)
    (hx : Refines assignment s x p) (hy : Refines assignment s y q) :
    Ensures s (emitBinary op x y) (Emitted m assignment s (Pessimistic.binary op p q)) OutOfCapacity := by
  cases x with
  | word value => exact hx.noWord.elim
  | dontCare value =>
    have hp := hx.unknown
    subst hp
    cases y with
    | word value => exact hy.noWord.elim
    | dontCare other =>
      have hq := hy.unknown
      subst hq
      exact emitted_pure h (hx.weaken fun b hb => Pessimistic.binary_unknown_left hb)
    | logic r => exact emitted_pure h (hy.weaken fun b hb => Pessimistic.binary_unknown_left hb)
  | logic l =>
    cases y with
    | word value => exact hy.noWord.elim
    | dontCare value =>
      have hq := hy.unknown
      subst hq
      exact emitted_pure h (hx.weaken fun b hb => Pessimistic.binary_unknown_right hb)
    | logic r =>
      have hchoice (g : Nat → Bool) (hg : Agrees assignment s g) (b : Bool)
          (hb : Pessimistic.binary op p q = some b) : Pessimistic.apply op
            (networkValue s.graph.freeze g l) (networkValue s.graph.freeze g r) = b :=
        Pessimistic.binary_choice (hx.literal g hg) (hy.literal g hg) hb
      cases op with
      | bitAnd | logicalAnd =>
        apply gate_emitted h (and_builds h.graph hx.valid.denotes hy.valid.denotes) false
        intro g hg b hb
        rw [Bool.xor_false]
        exact hchoice g hg b hb
      | bitOr | logicalOr =>
        apply gate_emitted h (or_builds h.graph hx.valid.denotes hy.valid.denotes) false
        intro g hg b hb
        rw [Bool.xor_false]
        exact hchoice g hg b hb
      | bitXor | ne =>
        apply gate_emitted h (xor_builds h.graph hx.valid.denotes hy.valid.denotes) false
        intro g hg b hb
        rw [Bool.xor_false]
        exact hchoice g hg b hb
      | eq =>
        apply gate_emitted h (xor_builds h.graph hx.valid.denotes hy.valid.denotes) true
        intro g hg b hb
        rw [Bool.xor_true]
        exact hchoice g hg b hb
      | _ => simp [BinaryOp.IsBoolean] at hop

theorem mux_emitted (h : Tracks m assignment s) (hc : Refines assignment s c r)
    (hx : Refines assignment s x p) (hy : Refines assignment s y q) :
    Ensures s (emitMux c x y) (Emitted m assignment s (Pessimistic.mux r p q)) OutOfCapacity := by
  cases c with
  | word value => exact hc.noWord.elim
  | dontCare value =>
    have hr := hc.unknown
    subst hr
    exact emitted_pure h (hy.weaken fun b hb => Pessimistic.mux_unknown_cond hb)
  | logic l =>
    cases x with
    | word value => exact hx.noWord.elim
    | dontCare value =>
      have hp := hx.unknown
      subst hp
      cases y with
      | word value => exact hy.noWord.elim
      | dontCare other =>
        have hq := hy.unknown
        subst hq
        exact emitted_pure h (hx.weaken fun b hb => Pessimistic.mux_unknown_then hb)
      | logic k => exact emitted_pure h (hy.weaken fun b hb => Pessimistic.mux_unknown_then hb)
    | logic j =>
      cases y with
      | word value => exact hy.noWord.elim
      | dontCare value =>
        have hq := hy.unknown
        subst hq
        exact emitted_pure h (hx.weaken fun b hb => Pessimistic.mux_unknown_else hb)
      | logic k =>
        apply gate_emitted h (mux_builds h.graph hc.valid.denotes hx.valid.denotes hy.valid.denotes) false
        intro g hg b hb
        rw [Bool.xor_false]
        exact Pessimistic.mux_choice (hc.literal g hg) (hx.literal g hg) (hy.literal g hg) hb

end

/-! Compositions. -/

theorem operand_emitted {done : List ScalarBit} {known : List (Option Bool)}
    (hdone : List.Forall₂ (Refines assignment s) done known) {index : Nat} (hindex : index < done.length) :
    Ensures s (operand done index) (fun bit t => t = s ∧ Refines assignment s bit known[index]?.join)
      OutOfCapacity := by
  have hknown : index < known.length := hdone.length_eq ▸ hindex
  rw [operand, List.getElem?_eq_getElem hindex, List.getElem?_eq_getElem hknown]
  exact Ensures.pure ⟨rfl, List.forall₂_iff_get.mp hdone |>.2 index hindex hknown⟩

theorem emit_emitted (h : Tracks m assignment s) (hm : Consistent m assignment) {done : List ScalarBit}
    {known : List (Option Bool)} (hdone : List.Forall₂ (Refines assignment s) done known) {e : Emission}
    (he : e.WellFormed done.length) :
    Ensures s (emit m done e) (Emitted m assignment s (Pessimistic.evaluate m assignment known e))
      OutOfCapacity := by
  cases e with
  | importWord value => exact importWord_emitted h hm value
  | unary op arg =>
    apply Ensures.bind (operand_emitted hdone he)
    rintro x t ⟨rfl, hx⟩
    exact unary_emitted h op hx
  | binary op left right =>
    apply Ensures.bind (operand_emitted hdone he.2.1)
    rintro x t ⟨rfl, hx⟩
    apply Ensures.bind (operand_emitted hdone he.2.2)
    rintro y t ⟨rfl, hy⟩
    exact binary_emitted h he.1 hx hy
  | mux cond thenValue elseValue =>
    apply Ensures.bind (operand_emitted hdone he.1)
    rintro c t ⟨rfl, hc⟩
    apply Ensures.bind (operand_emitted hdone he.2.1)
    rintro x t ⟨rfl, hx⟩
    apply Ensures.bind (operand_emitted hdone he.2.2)
    rintro y t ⟨rfl, hy⟩
    exact mux_emitted h hc hx hy

/-- Every emission takes its arguments from earlier ones. -/
def Composition : Nat → List Emission → Prop
  | _, [] => True
  | count, e :: rest => e.WellFormed count ∧ Composition (count + 1) rest

theorem emitAll_ensures {program : List Emission} {done : List ScalarBit} {known : List (Option Bool)}
    (h : Tracks m assignment s) (hm : Consistent m assignment)
    (hdone : List.Forall₂ (Refines assignment s) done known) (hprogram : Composition done.length program) :
    Ensures s (emitAll m program done) (fun bits t =>
      List.Forall₂ (Refines assignment t) bits (Pessimistic.evaluateAll m assignment program known))
      OutOfCapacity := by
  induction program generalizing s done known with
  | nil => exact Ensures.pure hdone
  | cons e rest ih =>
    apply Ensures.bind (emit_emitted h hm hdone hprogram.1)
    intro bit t ⟨ht, hst, hbit⟩
    have hearlier := hdone.imp fun x p hx => hx.mono h.graph hst
    apply ih ht (List.rel_append hearlier (.cons hbit .nil))
    rw [List.length_append, List.length_singleton]
    exact hprogram.2

/-- Only capacity stops a composition, and every bit that the pessimistic evaluation knows
is a literal of that value. -/
theorem unknowns_refined (hm : Consistent m assignment) {program : List Emission}
    (hprogram : Composition 0 program) :
    Ensures default (emitAll m program []) (fun bits t => ∀ (i : Nat) (b : Bool),
      (Pessimistic.evaluateAll m assignment program [])[i]? = some (some b) →
      ∃ l, bits[i]? = some (.logic l) ∧ ∀ g, Agrees assignment t g → networkValue t.graph.freeze g l = b)
      OutOfCapacity := by
  apply (emitAll_ensures tracks_default hm .nil hprogram).mono
  intro bits t hbits i b hb
  obtain ⟨bit, hbit, hrefines⟩ := exists_of_getElem?_right hbits hb
  cases bit with
  | word value => exact hrefines.noWord.elim
  | dontCare value => cases hrefines.unknown
  | logic l => exact ⟨l, hbit, fun g hg => hrefines.literal g hg b rfl⟩

def bit : WordType := ⟨1, false, .fourState, by decide⟩

/-- An undefined constant and a wire. -/
def unknownAndWire : WordModule :=
  { WordModule.empty with
    signals := [⟨none, .wire, bit, .singleDriver, none⟩]
    values := [⟨.constant [.x], bit⟩, ⟨.signal ⟨0, 0, 1⟩, bit⟩] }

/-- `(!w & x) ? x : w`, where `w` is one. -/
def choice : List Emission :=
  [.importWord 0, .importWord 1, .unary .bitNot 1, .binary .bitAnd 2 0, .mux 3 0 1]

theorem choice_refined : (Pessimistic.evaluateAll unknownAndWire (fun _ => true) choice [])[4]? =
      some (some true) ∧
    Ensures default (emitAll unknownAndWire choice []) (fun bits t => ∀ (i : Nat) (b : Bool),
      (Pessimistic.evaluateAll unknownAndWire (fun _ => true) choice [])[i]? = some (some b) →
      ∃ l, bits[i]? = some (.logic l) ∧
        ∀ g, Agrees (fun _ => true) t g → networkValue t.graph.freeze g l = b) OutOfCapacity := by
  refine ⟨rfl, unknowns_refined (fun _ _ _ _ _ _ _ => rfl) ?_⟩
  simp [choice, Composition, Emission.WellFormed, BinaryOp.IsBoolean]

end AxmBackend

end Opto.Bitblast
