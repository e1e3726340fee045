import Opto.Formal.Cone
import Opto.Formal.EncodingExact

/-!
# Encoding a whole network

Node after node, the table of encoded nodes reads the values of the network; in
an ordered network with known outputs no step of the encoding fails.
-/

namespace Opto.Formal

open Logic Cnf

variable {E : Type} {net : LogicNetwork} {m m' : LogicMiter}
  {val val' : (Nat → Bool) → Assignment}

/-- The literals recorded so far read their nodes; the `done` nodes have one. -/
structure Table (m : LogicMiter) (val : (Nat → Bool) → Assignment) (net : LogicNetwork)
    (encoded : List (Option Literal)) (done : Nat → Prop) : Prop where
  length : encoded.length = net.nodeCount
  means : ∀ i v, encoded[i]? = some (some v) → Means m val v fun g => networkValue net g ⟨i, false⟩
  covers : ∀ i, done i → ∃ v, encoded[i]? = some (some v)

theorem networkValue_phase (g : Nat → Bool) (l : Lit) :
    networkValue net g l = (networkValue net g ⟨l.node, false⟩ ^^ l.isInverted) := by
  have h : networkValue net g l.positive = (networkValue net g l ^^ l.isInverted) := eval_positive l
  rw [Lit.positive] at h
  rw [h, Bool.xor_assoc, Bool.xor_self, Bool.xor_false]

theorem Means.phased {v : Literal} {l : Lit}
    (h : Means m val v fun g => networkValue net g ⟨l.node, false⟩) :
    Means m val (if l.isInverted then v.not else v) fun g => networkValue net g l := by
  by_cases hi : l.isInverted
  · rw [if_pos hi]
    exact h.not.congr fun g => by rw [networkValue_phase g l, hi, Bool.xor_true]
  · rw [if_neg hi]
    have hf : l.isInverted = false := by simpa using hi
    exact h.congr fun g => by rw [networkValue_phase g l, hf, Bool.xor_false]

theorem Table.grown {encoded : List (Option Literal)} {done : Nat → Prop}
    (h : Table m val net encoded done) (hg : Grown m val m' val') :
    Table m' val' net encoded done :=
  ⟨h.length, fun i v hv => (h.means i v hv).grown hg, h.covers⟩

theorem Table.set {encoded : List (Option Literal)} {done : Nat → Prop}
    (h : Table m val net encoded done) {node : Nat} (hnode : node < net.nodeCount) {v : Literal}
    (hv : Means m val v fun g => networkValue net g ⟨node, false⟩) :
    Table m val net (encoded.set node (some v)) fun i => i = node ∨ done i where
  length := by rw [List.length_set, h.length]
  means i w hw := by
    rw [List.getElem?_set] at hw
    by_cases hi : node = i
    · rw [if_pos hi] at hw
      split_ifs at hw
      cases hw
      exact hi ▸ hv
    · rw [if_neg hi] at hw
      exact h.means i w hw
  covers i hi := by
    rw [List.getElem?_set]
    by_cases hni : node = i
    · exact ⟨v, by rw [if_pos hni, if_pos (by rw [h.length]; exact hnode)]⟩
    · rw [if_neg hni]
      rcases hi with hi | hi
      · exact absurd hi.symm hni
      · exact h.covers i hi

theorem Yields.fromExcept {σ α β : Type} {s : σ} {r : Except (FormalError E) α}
    {k : α → EncodeM E σ β} {Q : β → σ → Prop} {a : α} (hr : r = .ok a) (h : Yields s (k a) Q) :
    Yields s (fromExcept r >>= k) Q := by
  subst hr
  exact h

theorem encodedLiteral_ok {encoded : List (Option Literal)} {done : Nat → Prop}
    (h : Table m val net encoded done) {node fanin : Nat} {f : Lit}
    (hf : net.fanin node fanin = some f) (hdone : done f.node) :
    ∃ l, (encodedLiteral net encoded node fanin : Except (FormalError E) Literal) = .ok l ∧
      Means m val l fun g => networkValue net g f := by
  obtain ⟨v, hv⟩ := h.covers f.node hdone
  refine ⟨if f.isInverted then v.not else v, ?_, (h.means f.node v hv).phased⟩
  simp only [encodedLiteral, hf, hv, Option.join_some]

theorem encodedOutput_ok {encoded : List (Option Literal)} {done : Nat → Prop}
    (h : Table m val net encoded done) {l : Lit} (hdone : done l.node) :
    ∃ v, (encodedOutput encoded l : Except (FormalError E) Literal) = .ok v ∧
      Means m val v fun g => networkValue net g l := by
  obtain ⟨v, hv⟩ := h.covers l.node hdone
  refine ⟨if l.isInverted then v.not else v, ?_, (h.means l.node v hv).phased⟩
  simp only [encodedOutput, hv, Option.join_some]

/-- One node: its new literal computes what the node denotes. -/
theorem encodeNode_yields (hnet : Ordered net) (hm : Encodes m val)
    {encoded : List (Option Literal)} {done : Nat → Prop} (ht : Table m val net encoded done)
    {node : Nat} {n : Node} (hn : net.nodes[node]? = some n) (hdone : ∀ f ∈ n.fanins, done f.node) :
    Yields m (encodeNode net encoded node : EncodeM E LogicMiter Literal) fun l m' =>
      ∃ val', Grown m val m' val' ∧ Means m' val' l fun g => networkValue net g ⟨node, false⟩ := by
  have value (g : Nat → Bool) : networkValue net g ⟨node, false⟩ =
      n.denote (leafOf net g node) (networkValue net g) :=
    eval_node hnet.topological (l := ⟨node, false⟩) hn rfl
  have hkind : net.kind node = some n.kind := by rw [LogicNetwork.kind, hn]; rfl
  have h0 : net.fanin node 0 = some n.fanin0 := by rw [LogicNetwork.fanin, hn]; rfl
  have h1 : net.fanin node 1 = some n.fanin1 := by rw [LogicNetwork.fanin, hn]; rfl
  have h2 : net.fanin node 2 = some n.fanin2 := by rw [LogicNetwork.fanin, hn]; rfl
  rw [encodeNode, hkind]
  cases hk : n.kind with
  | constant =>
    refine (LogicMiter.constantFalse_yields hm).mono fun l t h => ?_
    obtain ⟨rfl, hl⟩ := h
    exact ⟨val, .refl hm, hl.congr fun g => by rw [value g, Node.denote, hk]⟩
  | input =>
    have horigin : net.origin node = some n.origin := by rw [LogicNetwork.origin, hn]; rfl
    simp only [horigin]
    refine (LogicMiter.input_yields hm n.origin).mono fun l t h => ?_
    obtain ⟨val', hg, hl⟩ := h
    refine ⟨val', hg, hl.congr fun g => ?_⟩
    rw [value g, Node.denote, hk, leafOf, horigin, Option.getD_some]
  | and =>
    obtain ⟨l, hl, hlm⟩ := encodedLiteral_ok (E := E) ht h0
      (hdone _ (by simp [Node.fanins, hk, NodeKind.arity]))
    obtain ⟨r, hr, hrm⟩ := encodedLiteral_ok (E := E) ht h1
      (hdone _ (by simp [Node.fanins, hk, NodeKind.arity]))
    refine Yields.fromExcept hl ?_
    refine Yields.fromExcept hr ?_
    refine (LogicMiter.and_yields hm hlm hrm).mono fun o t h => ?_
    obtain ⟨val', hg, ho⟩ := h
    exact ⟨val', hg, ho.congr fun g => by rw [value g, Node.denote, hk]⟩
  | xor =>
    obtain ⟨l, hl, hlm⟩ := encodedLiteral_ok (E := E) ht h0
      (hdone _ (by simp [Node.fanins, hk, NodeKind.arity]))
    obtain ⟨r, hr, hrm⟩ := encodedLiteral_ok (E := E) ht h1
      (hdone _ (by simp [Node.fanins, hk, NodeKind.arity]))
    refine Yields.fromExcept hl ?_
    refine Yields.fromExcept hr ?_
    refine (LogicMiter.xor_yields hm hlm hrm).mono fun o t h => ?_
    obtain ⟨val', hg, ho⟩ := h
    exact ⟨val', hg, ho.congr fun g => by rw [value g, Node.denote, hk]⟩
  | mux =>
    obtain ⟨s, hs, hsm⟩ := encodedLiteral_ok (E := E) ht h0
      (hdone _ (by simp [Node.fanins, hk, NodeKind.arity]))
    obtain ⟨l, hl, hlm⟩ := encodedLiteral_ok (E := E) ht h1
      (hdone _ (by simp [Node.fanins, hk, NodeKind.arity]))
    obtain ⟨r, hr, hrm⟩ := encodedLiteral_ok (E := E) ht h2
      (hdone _ (by simp [Node.fanins, hk, NodeKind.arity]))
    refine Yields.fromExcept hs ?_
    refine Yields.fromExcept hl ?_
    refine Yields.fromExcept hr ?_
    refine (LogicMiter.mux_yields hm hsm hlm hrm).mono fun o t h => ?_
    obtain ⟨val', hg, ho⟩ := h
    exact ⟨val', hg, ho.congr fun g => by rw [value g, Node.denote, hk]⟩

theorem encodeNodes_yields (hnet : Ordered net) (nodes : List Nat) (hm : Encodes m val)
    {encoded : List (Option Literal)} {done : Nat → Prop} (ht : Table m val net encoded done)
    (hnodes : Backward net done nodes) :
    Yields m (encodeNodes net encoded nodes : EncodeM E LogicMiter (List (Option Literal)))
      fun encoded' m' => ∃ val', Grown m val m' val' ∧
        Table m' val' net encoded' fun i => i ∈ nodes ∨ done i := by
  induction nodes generalizing m val encoded done with
  | nil => exact Yields.pure ⟨val, .refl hm, ht.length, ht.means, fun i hi => by
      rcases hi with hi | hi
      · cases hi
      · exact ht.covers i hi⟩
  | cons node rest ih =>
    obtain ⟨hnode, hfanins, hrest⟩ := hnodes
    obtain ⟨n, hn⟩ : ∃ n, net.nodes[node]? = some n := ⟨_, List.getElem?_eq_getElem hnode⟩
    refine Yields.bind (encodeNode_yields hnet hm ht hn (hfanins n hn)) ?_
    intro v t ⟨val', hg, hv⟩
    refine (ih hg.encodes ((ht.grown hg).set hnode hv) hrest).mono ?_
    intro encoded' u ⟨val'', hg', ht'⟩
    refine ⟨val'', hg.trans hg', ht'.length, ht'.means, fun i hi => ht'.covers i ?_⟩
    rcases hi with hi | hi
    · rcases List.mem_cons.mp hi with hi | hi
      · exact .inr (.inl hi)
      · exact .inl hi
    · exact .inr (.inr hi)

theorem mapM_encodedOutput {encoded : List (Option Literal)} {done : Nat → Prop}
    (h : Table m val net encoded done) (outputs : List Lit) (hdone : ∀ l ∈ outputs, done l.node) :
    ∃ vs, (outputs.mapM (encodedOutput encoded) : Except (FormalError E) (List Literal)) = .ok vs ∧
      List.Forall₂ (fun v l => Means m val v fun g => networkValue net g l) vs outputs := by
  induction outputs with
  | nil => exact ⟨[], rfl, .nil⟩
  | cons l outputs ih =>
    obtain ⟨v, hv, hm⟩ := encodedOutput_ok (E := E) h (hdone l (by simp))
    obtain ⟨vs, hvs, hms⟩ := ih fun l hl => hdone l (by simp [hl])
    refine ⟨v :: vs, ?_, .cons hm hms⟩
    simp only [List.mapM_cons, hv, hvs, bind, Except.bind, pure, Except.pure]

/-- Encoding the known outputs of an ordered network succeeds and stays exact. -/
theorem encodeNetwork_yields (hnet : Ordered net) (hm : Encodes m val) (outputs : List Lit)
    (houtputs : ∀ l ∈ outputs, l.node < net.nodeCount) :
    Yields m (LogicMiter.encodeNetwork net outputs : EncodeM E LogicMiter (List Literal))
      fun vs m' => ∃ val', Grown m val m' val' ∧
        List.Forall₂ (fun v l => Means m' val' v fun g => networkValue net g l) vs outputs := by
  have hpending : ∀ i ∈ ((outputs.map (·.node)).filter (· ≠ 0)).reverse, i < net.nodeCount := by
    intro i hi
    obtain ⟨⟨l, hl, rfl⟩, -⟩ : (∃ l ∈ outputs, l.node = i) ∧ i ≠ 0 := by simpa using hi
    exact houtputs l hl
  obtain ⟨cone, hcone, hclosed, hsub⟩ := collect_cone (E := E) hnet _ hpending
  obtain ⟨n₀, hn₀, hk₀⟩ := hnet.constant
  have hcount : 0 < net.nodeCount := (List.getElem?_eq_some_iff.mp hn₀).1
  have hperm := List.mergeSort_perm cone fun a b => decide (levelKey net a ≤ levelKey net b)
  suffices h : Yields m (encodeLogicNetwork net outputs : EncodeM E LogicMiter _) fun r m' =>
      ∃ val', Grown m val m' val' ∧
        List.Forall₂ (fun v l => Means m' val' v fun g => networkValue net g l) r.1 outputs by
    refine Yields.bind h fun r t ⟨val', hg, hr⟩ => ?_
    refine Yields.bind (Yields.modify (Q := fun _ u =>
      u = { t with encodedNodes := t.encodedNodes + r.2 }) rfl) fun _ u hu => ?_
    subst hu
    exact Yields.pure ⟨val', ⟨{ hg.encodes with }, hg.count, hg.values, hg.inputs⟩, hr⟩
  refine Yields.bind (LogicMiter.constantFalse_yields hm) fun c t ⟨htm, hc⟩ => ?_
  subst htm
  have hempty : Table t val net (List.replicate net.nodeCount none) fun _ => False :=
    ⟨List.length_replicate, fun i v hv => by simp [List.getElem?_replicate] at hv, fun _ h => h.elim⟩
  have hstart : Table t val net ((List.replicate net.nodeCount none).set 0 (some c)) (· = 0) := by
    have hset := hempty.set hcount (v := c) (hc.congr fun g => (eval_FALSE hn₀ hk₀ hnet.topological).symm)
    exact ⟨hset.length, hset.means, fun i hi => hset.covers i (.inl hi)⟩
  refine Yields.fromExcept hcone ?_
  refine Yields.bind (encodeNodes_yields hnet _ hm hstart (hclosed.backward hnet)) ?_
  intro encoded u ⟨val', hg, ht⟩
  obtain ⟨vs, hvs, hmeans⟩ := mapM_encodedOutput (E := E) ht outputs fun l hl => by
    by_cases h0 : l.node = 0
    · exact .inr h0
    · refine .inl (hperm.mem_iff.mpr (hsub ?_))
      simpa [h0] using ⟨l, hl, rfl⟩
  refine Yields.fromExcept hvs ?_
  exact Yields.pure ⟨val', hg, hmeans⟩

end Opto.Formal
