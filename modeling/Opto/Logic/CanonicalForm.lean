import Opto.Logic.BuilderRuns

/-!
# The canonical form of a builder's table

Every state a builder can reach, through failed calls too, is in canonical form
exactly when no gate sits at node 2³¹ or above: `push` appends its node before
it checks that the node has a literal, and such a gate is never interned.
-/

namespace Opto.Logic

/-- States reached by calls with literals of the builder's own nodes. -/
inductive Reachable : LogicBuilder → Prop
  | new : Reachable .new
  | ok {b t : LogicBuilder} {c : Call} {l : Lit} : Reachable b →
      (∀ a ∈ c.args, Valid b a) → c.exec.run b = .ok l t → Reachable t
  | error {b t : LogicBuilder} {c : Call} {e : Halt LogicError} : Reachable b →
      (∀ a ∈ c.args, Valid b a) → c.exec.run b = .error e t → Reachable t

theorem Reachable.inv {b : LogicBuilder} (h : Reachable b) : Inv b := by
  induction h with
  | new => exact inv_new
  | ok _ hargs hrun ih => exact ((Call.outcome ih _ hargs).ok hrun).1.inv
  | error _ hargs hrun ih => exact ((Call.outcome ih _ hargs).error hrun).2.inv

structure CanonicalForm (b : LogicBuilder) : Prop where
  keys_unique : ∀ (i j : Nat) (n m : Node) (key : NodeKey), b.nodes[i]? = some n →
    b.nodes[j]? = some m → n.key? = some key → m.key? = some key → i = j
  and_gate : ∀ (i : Nat) (n : Node), b.nodes[i]? = some n → n.kind = .and →
    n.fanin0.node ≠ 0 ∧ n.fanin1.node ≠ 0 ∧ n.fanin0.code < n.fanin1.code ∧
      n.fanin0 ≠ n.fanin1 ∧ n.fanin0 ≠ n.fanin1.inverted
  xor_gate : ∀ (i : Nat) (n : Node), b.nodes[i]? = some n → n.kind = .xor →
    n.fanin0.isInverted = false ∧ n.fanin1.isInverted = false ∧
      n.fanin0.node ≠ 0 ∧ n.fanin1.node ≠ 0 ∧ n.fanin0.code < n.fanin1.code
  mux_gate : ∀ (i : Nat) (n : Node), b.nodes[i]? = some n → n.kind = .mux →
    MuxShape b.nodes n.fanin0 n.fanin1 n.fanin2
  index : ∀ key, b.interned.lookup key = (StructuralIndex.of b.freeze).nodes.lookup key

namespace StructuralIndex

theorem lookup_of_concat (nodes : List Node) (n : Node) (h : nodes.length < 2 ^ 32)
    (key : NodeKey) : (of ⟨nodes ++ [n]⟩).nodes.lookup key =
      if n.key? = some key then some nodes.length else (of ⟨nodes⟩).nodes.lookup key := by
  have hlen : (nodes ++ [n]).length ≤ 2 ^ 32 := by simp; omega
  simp only [of, List.take_of_length_le hlen, List.take_of_length_le h.le, List.zipIdx_append,
    List.zipIdx_singleton, List.foldl_append, List.foldl_cons, List.foldl_nil, Nat.zero_add]
  cases hk : n.key? with
  | none => simp [insert, hk]
  | some k => simp [insert, hk, lookup_cons, eq_comm]

/-- The index names the last gate under each key. -/
theorem lookup_of {nodes : List Node} (h : nodes.length ≤ 2 ^ 32) (key : NodeKey) :
    (∀ i, (of ⟨nodes⟩).nodes.lookup key = some i →
      ∃ n : Node, nodes[i]? = some n ∧ n.key? = some key) ∧
    (∀ (i : Nat) (n : Node), nodes[i]? = some n → n.key? = some key →
      ∃ j, i ≤ j ∧ (of ⟨nodes⟩).nodes.lookup key = some j) := by
  induction nodes using List.reverseRecOn with
  | nil => exact ⟨by simp [of], by simp⟩
  | append_singleton nodes n ih =>
    have hlt : nodes.length < 2 ^ 32 := by rw [List.length_append, List.length_singleton] at h; omega
    obtain ⟨ih₁, ih₂⟩ := ih hlt.le
    rw [lookup_of_concat nodes n hlt]
    constructor
    · intro i hi
      split_ifs at hi with hk
      · cases hi
        exact ⟨n, by simp, hk⟩
      · obtain ⟨m, hm, hmk⟩ := ih₁ i hi
        exact ⟨m, by rw [List.getElem?_append_left (List.getElem?_eq_some_iff.mp hm).1, hm], hmk⟩
    · intro i m hm hmk
      have hi : i < nodes.length + 1 := by simpa using (List.getElem?_eq_some_iff.mp hm).1
      split_ifs with hk
      · exact ⟨nodes.length, by omega, rfl⟩
      · rcases Nat.lt_or_eq_of_le (Nat.le_of_lt_succ hi) with hlt' | rfl
        · exact ih₂ i m (by rwa [List.getElem?_append_left hlt'] at hm) hmk
        · exact absurd (by simp at hm; rwa [hm]) hk

end StructuralIndex

theorem Node.isGate_of_key {n : Node} {key : NodeKey} (h : n.key? = some key) :
    n.kind.IsGate := (Node.key?_isSome_iff n).mp (by simp [h])

/-- What the builder guarantees of its form in every reachable state. -/
theorem canonicalForm_iff {b : LogicBuilder} (h : Reachable b) :
    CanonicalForm b ↔
      ∀ (i : Nat) (n : Node), b.nodes[i]? = some n → n.kind.IsGate → i < 2 ^ 31 := by
  have hb := h.inv
  constructor
  · intro hc i n hn hgate
    obtain ⟨key, hkey⟩ := Option.isSome_iff_exists.mp ((Node.key?_isSome_iff n).mpr hgate)
    obtain ⟨j, hij, hj⟩ := (StructuralIndex.lookup_of hb.size key).2 i n hn hkey
    -- the builder's table never names a node without a literal
    exact lt_of_le_of_lt hij ((hb.interned key j).mp ((hc.index key).trans hj)).1
  · intro hlow
    have shape := hb.canonical
    refine ⟨fun i j n m key hn hm hnk hmk => ?_, fun i n hn hk => ?_, fun i n hn hk => ?_,
      fun i n hn hk => ?_, fun key => ?_⟩
    · have hi := (hb.interned key i).mpr ⟨hlow i n hn (Node.isGate_of_key hnk), n, hn, hnk⟩
      have hj := (hb.interned key j).mpr ⟨hlow j m hm (Node.isGate_of_key hmk), m, hm, hmk⟩
      exact Option.some.inj (hi.symm.trans hj)
    · obtain ⟨h₀, h₁, hlt, hne⟩ : _ ∧ _ ∧ _ ∧ _ := by
        simpa only [Node.Canonical, hk] using shape i n hn
      exact ⟨h₀, h₁, hlt, fun he => absurd hlt (by rw [he]; exact lt_irrefl _), hne⟩
    · simpa only [Node.Canonical, hk] using shape i n hn
    · have hc := shape i n hn
      simp only [Node.Canonical, hk] at hc
      exact hc.1
    · obtain ⟨h₁, h₂⟩ := StructuralIndex.lookup_of hb.size key
      cases hx : (StructuralIndex.of b.freeze).nodes.lookup key with
      | some j =>
        obtain ⟨n, hn, hk⟩ := h₁ j hx
        exact (hb.interned key j).mpr ⟨hlow j n hn (Node.isGate_of_key hk), n, hn, hk⟩
      | none =>
        refine Option.eq_none_iff_forall_ne_some.mpr fun i hi => ?_
        obtain ⟨-, n, hn, hk⟩ := (hb.interned key i).mp hi
        obtain ⟨j, -, hj⟩ := h₂ i n hn hk
        simp [LogicBuilder.freeze, hj] at hx

/-! A table filled with inputs up to the last node that has a literal. -/

def Node.leaf : Node := ⟨.input, .FALSE, .FALSE, .FALSE, 0, 0⟩

def leaves (count : Nat) : LogicBuilder :=
  ⟨⟨.constant, .FALSE, .FALSE, .FALSE, 0, 0⟩ :: List.replicate count .leaf, []⟩

theorem length_leaves (count : Nat) : (leaves count).nodes.length = count + 1 := by
  simp [leaves]

theorem leaves_getElem? {count i : Nat} (h₀ : 0 < i) (h : i ≤ count) :
    (leaves count).nodes[i]? = some .leaf := by
  obtain ⟨i, rfl⟩ := Nat.exists_eq_succ_of_ne_zero h₀.ne'
  simp only [leaves, Nat.succ_eq_add_one, List.getElem?_cons_succ, List.getElem?_replicate]
  rw [if_pos (by omega)]

theorem input_leaves {count : Nat} (h : count + 1 < 2 ^ 31) :
    (LogicBuilder.input 0).run (leaves count) = .ok ⟨count + 1, false⟩ (leaves (count + 1)) := by
  have hid : NodeId.fromIndex (count + 1) = .ok (count + 1) := if_pos (by omega)
  have hlit : Lit.fromNode (count + 1) = .ok ⟨count + 1, false⟩ := if_pos (by omega)
  have hlevel : (leaves count).nextLevel .input .FALSE .FALSE .FALSE = .ok 0 := rfl
  simp only [LogicBuilder.input, LogicBuilder.push, EStateM.run, bind, EStateM.bind, get, getThe,
    MonadStateOf.get, stateGet_eq, check, length_leaves, hid, hlevel, hlit, pure, EStateM.pure, set,
    MonadStateOf.set, stateSet_eq]
  simp [leaves, Node.leaf, List.replicate_succ']

theorem reachable_leaves {count : Nat} (h : count < 2 ^ 31) : Reachable (leaves count) := by
  induction count with
  | zero => exact .new
  | succ count ih =>
    exact .ok (c := .input 0) (ih (by omega)) (by simp [Call.args]) (input_leaves (by omega))

def Node.product : Node := ⟨.and, ⟨1, false⟩, ⟨2, false⟩, .FALSE, 1, 0⟩

/-- A conjunction that runs out of literals leaves its gate behind, not interned. -/
theorem and_overflow {b : LogicBuilder} (h₁ : b.nodes[1]? = some .leaf)
    (h₂ : b.nodes[2]? = some .leaf) (hlow : 2 ^ 31 ≤ b.nodes.length)
    (hhigh : b.nodes.length < 2 ^ 32) (hi : b.interned = []) :
    (LogicBuilder.and ⟨1, false⟩ ⟨2, false⟩ 0).run b =
      .error (.error (.capacity "literal")) ⟨b.nodes ++ [.product], []⟩ := by
  have hid : NodeId.fromIndex b.nodes.length = .ok b.nodes.length := if_pos hhigh
  have hlit : Lit.fromNode b.nodes.length = .error (.capacity "literal") := if_neg (by omega)
  have hlevel : b.nextLevel .and ⟨1, false⟩ ⟨2, false⟩ .FALSE = .ok 1 := by
    simp [LogicBuilder.nextLevel, LogicBuilder.level, NodeKind.arity, h₁, h₂, Node.leaf]
  have hident : andIdentity b ⟨1, false⟩ ⟨2, false⟩ = none := by
    simp [andIdentity, hasFanin, binaryFanins, Canonical.kind, LogicBuilder.kind, h₁, h₂, Node.leaf,
      Lit.FALSE, Lit.TRUE, Lit.inverted]
  have hord : ordered ⟨1, false⟩ ⟨2, false⟩ = (⟨1, false⟩, ⟨2, false⟩) := rfl
  simp only [LogicBuilder.and, canonicalAnd, EStateM.run, bind, EStateM.bind, get, getThe,
    MonadStateOf.get, stateGet_eq, hident, hord, Canonical.resolve, LogicBuilder.intern, hi,
    List.lookup_nil, LogicBuilder.push, check, hid, hlevel, hlit, pure, EStateM.pure, set,
    MonadStateOf.set, stateSet_eq]
  rfl

/-- What two such calls leave: one key, stored twice. -/
def overflown (count : Nat) : LogicBuilder :=
  ⟨(leaves count).nodes ++ [.product] ++ [.product], []⟩

theorem reachable_overflown {count : Nat} (h : count + 1 = 2 ^ 31) :
    Reachable (overflown count) := by
  have len := length_leaves count
  have valid {b : LogicBuilder} (hb : (leaves count).nodes <+: b.nodes) :
      ∀ a ∈ (Call.and ⟨1, false⟩ ⟨2, false⟩ 0).args, Valid b a := by
    have := hb.length_le
    simp only [Call.args, List.mem_cons, List.not_mem_nil, or_false]
    rintro a (rfl | rfl) <;> exact ⟨by simp only; omega, by simp⟩
  have leaf (i : Nat) (h₀ : 0 < i) (hi : i ≤ 2) (tail : List Node) :
      ((leaves count).nodes ++ tail)[i]? = some .leaf := by
    rw [List.getElem?_append_left (by omega)]
    exact leaves_getElem? h₀ (by omega)
  have first : Reachable ⟨(leaves count).nodes ++ [.product], []⟩ :=
    .error (reachable_leaves (by omega)) (valid (List.prefix_refl _))
      (and_overflow (leaves_getElem? (by omega) (by omega)) (leaves_getElem? (by omega) (by omega))
        (by omega) (by omega) rfl)
  have len' : ((leaves count).nodes ++ [Node.product]).length = 2 ^ 31 + 1 := by
    simp [len, h]
  exact .error first (valid (List.prefix_append _ _)) (and_overflow
    (leaf 1 (by omega) (by omega) _) (leaf 2 (by omega) (by omega) _)
    (by simp only [len']; omega) (by simp only [len']; omega) rfl)

theorem not_canonicalForm_overflown (count : Nat) : ¬CanonicalForm (overflown count) := by
  intro hc
  have len := length_leaves count
  have first : (overflown count).nodes[count + 1]? = some .product := by simp [overflown, len]
  have second : (overflown count).nodes[count + 2]? = some .product := by simp [overflown, len]
  have := hc.keys_unique _ _ _ _ _ first second rfl rfl
  omega

theorem canonicalForm_counterexample :
    Reachable (overflown (2 ^ 31 - 1)) ∧ ¬CanonicalForm (overflown (2 ^ 31 - 1)) :=
  ⟨reachable_overflown (by omega), not_canonicalForm_overflown _⟩

/-- One gate over two inputs, as the builder leaves it. -/
def oneProduct : LogicBuilder :=
  ⟨(leaves 2).nodes ++ [.product], [(.and ⟨1, false⟩ ⟨2, false⟩, 3)]⟩

theorem reachable_oneProduct : Reachable oneProduct :=
  have h : Reachable (leaves 2) := reachable_leaves (by omega)
  .ok (c := .and ⟨1, false⟩ ⟨2, false⟩ 0) (l := ⟨3, false⟩) h (by simp [Call.args, Valid, leaves]) rfl

theorem canonicalForm_oneProduct : CanonicalForm oneProduct :=
  (canonicalForm_iff reachable_oneProduct).mpr fun i n hn _ => by
    have : i < 4 := (List.getElem?_eq_some_iff.mp hn).1
    omega

/-- `(a & b) & c`. -/
def tripleProduct : LogicBuilder :=
  ⟨(leaves 3).nodes ++ [⟨.and, ⟨1, false⟩, ⟨2, false⟩, .FALSE, 1, 0⟩, ⟨.and, ⟨3, false⟩, ⟨4, false⟩, .FALSE, 2, 0⟩],
    [(.and ⟨3, false⟩ ⟨4, false⟩, 5), (.and ⟨1, false⟩ ⟨2, false⟩, 4)]⟩

theorem reachable_tripleProduct : Reachable tripleProduct := by
  have hinner : Reachable ⟨(leaves 3).nodes ++ [⟨.and, ⟨1, false⟩, ⟨2, false⟩, .FALSE, 1, 0⟩],
      [(.and ⟨1, false⟩ ⟨2, false⟩, 4)]⟩ :=
    .ok (c := .and ⟨1, false⟩ ⟨2, false⟩ 0) (l := ⟨4, false⟩) (reachable_leaves (show 3 < 2 ^ 31 by decide))
      (by simp [Call.args, Valid, leaves]) rfl
  exact .ok (c := .and ⟨3, false⟩ ⟨4, false⟩ 0) (l := ⟨5, false⟩) hinner (by simp [Call.args, Valid, leaves]) rfl

end Opto.Logic
