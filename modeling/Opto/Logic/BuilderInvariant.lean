import Opto.Library.Lists
import Opto.Logic.Canonical

/-!
# The builder's invariant

`Inv` is what every call keeps, failed calls included: fanins point backwards,
every gate has its canonical shape, and the table of keys lists exactly the
gates whose literal exists.
-/

namespace Opto.Logic

/-- A multiplexer no rule would reduce any further. -/
structure MuxShape (nodes : List Node) (select thenValue elseValue : Lit) : Prop where
  select_positive : select.isInverted = false
  select_node : select.node ≠ 0
  not_both_inverted : ¬(thenValue.isInverted = true ∧ elseValue.isInverted = true)
  then_node : thenValue.node ≠ 0
  else_node : elseValue.node ≠ 0
  arms_differ : thenValue.node ≠ elseValue.node
  then_ne_select : thenValue.node ≠ select.node
  else_ne_select : elseValue.node ≠ select.node
  then_not_nested : ∀ m : Node, nodes[thenValue.node]? = some m →
    thenValue.isInverted = false → m.kind = .mux → m.fanin0 ≠ select
  else_not_nested : ∀ m : Node, nodes[elseValue.node]? = some m →
    elseValue.isInverted = false → m.kind = .mux → m.fanin0 ≠ select

def MuxAt (nodes : List Node) (l : Lit) (m : Node) : Prop :=
  nodes[l.node]? = some m ∧ l.isInverted = false ∧ m.kind = .mux

/-- Arms that no rule combines with, or factors out of, the multiplexers they are. -/
structure Unfactored (nodes : List Node) (thenValue elseValue : Lit) : Prop where
  then_arm : ∀ m : Node, MuxAt nodes thenValue m → elseValue ≠ m.fanin1 ∧ elseValue ≠ m.fanin2
  else_arm : ∀ m : Node, MuxAt nodes elseValue m → thenValue ≠ m.fanin1 ∧ thenValue ≠ m.fanin2
  both : ∀ m k : Node, MuxAt nodes thenValue m → MuxAt nodes elseValue k → m.fanin0 = k.fanin0 →
    m.fanin1 ≠ k.fanin1 ∧ m.fanin2 ≠ k.fanin2

theorem Unfactored.symm {nodes : List Node} {t e : Lit} (h : Unfactored nodes t e) :
    Unfactored nodes e t where
  then_arm := h.else_arm
  else_arm := h.then_arm
  both m k hm hk hs := (h.both k m hk hm hs.symm).imp Ne.symm Ne.symm

theorem MuxShape.symm {nodes : List Node} {s t e : Lit} (h : MuxShape nodes s t e) :
    MuxShape nodes s e t where
  select_positive := h.select_positive
  select_node := h.select_node
  not_both_inverted := fun hi => h.not_both_inverted hi.symm
  then_node := h.else_node
  else_node := h.then_node
  arms_differ := h.arms_differ.symm
  then_ne_select := h.else_ne_select
  else_ne_select := h.then_ne_select
  then_not_nested := h.else_not_nested
  else_not_nested := h.then_not_nested

def Node.Canonical (nodes : List Node) (n : Node) : Prop :=
  match n.kind with
  | .constant | .input => True
  | .and => n.fanin0.node ≠ 0 ∧ n.fanin1.node ≠ 0 ∧ n.fanin0.code < n.fanin1.code ∧
      n.fanin0 ≠ n.fanin1.inverted
  | .xor => n.fanin0.isInverted = false ∧ n.fanin1.isInverted = false ∧
      n.fanin0.node ≠ 0 ∧ n.fanin1.node ≠ 0 ∧ n.fanin0.code < n.fanin1.code
  | .mux => MuxShape nodes n.fanin0 n.fanin1 n.fanin2 ∧ Unfactored nodes n.fanin1 n.fanin2

def levelOf (nodes : List Node) (node : Nat) : Nat := (nodes[node]?.map (·.level)).getD 0

/-- Leaves sit at level zero, a gate one above its highest fanin. -/
def Node.Leveled (nodes : List Node) (n : Node) : Prop :=
  n.level = if n.kind.IsGate then 1 + (n.fanins.map fun f => levelOf nodes f.node).max?.getD 0
    else 0

structure Inv (b : LogicBuilder) : Prop where
  constant : b.nodes[0]? = some ⟨.constant, .FALSE, .FALSE, .FALSE, 0, 0⟩
  constant_first : ∀ (i : Nat) (n : Node), b.nodes[i]? = some n → n.kind = .constant → i = 0
  topological : Topological b.nodes
  canonical : ∀ (i : Nat) (n : Node), b.nodes[i]? = some n → n.Canonical b.nodes
  leveled : ∀ (i : Nat) (n : Node), b.nodes[i]? = some n → n.Leveled b.nodes
  interned : ∀ (key : NodeKey) (i : Nat), b.interned.lookup key = some i ↔
    i < 2 ^ 31 ∧ ∃ n : Node, b.nodes[i]? = some n ∧ n.key? = some key
  unique : ∀ (i j : Nat) (n m : Node) (key : NodeKey), b.nodes[i]? = some n →
    b.nodes[j]? = some m → n.key? = some key → m.key? = some key → i < 2 ^ 31 → i = j
  size : b.nodes.length ≤ 2 ^ 32

/-- A literal the builder can have handed out: its node exists and has a literal. -/
def Valid (b : LogicBuilder) (l : Lit) : Prop := l.node < b.nodes.length ∧ l.node < 2 ^ 31

/-- What a call leaves behind: an invariant state over the same node prefix. -/
structure Grows (b t : LogicBuilder) : Prop where
  inv : Inv t
  nodes : b.nodes <+: t.nodes

theorem Grows.refl {b : LogicBuilder} (h : Inv b) : Grows b b := ⟨h, List.prefix_rfl⟩

theorem Grows.trans {a b c : LogicBuilder} (h₁ : Grows a b) (h₂ : Grows b c) : Grows a c :=
  ⟨h₂.inv, h₁.nodes.trans h₂.nodes⟩

theorem Grows.valid {b t : LogicBuilder} (h : Grows b t) {l : Lit} (hl : Valid b l) :
    Valid t l := ⟨Nat.lt_of_lt_of_le hl.1 h.nodes.length_le, hl.2⟩

theorem Grows.eval {b t : LogicBuilder} (h : Grows b t) {l : Lit} (hl : Valid b l)
    (leaf : Nat → Bool) : eval leaf t.nodes l = eval leaf b.nodes l :=
  eval_extends h.nodes hl.1

theorem Grows.weight {b t : LogicBuilder} (h : Grows b t) {l : Lit} (hl : Valid b l) :
    weight t.nodes l = weight b.nodes l := weight_extends h.nodes hl.1

theorem getElem?_extends {xs ys : List Node} (h : xs <+: ys) {i : Nat} (hi : i < xs.length) :
    ys[i]? = xs[i]? := by
  obtain ⟨zs, rfl⟩ := h
  exact List.getElem?_append_left hi

namespace Valid

variable {b : LogicBuilder} {l : Lit}

theorem inverted (h : Valid b l) : Valid b l.inverted := h
theorem positive (h : Valid b l) : Valid b l.positive := h
theorem withPhase (h : Valid b l) (p : Bool) : Valid b (withPhase l p) := by
  cases p
  · exact h
  · exact h.inverted

theorem ne_constant (h₀ : l ≠ .FALSE) (h₁ : l ≠ .TRUE) : l.node ≠ 0 := by
  obtain ⟨n, p⟩ := l
  rintro rfl
  cases p
  · exact h₀ rfl
  · exact h₁ rfl

end Valid

namespace Inv

variable {b : LogicBuilder}

theorem nonempty (h : Inv b) : 0 < b.nodes.length := (List.getElem?_eq_some_iff.mp h.constant).1

theorem valid_FALSE (h : Inv b) : Valid b .FALSE := ⟨h.nonempty, by decide⟩
theorem valid_TRUE (h : Inv b) : Valid b .TRUE := ⟨h.nonempty, by decide⟩

@[simp] theorem eval_FALSE (h : Inv b) (leaf : Nat → Bool) : eval leaf b.nodes .FALSE = false :=
  Logic.eval_FALSE h.constant rfl h.topological

@[simp] theorem eval_TRUE (h : Inv b) (leaf : Nat → Bool) : eval leaf b.nodes .TRUE = true := by
  rw [← Lit.FALSE_inverted, eval_inverted, h.eval_FALSE]; rfl

theorem valid_fanin (h : Inv b) {i : Nat} {n : Node} (hn : b.nodes[i]? = some n)
    (hi : i < 2 ^ 31) {l : Lit} (hl : l ∈ n.fanins) : Valid b l := by
  have hlt := h.topological i n hn l hl
  have hlen := (List.getElem?_eq_some_iff.mp hn).1
  exact ⟨by omega, by omega⟩

end Inv

theorem Node.Canonical.append {nodes : List Node} {n : Node} (h : n.Canonical nodes)
    (hf : ∀ l ∈ n.fanins, l.node < nodes.length) (m : Node) : n.Canonical (nodes ++ [m]) := by
  unfold Node.Canonical at *
  cases hk : n.kind <;> simp only [hk] at h ⊢ <;> try exact h
  case mux =>
    have h1 : n.fanin1.node < nodes.length := hf _ (by simp [Node.fanins, hk, NodeKind.arity])
    have h2 : n.fanin2.node < nodes.length := hf _ (by simp [Node.fanins, hk, NodeKind.arity])
    obtain ⟨hs, hu⟩ := h
    constructor
    · exact { hs with
        then_not_nested := fun k hk => hs.then_not_nested k
          (by rwa [List.getElem?_append_left h1] at hk)
        else_not_nested := fun k hk => hs.else_not_nested k
          (by rwa [List.getElem?_append_left h2] at hk) }
    · have old {l : Lit} (hl : l.node < nodes.length) {k : Node} (hk : MuxAt (nodes ++ [m]) l k) :
          MuxAt nodes l k := by rwa [MuxAt, List.getElem?_append_left hl] at hk
      exact ⟨fun k hk => hu.then_arm k (old h1 hk), fun k hk => hu.else_arm k (old h2 hk),
        fun k k' hk hk' => hu.both k k' (old h1 hk) (old h2 hk')⟩

theorem levelOf_append {nodes : List Node} {i : Nat} (h : i < nodes.length) (m : Node) :
    levelOf (nodes ++ [m]) i = levelOf nodes i := by
  simp [levelOf, List.getElem?_append_left h]

theorem Node.Leveled.append {nodes : List Node} {n : Node} (h : n.Leveled nodes)
    (hf : ∀ l ∈ n.fanins, l.node < nodes.length) (m : Node) : n.Leveled (nodes ++ [m]) := by
  unfold Node.Leveled at *
  rw [h, List.map_congr_left fun l hl => levelOf_append (hf l hl) m]

/-- A node that may join the table of `b`. -/
structure Fits (b : LogicBuilder) (n : Node) : Prop where
  not_constant : n.kind ≠ .constant
  fanins : ∀ l ∈ n.fanins, Valid b l
  canonical : n.Canonical b.nodes
  leveled : n.Leveled b.nodes
  fresh : ∀ key, n.key? = some key → b.interned.lookup key = none

/-- Adding a node keeps the invariant; its key is recorded when its literal exists. -/
theorem Inv.append {b : LogicBuilder} (h : Inv b) {n : Node} (hn : Fits b n)
    (hsize : b.nodes.length < 2 ^ 32) (interned : List (NodeKey × Nat))
    (hi : ∀ key, interned.lookup key = if b.nodes.length < 2 ^ 31 ∧ n.key? = some key then
      some b.nodes.length else b.interned.lookup key) :
    Inv ⟨b.nodes ++ [n], interned⟩ := by
  have cases_at : ∀ (i : Nat) (m : Node), (b.nodes ++ [n])[i]? = some m →
      (i < b.nodes.length ∧ b.nodes[i]? = some m) ∨ (i = b.nodes.length ∧ m = n) := by
    intro i m hm
    rcases Nat.lt_trichotomy i b.nodes.length with hlt | rfl | hgt
    · exact .inl ⟨hlt, by rwa [List.getElem?_append_left hlt] at hm⟩
    · exact .inr ⟨rfl, by simpa using hm.symm⟩
    · rw [List.getElem?_eq_none (by simp; omega)] at hm
      cases hm
  have below : ∀ (i : Nat) (m : Node), b.nodes[i]? = some m → ∀ l ∈ m.fanins, l.node < b.nodes.length := by
    intro i m hm l hl
    exact Nat.lt_trans (h.topological i m hm l hl) (List.getElem?_eq_some_iff.mp hm).1
  refine ⟨?_, ?_, ?_, ?_, ?_, ?_, ?_, by simp; omega⟩
  · rw [List.getElem?_append_left h.nonempty]; exact h.constant
  · intro i m hm hk
    rcases cases_at i m hm with ⟨_, hm⟩ | ⟨rfl, rfl⟩
    · exact h.constant_first i m hm hk
    · exact absurd hk hn.not_constant
  · intro i m hm l hl
    rcases cases_at i m hm with ⟨_, hm⟩ | ⟨rfl, rfl⟩
    · exact h.topological i m hm l hl
    · exact (hn.fanins l hl).1
  · intro i m hm
    rcases cases_at i m hm with ⟨_, hm⟩ | ⟨rfl, rfl⟩
    · exact (h.canonical i m hm).append (below i m hm) n
    · exact hn.canonical.append (fun l hl => (hn.fanins l hl).1) m
  · intro i m hm
    rcases cases_at i m hm with ⟨_, hm⟩ | ⟨rfl, rfl⟩
    · exact (h.leveled i m hm).append (below i m hm) n
    · exact hn.leveled.append (fun l hl => (hn.fanins l hl).1) m
  · intro key i
    rw [hi]
    by_cases hkey : b.nodes.length < 2 ^ 31 ∧ n.key? = some key
    · rw [if_pos hkey]
      constructor
      · rintro ⟨rfl⟩
        exact ⟨hkey.1, n, by simp, hkey.2⟩
      · rintro ⟨hlt, m, hm, hmk⟩
        rcases cases_at i m hm with ⟨_, hm⟩ | ⟨rfl, rfl⟩
        · -- an older gate under the key would have been found
          have := (h.interned key i).mpr ⟨hlt, m, hm, hmk⟩
          simp [hn.fresh key hkey.2] at this
        · rfl
    · rw [if_neg hkey, h.interned]
      refine and_congr_right fun hlt => exists_congr fun m => ?_
      constructor
      · rintro ⟨hm, hmk⟩
        exact ⟨by rw [List.getElem?_append_left (List.getElem?_eq_some_iff.mp hm).1]; exact hm, hmk⟩
      · rintro ⟨hm, hmk⟩
        rcases cases_at i m hm with ⟨_, hm⟩ | ⟨rfl, rfl⟩
        · exact ⟨hm, hmk⟩
        · exact absurd ⟨hlt, hmk⟩ hkey
  · have new_key {i : Nat} {m : Node} {key : NodeKey} (hm : b.nodes[i]? = some m)
        (hmk : m.key? = some key) (hnk : n.key? = some key) (hi : i < 2 ^ 31) : False := by
      have := (h.interned key i).mpr ⟨hi, m, hm, hmk⟩
      simp [hn.fresh key hnk] at this
    intro i j m k key hm hk hmk hkk hlow
    rcases cases_at i m hm with ⟨hlt, hm'⟩ | ⟨rfl, rfl⟩ <;>
      rcases cases_at j k hk with ⟨hlt', hk'⟩ | ⟨rfl, rfl⟩
    · exact h.unique i j m k key hm' hk' hmk hkk hlow
    · exact (new_key hm' hmk hkk hlow).elim
    · exact (new_key hk' hkk hmk (by omega)).elim
    · rfl

theorem levels_of_valid {b : LogicBuilder} {ls : List Lit} (h : ∀ l ∈ ls, Valid b l) :
    (ls.filterMap fun f => b.level f.node) = ls.map fun f => levelOf b.nodes f.node := by
  induction ls with
  | nil => rfl
  | cons l ls ih =>
    obtain ⟨m, hm⟩ : ∃ m, b.nodes[l.node]? = some m :=
      ⟨_, List.getElem?_eq_getElem (h l (by simp)).1⟩
    have hl : b.level l.node = some (levelOf b.nodes l.node) := by
      simp [LogicBuilder.level, levelOf, hm]
    rw [List.filterMap_cons_some (f := fun f : Lit => b.level f.node) hl, List.map_cons, ih fun l hl => h l (by simp [hl])]

/-- The node that `push` appends carries the level its fanins call for. -/
theorem nextLevel_leveled {b : LogicBuilder} {kind : NodeKind} {f0 f1 f2 : Lit} {level : Nat}
    (origin : Nat) (hc : kind ≠ .constant)
    (hf : ∀ l ∈ Node.fanins ⟨kind, f0, f1, f2, level, origin⟩, Valid b l)
    (h : b.nextLevel kind f0 f1 f2 = .ok level) :
    Node.Leveled b.nodes ⟨kind, f0, f1, f2, level, origin⟩ := by
  have hl := levels_of_valid hf
  simp only [Node.fanins] at hl
  simp only [LogicBuilder.nextLevel, hl] at h
  cases kind <;>
    simp_all [Node.Leveled, Node.fanins, NodeKind.IsGate, NodeKind.arity, Nat.add_comm] <;>
    (split at h <;> simp_all)

namespace LogicBuilder

/-- `push` either appends the node it was given, or fails; a failure after the
node has joined the table happens only from index 2³¹ on. -/
theorem push_outcome (b : LogicBuilder) (kind : NodeKind) (f0 f1 f2 : Lit) (origin : Nat) :
    Outcome b (push kind f0 f1 f2 origin)
      (fun l t => ∃ level, b.nextLevel kind f0 f1 f2 = .ok level ∧ b.nodes.length < 2 ^ 31 ∧
        l = ⟨b.nodes.length, false⟩ ∧
        t = ⟨b.nodes ++ [⟨kind, f0, f1, f2, level, origin⟩], b.interned⟩)
      (fun e t => e ≠ .fuel ∧ (t = b ∨ ∃ level, b.nextLevel kind f0 f1 f2 = .ok level ∧
        2 ^ 31 ≤ b.nodes.length ∧ b.nodes.length < 2 ^ 32 ∧
        t = ⟨b.nodes ++ [⟨kind, f0, f1, f2, level, origin⟩], b.interned⟩)) := by
  simp only [Outcome, push, EStateM.run, bind, EStateM.bind, get, getThe, MonadStateOf.get,
    stateGet_eq, check, NodeId.fromIndex]
  by_cases hs : b.nodes.length < 2 ^ 32
  · simp only [hs, if_true]
    cases hl : b.nextLevel kind f0 f1 f2 with
    | error e => exact ⟨by simp, .inl rfl⟩
    | ok level =>
      by_cases h31 : b.nodes.length * 2 < 2 ^ 32
      · simp only [pure, EStateM.pure, set, MonadStateOf.set, stateSet_eq, Lit.fromNode, h31,
          if_true]
        exact ⟨level, rfl, by omega, trivial, rfl⟩
      · simp only [pure, EStateM.pure, set, MonadStateOf.set, stateSet_eq, Lit.fromNode, h31,
          if_false]
        exact ⟨by simp, .inr ⟨level, rfl, by omega, trivial, rfl⟩⟩
  · simp only [hs, if_false]
    exact ⟨by simp, .inl rfl⟩

end LogicBuilder
end Opto.Logic
