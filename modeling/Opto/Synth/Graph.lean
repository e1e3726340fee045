import Opto.Library.Worklist
import Opto.Logic.Boundary
import Opto.Logic.Ordered

/-!
# Logic graphs under construction

The passes build a new graph through calls that panic when the builder refuses
them, and keep a map from the old nodes to literals of the new graph.
-/

namespace Opto.Synth

open Logic

/-- Why a pass stops: the builder is out of identifiers, or an expectation fails. -/
inductive Panic
  | fuel
  | capacity
  | expect (message : String)
deriving DecidableEq

abbrev GraphM := StateT LogicBuilder (Except Panic)

namespace LogicGraph

def perform (c : Call) : GraphM Lit := fun b =>
  match c.exec.run b with
  | .ok l t => .ok (l, t)
  | .error .fuel _ => .error .fuel
  | .error (.error _) _ => .error .capacity

def input (origin : Nat) : GraphM Lit := perform (.input origin)
def and (left right : Lit) : GraphM Lit := perform (.and left right 0)
def or (left right : Lit) : GraphM Lit := perform (.or left right 0)
def xor (left right : Lit) : GraphM Lit := perform (.xor left right 0)
def mux (cond thenValue elseValue : Lit) : GraphM Lit := perform (.mux cond thenValue elseValue 0)

end LogicGraph

def expect {α : Type} (value : Option α) (message : String) : Except Panic α :=
  match value with
  | some a => .ok a
  | none => .error (.expect message)

def remapLiteral (remap : List (Option Lit)) (literal : Lit) : Option Lit :=
  remap[literal.node]?.join.map fun mapped => if literal.isInverted then mapped.inverted else mapped

def composeRemaps (first second : List (Option Lit)) : List (Option Lit) :=
  first.map fun literal => literal.bind (remapLiteral second)

/-! Reachability from the roots. -/

def faninsOf (net : LogicNetwork) (node : Nat) : List Nat :=
  match net.nodes[node]? with
  | some logic => logic.fanins.map (·.node)
  | none => []

def liveNodes (net : LogicNetwork) (roots : List Lit) : Option (List Bool) :=
  Worklist.mark (faninsOf net) net.nodeCount (roots.map (·.node))

variable {net : LogicNetwork} {b : LogicBuilder}

/-! What the calls establish. -/

/-- The only panic of a well-formed construction. -/
def IsCapacity (e : Panic) : Prop := e = .capacity

theorem perform_ensures {c : Call} {Q : Lit → LogicBuilder → Prop}
    (h : Outcome b c.exec Q fun e t => e ≠ .fuel ∧ Grows b t) :
    Ensures b (LogicGraph.perform c) Q IsCapacity := by
  unfold Outcome at h
  have hrun : (LogicGraph.perform c).run b = LogicGraph.perform c b := rfl
  rw [Ensures, hrun, LogicGraph.perform]
  cases hexec : c.exec.run b with
  | ok l t => rw [hexec] at h; exact h
  | error e t =>
    rw [hexec] at h
    cases e with
    | fuel => exact (h.1 rfl).elim
    | error e => rfl

/-- The new graph only grows, and the literal stands for `f`. -/
def Builds (b : LogicBuilder) (f : (Nat → Bool) → Bool) (l : Lit) (t : LogicBuilder) : Prop :=
  Grows b t ∧ Denotes t l f

theorem perform_builds (hb : Inv b) {c : Call} {f : (Nat → Bool) → Bool}
    (hargs : ∀ a ∈ c.args, Valid b a)
    (hf : ∀ leaf g, c.denote leaf (networkValue b.freeze g) = f g) :
    Ensures b (LogicGraph.perform c) (Builds b f) IsCapacity :=
  (perform_ensures (c.denotes hb hargs)).mono fun _ _ ⟨hg, hd⟩ => ⟨hg, hd.congr fun _ => hf _ _⟩

section Gates

variable {l r s : Lit} {f p q : (Nat → Bool) → Bool}

theorem variable_builds (hb : Inv b) (origin : Nat) :
    Ensures b (LogicGraph.input origin) (Builds b fun g => g origin) IsCapacity :=
  perform_ensures (c := .input origin) (input_denotes hb origin)

theorem and_builds (hb : Inv b) (hl : Denotes b l f) (hr : Denotes b r p) :
    Ensures b (LogicGraph.and l r) (Builds b fun g => f g && p g) IsCapacity :=
  perform_builds hb (by simpa [Call.args] using ⟨hl.valid, hr.valid⟩)
    fun _ g => by rw [Call.denote, hl.value, hr.value]

theorem or_builds (hb : Inv b) (hl : Denotes b l f) (hr : Denotes b r p) :
    Ensures b (LogicGraph.or l r) (Builds b fun g => f g || p g) IsCapacity :=
  perform_builds hb (by simpa [Call.args] using ⟨hl.valid, hr.valid⟩)
    fun _ g => by rw [Call.denote, hl.value, hr.value]

theorem xor_builds (hb : Inv b) (hl : Denotes b l f) (hr : Denotes b r p) :
    Ensures b (LogicGraph.xor l r) (Builds b fun g => f g ^^ p g) IsCapacity :=
  perform_builds hb (by simpa [Call.args] using ⟨hl.valid, hr.valid⟩)
    fun _ g => by rw [Call.denote, hl.value, hr.value]

theorem mux_builds (hb : Inv b) (hs : Denotes b s f) (hl : Denotes b l p) (hr : Denotes b r q) :
    Ensures b (LogicGraph.mux s l r) (Builds b fun g => if f g then p g else q g) IsCapacity :=
  perform_builds hb (by simpa [Call.args] using ⟨hs.valid, hl.valid, hr.valid⟩)
    fun _ g => by rw [Call.denote, hs.value, hl.value, hr.value]

end Gates

/-! Maps from old nodes to new literals. -/

structure TransformProduct where
  network : LogicNetwork
  remap : List (Option Lit)

/-- A map into `target` that keeps functions of the boundary. -/
def Preserves (net target : LogicNetwork) (remap : List (Option Lit)) : Prop :=
  ∀ i l, remap[i]?.join = some l → l.node < target.nodeCount ∧
    ∀ g, networkValue target g l = networkValue net g ⟨i, false⟩

theorem Preserves.literal {target : LogicNetwork} {remap : List (Option Lit)}
    (h : Preserves net target remap) {l m : Lit} (hm : remapLiteral remap l = some m) :
    m.node < target.nodeCount ∧ ∀ g, networkValue target g m = networkValue net g l := by
  obtain ⟨mapped, hmapped, rfl⟩ := Option.map_eq_some_iff.mp hm
  obtain ⟨hlt, hvalue⟩ := h l.node mapped hmapped
  constructor
  · cases l.isInverted <;> exact hlt
  · intro g
    rw [networkValue_phase net g l, ← hvalue g]
    exact networkValue_withPhase target g mapped l.isInverted

/-- Every mapped node keeps its function of the boundary. -/
def Remapped (net : LogicNetwork) (b : LogicBuilder) (remap : List (Option Lit)) : Prop :=
  ∀ i l, remap[i]?.join = some l → Denotes b l fun g => networkValue net g ⟨i, false⟩

theorem Remapped.literal {remap : List (Option Lit)} (h : Remapped net b remap) {l m : Lit}
    (hm : remapLiteral remap l = some m) : Denotes b m fun g => networkValue net g l := by
  obtain ⟨mapped, hmapped, rfl⟩ := Option.map_eq_some_iff.mp hm
  have hd := (h l.node mapped hmapped).withPhase l.isInverted
  exact hd.congr fun g => (networkValue_phase net g l).symm

theorem Remapped.grows {t : LogicBuilder} {remap : List (Option Lit)} (h : Remapped net b remap)
    (hb : Inv b) (hg : Grows b t) : Remapped net t remap := fun i l hl => (h i l hl).grows hb hg

/-- The copy of a gate over the literals its fanins are mapped to. -/
def copyGate (remap : List (Option Lit)) (message : String) (logic : Node) : GraphM Lit :=
  let mapped (fanin : Lit) : GraphM Lit := liftM (expect (remapLiteral remap fanin) message)
  match logic.kind with
  | .constant | .input => throw (.expect "unreachable")
  | .and => do
    let left ← mapped logic.fanin0
    let right ← mapped logic.fanin1
    LogicGraph.and left right
  | .xor => do
    let left ← mapped logic.fanin0
    let right ← mapped logic.fanin1
    LogicGraph.xor left right
  | .mux => do
    let cond ← mapped logic.fanin0
    let thenValue ← mapped logic.fanin1
    let elseValue ← mapped logic.fanin2
    LogicGraph.mux cond thenValue elseValue

theorem expect_bind {α : Type} {value : Option Lit} {m : Lit} (h : value = some m)
    (message : String) (k : Lit → GraphM α) :
    (liftM (expect value message) : GraphM Lit) >>= k = k m := by
  subst h
  rfl

theorem copyGate_builds (hb : Inv b) {remap : List (Option Lit)} (hremap : Remapped net b remap)
    (message : String) {n : Node} (hgate : n.kind.IsGate)
    (hfanins : ∀ f ∈ n.fanins, ∃ m, remapLiteral remap f = some m) (leaf : Bool) :
    Ensures b (copyGate remap message n) (Builds b fun g => n.denote leaf (networkValue net g))
      IsCapacity := by
  have fanin (f : Lit) (hf : f ∈ n.fanins) : ∃ m, remapLiteral remap f = some m ∧
      Denotes b m fun g => networkValue net g f := by
    obtain ⟨m, hm⟩ := hfanins f hf
    exact ⟨m, hm, hremap.literal hm⟩
  rcases hgate with hk | hk | hk
  all_goals
    obtain ⟨x, hx, hdx⟩ := fanin n.fanin0 (by simp [Node.fanins, hk, NodeKind.arity])
    obtain ⟨y, hy, hdy⟩ := fanin n.fanin1 (by simp [Node.fanins, hk, NodeKind.arity])
    simp only [copyGate, Node.denote, hk]
    rw [expect_bind hx, expect_bind hy]
  · exact and_builds hb hdx hdy
  · exact xor_builds hb hdx hdy
  · obtain ⟨z, hz, hdz⟩ := fanin n.fanin2 (by simp [Node.fanins, hk, NodeKind.arity])
    rw [expect_bind hz]
    exact mux_builds hb hdx hdy hdz

/-! The live nodes. -/

/-- The live nodes contain the roots and the fanins of their gates. -/
structure Live (net : LogicNetwork) (roots : List Lit) (live : List Bool) : Prop where
  length : live.length = net.nodeCount
  roots : ∀ r ∈ roots, live[r.node]? = some true
  fanins : ∀ (i : Nat) (n : Node), live[i]? = some true → net.nodes[i]? = some n →
    ∀ f ∈ n.fanins, live[f.node]? = some true

theorem liveNodes_ok (hnet : Ordered net) {roots : List Lit}
    (hroots : ∀ r ∈ roots, r.node < net.nodeCount) :
    ∃ live, liveNodes net roots = some live ∧ Live net roots live := by
  have hdeps : ∀ i < net.nodeCount, ∀ d ∈ faninsOf net i, d < net.nodeCount := by
    intro i hi d hd
    have hn := List.getElem?_eq_getElem hi
    rw [faninsOf, hn] at hd
    obtain ⟨f, hf, rfl⟩ := List.mem_map.mp hd
    exact hnet.fanin_lt hn hf
  obtain ⟨live, hrun, h⟩ := Worklist.mark_ok hdeps fun r hr => by
    obtain ⟨l, hl, rfl⟩ := List.mem_map.mp hr
    exact hroots l hl
  refine ⟨live, hrun, h.length, fun r hr => ?_, fun i n hi hn f hf => ?_⟩
  · exact (h.reached _ (List.mem_map_of_mem hr)).resolve_right List.not_mem_nil
  · refine (h.closed i hi f.node ?_).resolve_right List.not_mem_nil
    rw [faninsOf, hn]
    exact List.mem_map_of_mem hf

/-! References. -/

/-- One more reference, unless the counter is full. -/
def countReference (references : List Nat) (node : Nat) : Option (List Nat) :=
  match references[node]? with
  | some count => if count + 1 < 2 ^ 32 then some (references.set node (count + 1)) else none
  | none => none

/-- The fanins of all nodes, and every root once more. -/
def mentions (net : LogicNetwork) (roots : List Lit) : List Nat :=
  (List.range net.nodeCount).flatMap (faninsOf net) ++ roots.map (·.node)

/-- Nothing when a node has no identifier or a counter overflows. -/
def referenceCounts (net : LogicNetwork) (roots : List Lit) : Option (List Nat) :=
  if net.nodeCount ≤ 2 ^ 31 then
    (mentions net roots).foldlM countReference (List.replicate net.nodeCount 0)
  else none

theorem countReferences_count {xs start references : List Nat} (h : xs.foldlM countReference start = some references) :
    references.length = start.length ∧
      ∀ n count, start[n]? = some count → references[n]? = some (count + xs.count n) := by
  induction xs generalizing start with
  | nil =>
    cases h
    exact ⟨rfl, fun n count hn => hn⟩
  | cons x xs ih =>
    rw [List.foldlM_cons, Option.bind_eq_bind, Option.bind_eq_some_iff] at h
    obtain ⟨next, hnext, h⟩ := h
    rw [countReference] at hnext
    cases hx : start[x]? with
    | none => rw [hx] at hnext; cases hnext
    | some count =>
      simp only [hx] at hnext
      split_ifs at hnext
      cases hnext
      obtain ⟨hlength, hcount⟩ := ih h
      rw [List.length_set] at hlength
      refine ⟨hlength, fun n before hn => ?_⟩
      by_cases hnx : x = n
      · subst hnx
        rw [hx, Option.some.injEq] at hn
        subst hn
        rw [hcount x (count + 1) (List.getElem?_set_self (List.getElem?_eq_some_iff.mp hx).1), List.count_cons_self]
        congr 1
        omega
      · rw [hcount n before (by rw [List.getElem?_set_ne hnx, hn]), List.count_cons_of_ne hnx]

theorem referenceCounts_count {roots : List Lit} {references : List Nat}
    (h : referenceCounts net roots = some references) : references.length = net.nodeCount ∧
      ∀ n < net.nodeCount, references[n]? = some ((mentions net roots).count n) := by
  rw [referenceCounts] at h
  split_ifs at h
  obtain ⟨hlength, hcount⟩ := countReferences_count h
  rw [List.length_replicate] at hlength
  refine ⟨hlength, fun n hn => ?_⟩
  rw [hcount n 0 (List.getElem?_replicate_of_lt hn), Nat.zero_add]

end Opto.Synth
