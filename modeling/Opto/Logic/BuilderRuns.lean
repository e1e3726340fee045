import Mathlib.Logic.Relation
import Opto.Logic.CanonicalSteps
import Opto.Logic.Probe

/-!
# Runs of the builder

A session is a builder together with the calls made on it and the literals they
returned. A run of successful calls preserves the meaning of every literal; any
run, failed calls included, keeps the table in canonical form up to the gates
that failed calls left behind at node 2³¹ and above.
-/

namespace Opto.Logic

inductive Call
  | input (origin : Nat)
  | and (left right : Lit) (origin : Nat)
  | or (left right : Lit) (origin : Nat)
  | xor (left right : Lit) (origin : Nat)
  | mux (select thenValue elseValue : Lit) (origin : Nat)
deriving DecidableEq

namespace Call

def args : Call → List Lit
  | .input _ => []
  | .and l r _ | .or l r _ | .xor l r _ => [l, r]
  | .mux s t e _ => [s, t, e]

def exec : Call → BuildM Lit
  | .input origin => LogicBuilder.input origin
  | .and l r origin => LogicBuilder.and l r origin
  | .or l r origin => LogicBuilder.or l r origin
  | .xor l r origin => LogicBuilder.xor l r origin
  | .mux s t e origin => LogicBuilder.mux s t e origin

/-- The Boolean function a call stands for; an input reads its own leaf. -/
def denote (leaf : Bool) (v : Lit → Bool) : Call → Bool
  | .input _ => leaf
  | .and l r _ => v l && v r
  | .or l r _ => v l || v r
  | .xor l r _ => v l ^^ v r
  | .mux s t e _ => if v s then v t else v e

theorem denote_congr (c : Call) (leaf : Bool) {v w : Lit → Bool}
    (h : ∀ a ∈ c.args, v a = w a) : c.denote leaf v = c.denote leaf w := by
  cases c <;> simp_all [denote, args]

end Call

theorem inv_new : Inv .new where
  constant := rfl
  constant_first i n hn _ := by
    rcases i with _ | i
    · rfl
    · simp [LogicBuilder.new] at hn
  topological i n hn := by
    rcases i with _ | i <;> simp [LogicBuilder.new] at hn
    subst hn; simp [Node.fanins, NodeKind.arity]
  canonical i n hn := by
    rcases i with _ | i <;> simp [LogicBuilder.new] at hn
    subst hn; trivial
  leveled i n hn := by
    rcases i with _ | i <;> simp [LogicBuilder.new] at hn
    subst hn; rfl
  interned key i := by
    rcases i with _ | i <;> simp [LogicBuilder.new, Node.key?]
  unique i j n m key hn _ hk := by
    rcases i with _ | i <;> simp [LogicBuilder.new] at hn
    subst hn; cases hk
  size := by decide

/-- What every call does from an invariant state with valid arguments. -/
theorem Call.outcome {b : LogicBuilder} (hb : Inv b) (c : Call) (hargs : ∀ a ∈ c.args, Valid b a) :
    Outcome b c.exec
      (fun l t => Grows b t ∧ Valid t l ∧
        ∀ leaf, eval leaf t.nodes l = c.denote (leaf l.node) (eval leaf b.nodes))
      (fun e t => e ≠ .fuel ∧ Grows b t) := by
  have of_meets {w : Nat} {f : (Lit → Bool) → Bool} {m : BuildM Lit} (h : Meets b w f m)
      (hf : ∀ leaf v, f v = c.denote leaf v) :
      Outcome b m (fun l t => Grows b t ∧ Valid t l ∧
        ∀ leaf, eval leaf t.nodes l = c.denote (leaf l.node) (eval leaf b.nodes))
        (fun e t => e ≠ .fuel ∧ Grows b t) :=
    Outcome.mono h (fun l t ⟨hg, hv, _, he⟩ => ⟨hg, hv, fun leaf => by rw [he, ← hf]⟩)
      fun _ _ h => h
  cases c with
  | input origin =>
    have fits (level : Nat) (h : b.nextLevel .input .FALSE .FALSE .FALSE = .ok level) :
        Fits b ⟨.input, .FALSE, .FALSE, .FALSE, level, origin⟩ :=
      ⟨by simp, by simp [Node.fanins, NodeKind.arity], trivial,
        nextLevel_leveled origin (by simp) (by simp [Node.fanins, NodeKind.arity]) h,
        by simp [Node.key?]⟩
    refine Outcome.mono (LogicBuilder.push_outcome b .input .FALSE .FALSE .FALSE origin) ?_ ?_
    · rintro l t ⟨level, hlev, hlt, rfl, rfl⟩
      have hinv := hb.append (fits level hlev) (by omega) b.interned (by simp [Node.key?])
      refine ⟨⟨hinv, List.prefix_append _ _⟩, ⟨by simp, hlt⟩, fun leaf => ?_⟩
      rw [eval_node hinv.topological
        (n := ⟨.input, .FALSE, .FALSE, .FALSE, level, origin⟩) (by simp) rfl]
      rfl
    · rintro e t ⟨hne, rfl | ⟨level, hlev, hge, hlt, rfl⟩⟩
      · exact ⟨hne, .refl hb⟩
      · exact ⟨hne, hb.append (fits level hlev) hlt b.interned (by simp [Node.key?]),
          List.prefix_append _ _⟩
  | and l r o =>
    exact of_meets (LogicBuilder.and_meets hb (hargs l (by simp [args]))
      (hargs r (by simp [args])) o) fun _ _ => rfl
  | or l r o =>
    exact of_meets (LogicBuilder.or_meets hb (hargs l (by simp [args]))
      (hargs r (by simp [args])) o) fun _ _ => rfl
  | xor l r o =>
    exact of_meets (LogicBuilder.xor_meets hb (hargs l (by simp [args]))
      (hargs r (by simp [args])) o) fun _ _ => rfl
  | mux s t e o =>
    exact of_meets (LogicBuilder.mux_meets hb (hargs s (by simp [args]))
      (hargs t (by simp [args])) (hargs e (by simp [args])) o) fun _ _ => rfl

/-! Successful runs and the meaning of what they return. -/

structure Session where
  builder : LogicBuilder
  returned : List (Call × Lit)

namespace Session

def start : Session := ⟨.new, []⟩

/-- A literal a caller may pass: a constant, or one returned earlier in either phase. -/
def Known (s : Session) (a : Lit) : Prop :=
  a = .FALSE ∨ a = .TRUE ∨ ∃ p ∈ s.returned, a = p.2 ∨ a = p.2.inverted

inductive Step : Session → Session → Prop
  | call {s : Session} {c : Call} {l : Lit} {t : LogicBuilder} (known : ∀ a ∈ c.args, s.Known a)
      (success : c.exec.run s.builder = .ok l t) : Step s ⟨t, s.returned ++ [(c, l)]⟩

abbrev Run := Relation.ReflTransGen Step

/-- Every returned literal is valid and computes its call in the present table. -/
structure Meaningful (s : Session) : Prop where
  inv : Inv s.builder
  valid : ∀ p ∈ s.returned, Valid s.builder p.2
  args : ∀ p ∈ s.returned, ∀ a ∈ p.1.args, Valid s.builder a
  computes : ∀ p ∈ s.returned, ∀ leaf, eval leaf s.builder.nodes p.2 =
    p.1.denote (leaf p.2.node) (eval leaf s.builder.nodes)

theorem Meaningful.known {s : Session} (h : s.Meaningful) {a : Lit} (ha : s.Known a) :
    Valid s.builder a := by
  rcases ha with rfl | rfl | ⟨p, hp, rfl | rfl⟩
  · exact h.inv.valid_FALSE
  · exact h.inv.valid_TRUE
  · exact h.valid p hp
  · exact (h.valid p hp).inverted

theorem meaningful_start : start.Meaningful :=
  ⟨inv_new, by simp [start], by simp [start], by simp [start]⟩

theorem Meaningful.step {s s' : Session} (h : s.Meaningful) (hs : Step s s') :
    s'.Meaningful ∧ Grows s.builder s'.builder := by
  cases hs with
  | @call c l t known success =>
    have hargs : ∀ a ∈ c.args, Valid s.builder a := fun a ha => h.known (known a ha)
    obtain ⟨hg, hv, he⟩ := (c.outcome h.inv hargs).ok success
    have agree (d : Call) (hd : ∀ a ∈ d.args, Valid s.builder a) (x : Bool)
        (leaf : Nat → Bool) : d.denote x (eval leaf t.nodes) = d.denote x (eval leaf s.builder.nodes) :=
      d.denote_congr x fun a ha => hg.eval (hd a ha) leaf
    refine ⟨⟨hg.inv, ?_, ?_, ?_⟩, hg⟩ <;> intro p hp <;>
      rcases List.mem_append.mp hp with hp | hp
    · exact hg.valid (h.valid p hp)
    · obtain rfl := List.mem_singleton.mp hp; exact hv
    · exact fun a ha => hg.valid (h.args p hp a ha)
    · obtain rfl := List.mem_singleton.mp hp; exact fun a ha => hg.valid (hargs a ha)
    · intro leaf
      rw [hg.eval (h.valid p hp), h.computes p hp, agree p.1 (h.args p hp)]
    · obtain rfl := List.mem_singleton.mp hp
      intro leaf
      rw [he, agree c hargs]

theorem Meaningful.run {s s' : Session} (h : s.Meaningful) (hs : Run s s') :
    s'.Meaningful ∧ Grows s.builder s'.builder := by
  induction hs with
  | refl => exact ⟨h, .refl h.inv⟩
  | tail _ hstep ih =>
    obtain ⟨hm, hg⟩ := ih.1.step hstep
    exact ⟨hm, ih.2.trans hg⟩

theorem Step.returned_subset {s s' : Session} (h : Step s s') : s.returned ⊆ s'.returned := by
  cases h; exact List.subset_append_left _ _

/-- The meaning of the builder's literals: in every run, each returned literal
computes its call, gates read only earlier nodes, no later call changes an
earlier literal, and no call runs out of fuel. -/
theorem run_preserves_meaning {s s' : Session} (hs : Run start s) (hs' : Run s s') :
    (∀ p ∈ s'.returned, ∀ leaf, eval leaf s'.builder.nodes p.2 =
      p.1.denote (leaf p.2.node) (eval leaf s'.builder.nodes)) ∧
    (∀ (i : Nat) (n : Node), s'.builder.nodes[i]? = some n → ∀ l ∈ n.fanins, l.node < i) ∧
    (∀ p ∈ s.returned, p ∈ s'.returned ∧ ∀ leaf,
      eval leaf s'.builder.nodes p.2 = eval leaf s.builder.nodes p.2) ∧
    (∀ c : Call, (∀ a ∈ c.args, s'.Known a) → ∀ t, c.exec.run s'.builder ≠ .error .fuel t) := by
  obtain ⟨hm, -⟩ := meaningful_start.run hs
  obtain ⟨hm', hg⟩ := hm.run hs'
  refine ⟨hm'.computes, hm'.inv.topological, fun p hp => ⟨?_, ?_⟩, fun c hc t ht => ?_⟩
  · exact Relation.ReflTransGen.head_induction_on (motive := fun a _ => p ∈ a.returned →
      p ∈ s'.returned) hs' id (fun hstep _ ih hp => ih (hstep.returned_subset hp)) hp
  · exact fun leaf => hg.eval (hm.valid p hp) leaf
  · exact ((c.outcome hm'.inv fun a ha => hm'.known (hc a ha)).error ht).1 rfl

def twoInputs : Session :=
  ⟨⟨[⟨.constant, .FALSE, .FALSE, .FALSE, 0, 0⟩, ⟨.input, .FALSE, .FALSE, .FALSE, 0, 7⟩,
    ⟨.input, .FALSE, .FALSE, .FALSE, 0, 8⟩], []⟩, [(.input 7, ⟨1, false⟩), (.input 8, ⟨2, false⟩)]⟩

theorem run_twoInputs : Run start twoInputs :=
  (Relation.ReflTransGen.refl.tail (.call (c := .input 7) (by simp [Call.args]) rfl)).tail
    (.call (c := .input 8) (by simp [Call.args]) rfl)

/-- A multiplexer over an inverted selector and a constant arm becomes a disjunction. -/
theorem mux_twoInputs : ∃ l t,
    (Call.mux ⟨1, true⟩ .TRUE ⟨2, false⟩ 9).exec.run twoInputs.builder = .ok l t ∧
      ∀ leaf, eval leaf t.nodes l =
        if eval leaf t.nodes ⟨1, true⟩ then eval leaf t.nodes .TRUE else eval leaf t.nodes ⟨2, false⟩ :=
  ⟨_, _, rfl, (run_preserves_meaning run_twoInputs (.single (.call
    (c := .mux ⟨1, true⟩ .TRUE ⟨2, false⟩ 9)
    (by simp [Call.args, Known, twoInputs, Lit.inverted]) rfl))).1 (_, _)
    (List.mem_append_right _ (List.mem_singleton_self _))⟩

end Session
end Opto.Logic
