import Mathlib.Logic.Function.Basic
import Opto.Formal.Encoding
import Opto.Library.Lists
import Opto.Library.Outcome
import Opto.Logic.Boundary

/-!
# The encoding is exact

A miter defines its variables: for every choice of values for the origins, its
clauses have exactly one model. Every encoding step extends this model, and the
literal it returns reads the value of the node it encodes.
-/

namespace Opto.Formal

open Logic Cnf

variable {E : Type}

/-- The values `val g` of the variables are the only model of the clauses in which
the inputs read `g`. -/
structure Encodes (m : LogicMiter) (val : (Nat → Bool) → Assignment) : Prop where
  constant_lt : m.constantFalse.index < m.variableCount
  constant : ∀ g, m.constantFalse.eval (val g) = false
  input_lt : ∀ o l, m.inputs.lookup o = some l → l.index < m.variableCount
  input : ∀ o l, m.inputs.lookup o = some l → ∀ g, l.eval (val g) = g o
  positive : ∀ o l, m.inputs.lookup o = some l → l.isPositive = true
  ascending : m.inputs.Pairwise (·.1 < ·.1)
  below : Below m.variableCount m.formula
  models : ∀ a g, (∀ o l, m.inputs.lookup o = some l → l.eval a = g o) →
    (Holds a m.formula ↔ ∀ v < m.variableCount, a v = val g v)

/-- A later miter, whose variables include the earlier ones with their values. -/
structure Grown (m : LogicMiter) (val : (Nat → Bool) → Assignment) (m' : LogicMiter)
    (val' : (Nat → Bool) → Assignment) : Prop where
  encodes : Encodes m' val'
  count : m.variableCount ≤ m'.variableCount
  values : ∀ g, ∀ v < m.variableCount, val' g v = val g v
  inputs : ∀ o l, m.inputs.lookup o = some l → m'.inputs.lookup o = some l

/-- The literal `l` stands for the function `f` of the boundary. -/
def Means (m : LogicMiter) (val : (Nat → Bool) → Assignment) (l : Literal)
    (f : (Nat → Bool) → Bool) : Prop :=
  l.index < m.variableCount ∧ ∀ g, l.eval (val g) = f g

variable {m m' m'' : LogicMiter} {val val' val'' : (Nat → Bool) → Assignment}

theorem Grown.refl (h : Encodes m val) : Grown m val m val :=
  ⟨h, le_rfl, fun _ _ _ => rfl, fun _ _ h => h⟩

theorem Grown.trans (h : Grown m val m' val') (h' : Grown m' val' m'' val'') :
    Grown m val m'' val'' where
  encodes := h'.encodes
  count := h.count.trans h'.count
  values g v hv := by rw [h'.values g v (by have := h.count; omega), h.values g v hv]
  inputs o l hl := h'.inputs o l (h.inputs o l hl)

theorem Means.grown {l : Literal} {f : (Nat → Bool) → Bool} (h : Means m val l f)
    (hg : Grown m val m' val') : Means m' val' l f := by
  obtain ⟨hlt, hf⟩ := h
  have hcount := hg.count
  refine ⟨by omega, fun g => ?_⟩
  rw [← hf g]
  exact Literal.eval_congr (hg.values g _ hlt)

theorem Means.not {l : Literal} {f : (Nat → Bool) → Bool} (h : Means m val l f) :
    Means m val l.not (fun g => !f g) :=
  ⟨h.1, fun g => by rw [Literal.eval_not, h.2 g]⟩

theorem Means.congr {l : Literal} {f p : (Nat → Bool) → Bool} (h : Means m val l f)
    (hfp : ∀ g, f g = p g) : Means m val l p := ⟨h.1, fun g => by rw [h.2 g, hfp g]⟩

theorem encodes_new : Encodes .new fun _ _ => false where
  constant_lt := Nat.zero_lt_one
  constant g := rfl
  input_lt o l hl := by cases hl
  input o l hl := by cases hl
  positive o l hl := by cases hl
  ascending := List.Pairwise.nil
  below c hc l hl := by
    obtain rfl := List.mem_singleton.mp hc
    obtain rfl := List.mem_singleton.mp hl
    exact Nat.zero_lt_one
  models a g _ := by
    constructor
    · intro h v hv
      obtain rfl : v = 0 := Nat.lt_one_iff.mp hv
      simpa [LogicMiter.new, Holds, Literal.eval] using h
    · intro h
      have h₀ := h 0 Nat.zero_lt_one
      simp [LogicMiter.new, Holds, Literal.eval, h₀]

/-- Clauses that determine one new variable from the old ones keep the miter exact. -/
theorem Encodes.define (h : Encodes m val) {clauses : Formula} {f : Assignment → Bool} (count : Nat)
    (hb : Below (m.variableCount + 1) clauses)
    (hf : ∀ a b : Assignment, (∀ v < m.variableCount, a v = b v) → f a = f b)
    (hc : ∀ a, Holds a clauses ↔ a m.variableCount = f a) :
    Grown m val
      { m with
        variableCount := m.variableCount + 1
        formula := m.formula ++ clauses
        clauses := count }
      (fun g => Function.update (val g) m.variableCount (f (val g))) := by
  have old (g : Nat → Bool) {v : Nat} (hv : v < m.variableCount) :
      Function.update (val g) m.variableCount (f (val g)) v = val g v :=
    Function.update_of_ne (by omega) _ _
  have oldEval (g : Nat → Bool) {l : Literal} (hl : l.index < m.variableCount) :
      l.eval (Function.update (val g) m.variableCount (f (val g))) = l.eval (val g) :=
    Literal.eval_congr (old g hl)
  refine ⟨?_, Nat.le_succ _, fun g v hv => old g hv, fun _ _ hl => hl⟩
  exact {
    constant_lt := Nat.lt_succ_of_lt h.constant_lt
    constant := fun g => by rw [oldEval g h.constant_lt, h.constant g]
    input_lt := fun o l hl => Nat.lt_succ_of_lt (h.input_lt o l hl)
    input := fun o l hl g => by rw [oldEval g (h.input_lt o l hl), h.input o l hl g]
    positive := h.positive
    ascending := h.ascending
    below := (h.below.mono (Nat.le_succ _)).append hb
    models := fun a g ha => by
      rw [holds_append, h.models a g ha, hc a]
      constructor
      · intro ⟨hold, hnew⟩ v hv
        by_cases hlt : v < m.variableCount
        · rw [old g hlt, hold v hlt]
        · obtain rfl : v = m.variableCount := by dsimp only at hv; omega
          rw [hnew, Function.update_self, hf a (val g) hold]
      · intro hall
        have hold : ∀ v < m.variableCount, a v = val g v := fun v hv => by
          rw [hall v (Nat.lt_succ_of_lt hv), old g hv]
        refine ⟨hold, ?_⟩
        rw [hall _ (Nat.lt_succ_self _), Function.update_self, hf a (val g) hold] }

/-! The operations of the miter. -/

namespace LogicMiter

theorem run_addClauses (clauses : List Clause) (m : LogicMiter) :
    (clauses.forM addClause : EncodeM E LogicMiter PUnit).run m =
      .ok (⟨⟩, { m with formula := m.formula ++ clauses, clauses := m.clauses + clauses.length }) := by
  induction clauses generalizing m with
  | nil => simp; rfl
  | cons c clauses ih =>
    have step : (addClause c : EncodeM E LogicMiter PUnit).run m =
        .ok (⟨⟩, { m with formula := m.formula ++ [c], clauses := m.clauses + 1 }) := rfl
    change (addClause c >>= fun _ => clauses.forM addClause : EncodeM E LogicMiter PUnit).run m = _
    rw [StateT.run_bind, step]
    simp only [Except.bind, bind, ih, List.append_assoc, List.singleton_append, List.length_cons,
      Nat.add_assoc, Nat.add_comm 1]

theorem gate_yields (h : Encodes m val) (clauses : Literal → Formula) {f : Assignment → Bool}
    (hb : Below (m.variableCount + 1) (clauses ⟨m.variableCount, true⟩))
    (hf : ∀ a b : Assignment, (∀ v < m.variableCount, a v = b v) → f a = f b)
    (hc : ∀ a, Holds a (clauses ⟨m.variableCount, true⟩) ↔ a m.variableCount = f a) :
    Yields m
      (do let output ← newLit
          (clauses output).forM addClause
          pure output : EncodeM E LogicMiter Literal)
      fun l m' => ∃ val', Grown m val m' val' ∧ Means m' val' l fun g => f (val g) := by
  refine ⟨⟨m.variableCount, true⟩, _, ?_, _,
    h.define (m.clauses + (clauses ⟨m.variableCount, true⟩).length) hb hf hc,
    Nat.lt_succ_self _, fun g => by simp⟩
  have hrun := run_addClauses (E := E) (clauses ⟨m.variableCount, true⟩)
    { m with variableCount := m.variableCount + 1 }
  have hnew : (newLit : EncodeM E LogicMiter Literal).run m =
    .ok (⟨m.variableCount, true⟩, { m with variableCount := m.variableCount + 1 }) := rfl
  rw [StateT.run_bind, hnew]
  simp only [Except.bind, bind, StateT.bind, StateT.run] at hrun ⊢
  rw [hrun]
  rfl

variable {f p q : (Nat → Bool) → Bool} {l r s : Literal}

theorem and_yields (h : Encodes m val) (hl : Means m val l f) (hr : Means m val r p) :
    Yields m (LogicMiter.and l r : EncodeM E LogicMiter Literal)
      fun o m' => ∃ val', Grown m val m' val' ∧ Means m' val' o fun g => f g && p g := by
  obtain ⟨hl, hlf⟩ := hl
  obtain ⟨hr, hrf⟩ := hr
  refine (gate_yields h (andClauses l r) (f := fun a => l.eval a && r.eval a) ?_ ?_ ?_).mono
    fun o t ⟨val', hg, ho⟩ => ⟨val', hg, ho.congr fun g => by rw [hlf g, hrf g]⟩
  · simp [Below, andClauses]; omega
  · exact fun a b hab => by
      rw [Literal.eval_congr (hab _ hl), Literal.eval_congr (hab _ hr)]
  · exact fun a => by rw [holds_andClauses, Literal.eval_positive]

theorem xor_yields (h : Encodes m val) (hl : Means m val l f) (hr : Means m val r p) :
    Yields m (LogicMiter.xor l r : EncodeM E LogicMiter Literal)
      fun o m' => ∃ val', Grown m val m' val' ∧ Means m' val' o fun g => f g ^^ p g := by
  obtain ⟨hl, hlf⟩ := hl
  obtain ⟨hr, hrf⟩ := hr
  refine (gate_yields h (xorClauses l r) (f := fun a => l.eval a ^^ r.eval a) ?_ ?_ ?_).mono
    fun o t ⟨val', hg, ho⟩ => ⟨val', hg, ho.congr fun g => by rw [hlf g, hrf g]⟩
  · simp [Below, xorClauses]; omega
  · exact fun a b hab => by
      rw [Literal.eval_congr (hab _ hl), Literal.eval_congr (hab _ hr)]
  · exact fun a => by rw [holds_xorClauses, Literal.eval_positive]

theorem mux_yields (h : Encodes m val) (hs : Means m val s f) (hl : Means m val l p)
    (hr : Means m val r q) :
    Yields m (LogicMiter.mux s l r : EncodeM E LogicMiter Literal)
      fun o m' => ∃ val', Grown m val m' val' ∧
        Means m' val' o fun g => if f g then p g else q g := by
  obtain ⟨hs, hsf⟩ := hs
  obtain ⟨hl, hlf⟩ := hl
  obtain ⟨hr, hrf⟩ := hr
  refine (gate_yields h (muxClauses s l r)
    (f := fun a => if s.eval a then l.eval a else r.eval a) ?_ ?_ ?_).mono
    fun o t ⟨val', hg, ho⟩ => ⟨val', hg, ho.congr fun g => by rw [hsf g, hlf g, hrf g]⟩
  · simp [Below, muxClauses]; omega
  · exact fun a b hab => by
      rw [Literal.eval_congr (hab _ hs), Literal.eval_congr (hab _ hl),
        Literal.eval_congr (hab _ hr)]
  · exact fun a => by rw [holds_muxClauses, Literal.eval_positive]

theorem constantFalse_yields (h : Encodes m val) :
    Yields m (LogicEncoding.constantFalse : EncodeM E LogicMiter Literal)
      fun l m' => m' = m ∧ Means m val l fun _ => false :=
  ⟨m.constantFalse, m, rfl, rfl, h.constant_lt, h.constant⟩

/-- An origin met for the first time gets a new variable, left free by the clauses. -/
theorem input_yields (h : Encodes m val) (o : Nat) :
    Yields m (LogicMiter.input o : EncodeM E LogicMiter Literal)
      fun l m' => ∃ val', Grown m val m' val' ∧ Means m' val' l fun g => g o := by
  refine Yields.get ?_
  cases hl : m.inputs.lookup o with
  | some l => exact Yields.pure ⟨val, .refl h, h.input_lt o l hl, h.input o l hl⟩
  | none =>
    have old (g : Nat → Bool) {v : Nat} (hv : v < m.variableCount) :
        Function.update (val g) m.variableCount (g o) v = val g v :=
      Function.update_of_ne (by omega) _ _
    have oldEval (g : Nat → Bool) {l : Literal} (hl : l.index < m.variableCount) :
        l.eval (Function.update (val g) m.variableCount (g o)) = l.eval (val g) :=
      Literal.eval_congr (old g hl)
    have hlookup := lookup_orderedInsert (l := ⟨m.variableCount, true⟩) hl
    have hcases {k : Nat} {l : Literal} (hk : (m.inputs.orderedInsert (fun a b => a.1 ≤ b.1)
        (o, ⟨m.variableCount, true⟩)).lookup k = some l) :
        (k = o ∧ l = ⟨m.variableCount, true⟩) ∨ m.inputs.lookup k = some l := by
      rw [hlookup] at hk
      split_ifs at hk with hko
      · exact .inl ⟨hko, (Option.some.inj hk).symm⟩
      · exact .inr hk
    refine ⟨⟨m.variableCount, true⟩, _, rfl,
      fun g => Function.update (val g) m.variableCount (g o), ⟨?_, Nat.le_succ _, fun g v hv =>
        old g hv, fun k l hk => ?_⟩, Nat.lt_succ_self _, fun g => by simp⟩
    · exact {
        constant_lt := Nat.lt_succ_of_lt h.constant_lt
        constant := fun g => by rw [oldEval g h.constant_lt, h.constant g]
        input_lt := fun k l hk => by
          rcases hcases hk with ⟨-, rfl⟩ | hk
          · exact Nat.lt_succ_self _
          · exact Nat.lt_succ_of_lt (h.input_lt k l hk)
        input := fun k l hk g => by
          rcases hcases hk with ⟨rfl, rfl⟩ | hk
          · rw [Literal.eval_positive, Function.update_self]
          · rw [oldEval g (h.input_lt k l hk), h.input k l hk g]
        positive := fun k l hk => by
          rcases hcases hk with ⟨-, rfl⟩ | hk
          · rfl
          · exact h.positive k l hk
        ascending := ascending_orderedInsert h.ascending hl
        below := h.below.mono (Nat.le_succ _)
        models := fun a g ha => by
          have hold : ∀ k l, m.inputs.lookup k = some l → l.eval a = g k := fun k l hk => by
            refine ha k l ?_
            rw [hlookup, if_neg (fun hko => by rw [hko, hl] at hk; cases hk), hk]
          have hnew : a m.variableCount = g o := by
            rw [← ha o ⟨m.variableCount, true⟩ (by rw [hlookup, if_pos rfl]),
              Literal.eval_positive]
          rw [h.models a g hold]
          constructor
          · intro hall v hv
            by_cases hlt : v < m.variableCount
            · rw [old g hlt, hall v hlt]
            · obtain rfl : v = m.variableCount := by dsimp only at hv; omega
              rw [Function.update_self, hnew]
          · intro hall v hv
            rw [hall v (Nat.lt_succ_of_lt hv), old g hv] }
    · rw [hlookup, if_neg (fun hko => by rw [hko, hl] at hk; cases hk), hk]

end LogicMiter
end Opto.Formal
