import Mathlib.Algebra.Order.BigOperators.Group.List
import Mathlib.Algebra.Order.Group.Nat
import Opto.Formal.Partitions

/-!
# Networks, clauses and answers

The encoding as a whole: the models of a miter correspond to the values of its
boundary, the equivalence proof answers by them, and a refuted pair differs
under every completion of its boundary assignment. An exhaustive search is a
solver that answers correctly.
-/

namespace Opto.Formal

open Logic Cnf

variable {E : Type}

/-- Miters that encode a sequence of ordered networks at known outputs. -/
inductive LogicMiter.Built (E : Type) : LogicMiter → Prop
  | new : Built E .new
  | encode {m m' : LogicMiter} {net : LogicNetwork} {outputs : List Lit} {vs : List Literal} :
      Built E m → Ordered net → (∀ l ∈ outputs, l.node < net.nodeCount) →
      (LogicMiter.encodeNetwork net outputs : EncodeM E LogicMiter _).run m = .ok (vs, m') →
      Built E m'

theorem LogicMiter.Built.encodes {m : LogicMiter} (h : m.Built E) : ∃ val, Encodes m val := by
  induction h with
  | new => exact ⟨_, encodes_new⟩
  | encode _ hnet hknown hrun ih =>
    obtain ⟨val, hm⟩ := ih
    obtain ⟨vs, t, hrun', val', hg, -⟩ := encodeNetwork_yields (E := E) hnet hm _ hknown
    rw [hrun] at hrun'
    cases hrun'
    exact ⟨val', hg.encodes⟩

/-- The inputs of the miter read the boundary `g`. -/
def LogicMiter.Reads (m : LogicMiter) (a : Assignment) (g : Nat → Bool) : Prop :=
  ∀ o l, m.inputs.lookup o = some l → l.eval a = g o

/-- The models of the clauses are the evaluations of the boundary: every boundary
has one, no two models share one, and in each the output literals have the values
of the network. -/
structure LogicMiter.Exact (m : LogicMiter) (net : LogicNetwork) (outputs : List Lit)
    (vs : List Literal) : Prop where
  bounded : Below m.variableCount m.formula
  exists_model : ∀ g, ∃ a, Holds a m.formula ∧ m.Reads a g
  unique_model : ∀ g a a', Holds a m.formula → m.Reads a g → Holds a' m.formula → m.Reads a' g →
    ∀ v < m.variableCount, a v = a' v
  values : ∀ g a, Holds a m.formula → m.Reads a g →
    List.Forall₂ (fun v l => v.eval a = networkValue net g l) vs outputs

/-- What the encoding promises its callers, given a solver that answers correctly. -/
theorem encoding_exact {solve : Solver E} (hs : solve.Correct) :
    (∀ m net outputs, LogicMiter.Built E m → Ordered net →
      (∀ l ∈ outputs, l.node < net.nodeCount) →
      ∃ vs m', (LogicMiter.encodeNetwork net outputs : EncodeM E LogicMiter _).run m =
        .ok (vs, m') ∧ m'.Exact net outputs vs) ∧
    (∀ reference referenceOutputs implementation implementationOutputs, Ordered reference →
      Ordered implementation → (∀ l ∈ referenceOutputs, l.node < reference.nodeCount) →
      (∀ l ∈ implementationOutputs, l.node < implementation.nodeCount) →
      referenceOutputs.length = implementationOutputs.length → referenceOutputs ≠ [] →
      ∃ outcome, proveLogicNetworkEquivalence solve reference referenceOutputs implementation
          implementationOutputs = .ok outcome ∧
        ((∃ report, outcome = .proved report) ↔
          OutputsAgree reference referenceOutputs implementation implementationOutputs)) ∧
    (∀ m net (outputs : List Lit) (vs : List Literal) m', LogicMiter.Built E m → Ordered net →
      (∀ l ∈ outputs, l.node < net.nodeCount) →
      (LogicMiter.encodeNetwork net outputs : EncodeM E LogicMiter _).run m = .ok (vs, m') →
      ∀ (i j : Nat) l r left right refutations, outputs[i]? = some l → outputs[j]? = some r →
      vs[i]? = some left → vs[j]? = some right →
      (proveEncodedLiteralEquivalence solve m' left right refutations = .ok (true, refutations) ∧
        ∀ g, networkValue net g l = networkValue net g r) ∨
      ∃ refutation, proveEncodedLiteralEquivalence solve m' left right refutations =
          .ok (false, refutations ++ [refutation]) ∧
        ∀ g, refutation.Admits g → networkValue net g l ≠ networkValue net g r) ∧
    (∀ net classes maxRepresentatives maxPairs maxEncodedNodes refutations, Ordered net →
      (∀ class' ∈ classes, ∀ l ∈ class', l.node < net.nodeCount) →
      ∃ result found, proveLogicLiteralPartitions solve net classes maxRepresentatives maxPairs
          maxEncodedNodes refutations = .ok (result, refutations ++ found) ∧
        ∀ refutation ∈ found, ∃ c r i, r < i ∧ ClassSeparated net classes c r i refutation) := by
  refine ⟨?_, ?_, ?_, ?_⟩
  · intro m net outputs hm hnet hknown
    obtain ⟨val, hval⟩ := hm.encodes
    obtain ⟨vs, m', hrun, val', hg, hvs⟩ := encodeNetwork_yields (E := E) hnet hval outputs hknown
    have models {g : Nat → Bool} {a : Assignment} (ha : Holds a m'.formula) (hr : m'.Reads a g) :
        ∀ v < m'.variableCount, a v = val' g v := (hg.encodes.models a g hr).mp ha
    refine ⟨vs, m', hrun, hg.encodes.below, ?_, ?_, ?_⟩
    · exact fun g => ⟨val' g, hg.encodes.holds g, fun o l hl => hg.encodes.input o l hl g⟩
    · intro g a a' ha hr ha' hr' v hv
      rw [models ha hr v hv, models ha' hr' v hv]
    · intro g a ha hr
      refine hvs.imp fun v l h => ?_
      rw [Literal.eval_congr (models ha hr _ h.1), h.2 g]
  · intro reference referenceOutputs implementation implementationOutputs hr hi hro hio hlen hne
    exact proveLogicNetworkEquivalence_ok hs hr hi hro hio hlen hne
  · intro m net outputs vs m' hm hnet hknown hrun i j l r left right refutations hl hr hvl hvr
    obtain ⟨val, hval⟩ := hm.encodes
    obtain ⟨vs', t, hrun', val', hg, hvs⟩ := encodeNetwork_yields (E := E) hnet hval outputs hknown
    rw [hrun] at hrun'
    cases hrun'
    have means {k : Nat} {v : Literal} {o : Lit} (ho : outputs[k]? = some o) (hv : vs[k]? = some v) :
        Means m' val' v fun g => networkValue net g o := by
      obtain ⟨w, hw, hmeans⟩ := exists_of_getElem?_right hvs ho
      rw [hv] at hw
      cases hw
      exact hmeans
    exact proveEncodedLiteralEquivalence_ok hs hg.encodes (means hl hvl) (means hr hvr) refutations
  · intro net classes maxRepresentatives maxPairs maxEncodedNodes refutations hnet hknown
    obtain ⟨result, refutations', hrun, ⟨-, rfl⟩ | ⟨st, -, rfl, hst⟩⟩ :=
      proveLogicLiteralPartitions_ok hs hnet classes hknown maxRepresentatives maxPairs
        maxEncodedNodes refutations
    · exact ⟨result, [], by rw [hrun, List.append_nil], by simp⟩
    · obtain ⟨found, hfound, hall⟩ := hst.refuted
      exact ⟨result, found, by rw [hrun, hfound], hall⟩

/-! A solver that tries every assignment. -/

def assignments : Nat → List (List Bool)
  | 0 => [[]]
  | n + 1 => (assignments n).flatMap fun bs => [false :: bs, true :: bs]

theorem mem_assignments (bs : List Bool) : bs ∈ assignments bs.length := by
  induction bs with
  | nil => simp [assignments]
  | cons b bs ih =>
    refine List.mem_flatMap.mpr ⟨bs, ih, ?_⟩
    cases b <;> simp

def variableBound (formula : Formula) : Nat :=
  (formula.flatten.map fun l => l.index + 1).foldr max 0

theorem le_foldr_max {x : Nat} {xs : List Nat} (h : x ∈ xs) : x ≤ xs.foldr max 0 := by
  induction xs with
  | nil => cases h
  | cons y ys ih =>
    rw [List.foldr_cons]
    rcases List.mem_cons.mp h with rfl | h
    · exact Nat.le_max_left _ _
    · exact (ih h).trans (Nat.le_max_right _ _)

theorem below_variableBound (formula : Formula) : Below (variableBound formula) formula := by
  intro c hc l hl
  have hmem : l.index + 1 ∈ formula.flatten.map fun l => l.index + 1 :=
    List.mem_map_of_mem (List.mem_flatten.mpr ⟨c, hc, hl⟩)
  exact le_foldr_max hmem

def exhaustive : Solver E := fun formula assumptions =>
  let whole := formula ++ assumptions.map fun l => [l]
  let n := variableBound whole
  .ok (((assignments n).find? fun bs => decide (Holds (fun v => bs.getD v false) whole)).map
    fun bs => (List.range n).map fun v => ⟨v, bs.getD v false⟩)

theorem exhaustive_correct : Solver.Correct (exhaustive : Solver E) where
  answers f as := ⟨_, rfl⟩
  unsat f as h a ha := by
    have hnone := Option.map_eq_none_iff.mp (Except.ok.inj h)
    have hbelow := below_variableBound (f ++ as.map fun l => [l])
    generalize hn : variableBound (f ++ as.map fun l => [l]) = n at hnone hbelow
    have hall := List.find?_eq_none.mp hnone ((List.range n).map a) (by
      simpa using mem_assignments ((List.range n).map a))
    have hagree : ∀ v < n, ((List.range n).map a).getD v false = a v := fun v hv => by
      simp [List.getD_eq_getElem?_getD, hv]
    rw [decide_eq_true_eq, holds_congr hbelow hagree, holds_append, holds_units] at hall
    by_contra hne
    refine hall ⟨ha, fun l hl => ?_⟩
    by_contra hfalse
    exact hne ⟨l, hl, by simpa using hfalse⟩
  sat f as model h := by
    obtain ⟨bs, hfind, rfl⟩ := Option.map_eq_some_iff.mp (Except.ok.inj h)
    have hbelow := below_variableBound (f ++ as.map fun l => [l])
    have hholds := List.find?_some hfind
    rw [decide_eq_true_eq] at hholds
    constructor
    · intro l hl hnot
      obtain ⟨v, -, rfl⟩ := List.mem_map.mp hl
      obtain ⟨w, -, hw⟩ := List.mem_map.mp hnot
      simp only [Literal.not, Literal.mk.injEq] at hw
      obtain ⟨rfl, hw⟩ := hw
      simp at hw
    · intro c hc
      obtain ⟨l, hl, htrue⟩ := hholds c hc
      refine ⟨l, hl, List.mem_map.mpr ⟨l.index, List.mem_range.mpr (hbelow c hc l hl), ?_⟩⟩
      obtain ⟨v, p⟩ := l
      simpa [Literal.eval] using htrue

/-! Two conjunctions of the same inputs, taken in the other order. -/

def conjunction (first second : Nat) : LogicNetwork :=
  ⟨[⟨.constant, .FALSE, .FALSE, .FALSE, 0, 0⟩, ⟨.input, .FALSE, .FALSE, .FALSE, 0, first⟩,
    ⟨.input, .FALSE, .FALSE, .FALSE, 0, second⟩, ⟨.and, ⟨1, false⟩, ⟨2, false⟩, .FALSE, 1, 0⟩]⟩

theorem ordered_conjunction (first second : Nat) : Ordered (conjunction first second) where
  constant := ⟨_, rfl, rfl⟩
  topological i n hn l hl := by
    match i, hn with
    | 0, rfl | 1, rfl | 2, rfl => cases hl
    | 3, rfl => simp [Node.fanins, NodeKind.arity] at hl; rcases hl with rfl | rfl <;> decide
    | _ + 4, hn => simp [conjunction] at hn
  levels i n hn l hl := by
    match i, hn with
    | 0, rfl | 1, rfl | 2, rfl => cases hl
    | 3, rfl =>
      simp [Node.fanins, NodeKind.arity] at hl
      rcases hl with rfl | rfl <;> exact Nat.zero_lt_one
    | _ + 4, hn => simp [conjunction] at hn

theorem conjunction_equivalent : ∃ report, proveLogicNetworkEquivalence (exhaustive : Solver Unit)
    (conjunction 7 8) [⟨3, false⟩] (conjunction 8 7) [⟨3, false⟩] = .ok (.proved report) := by
  obtain ⟨outcome, hrun, hiff⟩ := (encoding_exact (exhaustive_correct (E := Unit))).2.1
    (conjunction 7 8) [⟨3, false⟩] (conjunction 8 7) [⟨3, false⟩] (ordered_conjunction 7 8)
    (ordered_conjunction 8 7) (by decide) (by decide) rfl (by simp)
  obtain ⟨report, rfl⟩ := hiff.mpr fun g pair hpair => by
    obtain rfl := List.mem_singleton.mp hpair
    change ((g 7 ^^ false) && (g 8 ^^ false) ^^ false) = ((g 8 ^^ false) && (g 7 ^^ false) ^^ false)
    cases g 7 <;> cases g 8 <;> rfl
  exact ⟨report, hrun⟩

end Opto.Formal
