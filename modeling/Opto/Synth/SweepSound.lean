import Opto.Formal.CnfExact
import Opto.Logic.CanonicalForm
import Opto.Synth.SweepProof

/-!
# Sweeping preserves every function

Rebuilding with proved substitutions maps every live node to a literal of its
own function. The maps of successive rounds compose, so any number of rounds
keeps the functions of the original graph, and no expectation of the code fails.
-/

namespace Opto.Synth

open Logic Formal Cnf

variable {E : Type} {net : LogicNetwork} {roots : List Lit} {live : List Bool}
  {substitutions : Substitutions} {solve : Solver E}

/-! Rebuilding. -/

/-- The nodes before `k` are copied. -/
structure Rebuilt (net : LogicNetwork) (live : List Bool) (k : Nat) (st : Rebuilding)
    (b : LogicBuilder) : Prop where
  inv : Inv b
  length : st.remap.length = k
  variables_denote : ∀ o l, st.variableMap.lookup o = some l → Denotes b l fun g => g o
  remapped : Remapped net b st.remap
  mapped : ∀ i < k, live[i]? = some true → ∃ l, st.remap[i]?.join = some l

theorem Rebuilt.append {k : Nat} {st : Rebuilding} {b t : LogicBuilder} (h : Rebuilt net live k st b)
    (hg : Grows b t) {entry : Option Lit} (hentry : live[k]? = some true → ∃ l, entry = some l)
    (hvalue : ∀ l, entry = some l → Denotes t l fun g => networkValue net g ⟨k, false⟩)
    {variableMap : List (Nat × Lit)}
    (hvariables : ∀ o l, variableMap.lookup o = some l → Denotes t l fun g => g o) :
    Rebuilt net live (k + 1) ⟨variableMap, st.remap ++ [entry]⟩ t where
  inv := hg.inv
  length := by rw [List.length_append, h.length]; rfl
  variables_denote := hvariables
  remapped i l hl := by
    rcases Nat.lt_or_ge i st.remap.length with hi | hi
    · rw [List.getElem?_append_left hi] at hl
      exact (h.remapped i l hl).grows h.inv hg
    · rw [List.getElem?_append_right hi] at hl
      cases hj : i - st.remap.length with
      | zero =>
        rw [hj] at hl
        obtain rfl : i = k := by rw [h.length] at hi hj; omega
        exact hvalue l hl
      | succ j => rw [hj] at hl; cases hl
  mapped i hi hlive := by
    rcases Nat.lt_or_ge i k with hlt | hge
    · obtain ⟨l, hl⟩ := h.mapped i hlt hlive
      exact ⟨l, by rw [List.getElem?_append_left (h.length.symm ▸ hlt)]; exact hl⟩
    · obtain rfl : i = k := by omega
      obtain ⟨l, rfl⟩ := hentry hlive
      exact ⟨l, by rw [List.getElem?_append_right h.length.le, h.length, Nat.sub_self]; rfl⟩

theorem Rebuilt.literal {k : Nat} {st : Rebuilding} {b : LogicBuilder} (h : Rebuilt net live k st b)
    {l : Lit} (hk : l.node < k) (hlive : live[l.node]? = some true) :
    ∃ m, remapLiteral st.remap l = some m := by
  obtain ⟨m, hm⟩ := h.mapped l.node hk hlive
  exact ⟨_, by rw [remapLiteral, hm]; rfl⟩

/-- The literal of the node that is next, in a graph grown from the one before. -/
theorem Rebuilt.next {k : Nat} {st : Rebuilding} {b t : LogicBuilder} (h : Rebuilt net live k st b)
    {l : Lit} (hl : Builds b (fun g => networkValue net g ⟨k, false⟩) l t) :
    Rebuilt net live (k + 1) { st with remap := st.remap ++ [some l] } t := by
  refine h.append hl.1 (fun _ => ⟨l, rfl⟩) ?_ fun o m hm => ?_
  · intro m hm
    cases hm
    exact hl.2
  · exact (h.variables_denote o m hm).grows h.inv hl.1

theorem rebuildGate_ensures (hnet : Ordered net) (hlive : Live net roots live) {k : Nat} {n : Node}
    (hn : net.nodes[k]? = some n) (hflag : live[k]? = some true) (hgate : n.kind.IsGate)
    {st : Rebuilding} {b : LogicBuilder} (h : Rebuilt net live k st b) (message : String) :
    Ensures b (copyGate st.remap message n >>= fun mapped =>
      pure { st with remap := st.remap ++ [some mapped] }) (Rebuilt net live (k + 1)) IsCapacity := by
  have hfanins : ∀ f ∈ n.fanins, ∃ m, remapLiteral st.remap f = some m := fun f hf =>
    h.literal (hnet.topological k n hn f hf) (hlive.fanins k n hflag hn f hf)
  apply Ensures.bind (copyGate_builds h.inv h.remapped message hgate hfanins false)
  intro l t hl
  apply Ensures.pure
  apply h.next
  refine ⟨hl.1, hl.2.congr fun g => ?_⟩
  rw [networkValue_node hnet.topological hn]
  exact n.denote_gate hgate _ _ _

theorem rebuildNode_ensures (hnet : Ordered net) (hlive : Live net roots live)
    (hsound : substitutions.Sound net live) {k : Nat} {n : Node}
    {substitution : Option Substitution} (hn : net.nodes[k]? = some n) (hflag : live[k]? = some true)
    (hsub : substitutions[k]? = some substitution) {st : Rebuilding} {b : LogicBuilder}
    (h : Rebuilt net live k st b) : Ensures b (rebuildNode substitution n st)
      (Rebuilt net live (k + 1)) IsCapacity := by
  have hself := Grows.refl h.inv
  have hvalue := networkValue_node hnet.topological hn
  cases substitution with
  | some s =>
    obtain ⟨target, htarget⟩ := h.mapped s.target (hsound.earlier k s hsub) (hsound.live k s hsub)
    simp only [rebuildNode]
    rw [expect_bind htarget]
    apply Ensures.pure
    apply h.next
    refine ⟨hself, ((h.remapped _ _ htarget).withPhase s.inverted).congr fun g => ?_⟩
    exact (hsound.equal k s hsub g).symm
  | none =>
    cases hk : n.kind with
    | constant =>
      simp only [rebuildNode, hk]
      apply Ensures.pure
      apply h.next
      exact ⟨hself, (denotes_constant h.inv false).congr fun g => by rw [hvalue, Node.denote, hk]⟩
    | input =>
      have horigin (g : Nat → Bool) : g n.origin = networkValue net g ⟨k, false⟩ := by
        rw [hvalue, Node.denote, hk]
      simp only [rebuildNode, hk]
      cases hlookup : st.variableMap.lookup n.origin with
      | some l =>
        apply Ensures.pure
        apply h.next
        exact ⟨hself, (h.variables_denote _ l hlookup).congr horigin⟩
      | none =>
        apply Ensures.bind (variable_builds h.inv n.origin)
        intro l t hl
        apply Ensures.pure
        refine h.append hl.1 (fun _ => ⟨l, rfl⟩) (fun m hm => ?_) fun o m hm => ?_
        · cases hm
          exact hl.2.congr horigin
        · rw [Opto.lookup_cons] at hm
          split_ifs at hm with ho
          · cases hm
            subst ho
            exact hl.2
          · exact (h.variables_denote o m hm).grows h.inv hl.1
    | and | xor | mux =>
      simp only [rebuildNode, hk]
      exact rebuildGate_ensures hnet hlive hn hflag (by simp [hk, NodeKind.IsGate]) h _

theorem rebuildStep_ensures (hnet : Ordered net) (hlive : Live net roots live)
    (hsound : substitutions.Sound net live) {k : Nat} {n : Node} {flag : Bool}
    {substitution : Option Substitution} (hn : net.nodes[k]? = some n) (hflag : live[k]? = some flag)
    (hsub : substitutions[k]? = some substitution) {st : Rebuilding} {b : LogicBuilder}
    (h : Rebuilt net live k st b) : Ensures b (rebuildStep st (n, flag, substitution))
      (Rebuilt net live (k + 1)) IsCapacity := by
  rw [rebuildStep]
  cases flag with
  | true => exact rebuildNode_ensures hnet hlive hsound hn hflag hsub h
  | false =>
    apply Ensures.pure
    exact h.append (Grows.refl h.inv) (fun hc => by rw [hflag] at hc; cases hc)
      (fun l hl => by cases hl) h.variables_denote

/-! The product of one rebuilding. -/

theorem Preserves.compose {middle target : LogicNetwork} {first second : List (Option Lit)}
    (hfirst : Preserves net middle first) (hsecond : Preserves middle target second) :
    Preserves net target (composeRemaps first second) := by
  intro i l hl
  rw [composeRemaps, List.getElem?_map] at hl
  cases hi : first[i]?.join with
  | none =>
    cases hentry : first[i]? with
    | none => rw [hentry] at hl; cases hl
    | some entry =>
      rw [hentry] at hi hl
      obtain rfl : entry = none := hi
      cases hl
  | some m =>
    rw [Option.join_eq_some_iff.mp hi] at hl
    obtain ⟨hlt, hvalue⟩ := hsecond.literal hl
    exact ⟨hlt, fun g => (hvalue g).trans ((hfirst i m hi).2 g)⟩

theorem remapLiteral_withPhase (remap : List (Option Lit)) (l : Lit) (p : Bool) :
    remapLiteral remap (withPhase l p) = (remapLiteral remap l).map (withPhase · p) := by
  rw [remapLiteral, remapLiteral, withPhase_node, Option.map_map]
  congr 1
  funext m
  cases hl : l.isInverted <;> cases p <;>
    simp [withPhase, Lit.inverted, hl]

theorem remapLiteral_compose {first second : List (Option Lit)} {l m k : Lit}
    (hm : remapLiteral first l = some m) (hk : remapLiteral second m = some k) :
    remapLiteral (composeRemaps first second) l = some k := by
  obtain ⟨mapped, hmapped, rfl⟩ := Option.map_eq_some_iff.mp hm
  have hentry : (composeRemaps first second)[l.node]?.join = remapLiteral second mapped := by
    rw [composeRemaps, List.getElem?_map, Option.join_eq_some_iff.mp hmapped]
    rfl
  rw [remapLiteral, hentry]
  exact (remapLiteral_withPhase second mapped l.isInverted).symm.trans hk

structure Rebuilds (net : LogicNetwork) (live : List Bool) (product : TransformProduct) : Prop where
  ordered : Ordered product.network
  preserves : Preserves net product.network product.remap
  mapped : ∀ i : Nat, live[i]? = some true → ∃ l, product.remap[i]?.join = some l

theorem rebuild_settles (hnet : Ordered net) (hlive : Live net roots live)
    (hsound : substitutions.Sound net live) :
    Settles (rebuild net live substitutions) (Rebuilds net live) IsCapacity := by
  have hloop : Ensures .new ((net.nodes.zip (live.zip substitutions)).foldlM rebuildStep ⟨[], []⟩)
      (Rebuilt net live (0 + (net.nodes.zip (live.zip substitutions)).length)) IsCapacity := by
    apply Ensures.foldlM (Rebuilt net live)
    · intro j entry hentry st b hst
      obtain ⟨hn, hrest⟩ := List.getElem?_zip_eq_some.mp hentry
      obtain ⟨hflag, hsub⟩ := List.getElem?_zip_eq_some.mp hrest
      rw [Nat.zero_add] at hst ⊢
      exact rebuildStep_ensures hnet hlive hsound hn hflag hsub hst
    · exact ⟨inv_new, rfl, nofun, nofun, nofun⟩
  have hlength : (net.nodes.zip (live.zip substitutions)).length = net.nodeCount := by
    rw [List.length_zip, List.length_zip, hlive.length, hsound.length, Nat.min_self]
    exact Nat.min_self _
  rw [Nat.zero_add, hlength] at hloop
  rw [rebuild]
  apply Settles.bind hloop
  rintro ⟨st, b⟩ hst
  refine ⟨ordered_freeze hst.inv, fun i l hl => ?_, fun i hi => ?_⟩
  · exact ⟨(hst.remapped i l hl).valid.1, (hst.remapped i l hl).value⟩
  · apply hst.mapped i ?_ hi
    rw [← hlive.length]
    exact (List.getElem?_eq_some_iff.mp hi).1

/-! Rounds. -/

theorem liveCone_ok (hnet : Ordered net) (hroots : ∀ r ∈ roots, r.node < net.nodeCount) :
    ∃ live, liveCone net roots = .ok live ∧ Live net roots live := by
  obtain ⟨live, hrun, h⟩ := liveNodes_ok hnet hroots
  have keep (i : Nat) (hi : live[i]? = some true) : (live.set 0 true)[i]? = some true := by
    rw [List.getElem?_set]
    split_ifs with he hlt
    · rfl
    · subst he
      rw [List.getElem?_eq_none (by omega)] at hi
      cases hi
    · exact hi
  refine ⟨live.set 0 true, by rw [liveCone, hrun]; rfl, ?_, fun r hr => keep _ (h.roots r hr), ?_⟩
  · rw [List.length_set]; exact h.length
  · intro i n hi hn f hf
    apply keep
    rcases Nat.eq_zero_or_pos i with rfl | hpos
    · -- the constant has no fanins
      obtain ⟨constant, hconstant, hk⟩ := hnet.constant
      cases hconstant.symm.trans hn
      simp [Node.fanins, hk, NodeKind.arity] at hf
    · rw [List.getElem?_set_ne (Nat.ne_of_lt hpos)] at hi
      exact h.fanins i n hi hn f hf

/-- What the subject of a round is to the original graph. -/
structure Sweep.Tracks (net : LogicNetwork) (roots : List Lit) (st : Sweep) : Prop where
  ordered : Ordered st.subject
  live : Live st.subject st.roots st.live
  start : st.reduced = none → st.subject = net ∧ st.roots = roots
  reduced : ∀ p, st.reduced = some p → p.network = st.subject ∧ Preserves net st.subject p.remap ∧
    List.Forall₂ (fun r l => remapLiteral p.remap r = some l) roots st.roots

theorem Sweep.merge_settles {st : Sweep} (h : st.Tracks net roots)
    (hsound : substitutions.Sound st.subject st.live) :
    Settles (st.merge substitutions) (Sweep.Tracks net roots) IsCapacity := by
  rw [Sweep.merge]
  apply Settles.bind (rebuild_settles h.ordered h.live hsound)
  intro product hproduct
  have hroot : ∀ r ∈ st.roots, ∃ l, expect (remapLiteral product.remap r)
      "AXM graph is topological within its live cone" = .ok l ∧
      remapLiteral product.remap r = some l := by
    intro r hr
    obtain ⟨l, hl⟩ := hproduct.mapped r.node (h.live.roots r hr)
    have hmapped : remapLiteral product.remap r = some (withPhase l r.isInverted) := by
      rw [remapLiteral, hl]
      rfl
    exact ⟨_, by rw [hmapped]; rfl, hmapped⟩
  obtain ⟨mapped, hrun, hmapped⟩ := mapM_ok hroot
  have hrange : ∀ l ∈ mapped, l.node < product.network.nodeCount := by
    intro l hl
    obtain ⟨r, -, hr⟩ := exists_of_mem_right hmapped hl
    exact (hproduct.preserves.literal hr).1
  obtain ⟨live, hcone, hlive⟩ := liveCone_ok hproduct.ordered hrange
  simp only [hrun, bind, Except.bind]
  cases hreduced : st.reduced with
  | none =>
    simp only [hcone]
    obtain ⟨rfl, rfl⟩ := h.start hreduced
    refine ⟨hproduct.ordered, hlive, nofun, fun p hp => ?_⟩
    cases hp
    exact ⟨rfl, hproduct.preserves, hmapped⟩
  | some previous =>
    obtain ⟨-, hpreserves, hroots⟩ := h.reduced previous hreduced
    simp only [TransformProduct.compose, hcone]
    refine ⟨hproduct.ordered, hlive, nofun, fun p hp => ?_⟩
    cases hp
    refine ⟨rfl, hpreserves.compose hproduct.preserves, ?_⟩
    apply forall₂_trans ?_ hroots hmapped
    exact fun r m l => remapLiteral_compose

theorem Sweep.proposed_ok (hs : solve.Correct) {st : Sweep} (h : st.Tracks net roots) :
    ∃ round substitutions, st.proposed solve = .ok (round, substitutions) ∧
      substitutions.Sound st.subject st.live := by
  apply prove_ok hs h.ordered
  intro members hmembers
  rw [← h.live.length]
  exact nominate_live _ _ _ members hmembers

/-- The other panics of a sweep are expectations that hold. -/
def SweepError.IsCapacity (e : SweepError E) : Prop := e = .panic .capacity

theorem Sweep.Tracks.refined {st : Sweep} (h : st.Tracks net roots)
    (refutations : List BoundaryRefutation) : (st.refined refutations).1.Tracks net roots := by
  rw [Sweep.refined]
  split_ifs
  · exact h
  · obtain ⟨stimulus, changed⟩ := st.stimulus.learn refutations
    cases changed <;> exact ⟨h.ordered, h.live, h.start, h.reduced⟩

theorem Sweep.round_settles (hs : solve.Correct) {st : Sweep} (h : st.Tracks net roots) :
    Settles (st.round solve) (fun r => r.1.Tracks net roots) SweepError.IsCapacity := by
  rw [Sweep.round]
  split_ifs with hbudget
  · exact ⟨h.ordered, h.live, h.start, h.reduced⟩
  obtain ⟨signatures, classes, metrics⟩ := st.nominated
  dsimp only
  split_ifs with hclasses
  · exact ⟨h.ordered, h.live, h.start, h.reduced⟩
  obtain ⟨round, substitutions, hrun, hsound⟩ := Sweep.proposed_ok hs h
  rw [hrun]
  refine Settles.bind (Q := Sweep.Tracks net roots) ?_ fun st' h' => h'.refined round.refutations
  apply Settles.mapError (E := IsCapacity) ?_ fun e he => by rw [he]; rfl
  dsimp only
  split_ifs with hproved
  · exact Sweep.merge_settles ⟨h.ordered, h.live, h.start, h.reduced⟩ hsound
  · exact ⟨h.ordered, h.live, h.start, h.reduced⟩

theorem Sweep.rounds_settles (hs : solve.Correct) (count : Nat) {st : Sweep}
    (h : st.Tracks net roots) :
    Settles (st.rounds solve count) (Sweep.Tracks net roots) SweepError.IsCapacity := by
  induction count generalizing st with
  | zero => exact h
  | succ count ih =>
    rw [Sweep.rounds]
    apply Settles.bind (Sweep.round_settles hs h)
    rintro ⟨st', continues⟩ h'
    cases continues with
    | true => exact ih h'
    | false => exact h'

theorem Sweep.start_ok (hnet : Ordered net) (hroots : ∀ r ∈ roots, r.node < net.nodeCount)
    (stimulus : Stimulus) (metrics : SweepMetrics) :
    ∃ st, Sweep.start net roots stimulus metrics = .ok st ∧ st.Tracks net roots := by
  obtain ⟨live, hrun, hlive⟩ := liveCone_ok hnet hroots
  refine ⟨⟨stimulus, MAX_PROOF_PAIRS, none, roots, net, live, .new net.nodeCount, 0, metrics⟩, ?_,
    hnet, hlive, fun _ => ⟨rfl, rfl⟩, nofun⟩
  rw [Sweep.start, hrun]
  rfl

/-- The states at the start of the rounds. -/
inductive Sweep.Reached (solve : Solver E) (net : LogicNetwork) (roots : List Lit)
    (stimulus : Stimulus) (metrics : SweepMetrics) : Sweep → Prop
  | start {st : Sweep} : Sweep.start net roots stimulus metrics = .ok st →
      Reached solve net roots stimulus metrics st
  | round {st next : Sweep} : Reached solve net roots stimulus metrics st →
      st.round solve = .ok (next, true) → Reached solve net roots stimulus metrics next

theorem Sweep.Reached.tracks (hs : solve.Correct) (hnet : Ordered net)
    (hroots : ∀ r ∈ roots, r.node < net.nodeCount) {stimulus : Stimulus} {metrics : SweepMetrics}
    {st : Sweep} (h : Sweep.Reached solve net roots stimulus metrics st) : st.Tracks net roots := by
  induction h with
  | start hstart =>
    obtain ⟨st, hrun, htracks⟩ := Sweep.start_ok hnet hroots stimulus metrics
    cases hrun.symm.trans hstart
    exact htracks
  | round _ hround ih => exact (Sweep.round_settles hs ih).ok hround

/-- Every root keeps a literal, and every mapped node its function of the boundary. -/
def Keeps (net : LogicNetwork) (roots : List Lit) (product : TransformProduct) : Prop :=
  (∀ r ∈ roots, ∃ l, remapLiteral product.remap r = some l) ∧
    Preserves net product.network product.remap

/-- With a correct solver, any stimulus and any number of rounds, a reduction maps
every root and keeps the function of every node it maps, unless the builder runs out
of identifiers; and in every round a node is substituted by an earlier one equal to it. -/
theorem sweep_sound (hs : solve.Correct) {b : LogicBuilder} (hb : Reachable b)
    (hroots : ∀ r ∈ roots, r.node < b.nodes.length) (stimulus : Stimulus) (metrics : SweepMetrics) :
    (∀ count, match reduceFrom solve b.freeze roots stimulus count metrics with
      | .ok (reduced, _) => ∀ product, reduced = some product → Keeps b.freeze roots product
      | .error e => e = .panic .capacity) ∧
    ∀ st, Sweep.Reached solve b.freeze roots stimulus metrics st →
      ∃ round substitutions, st.proposed solve = .ok (round, substitutions) ∧
        ∀ (i : Nat) (s : Substitution), substitutions[i]? = some (some s) → s.target < i ∧
          ∀ g, networkValue st.subject g ⟨i, false⟩ =
            (networkValue st.subject g ⟨s.target, false⟩ ^^ s.inverted) := by
  have hnet := ordered_freeze hb.inv
  constructor
  · intro count
    obtain ⟨st, hstart, htracks⟩ := Sweep.start_ok hnet hroots stimulus metrics
    have hrounds := Sweep.rounds_settles hs count htracks
    rw [reduceFrom, hstart]
    change match st.rounds solve count >>= fun st => .ok (st.reduced, st.metrics) with
      | .ok (reduced, _) => ∀ product, reduced = some product → Keeps b.freeze roots product
      | .error e => e = .panic .capacity
    cases hrun : st.rounds solve count with
    | error e => rw [hrun] at hrounds; exact hrounds
    | ok final =>
      have hfinal : final.Tracks b.freeze roots := hrounds.ok hrun
      intro product hproduct
      obtain ⟨hsame, hpreserves, hmapped⟩ := hfinal.reduced product hproduct
      refine ⟨fun r hr => ?_, hsame.symm ▸ hpreserves⟩
      obtain ⟨l, -, hl⟩ := exists_of_mem_left hmapped hr
      exact ⟨l, hl⟩
  · intro st hst
    obtain ⟨round, substitutions, hrun, hsound⟩ := Sweep.proposed_ok hs (hst.tracks hs hnet hroots)
    exact ⟨round, substitutions, hrun, fun i s h => ⟨hsound.earlier i s h, hsound.equal i s h⟩⟩

/-- Node five is the complement of the first input: the disjunction of its two
conjunctions with the second. -/
def cofactors : LogicBuilder :=
  ⟨[⟨.constant, .FALSE, .FALSE, .FALSE, 0, 0⟩, ⟨.input, .FALSE, .FALSE, .FALSE, 0, 1⟩,
      ⟨.input, .FALSE, .FALSE, .FALSE, 0, 2⟩, ⟨.and, ⟨1, false⟩, ⟨2, false⟩, .FALSE, 1, 0⟩,
      ⟨.and, ⟨1, false⟩, ⟨2, true⟩, .FALSE, 1, 0⟩, ⟨.and, ⟨3, true⟩, ⟨4, true⟩, .FALSE, 2, 0⟩],
    [(.and ⟨3, true⟩ ⟨4, true⟩, 5), (.and ⟨1, false⟩ ⟨2, true⟩, 4),
      (.and ⟨1, false⟩ ⟨2, false⟩, 3)]⟩

theorem reachable_cofactors : Reachable cofactors := by
  have first : Reachable ⟨cofactors.nodes.take 2, []⟩ :=
    Reachable.new.ok (c := .input 1) nofun (l := ⟨1, false⟩) rfl
  have second : Reachable ⟨cofactors.nodes.take 3, []⟩ :=
    first.ok (c := .input 2) nofun (l := ⟨2, false⟩) rfl
  have third : Reachable ⟨cofactors.nodes.take 4, cofactors.interned.drop 2⟩ :=
    second.ok (c := .and ⟨1, false⟩ ⟨2, false⟩ 0) (by simp [Call.args, Valid, cofactors])
      (l := ⟨3, false⟩) rfl
  have fourth : Reachable ⟨cofactors.nodes.take 5, cofactors.interned.drop 1⟩ :=
    third.ok (c := .and ⟨1, false⟩ ⟨2, true⟩ 0) (by simp [Call.args, Valid, cofactors])
      (l := ⟨4, false⟩) rfl
  exact fourth.ok (c := .and ⟨3, true⟩ ⟨4, true⟩ 0) (by simp [Call.args, Valid, cofactors])
    (l := ⟨5, false⟩) rfl

/-- Whatever the rounds merge, the root reads the first input. -/
theorem cofactors_swept : match reduce (exhaustive : Solver Unit) cofactors.freeze [⟨5, true⟩]
      ⟨0, 0, 0, 0, 0, false⟩ with
    | .ok (some product, _) => ∃ l, remapLiteral product.remap ⟨5, true⟩ = some l ∧
        ∀ g, networkValue product.network g l = g 1
    | .ok (none, _) => networkValue cofactors.freeze (fun _ => true) ⟨5, true⟩ = true
    | .error e => e = .panic .capacity := by
  have hroot : ∀ r ∈ [(⟨5, true⟩ : Lit)], r.node < cofactors.nodes.length := by simp [cofactors]
  have h := (sweep_sound (exhaustive_correct (E := Unit)) reachable_cofactors hroot .random
    ⟨0, 0, 0, 0, 0, false⟩).1 MAX_REFINEMENT_ROUNDS
  have hvalue (g : Nat → Bool) : networkValue cofactors.freeze g ⟨5, true⟩ = g 1 := by
    change (((((g 1 ^^ false) && (g 2 ^^ false)) ^^ true) &&
      (((g 1 ^^ false) && (g 2 ^^ true)) ^^ true)) ^^ true) = g 1
    cases g 1 <;> cases g 2 <;> rfl
  rw [reduce]
  cases hrun : reduceFrom (exhaustive : Solver Unit) cofactors.freeze [⟨5, true⟩] .random
      MAX_REFINEMENT_ROUNDS ⟨0, 0, 0, 0, 0, false⟩ with
  | error e => rw [hrun] at h; exact h
  | ok result =>
    rw [hrun] at h
    obtain ⟨reduced, metrics⟩ := result
    cases reduced with
    | none => exact hvalue _
    | some product =>
      obtain ⟨hroots, hpreserves⟩ := h product rfl
      obtain ⟨l, hl⟩ := hroots ⟨5, true⟩ List.mem_cons_self
      exact ⟨l, hl, fun g => ((hpreserves.literal hl).2 g).trans (hvalue g)⟩

end Opto.Synth
