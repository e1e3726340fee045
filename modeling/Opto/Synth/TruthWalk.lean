import Mathlib.Algebra.Order.Group.Nat
import Opto.Synth.CutRows
import Opto.Synth.TruthExact

/-!
# Running the truth-table walk

The stack keeps every fanin of an expanded node above it until its entry is
current, so the walk ends with the root current and its word exact. What the
tables of a cut and of a window hold follows.
-/

namespace Opto.Synth

open Logic BitTable

variable {net : LogicNetwork} {count : Nat} {F : Forcing} {validBits : BitVec 64}

namespace TruthScratch

/-- Below an expanded node, its fanins are done or still come before it. -/
def Ready (net : LogicNetwork) (done : Nat → Prop) : List (Nat × Bool) → Prop
  | [] => True
  | (node, expanded) :: pending =>
    (expanded = true → ∀ n : Node, net.nodes[node]? = some n → ∀ f ∈ n.fanins, done f.node) ∧
      Ready net (fun i => i = node ∨ done i) pending

theorem Ready.mono {done done' : Nat → Prop} {pending : List (Nat × Bool)}
    (h : Ready net done pending) (hsub : ∀ i, done i → done' i) : Ready net done' pending := by
  induction pending generalizing done done' with
  | nil => trivial
  | cons entry pending ih =>
    exact ⟨fun he n hn f hf => hsub _ (h.1 he n hn f hf), ih h.2 fun i hi => hi.imp_right (hsub i)⟩

theorem Ready.push {done : Nat → Prop} {pending : List (Nat × Bool)} (nodes : List Nat)
    (h : Ready net (fun i => i ∈ nodes ∨ done i) pending) :
    Ready net done (nodes.map (·, false) ++ pending) := by
  induction nodes generalizing done with
  | nil => exact h.mono fun i hi => hi.elim (fun hi => by cases hi) id
  | cons node nodes ih =>
    refine And.intro (fun he => by cases he) (ih (h.mono fun i hi => ?_))
    rcases hi with hi | hi
    · rcases List.mem_cons.mp hi with rfl | hi
      · exact .inr (.inl rfl)
      · exact .inl hi
    · exact .inr (.inr hi)

structure Walking (net : LogicNetwork) (count : Nat) (F : Forcing) (start : TruthScratch) (root : Nat)
    (s : TruthScratch) (pending : List (Nat × Bool)) : Prop where
  tracks : Tracks net count F s
  known : ∀ entry ∈ pending, entry.1 < net.nodeCount
  ready : Ready net (fun i => s.contains i = true) pending
  keeps : ∀ i, start.contains i = true → s.contains i = true
  reached : s.contains root = true ∨ root ∈ pending.map (·.1)

/-- An expanded node is paid for by its expansion. -/
def cost (net : LogicNetwork) : Nat × Bool → Nat
  | (node, expanded) => if expanded then 1 else 2 * weight net.nodes ⟨node, false⟩

theorem sum_cost_fanins (fanins : List Lit) :
    ((fanins.map (·.node)).map fun fanin => cost net (fanin, false)).sum =
      2 * (fanins.map (weight net.nodes)).sum := by
  induction fanins with
  | nil => rfl
  | cons f fanins ih =>
    have hf : cost net (f.node, false) = 2 * weight net.nodes f := rfl
    rw [List.map_cons, List.map_cons, List.sum_cons, ih, hf, List.map_cons, List.sum_cons]
    omega

theorem cost_expand (ht : Topological net.nodes) {i : Nat} {n : Node} (hn : net.nodes[i]? = some n)
    (keep : Nat → Bool) : ((((((n.fanins.map (·.node)).filter keep).reverse.map
      fun fanin => (fanin, false)) ++ [(i, true)])).map (cost net)).sum < cost net (i, false) := by
  have hsub : ((n.fanins.map (·.node)).filter keep).reverse.Sublist (n.fanins.map (·.node)).reverse :=
    List.reverse_sublist.mpr List.filter_sublist
  have hle := (hsub.map fun fanin => cost net (fanin, false)).sum_le_sum fun _ _ => Nat.zero_le _
  rw [List.map_reverse (l := n.fanins.map (·.node)), List.sum_reverse, sum_cost_fanins] at hle
  have hweight := weight_node ht (l := ⟨i, false⟩) hn
  simp only [List.map_append, List.map_map, List.sum_append, Function.comp_def, List.map_cons,
    List.map_nil, List.sum_cons, List.sum_nil]
  have hexpanded : cost net (i, true) = 1 := rfl
  have hfirst : cost net (i, false) = 2 * weight net.nodes ⟨i, false⟩ := rfl
  omega

section Step

variable {start s : TruthScratch} {root node : Nat} {pending : List (Nat × Bool)}

theorem Walking.skip {expanded : Bool}
    (h : Walking net count F start root s ((node, expanded) :: pending))
    (hcurrent : s.contains node = true) : Walking net count F start root s pending where
  tracks := h.tracks
  known e he := h.known e (List.mem_cons_of_mem _ he)
  ready := h.ready.2.mono fun i hi => hi.elim (fun hi => hi ▸ hcurrent) id
  keeps := h.keeps
  reached := by
    rcases h.reached with hr | hr
    · exact .inl hr
    · rcases List.mem_cons.mp hr with hr | hr
      · exact .inl (hr ▸ hcurrent)
      · exact .inr hr

theorem Walking.expand (hnet : Ordered net) {n : Node} (hn : net.nodes[node]? = some n)
    (h : Walking net count F start root s ((node, false) :: pending)) :
    Walking net count F start root s
      (((((n.fanins.map (·.node)).filter fun fanin => !s.contains fanin).reverse.map
        fun fanin => (fanin, false)) ++ [(node, true)]) ++ pending) where
  tracks := h.tracks
  known e he := by
    rcases List.mem_append.mp he with he | he
    · rcases List.mem_append.mp he with he | he
      · obtain ⟨i, hi, rfl⟩ := List.mem_map.mp he
        obtain ⟨f, hf, rfl⟩ := List.mem_map.mp (List.mem_of_mem_filter (List.mem_reverse.mp hi))
        exact hnet.fanin_lt hn hf
      · rw [List.mem_singleton.mp he]
        exact (List.getElem?_eq_some_iff.mp hn).1
    · exact h.known e (List.mem_cons_of_mem _ he)
  ready := by
    rw [List.append_assoc]
    refine Ready.push _ ⟨fun _ m hm f hf => ?_, h.ready.2.mono fun i hi => hi.imp_right .inr⟩
    -- a fanin that is not current has just been pushed
    obtain rfl : n = m := Option.some.inj (hn.symm.trans hm)
    by_cases hc : s.contains f.node = true
    · exact .inr hc
    · refine .inl (List.mem_reverse.mpr (List.mem_filter.mpr ⟨List.mem_map_of_mem hf, ?_⟩))
      rw [Bool.eq_false_iff.mpr hc]
      rfl
  keeps := h.keeps
  reached := by
    refine h.reached.imp_right fun hr => ?_
    rw [List.map_append, List.map_append, List.mem_append, List.mem_append]
    rcases List.mem_cons.mp hr with hr | hr
    · exact .inl (.inr (hr ▸ List.mem_cons_self))
    · exact .inr hr

theorem Walking.settle {t : TruthScratch} {bits : BitVec 64}
    (h : Walking net count F start root s ((node, true) :: pending))
    (hcarries : Carries count bits (forcedBit net F ⟨node, false⟩)) (hstamped : Stamped net.nodeCount t)
    (hcontains : ∀ i, t.contains i = true ↔ i = node ∨ s.contains i = true)
    (hself : t.bits[node]? = some bits) (hother : ∀ i, i ≠ node → t.bits[i]? = s.bits[i]?) :
    Walking net count F start root t pending where
  tracks := {
    stamped := hstamped
    held := fun i hi => (hcontains i).mpr (.inr (h.tracks.held i hi))
    carries := fun i word hi hword => by
      by_cases he : i = node
      · rw [he, hself] at hword
        cases hword
        rwa [he]
      · rw [hother i he] at hword
        exact h.tracks.carries i word (((hcontains i).mp hi).resolve_left he) hword }
  known e he := h.known e (List.mem_cons_of_mem _ he)
  ready := h.ready.2.mono fun i hi => (hcontains i).mpr hi
  keeps i hi := (hcontains i).mpr (.inr (h.keeps i hi))
  reached := by
    rcases h.reached with hr | hr
    · exact .inl ((hcontains root).mpr (.inr hr))
    · rcases List.mem_cons.mp hr with hr | hr
      · exact .inl ((hcontains root).mpr (.inl hr))
      · exact .inr hr

end Step

theorem visit_walking (hnet : Ordered net) (hmask : Carries count validBits fun _ => true)
    {start : TruthScratch} {root : Nat} (s : TruthScratch) (entry : Nat × Bool)
    (pending : List (Nat × Bool)) (h : Walking net count F start root s (entry :: pending)) :
    ∃ t pushed, visit net validBits s entry = some (t, pushed) ∧
      Walking net count F start root t (pushed ++ pending) ∧
      (pushed.map (cost net)).sum < cost net entry := by
  obtain ⟨node, expanded⟩ := entry
  have hknown : node < net.nodes.length := h.known _ List.mem_cons_self
  have hn := List.getElem?_eq_getElem hknown
  by_cases hcurrent : s.contains node = true
  · have hpos : 0 < cost net (node, expanded) := by
      have := weight_pos net.nodes ⟨node, false⟩
      rw [cost]
      split_ifs <;> omega
    exact ⟨s, [], by rw [visit, if_pos hcurrent], h.skip hcurrent, hpos⟩
  · have hfree : F node = none := by
      by_contra hheld
      exact hcurrent (h.tracks.held node (Option.isSome_iff_ne_none.mpr hheld))
    cases expanded with
    | false =>
      refine ⟨s, _, ?_, h.expand hnet hn, cost_expand hnet.topological hn _⟩
      simp only [visit, if_neg hcurrent, hn, Option.bind_eq_bind, Option.bind_some,
        Bool.false_eq_true, if_false]
      rfl
    | true =>
      obtain ⟨bits, hbits, hcarries⟩ :=
        h.tracks.nodeBits hnet.topological hmask hn hfree (h.ready.1 rfl _ hn)
      obtain ⟨t, hset, hstamped, hcontains, hself, hother⟩ := h.tracks.stamped.set hknown bits
      refine ⟨t, [], ?_, h.settle hcarries hstamped hcontains hself hother, Nat.one_pos⟩
      simp only [visit, if_neg hcurrent, hn, Option.bind_eq_bind, Option.bind_some, if_true,
        hbits, hset]
      rfl

/-- The walk from the roots ends, and every root is current. -/
theorem evaluate_tracks (hnet : Ordered net) (hmask : Carries count validBits fun _ => true)
    {roots : List Nat} (hroots : ∀ r ∈ roots, r < net.nodeCount) {s : TruthScratch}
    (h : Tracks net count F s) : ∃ t, s.evaluate net validBits roots = some t ∧
      Tracks net count F t ∧ (∀ i, s.contains i = true → t.contains i = true) ∧
      ∀ r ∈ roots, t.contains r = true := by
  induction roots generalizing s with
  | nil => exact ⟨s, rfl, h, fun _ hi => hi, fun _ hr => by cases hr⟩
  | cons root roots ih =>
    have first : Walking net count F s root s [(root, false)] :=
      ⟨h, fun e he => by rw [List.mem_singleton.mp he]; exact hroots root List.mem_cons_self,
        ⟨(fun he => nomatch he), trivial⟩, fun _ hi => hi, .inr List.mem_cons_self⟩
    have hfuel : ([(root, false)].map (cost net)).sum ≤ fuel net root := Nat.le_refl _
    obtain ⟨s', hdrain, hwalk⟩ :=
      Worklist.drain_entries _ (cost net) (visit_walking hnet hmask) first hfuel
    obtain ⟨t, ht, htracks, hkeeps, hcurrent⟩ :=
      ih (fun r hr => hroots r (List.mem_cons_of_mem _ hr)) hwalk.tracks
    refine ⟨t, ?_, htracks, fun i hi => hkeeps i (hwalk.keeps i hi), fun r hr => ?_⟩
    · rw [evaluate, List.foldlM_cons, hdrain, Option.bind_eq_bind, Option.bind_some]
      exact ht
    · rcases List.mem_cons.mp hr with rfl | hr
      · exact hkeeps _ (hwalk.reached.resolve_right fun hr => by cases hr)
      · exact hcurrent r hr

/-! Scratch states that calls leave behind. -/

theorem Settled.visit {s t : TruthScratch} {entry : Nat × Bool} {pushed : List (Nat × Bool)}
    (h : Settled s) (hv : visit net validBits s entry = some (t, pushed)) : Settled t := by
  obtain ⟨node, expanded⟩ := entry
  rw [TruthScratch.visit] at hv
  split_ifs at hv with hcurrent hexpanded
  · cases hv; exact h
  · obtain ⟨logic, -, hv⟩ := Option.bind_eq_some_iff.mp hv
    obtain ⟨bits, -, hv⟩ := Option.bind_eq_some_iff.mp hv
    obtain ⟨t', hset, hv⟩ := Option.bind_eq_some_iff.mp hv
    cases hv
    exact h.set hset
  · obtain ⟨logic, -, hv⟩ := Option.bind_eq_some_iff.mp hv
    cases hv
    exact h

theorem settled_foldlM {α : Type} {f : TruthScratch → α → Option TruthScratch}
    (hf : ∀ s x t, Settled s → f s x = some t → Settled t) {xs : List α} {s t : TruthScratch}
    (h : Settled s) (hrun : xs.foldlM f s = some t) : Settled t := by
  induction xs generalizing s with
  | nil => cases hrun; exact h
  | cons x xs ih =>
    rw [List.foldlM_cons] at hrun
    obtain ⟨s', hs', hrun⟩ := Option.bind_eq_some_iff.mp hrun
    exact ih (hf s x s' h hs') hrun

theorem Settled.evaluate {s t : TruthScratch} {roots : List Nat} (h : Settled s)
    (he : s.evaluate net validBits roots = some t) : Settled t :=
  settled_foldlM (fun _ _ _ hs hdrain =>
    Worklist.drain_keeps (fun _ _ _ _ hs hv => hs.visit hv) hs hdrain) h he

theorem Settled.setInputs {s t : TruthScratch} {inputs : List Lit} (h : Settled s)
    (hset : s.setInputs inputs validBits = some t) : Settled t :=
  settled_foldlM (fun _ _ _ hs hset => hs.set hset) h hset

end TruthScratch

open TruthScratch

/-- The states of a scratch that any calls, on any networks, leave behind. -/
inductive Used : TruthScratch → Prop
  | default : Used .default
  | cut {s t : TruthScratch} {net : LogicNetwork} {root : Lit} {cut : KCut} {table : TruthTable} :
      Used s → truthTableForCut net root cut s = some (table, t) → Used t
  | window {s t : TruthScratch} {net : LogicNetwork} {root : Lit} {inputs observed : List Lit}
      {tables : NetworkTruthTables} : Used s →
      truthTablesForInputs net root inputs observed s = some (tables, t) → Used t

theorem Used.settled {s : TruthScratch} (h : Used s) : Settled s := by
  induction h with
  | default => exact settled_default
  | cut _ hrun ih =>
    rw [truthTableForCut] at hrun
    obtain ⟨s₁, hset, hrun⟩ := Option.bind_eq_some_iff.mp hrun
    obtain ⟨s₂, heval, hrun⟩ := Option.bind_eq_some_iff.mp hrun
    obtain ⟨bits, -, hrun⟩ := Option.bind_eq_some_iff.mp hrun
    cases hrun
    exact ((begin_fresh ih _).settled.setInputs hset).evaluate heval
  | window _ hrun ih =>
    rw [truthTablesForInputs] at hrun
    rw [Option.ite_none_left_eq_some] at hrun
    obtain ⟨-, hrun⟩ := hrun
    obtain ⟨s₁, hset, hrun⟩ := Option.bind_eq_some_iff.mp hrun
    obtain ⟨s₂, heval, hrun⟩ := Option.bind_eq_some_iff.mp hrun
    obtain ⟨bits, -, hrun⟩ := Option.bind_eq_some_iff.mp hrun
    cases hrun
    -- sorting the touched nodes leaves the stamps alone
    have hsettled : Settled s₂ := ((begin_fresh ih _).settled.setInputs hset).evaluate heval
    exact hsettled

/-! The table of a cut. -/

/-- The walk holds leaf `k` of a cut at bit `k` of the assignment. -/
def leafForcing (leaves : List Nat) : Forcing :=
  loading ((leaves.map fun leaf => (⟨leaf, false⟩ : Lit)).zipIdx)

theorem leafForcing_concat (leaves : List Nat) (leaf : Nat) : leafForcing (leaves ++ [leaf]) =
    Function.update (leafForcing leaves) leaf (some (·.testBit leaves.length)) := by
  simp [leafForcing, loading, List.zipIdx_append]

theorem leafForcing_leaf {leaves : List Nat} (hd : leaves.Nodup) {k leaf : Nat}
    (h : leaves[k]? = some leaf) : leafForcing leaves leaf = some (·.testBit k) := by
  induction leaves using List.reverseRecOn with
  | nil => cases h
  | append_singleton leaves last ih =>
    obtain ⟨hd, -, hne⟩ := List.nodup_append.mp hd
    rw [leafForcing_concat]
    rcases Nat.lt_or_ge k leaves.length with hk | hk
    · rw [List.getElem?_append_left hk] at h
      rw [Function.update_of_ne (hne leaf (List.mem_of_getElem? h) last (List.mem_singleton_self _))]
      exact ih hd h
    · rw [List.getElem?_append_right hk] at h
      obtain ⟨hlen, rfl⟩ := List.getElem?_eq_some_iff.mp h
      obtain rfl : k = leaves.length := by rw [List.length_singleton] at hlen; omega
      simp

theorem leafForcing_other {leaves : List Nat} {node : Nat} (h : node ∉ leaves) :
    leafForcing leaves node = none := by
  induction leaves using List.reverseRecOn with
  | nil => rfl
  | append_singleton leaves last ih =>
    rw [List.mem_append, List.mem_singleton, not_or] at h
    rw [leafForcing_concat, Function.update_of_ne h.2]
    exact ih h.1

theorem forcedBit_phase (l : Lit) (a : Nat) :
    forcedBit net F l a = (forcedBit net F ⟨l.node, false⟩ a ^^ l.isInverted) :=
  forcedEval_phase l

/-- Below a cover of held nodes that have their own values, every value is its own. -/
theorem forcedBit_covered (hnet : Ordered net) {leaf : Nat → Bool} {leaves : List Nat} {a : Nat}
    (hheld : ∀ x v, F x = some v → v a = eval leaf net.nodes ⟨x, false⟩)
    (hleaves : ∀ x ∈ leaves, (F x).isSome) {l : Lit} (hl : l.node < net.nodes.length)
    (h : Covered net leaves l.node) : forcedBit net F l a = eval leaf net.nodes l := by
  have of_held (i : Nat) (hi : i < net.nodes.length) (v : Nat → Bool) (hv : F i = some v) :
      forcedBit net F ⟨i, false⟩ a = eval leaf net.nodes ⟨i, false⟩ := by
    rw [forcedBit, forcedEval_of_force hnet.topological hi (v := v a) (by rw [Forcing.at, hv]; rfl)]
    exact hheld i v hv
  rw [forcedBit_phase, eval_phase]
  congr 1
  generalize l.node = i at hl h
  induction h with
  | @leaf i hmem =>
    obtain ⟨v, hv⟩ := Option.isSome_iff_exists.mp (hleaves i hmem)
    exact of_held i hl v hv
  | @constant i n hn hk =>
    cases hv : F i with
    | some v => exact of_held i hl v hv
    | none =>
      rw [forcedBit, forcedEval_node hnet.topological hn, Forcing.at, hv,
        eval_node hnet.topological hn rfl, Node.denote, hk, Node.denote, hk]
      rfl
  | @gate i n hn hk _ ih =>
    cases hv : F i with
    | some v => exact of_held i hl v hv
    | none =>
      have fanins : ∀ f ∈ n.fanins, forcedBit net F f a = eval leaf net.nodes f := fun f hf => by
        rw [forcedBit_phase, eval_phase, ih f hf (hnet.fanin_lt hn hf)]
      have hgate (x y : Bool) (v : Lit → Bool) : n.denote x v = n.denote y v := by
        rcases hk with hk | hk | hk <;> simp only [Node.denote, hk]
      have hfree : F.at a i = none := by rw [Forcing.at, hv]; rfl
      rw [forcedBit, forcedEval_node hnet.topological hn, eval_node hnet.topological hn rfl, hfree,
        Option.getD_none, hgate false (leaf i)]
      exact Node.denote_congr n _ fanins

end Opto.Synth
