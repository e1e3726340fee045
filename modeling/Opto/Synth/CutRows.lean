import Opto.Library.Lists
import Opto.Synth.Cuts

/-!
# Rows of a cut database

The rows in node order satisfy their defining equation, and filling them level
by level gives the same database without reading a row before it is published.
Every cut of a row covers its node.
-/

namespace Opto.Synth

open Logic

variable {caps : CutCaps} {net : LogicNetwork}

/-! What the merges offer to a row. -/

def mergeCandidates (caps : CutCaps) (left right : List KCut) : List KCut :=
  left.flatMap fun leftCut => right.filterMap fun rightCut => leftCut.merge caps rightCut

theorem mem_mergeCandidates {left right : List KCut} {cut : KCut} :
    cut ∈ mergeCandidates caps left right ↔
      ∃ a ∈ left, ∃ b ∈ right, a.merge caps b = some cut := by
  simp [mergeCandidates]

theorem cuts_foldl_offer {α : Type} {cap : Nat} (f : α → Option KCut) (xs : List α)
    (out : CutSet cap) : (xs.foldl (fun out x => out.offer (f x)) out).cuts =
      Ranked.insertAll cap out.cuts (xs.filterMap f) := by
  induction xs generalizing out with
  | nil => rfl
  | cons x xs ih =>
    rw [List.foldl_cons, ih]
    cases h : f x with
    | none => rw [List.filterMap_cons_none h]; rfl
    | some merged => rw [List.filterMap_cons_some h]; rfl

theorem cuts_mergeBinaryCuts {cap : Nat} (left right : List KCut) (out : CutSet cap) :
    (mergeBinaryCuts caps left right out).cuts =
      Ranked.insertAll cap out.cuts (mergeCandidates caps left right) := by
  induction left generalizing out with
  | nil => rfl
  | cons leftCut left ih =>
    refine (ih _).trans ?_
    rw [cuts_foldl_offer, mergeCandidates, mergeCandidates, List.flatMap_cons, Ranked.insertAll,
      Ranked.insertAll, Ranked.insertAll, List.foldl_append]

theorem mem_mergeBinaryCuts {cap : Nat} {left right : List KCut} {out : CutSet cap} {cut : KCut}
    (h : cut ∈ (mergeBinaryCuts caps left right out).cuts) :
    cut ∈ out.cuts ∨ ∃ a ∈ left, ∃ b ∈ right, a.merge caps b = some cut := by
  rw [cuts_mergeBinaryCuts] at h
  rcases Ranked.mem_of_mem_insertAll h with h | h
  · exact .inr (mem_mergeCandidates.mp h)
  · exact .inl h

theorem mem_insert_withCap {cap : Nat} {candidate cut : KCut}
    (h : cut ∈ ((CutSet.withCap cap).insert candidate).cuts) : cut = candidate := by
  have hrow : cut ∈ Ranked.insert cap [] candidate := h
  rcases Ranked.mem_of_mem_insert hrow with h | h
  · exact h
  · cases h

/-- A row depends on the rows of the fanins only. -/
theorem nodeCuts_congr {node : Node} {index : Nat} {p q : Lit → List KCut}
    (h : ∀ f ∈ node.fanins, p f = q f) : nodeCuts caps node index p = nodeCuts caps node index q := by
  cases hk : node.kind <;> simp_all [nodeCuts, Node.fanins, NodeKind.arity]

/-! The defining equation. -/

def rowOf (caps : CutCaps) (net : LogicNetwork) (index : Nat) : CutRow caps :=
  match net.nodes[index]? with
  | some node => nodeCuts caps node index fun fanin => (cutDatabase caps net).cuts fanin.node
  | none => .withCap caps.maxCuts

theorem rowOf_node {i : Nat} {n : Node} (hn : net.nodes[i]? = some n) :
    rowOf caps net i =
      nodeCuts caps n i fun fanin => (cutDatabase caps net).cuts fanin.node := by
  rw [rowOf, hn]

theorem length_rows : (cutDatabase caps net).rows.length = net.nodes.length :=
  Table.length_build _ _

theorem cuts_eq (hnet : Ordered net) (i : Nat) :
    (cutDatabase caps net).cuts i = (rowOf caps net i).cuts := by
  cases hn : net.nodes[i]? with
  | none =>
    have hi := List.getElem?_eq_none_iff.mp hn
    rw [rowOf, hn, CutDatabase.cuts, List.getElem?_eq_none (by rwa [length_rows])]
    rfl
  | some n =>
    have hlen : (net.nodes.take i).length = i := by
      have := (List.getElem?_eq_some_iff.mp hn).1
      rw [List.length_take]; omega
    rw [CutDatabase.cuts, cutDatabase, Table.getElem?_build _ hn, Option.getD_some,
      Table.length_build, hlen, rowOf_node hn]
    refine congrArg CutSet.cuts (nodeCuts_congr fun f hf => ?_)
    rw [CutDatabase.cuts, cutDatabase, Table.getElem?_build_take _ _
      (hnet.topological i n hn f hf) (List.getElem?_eq_some_iff.mp hn).1.le]

/-! Publishing level by level. -/

/-- The ranges once the levels below `level` are published. -/
def published (caps : CutCaps) (net : LogicNetwork) (level : Nat) : List (Option (CutRow caps)) :=
  (List.range net.nodeCount).map fun i =>
    if levelOf net.nodes i < level then some (rowOf caps net i) else none

theorem published_zero : published caps net 0 = List.replicate net.nodeCount none := by
  simp [published]

theorem getElem?_published {level i : Nat} (hi : i < net.nodes.length) :
    (published caps net level)[i]? =
      some (if levelOf net.nodes i < level then some (rowOf caps net i) else none) := by
  rw [published, List.getElem?_map, LogicNetwork.nodeCount, List.getElem?_range hi, Option.map_some]

/-- At its own level, a node reads published rows only. -/
theorem cutSetFromPredecessors_published (hnet : Ordered net) {i : Nat} (hi : i < net.nodes.length) :
    cutSetFromPredecessors caps net (published caps net (levelOf net.nodes i)) i =
      some (rowOf caps net i) := by
  have hn := List.getElem?_eq_getElem hi
  have read (f : Lit) (hf : f ∈ net.nodes[i].fanins) :
      (published caps net (levelOf net.nodes i))[f.node]?.join = some (rowOf caps net f.node) := by
    rw [getElem?_published (hnet.fanin_lt hn hf), if_pos (hnet.levels i _ hn f hf)]
    rfl
  rw [cutSetFromPredecessors, hn, Option.bind_eq_bind, Option.bind_some, mapM_eq_some_map read,
    Option.bind_eq_bind, Option.bind_some, rowOf_node hn]
  refine congrArg some (nodeCuts_congr fun f hf => ?_)
  rw [read f hf, cuts_eq hnet]
  rfl

theorem length_foldl_set {ν : Type} (results : List (Nat × ν)) (ranges : List (Option ν)) :
    (results.foldl (fun ranges r => ranges.set r.1 (some r.2)) ranges).length = ranges.length := by
  induction results generalizing ranges with
  | nil => rfl
  | cons r results ih => rw [List.foldl_cons, ih, List.length_set]

theorem getElem?_foldl_set {ν : Type} (results : List (Nat × ν)) (ranges : List (Option ν)) (i : Nat)
    (value : Nat → ν) (hvalue : ∀ r ∈ results, r.2 = value r.1) (hi : i < ranges.length) :
    (results.foldl (fun ranges r => ranges.set r.1 (some r.2)) ranges)[i]? =
      if i ∈ results.map (·.1) then some (some (value i)) else ranges[i]? := by
  induction results generalizing ranges with
  | nil => simp
  | cons r results ih =>
    rw [List.foldl_cons, ih _ (fun r hr => hvalue r (List.mem_cons_of_mem _ hr)) (by simpa using hi)]
    have hr := hvalue r List.mem_cons_self
    by_cases hlater : i ∈ results.map (·.1)
    · rw [if_pos hlater, if_pos (by simp only [List.map_cons, List.mem_cons, hlater, or_true])]
    · rw [if_neg hlater]
      by_cases hri : i = r.1
      · rw [if_pos (by simp [hri]), ← hri, List.getElem?_set_self hi, hr, ← hri]
      · rw [if_neg (by simpa [hri] using hlater), List.getElem?_set_ne (Ne.symm hri)]

theorem publishLevel_published (hnet : Ordered net) (level : Nat) :
    publishLevel caps net (published caps net level)
      ((List.range net.nodeCount).filter fun i => levelOf net.nodes i = level) =
      some (published caps net (level + 1)) := by
  have hrows : ∀ i ∈ (List.range net.nodeCount).filter fun i => levelOf net.nodes i = level,
      (do let set ← cutSetFromPredecessors caps net (published caps net level) i
          pure (i, set)) = some (i, rowOf caps net i) := by
    intro i hi
    obtain ⟨hrange, hlevel⟩ := List.mem_filter.mp hi
    have hlevel : levelOf net.nodes i = level := by simpa using hlevel
    rw [← hlevel, cutSetFromPredecessors_published hnet (List.mem_range.mp hrange)]
    rfl
  rw [publishLevel, mapM_eq_some_map hrows, Option.bind_eq_bind, Option.bind_some]
  refine congrArg some (List.ext_getElem? fun i => ?_)
  by_cases hi : i < net.nodes.length
  · rw [getElem?_foldl_set _ _ _ (rowOf caps net) (fun r hr => ?_)
      (by simpa [published, LogicNetwork.nodeCount] using hi),
      getElem?_published hi, getElem?_published hi]
    · simp only [List.map_map, Function.comp_def, List.map_id', List.mem_filter, List.mem_range,
        LogicNetwork.nodeCount, hi, true_and, decide_eq_true_eq]
      split_ifs <;> first | rfl | omega
    · obtain ⟨j, -, rfl⟩ := List.mem_map.mp hr
      rfl
  · rw [List.getElem?_eq_none, List.getElem?_eq_none]
    · simpa [published, LogicNetwork.nodeCount] using hi
    · simpa [length_foldl_set, published, LogicNetwork.nodeCount] using hi

theorem levelOf_le_maxLevel {i : Nat} (hi : i < net.nodes.length) :
    levelOf net.nodes i ≤ maxLevel net := by
  have hmem : levelOf net.nodes i ∈ (List.range net.nodeCount).map (levelOf net.nodes) :=
    List.mem_map_of_mem (List.mem_range.mpr hi)
  rw [maxLevel]
  cases hmax : ((List.range net.nodeCount).map (levelOf net.nodes)).max? with
  | none => rw [List.max?_eq_none_iff.mp hmax] at hmem; cases hmem
  | some top => exact (List.max?_eq_some_iff.mp hmax).2 _ hmem

/-- Every row is published after the last level, and none is read before. -/
theorem parallelCutDatabase_eq (hnet : Ordered net) :
    parallelCutDatabase caps net = some (cutDatabase caps net) := by
  have run (k : Nat) : ((List.range k).map fun level => (List.range net.nodeCount).filter fun i =>
      levelOf net.nodes i = level).foldlM (publishLevel caps net) (published caps net 0) =
      some (published caps net k) := by
    induction k with
    | zero => rfl
    | succ k ih =>
      rw [List.range_succ, List.map_append, List.foldlM_append, ih, Option.bind_eq_bind,
        Option.bind_some, List.map_singleton, List.foldlM_cons, publishLevel_published hnet k]
      rfl
  have all : (published caps net (maxLevel net + 1)).mapM id =
      some ((List.range net.nodeCount).map (rowOf caps net)) := by
    have hsome : published caps net (maxLevel net + 1) =
        ((List.range net.nodeCount).map (rowOf caps net)).map some := by
      rw [published, List.map_map]
      refine List.map_congr_left fun i hi => ?_
      have := levelOf_le_maxLevel (List.mem_range.mp hi)
      rw [if_pos (by omega), Function.comp_apply]
    rw [hsome, List.mapM_map]
    exact (mapM_eq_some_map (g := id) fun _ _ => rfl).trans (by rw [List.map_id])
  have rows : ((List.range net.nodeCount).map (rowOf caps net)).map (·.cuts) =
      (cutDatabase caps net).rows := by
    refine List.ext_getElem? fun i => ?_
    rw [List.map_map, List.getElem?_map]
    by_cases hi : i < net.nodes.length
    · have hrow : (cutDatabase caps net).rows[i]? = some ((cutDatabase caps net).cuts i) := by
        rw [CutDatabase.cuts, List.getElem?_eq_getElem (by rwa [length_rows]), Option.getD_some]
      rw [LogicNetwork.nodeCount, List.getElem?_range hi, Option.map_some, hrow, cuts_eq hnet]
      rfl
    · rw [List.getElem?_eq_none (by simpa [LogicNetwork.nodeCount] using hi),
        List.getElem?_eq_none (by simpa [length_rows] using hi), Option.map_none]
  rw [parallelCutDatabase, levels, ← published_zero, run, Option.bind_eq_bind, Option.bind_some, all,
    Option.bind_eq_bind, Option.bind_some, rows]
  rfl

/-! Coverage. -/

/-- Every path from the node down to an input meets a leaf. -/
inductive Covered (net : LogicNetwork) (leaves : List Nat) : Nat → Prop
  | leaf {i : Nat} : i ∈ leaves → Covered net leaves i
  | constant {i : Nat} {n : Node} : net.nodes[i]? = some n → n.kind = .constant →
      Covered net leaves i
  | gate {i : Nat} {n : Node} : net.nodes[i]? = some n → n.kind.IsGate →
      (∀ f ∈ n.fanins, Covered net leaves f.node) → Covered net leaves i

theorem Covered.mono {leaves leaves' : List Nat} (hsub : leaves ⊆ leaves') {i : Nat}
    (h : Covered net leaves i) : Covered net leaves' i := by
  induction h with
  | leaf hi => exact .leaf (hsub hi)
  | constant hn hk => exact .constant hn hk
  | gate hn hk _ ih => exact .gate hn hk ih

theorem KCut.merge_subset {left right cut : KCut} (h : left.merge caps right = some cut) :
    left.leaves ⊆ cut.leaves ∧ right.leaves ⊆ cut.leaves := by
  rw [leaves_merge h]
  exact ⟨fun _ hx => mem_unionLeaves.mpr (.inl hx), fun _ hx => mem_unionLeaves.mpr (.inr hx)⟩

theorem KCut.mem_of_merge {left right cut : KCut} (h : left.merge caps right = some cut) {x : Nat}
    (hx : x ∈ cut.leaves) : x ∈ left.leaves ∨ x ∈ right.leaves := by
  rw [leaves_merge h] at hx
  exact mem_unionLeaves.mp hx

/-- A cut of a gate is its singleton or joins one cut of every fanin. -/
structure Joins (node : Node) (predecessor : Lit → List KCut) (cut : KCut) : Prop where
  covers : ∀ f ∈ node.fanins, ∃ c ∈ predecessor f, c.leaves ⊆ cut.leaves
  only : ∀ x ∈ cut.leaves, ∃ f ∈ node.fanins, ∃ c ∈ predecessor f, x ∈ c.leaves

theorem joins_binary {node : Node} {predecessor : Lit → List KCut} {cut : KCut}
    (hf : node.fanins = [node.fanin0, node.fanin1])
    (h : ∃ a ∈ predecessor node.fanin0, ∃ b ∈ predecessor node.fanin1, a.merge caps b = some cut) :
    Joins node predecessor cut := by
  obtain ⟨a, ha, b, hb, hm⟩ := h
  obtain ⟨hsa, hsb⟩ := KCut.merge_subset hm
  constructor
  · intro f hmem
    rw [hf] at hmem
    simp only [List.mem_cons, List.not_mem_nil, or_false] at hmem
    rcases hmem with rfl | rfl
    · exact ⟨a, ha, hsa⟩
    · exact ⟨b, hb, hsb⟩
  · intro x hx
    rcases KCut.mem_of_merge hm hx with hx | hx
    · exact ⟨node.fanin0, by simp [hf], a, ha, hx⟩
    · exact ⟨node.fanin1, by simp [hf], b, hb, hx⟩

theorem joins_ternary {node : Node} {predecessor : Lit → List KCut} {cut : KCut}
    (hf : node.fanins = [node.fanin0, node.fanin1, node.fanin2])
    (h : ∃ ab, (∃ a ∈ predecessor node.fanin0, ∃ b ∈ predecessor node.fanin1,
      a.merge caps b = some ab) ∧ ∃ c ∈ predecessor node.fanin2, ab.merge caps c = some cut) :
    Joins node predecessor cut := by
  obtain ⟨ab, ⟨a, ha, b, hb, hab⟩, c, hc, hm⟩ := h
  obtain ⟨hsa, hsb⟩ := KCut.merge_subset hab
  obtain ⟨hsab, hsc⟩ := KCut.merge_subset hm
  constructor
  · intro f hmem
    rw [hf] at hmem
    simp only [List.mem_cons, List.not_mem_nil, or_false] at hmem
    rcases hmem with rfl | rfl | rfl
    · exact ⟨a, ha, fun _ hx => hsab (hsa hx)⟩
    · exact ⟨b, hb, fun _ hx => hsab (hsb hx)⟩
    · exact ⟨c, hc, hsc⟩
  · intro x hx
    rcases KCut.mem_of_merge hm hx with hx | hx
    · rcases KCut.mem_of_merge hab hx with hx | hx
      · exact ⟨node.fanin0, by simp [hf], a, ha, hx⟩
      · exact ⟨node.fanin1, by simp [hf], b, hb, hx⟩
    · exact ⟨node.fanin2, by simp [hf], c, hc, hx⟩

theorem mem_nodeCuts {node : Node} {index : Nat} {predecessor : Lit → List KCut} {cut : KCut}
    (hgate : node.kind.IsGate) (h : cut ∈ (nodeCuts caps node index predecessor).cuts) :
    cut = .singleton index ∨ Joins node predecessor cut := by
  rcases hgate with hk | hk | hk <;> simp only [nodeCuts, hk] at h
  · rcases mem_mergeBinaryCuts h with h | h
    · exact .inl (mem_insert_withCap h)
    · exact .inr (joins_binary (by simp [Node.fanins, hk, NodeKind.arity]) h)
  · rcases mem_mergeBinaryCuts h with h | h
    · exact .inl (mem_insert_withCap h)
    · exact .inr (joins_binary (by simp [Node.fanins, hk, NodeKind.arity]) h)
  · rcases mem_mergeBinaryCuts h with h | ⟨ab, hab, c, hc, hm⟩
    · exact .inl (mem_insert_withCap h)
    · rcases mem_mergeBinaryCuts hab with hab | hab
      · cases hab
      · exact .inr (joins_ternary (by simp [Node.fanins, hk, NodeKind.arity]) ⟨ab, hab, c, hc, hm⟩)

theorem mem_rowOf_leaf {i : Nat} {n : Node} (hn : net.nodes[i]? = some n) (hk : ¬ n.kind.IsGate)
    {cut : KCut} (h : cut ∈ (rowOf caps net i).cuts) :
    (n.kind = .constant ∧ cut = .empty) ∨ (n.kind = .input ∧ cut = .singleton i) := by
  rw [rowOf_node hn] at h
  cases hkind : n.kind with
  | constant => exact .inl ⟨rfl, mem_insert_withCap (by simpa only [nodeCuts, hkind] using h)⟩
  | input => exact .inr ⟨rfl, mem_insert_withCap (by simpa only [nodeCuts, hkind] using h)⟩
  | and => exact (hk (.inl hkind)).elim
  | xor => exact (hk (.inr (.inl hkind))).elim
  | mux => exact (hk (.inr (.inr hkind))).elim

/-- Every cut of a row covers its node and lies at or before it. -/
theorem cut_covers (hnet : Ordered net) {i : Nat} {n : Node} (hn : net.nodes[i]? = some n)
    {cut : KCut} (h : cut ∈ (cutDatabase caps net).cuts i) :
    Covered net cut.leaves i ∧ ∀ x ∈ cut.leaves, x ≤ i := by
  induction i using Nat.strong_induction_on generalizing n cut with
  | _ i ih =>
    have at_self : Covered net (KCut.singleton i).leaves i ∧
        ∀ x ∈ (KCut.singleton i).leaves, x ≤ i :=
      ⟨.leaf List.mem_cons_self, fun x hx => by simp [KCut.singleton] at hx; omega⟩
    rw [cuts_eq hnet] at h
    by_cases hk : n.kind.IsGate
    · rw [rowOf_node hn] at h
      rcases mem_nodeCuts hk h with rfl | hj
      · exact at_self
      · have below (f : Lit) (hf : f ∈ n.fanins) : f.node < i ∧ ∃ m : Node,
            net.nodes[f.node]? = some m :=
          ⟨hnet.topological i n hn f hf, _, List.getElem?_eq_getElem (hnet.fanin_lt hn hf)⟩
        constructor
        · refine .gate hn hk fun f hf => ?_
          obtain ⟨hlt, m, hm⟩ := below f hf
          obtain ⟨c, hc, hsub⟩ := hj.covers f hf
          exact (ih f.node hlt hm hc).1.mono hsub
        · intro x hx
          obtain ⟨f, hf, c, hc, hx⟩ := hj.only x hx
          obtain ⟨hlt, m, hm⟩ := below f hf
          exact ((ih f.node hlt hm hc).2 x hx).trans hlt.le
    · rcases mem_rowOf_leaf hn hk h with ⟨hc, rfl⟩ | ⟨-, rfl⟩
      · exact ⟨.constant hn hc, fun x hx => by cases hx⟩
      · exact at_self

end Opto.Synth
