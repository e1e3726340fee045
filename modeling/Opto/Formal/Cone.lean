import Opto.Formal.Encoding
import Opto.Logic.Ordered

/-!
# Cones in encoding order

In a network whose fanins point backwards and down in level, the depth-first
walk collects a set of nodes closed under fanins, and sorting it by level puts
every node after its fanins.
-/

namespace Opto.Formal

open Logic Cnf

variable {E : Type} {net : LogicNetwork}

theorem levelKey_eq {node : Nat} (h : node < net.nodes.length) :
    levelKey net node = levelOf net.nodes node := by
  simp [levelKey, LogicNetwork.level, levelOf, List.getElem?_eq_getElem h]

theorem levelKey_lt (hnet : Ordered net) {i : Nat} {n : Node} (hn : net.nodes[i]? = some n)
    {f : Lit} (hf : f ∈ n.fanins) : levelKey net f.node < levelKey net i := by
  rw [levelKey_eq (hnet.fanin_lt hn hf), levelKey_eq (List.getElem?_eq_some_iff.mp hn).1]
  exact hnet.levels i n hn f hf

/-- Node indices closed under the fanins that are not the constant. -/
structure Cone (net : LogicNetwork) (nodes : List Nat) : Prop where
  known : ∀ i ∈ nodes, i < net.nodeCount
  closed : ∀ i ∈ nodes, ∀ n : Node, net.nodes[i]? = some n →
    ∀ f ∈ n.fanins, f.node ≠ 0 → f.node ∈ nodes

theorem faninNodes_ok {node : Nat} {n : Node} (hn : net.nodes[node]? = some n) :
    (faninNodes net node : Except (FormalError E) (List Nat)) =
      .ok ((n.fanins.map (·.node)).filter (· ≠ 0)) := by
  cases hk : n.kind <;>
    simp [faninNodes, LogicNetwork.faninCount, LogicNetwork.kind, LogicNetwork.fanin, hn, hk,
      NodeKind.arity, Node.fanins, List.range_succ, bind, Except.bind, pure, Except.pure]

theorem collect_seen {visited : List Bool} {node : Nat} (h : visited[node]? = some true)
    (order pending : List Nat) :
    (collect net visited order (node :: pending) : Except (FormalError E) (List Nat)) =
      collect net visited order pending := by
  rw [collect]
  split
  · rename_i h'; rw [h] at h'; cases h'
  · rfl
  · rename_i h'; rw [h] at h'; cases h'

theorem collect_new {visited : List Bool} {node : Nat} {fanins : List Nat}
    (h : visited[node]? = some false)
    (hf : (faninNodes net node : Except (FormalError E) (List Nat)) = .ok fanins)
    (order pending : List Nat) :
    (collect net visited order (node :: pending) : Except (FormalError E) (List Nat)) =
      collect net (visited.set node true) (order ++ [node]) (fanins.reverse ++ pending) := by
  rw [collect]
  split
  · rename_i h'; rw [h] at h'; cases h'
  · rename_i h'; rw [h] at h'; cases h'
  · rw [hf]

theorem collect_ok (hnet : Ordered net) (visited : List Bool) (order pending : List Nat)
    (hvisited : ∀ i < net.nodeCount, visited[i]? = some (decide (i ∈ order)))
    (hpending : ∀ i ∈ pending, i < net.nodeCount) (horder : ∀ i ∈ order, i < net.nodeCount)
    (hclosed : ∀ i ∈ order, ∀ n : Node, net.nodes[i]? = some n →
      ∀ f ∈ n.fanins, f.node ≠ 0 → f.node ∈ order ∨ f.node ∈ pending) :
    ∃ cone, (collect net visited order pending : Except (FormalError E) (List Nat)) = .ok cone ∧
      Cone net cone ∧ order ⊆ cone ∧ pending ⊆ cone := by
  induction visited, order, pending using collect.induct net (E := E) with
  | case1 visited order =>
    refine ⟨order, by rw [collect], ⟨horder, fun i hi n hn f hf h0 => ?_⟩, fun _ h => h, ?_⟩
    · rcases hclosed i hi n hn f hf h0 with h | h
      · exact h
      · cases h
    · exact List.nil_subset _
  | case2 visited order node pending hnone =>
    rw [hvisited node (hpending node (by simp))] at hnone
    cases hnone
  | case3 visited order node pending hseen ih =>
    have hmem : node ∈ order := by
      rw [hvisited node (hpending node (by simp))] at hseen
      simpa using hseen
    obtain ⟨cone, hrun, hcone, hsub, hpsub⟩ := ih hvisited
      (fun i hi => hpending i (by simp [hi])) horder fun i hi n hn f hf h0 => by
        rcases hclosed i hi n hn f hf h0 with h | h
        · exact .inl h
        · rcases List.mem_cons.mp h with h | h
          · exact .inl (h ▸ hmem)
          · exact .inr h
    refine ⟨cone, ?_, hcone, hsub, List.cons_subset.mpr ⟨hsub hmem, hpsub⟩⟩
    rw [collect_seen hseen, hrun]
  | case4 visited order node pending hnew e he =>
    obtain ⟨n, hn⟩ : ∃ n, net.nodes[node]? = some n :=
      ⟨_, List.getElem?_eq_getElem (hpending node (by simp))⟩
    rw [faninNodes_ok hn] at he
    cases he
  | case5 visited order node pending hnew fanins hfanins ih =>
    have hnode : node < net.nodeCount := hpending node (by simp)
    obtain ⟨n, hn⟩ : ∃ n, net.nodes[node]? = some n := ⟨_, List.getElem?_eq_getElem hnode⟩
    have heq : fanins = (n.fanins.map (·.node)).filter (· ≠ 0) := by
      rw [faninNodes_ok hn] at hfanins
      exact (Except.ok.inj hfanins).symm
    have hmem {k : Nat} : k ∈ fanins ↔ (∃ f ∈ n.fanins, f.node = k) ∧ k ≠ 0 := by
      simp [heq]
    have hlen : node < visited.length := (List.getElem?_eq_some_iff.mp hnew).1
    obtain ⟨cone, hrun, hcone, hsub, hpsub⟩ := ih
      (fun i hi => by
        rw [List.getElem?_set]
        by_cases hni : node = i
        · simp [hni, hni ▸ hlen]
        · have hin : i ≠ node := fun h => hni h.symm
          simp [hni, hin, hvisited i hi])
      (fun i hi => by
        rcases List.mem_append.mp hi with hi | hi
        · obtain ⟨⟨f, hf, rfl⟩, -⟩ := hmem.mp (List.mem_reverse.mp hi)
          exact Nat.lt_trans (hnet.topological node n hn f hf) hnode
        · exact hpending i (by simp [hi]))
      (fun i hi => by
        rcases List.mem_append.mp hi with hi | hi
        · exact horder i hi
        · rwa [List.mem_singleton.mp hi])
      (fun i hi k hk f hf h0 => by
        rcases List.mem_append.mp hi with hi | hi
        · rcases hclosed i hi k hk f hf h0 with h | h
          · exact .inl (List.mem_append_left _ h)
          · rcases List.mem_cons.mp h with h | h
            · exact .inl (by simp [h])
            · exact .inr (List.mem_append_right _ h)
        · rw [List.mem_singleton.mp hi, hn] at hk
          cases hk
          exact .inr (List.mem_append_left _ (List.mem_reverse.mpr (hmem.mpr ⟨⟨f, hf, rfl⟩, h0⟩))))
    refine ⟨cone, ?_, hcone, fun i hi => hsub (List.mem_append_left _ hi),
      List.cons_subset.mpr ⟨hsub (by simp), fun i hi => hpsub (List.mem_append_right _ hi)⟩⟩
    rw [collect_new hnew hfanins, hrun]

/-- The cone of the requested nodes is collected without an error. -/
theorem collect_cone (hnet : Ordered net) (pending : List Nat)
    (hpending : ∀ i ∈ pending, i < net.nodeCount) :
    ∃ cone, (collect net (List.replicate net.nodeCount false) [] pending :
        Except (FormalError E) (List Nat)) = .ok cone ∧ Cone net cone ∧ pending ⊆ cone := by
  obtain ⟨cone, hrun, hcone, -, hsub⟩ := collect_ok (E := E) hnet
    (List.replicate net.nodeCount false) [] pending
    (fun i hi => by simp [hi]) hpending (by simp) (by simp)
  exact ⟨cone, hrun, hcone, hsub⟩

/-- Nodes listed so that every fanin is the constant, done, or comes earlier. -/
def Backward (net : LogicNetwork) (done : Nat → Prop) : List Nat → Prop
  | [] => True
  | node :: rest => node < net.nodeCount ∧
      (∀ n : Node, net.nodes[node]? = some n → ∀ f ∈ n.fanins, done f.node) ∧
      Backward net (fun i => i = node ∨ done i) rest

theorem backward_of_sorted (hnet : Ordered net) {nodes : List Nat} {done : Nat → Prop}
    (hknown : ∀ i ∈ nodes, i < net.nodeCount)
    (hsorted : nodes.Pairwise fun a b => levelKey net a ≤ levelKey net b)
    (hclosed : ∀ i ∈ nodes, ∀ n : Node, net.nodes[i]? = some n →
      ∀ f ∈ n.fanins, done f.node ∨ f.node ∈ nodes) : Backward net done nodes := by
  induction nodes generalizing done with
  | nil => trivial
  | cons node rest ih =>
    obtain ⟨hfirst, hrest⟩ := List.pairwise_cons.mp hsorted
    refine ⟨hknown node (by simp), fun n hn f hf => ?_, ih (fun i hi => hknown i (by simp [hi]))
      hrest fun i hi n hn f hf => ?_⟩
    · -- a fanin still to come would not lie below its gate
      have hlt := levelKey_lt hnet hn hf
      rcases hclosed node (by simp) n hn f hf with h | h
      · exact h
      · rcases List.mem_cons.mp h with h | h
        · rw [h] at hlt; omega
        · have := hfirst _ h; omega
    · rcases hclosed i (by simp [hi]) n hn f hf with h | h
      · exact .inl (.inr h)
      · rcases List.mem_cons.mp h with h | h
        · exact .inl (.inl h)
        · exact .inr h

theorem Cone.backward (hnet : Ordered net) {cone : List Nat} (h : Cone net cone) :
    Backward net (· = 0)
      (cone.mergeSort fun a b => decide (levelKey net a ≤ levelKey net b)) := by
  have hperm := List.mergeSort_perm cone fun a b => decide (levelKey net a ≤ levelKey net b)
  have hsorted : (cone.mergeSort fun a b => decide (levelKey net a ≤ levelKey net b)).Pairwise
      fun a b => decide (levelKey net a ≤ levelKey net b) = true :=
    List.pairwise_mergeSort (fun a b c h₁ h₂ => by simp only [decide_eq_true_eq] at *; omega)
      (fun a b => by simp only [Bool.or_eq_true, decide_eq_true_eq]; omega) cone
  refine backward_of_sorted hnet (fun i hi => h.known i (hperm.mem_iff.mp hi))
    (hsorted.imp fun hab => by simpa using hab) fun i hi n hn f hf => ?_
  by_cases h0 : f.node = 0
  · exact .inl h0
  · exact .inr (hperm.mem_iff.mpr (h.closed i (hperm.mem_iff.mp hi) n hn f hf h0))

end Opto.Formal
