import Opto.Synth.Sweep

/-!
# What a sweep proves

Every nominated class lists live nodes in ascending order. A correct solver's
partitions then give substitutions by earlier live nodes of the same function, in
the recorded phase, and resolving a chain of them keeps both.
-/

namespace Opto.Synth

open Logic Formal Cnf

variable {E : Type} {net : LogicNetwork} {live : List Bool}

/-! Nominated classes. -/

/-- Live nodes in ascending order. -/
structure LiveClass (live : List Bool) (bound : Nat) (members : SweepClass) : Prop where
  ascending : members.Pairwise (·.1 < ·.1)
  members : ∀ m ∈ members, m.1 < bound ∧ live[m.1]? = some true

theorem LiveClass.mono {bound bound' : Nat} {members : SweepClass}
    (h : LiveClass live bound members) (hle : bound ≤ bound') : LiveClass live bound' members :=
  ⟨h.ascending, fun m hm => ⟨(h.members m hm).1.trans_le hle, (h.members m hm).2⟩⟩

theorem LiveClass.concat {bound : Nat} {members : SweepClass} (h : LiveClass live bound members)
    (hlive : live[bound]? = some true) (phase : Bool) :
    LiveClass live (bound + 1) (members ++ [(bound, phase)]) where
  ascending := by
    refine List.pairwise_append.mpr ⟨h.ascending, List.pairwise_singleton _ _, fun a ha b hb => ?_⟩
    rw [List.mem_singleton.mp hb]
    exact (h.members a ha).1
  members m hm := by
    rcases List.mem_append.mp hm with hm | hm
    · exact (h.mono (Nat.le_succ bound)).members m hm
    · rw [List.mem_singleton.mp hm]
      exact ⟨Nat.lt_succ_self bound, hlive⟩

theorem Buckets.push_live {bound : Nat} {buckets : Buckets}
    (h : ∀ bucket ∈ buckets, LiveClass live bound bucket.2) (hlive : live[bound]? = some true)
    (key : List Word) (phase : Bool) :
    ∀ bucket ∈ buckets.push key (bound, phase), LiveClass live (bound + 1) bucket.2 := by
  induction buckets with
  | nil =>
    intro bucket hb
    rw [List.mem_singleton.mp hb]
    have hempty : LiveClass live bound [] := ⟨.nil, fun m hm => by cases hm⟩
    exact hempty.concat hlive phase
  | cons first rest ih =>
    intro bucket hb
    have hfirst := h first List.mem_cons_self
    have hrest := fun b hb => h b (List.mem_cons_of_mem first hb)
    rw [Buckets.push] at hb
    split_ifs at hb with hk
    · rcases List.mem_cons.mp hb with rfl | hb
      · exact hfirst.concat hlive phase
      · exact (hrest bucket hb).mono (Nat.le_succ bound)
    · rcases List.mem_cons.mp hb with rfl | hb
      · exact hfirst.mono (Nat.le_succ bound)
      · exact ih hrest bucket hb

theorem bucketNodes_live (signatures : Signatures) (entries : List (Bool × Option Substitution))
    (bound : Nat) (hentries : ∀ k e, entries[k]? = some e → live[bound + k]? = some e.1)
    (start : Buckets) (h : ∀ bucket ∈ start, LiveClass live bound bucket.2) :
    ∀ bucket ∈ (entries.zipIdx bound).foldl (bucketNode signatures) start,
      LiveClass live (bound + entries.length) bucket.2 := by
  induction entries generalizing bound start with
  | nil => exact h
  | cons e entries ih =>
    have hlive : live[bound]? = some e.1 := hentries 0 e rfl
    rw [List.zipIdx_cons, List.foldl_cons, List.length_cons, Nat.add_comm entries.length 1,
      ← Nat.add_assoc]
    refine ih (bound + 1) (fun k e' hk => ?_) _ ?_
    · rw [Nat.add_assoc, Nat.add_comm 1 k]
      exact hentries (k + 1) e' hk
    · rw [bucketNode]
      split_ifs with hcond
      · exact Buckets.push_live h (by rw [hlive, hcond.1]) _ _
      · exact fun bucket hb => (h bucket hb).mono (Nat.le_succ bound)

theorem LiveClass.sublist {bound : Nat} {members members' : SweepClass}
    (h : LiveClass live bound members) (hsub : members'.Sublist members) :
    LiveClass live bound members' :=
  ⟨h.ascending.sublist hsub, fun m hm => h.members m (hsub.subset hm)⟩

/-- Every nominated class lists live nodes in ascending order. -/
theorem nominate_live (substitutions : Substitutions) (signatures : Signatures)
    (metrics : SweepMetrics) :
    ∀ members ∈ (nominate live substitutions signatures metrics).1,
      LiveClass live live.length members := by
  intro members hmem
  obtain ⟨whole, hwhole, rfl⟩ := List.mem_map.mp ((List.mergeSort_perm _ _).mem_iff.mp hmem)
  obtain ⟨bucket, hbucket, rfl⟩ := List.mem_map.mp (List.mem_of_mem_filter hwhole)
  have hzip : ∀ k e, (live.zip substitutions)[k]? = some e → live[0 + k]? = some e.1 := by
    intro k e hk
    rw [Nat.zero_add]
    exact (List.getElem?_zip_eq_some.mp hk).1
  have hlive := bucketNodes_live signatures (live.zip substitutions) 0 hzip []
    (fun _ hb => by cases hb) bucket hbucket
  refine (hlive.mono ?_).sublist (List.take_sublist _ _)
  rw [Nat.zero_add, List.length_zip]
  exact Nat.min_le_left _ _

/-! Substitutions. -/

/-- A substituted node equals an earlier live node in the recorded phase. -/
structure Substitutions.Sound (net : LogicNetwork) (live : List Bool) (substitutions : Substitutions) : Prop where
  length : substitutions.length = net.nodeCount
  earlier : ∀ (i : Nat) (s : Substitution), substitutions[i]? = some (some s) → s.target < i
  live : ∀ (i : Nat) (s : Substitution), substitutions[i]? = some (some s) → live[s.target]? = some true
  equal : ∀ (i : Nat) (s : Substitution), substitutions[i]? = some (some s) → ∀ g,
    networkValue net g ⟨i, false⟩ = (networkValue net g ⟨s.target, false⟩ ^^ s.inverted)

theorem Substitutions.sound_none (net : LogicNetwork) (live : List Bool) :
    Sound net live (List.replicate net.nodeCount none) := by
  have hnone (i : Nat) (s : Substitution) :
      (List.replicate net.nodeCount none)[i]? ≠ some (some s) := by
    rw [List.getElem?_replicate]
    split_ifs <;> simp
  exact ⟨List.length_replicate, fun i s h => (hnone i s h).elim, fun i s h => (hnone i s h).elim,
    fun i s h => (hnone i s h).elim⟩

theorem Substitutions.Sound.set {substitutions : Substitutions} (h : substitutions.Sound net live) {node : Nat}
    {s : Substitution} (hlt : s.target < node) (hlive : live[s.target]? = some true)
    (hequal : ∀ g, networkValue net g ⟨node, false⟩ =
      (networkValue net g ⟨s.target, false⟩ ^^ s.inverted)) :
    Sound net live (substitutions.set node (some s)) := by
  have at_node (i : Nat) (s' : Substitution)
      (hs' : (substitutions.set node (some s))[i]? = some (some s')) :
      i = node ∧ s' = s ∨ substitutions[i]? = some (some s') := by
    rw [List.getElem?_set] at hs'
    split_ifs at hs' with he hlen
    · cases hs'; exact .inl ⟨he.symm, rfl⟩
    · exact .inr hs'
  constructor
  · rw [List.length_set]; exact h.length
  · intro i s' hs'
    rcases at_node i s' hs' with ⟨rfl, rfl⟩ | hs'
    · exact hlt
    · exact h.earlier i s' hs'
  · intro i s' hs'
    rcases at_node i s' hs' with ⟨rfl, rfl⟩ | hs'
    · exact hlive
    · exact h.live i s' hs'
  · intro i s' hs'
    rcases at_node i s' hs' with ⟨rfl, rfl⟩ | hs'
    · exact hequal
    · exact h.equal i s' hs'

/-- A chain ends at or before the node it starts from, with the phase it gathered. -/
theorem Substitutions.Sound.resolve {substitutions : Substitutions} (h : substitutions.Sound net live) {fuel node : Nat}
    (hfuel : node < fuel) (hnode : node < net.nodeCount) (hlive : live[node]? = some true)
    (inverted : Bool) : ∃ target phase, resolve substitutions fuel node inverted = some (target, phase) ∧
      target ≤ node ∧ live[target]? = some true ∧
      ∀ g, (networkValue net g ⟨node, false⟩ ^^ inverted) =
        (networkValue net g ⟨target, false⟩ ^^ phase) := by
  induction fuel generalizing node inverted with
  | zero => omega
  | succ fuel ih =>
    have hlt : node < substitutions.length := h.length.symm ▸ hnode
    have hentry := List.getElem?_eq_getElem hlt
    cases hs : substitutions[node] with
    | none =>
      rw [hs] at hentry
      exact ⟨node, inverted, by rw [Synth.resolve, hentry], Nat.le_refl _, hlive, fun _ => rfl⟩
    | some s =>
      rw [hs] at hentry
      have hearlier := h.earlier node s hentry
      obtain ⟨target, phase, hrun, hle, hlive', hvalue⟩ := ih (by omega) (by omega)
        (h.live node s hentry) (inverted ^^ s.inverted)
      refine ⟨target, phase, by rw [Synth.resolve, hentry]; exact hrun, by omega, hlive', fun g => ?_⟩
      rw [← hvalue g, h.equal node s hentry g, Bool.xor_assoc, Bool.xor_comm s.inverted]

/-! Proved classes. -/

/-- Every member that has a representative equals it, and comes after it. -/
structure ProvedClass (net : LogicNetwork) (literals : List Lit) (representatives : List (Option Nat)) :
    Prop where
  length : representatives.length = literals.length
  equal : ∀ i r : Nat, representatives[i]? = some (some r) → r < i ∧ ∃ l m : Lit,
    literals[r]? = some l ∧ literals[i]? = some m ∧ ∀ g, networkValue net g l = networkValue net g m

variable {solve : Solver E}

theorem proved_of_partition {classes : List (List Lit)} {refutations : List BoundaryRefutation}
    {st : Partition} (h : st.Sound net classes refutations) :
    List.Forall₂ (ProvedClass net) classes st.representatives := by
  have hlen := congrArg List.length h.shape
  rw [List.length_map, List.length_map] at hlen
  refine List.forall₂_iff_get.mpr ⟨hlen.symm, fun c h₁ h₂ => ⟨?_, fun i r hr => ?_⟩⟩
  · have hc : (st.representatives.map List.length)[c]? = (classes.map List.length)[c]? := by rw [h.shape]
    rw [List.getElem?_map, List.getElem?_map, List.getElem?_eq_getElem h₁,
      List.getElem?_eq_getElem h₂] at hc
    exact Option.some.inj hc
  · obtain ⟨hlt, class', l, m, hclass, hl, hm, hvalue⟩ :=
      h.equal c i r _ (List.getElem?_eq_getElem h₂) hr
    rw [List.getElem?_eq_getElem h₁] at hclass
    cases hclass
    exact ⟨hlt, l, m, hl, hm, hvalue⟩

theorem proved_none (literals : List (List Lit)) : List.Forall₂ (ProvedClass net) literals
    (literals.map fun class' => List.replicate class'.length none) := by
  induction literals with
  | nil => exact .nil
  | cons class' literals ih =>
    refine .cons ⟨List.length_replicate, fun i r hr => ?_⟩ ih
    rw [List.getElem?_replicate] at hr
    split_ifs at hr
    cases hr

theorem proveShard_ok (hs : solve.Correct) (hnet : Ordered net) {literals : List (List Lit)}
    (hknown : ∀ class' ∈ literals, ∀ l ∈ class', l.node < net.nodeCount) (maxPairs : Nat) :
    ∃ shard, proveShard solve net literals maxPairs = .ok shard ∧
      List.Forall₂ (ProvedClass net) literals shard.1 := by
  obtain ⟨result, refutations, hrun, hresult⟩ := proveLogicLiteralPartitions_ok hs hnet literals hknown
    MAX_REPRESENTATIVE_ROUNDS maxPairs MAX_PROOF_ENCODING_NODES []
  rw [proveShard, hrun]
  rcases hresult with ⟨rfl, -⟩ | ⟨st, rfl, -, hsound⟩
  · exact ⟨_, rfl, proved_none literals⟩
  · exact ⟨_, rfl, proved_of_partition hsound⟩

/-- Contiguous shards cover the classes. -/
theorem flatMap_shards {α : Type} (xs : List α) (size count : Nat) :
    (List.range count).flatMap (fun shard => (xs.drop (shard * size)).take size) =
      xs.take (count * size) := by
  induction count with
  | zero => simp
  | succ count ih =>
    rw [List.range_succ, List.flatMap_append, ih, List.flatMap_singleton, Nat.succ_mul, List.take_add]

theorem length_le_shards (length : Nat) {size : Nat} (h : 0 < size) :
    length ≤ (length + size - 1) / size * size := by
  have hmod := Nat.mod_add_div (length + size - 1) size
  have hlt := Nat.mod_lt (length + size - 1) h
  rw [Nat.mul_comm]
  omega

/-- One member's substitution is sound, in the phase of the two members. -/
theorem substitute_ok {members : SweepClass} {representatives : List (Option Nat)}
    (hclass : LiveClass live net.nodeCount members)
    (hproved : ProvedClass net (members.map memberLiteral) representatives)
    {state : Substitutions × Nat} (hstate : state.1.Sound net live) {entry : Option Nat × Nat}
    (hentry : representatives[entry.2]? = some entry.1) :
    ∃ state', substitute members state entry = .ok state' ∧ state'.1.Sound net live := by
  obtain ⟨representative, i⟩ := entry
  cases representative with
  | none => exact ⟨state, rfl, hstate⟩
  | some r =>
    obtain ⟨hlt, l, m, hl, hm, hvalue⟩ := hproved.equal i r hentry
    rw [List.getElem?_map] at hl hm
    obtain ⟨target, htarget, rfl⟩ := Option.map_eq_some_iff.mp hl
    obtain ⟨node, hnode, rfl⟩ := Option.map_eq_some_iff.mp hm
    have hbelow : target.1 < node.1 := by
      obtain ⟨hr, rfl⟩ := List.getElem?_eq_some_iff.mp htarget
      obtain ⟨hi, rfl⟩ := List.getElem?_eq_some_iff.mp hnode
      exact List.pairwise_iff_getElem.mp hclass.ascending r i hr hi hlt
    obtain ⟨hknown, hlive⟩ := hclass.members target (List.mem_of_getElem? htarget)
    obtain ⟨final, phase, hrun, hle, hfinal, hchain⟩ :=
      hstate.resolve (Nat.lt_succ_self target.1) hknown hlive (node.2 != target.2)
    refine ⟨(state.1.set node.1 (some ⟨final, phase⟩), state.2 + 1), ?_,
      hstate.set (Nat.lt_of_le_of_lt hle hbelow) hfinal fun g => ?_⟩
    · simp only [substitute, hnode, htarget, expect, bind, Except.bind, hrun]
      rfl
    · have hv := hvalue g
      rw [memberLiteral, memberLiteral, networkValue_withPhase, networkValue_withPhase] at hv
      rw [← hchain g]
      -- the members agree in their class phases
      generalize networkValue net g ⟨target.1, false⟩ = x at hv ⊢
      generalize networkValue net g ⟨node.1, false⟩ = y at hv ⊢
      revert hv
      cases x <;> cases y <;> cases node.2 <;> cases target.2 <;> decide

theorem substituteClass_ok {members : SweepClass} {representatives : List (Option Nat)}
    (hclass : LiveClass live net.nodeCount members)
    (hproved : ProvedClass net (members.map memberLiteral) representatives)
    {state : Substitutions × Nat} (hstate : state.1.Sound net live) :
    ∃ state', substituteClass state (members, representatives) = .ok state' ∧
      state'.1.Sound net live := by
  apply foldlM_ok (fun state : Substitutions × Nat => Substitutions.Sound net live state.1) ?_ hstate
  rintro state ⟨representative, i⟩ hentry hs
  exact substitute_ok hclass hproved hs (List.mem_zipIdx_iff_getElem?.mp hentry)

theorem substituteClasses_ok {classes : List SweepClass} {partitions : List (List (Option Nat))}
    (hclasses : ∀ members ∈ classes, LiveClass live net.nodeCount members)
    (hproved : List.Forall₂ (ProvedClass net) (classes.map (·.map memberLiteral)) partitions)
    {substitutions : Substitutions} (hs : substitutions.Sound net live) (proved : Nat) :
    ∃ state, (classes.zip partitions).foldlM substituteClass (substitutions, proved) = .ok state ∧
      state.1.Sound net live := by
  apply foldlM_ok (fun state : Substitutions × Nat => Substitutions.Sound net live state.1) ?_ hs
  rintro state ⟨members, representatives⟩ hentry hstate
  rw [List.forall₂_map_left_iff] at hproved
  exact substituteClass_ok (hclasses members (List.of_mem_zip hentry).1)
    (List.forall₂_iff_zip.mp hproved |>.2 hentry) hstate

theorem prove_ok (hs : solve.Correct) (hnet : Ordered net) {classes : List SweepClass}
    (hclasses : ∀ members ∈ classes, LiveClass live net.nodeCount members) (maxPairs : Nat) :
    ∃ round substitutions, prove solve net classes maxPairs (List.replicate net.nodeCount none) =
      .ok (round, substitutions) ∧ substitutions.Sound net live := by
  have hknown : ∀ class' ∈ classes.map (·.map memberLiteral), ∀ l ∈ class', l.node < net.nodeCount := by
    intro class' hclass l hl
    obtain ⟨members, hmembers, rfl⟩ := List.mem_map.mp hclass
    obtain ⟨m, hm, rfl⟩ := List.mem_map.mp hl
    rw [memberLiteral, withPhase_node]
    exact ((hclasses members hmembers).members m hm).1
  rw [prove]
  generalize hlits : classes.map (·.map memberLiteral) = literals at hknown
  generalize hsize : min SHARD_CLASSES (max literals.length 1) = size
  have hpos : 0 < size := by rw [← hsize]; simp only [SHARD_CLASSES]; omega
  generalize hcount : (literals.length + size - 1) / size = count
  have hshard : ∀ shard ∈ List.range count, ∃ result,
      proveShard solve net ((literals.drop (shard * size)).take size)
        (shardQuota maxPairs count shard) = .ok result ∧
      List.Forall₂ (ProvedClass net) ((literals.drop (shard * size)).take size) result.1 := by
    intro shard _
    apply proveShard_ok hs hnet
    exact fun class' hclass l hl =>
      hknown class' (List.mem_of_mem_drop (List.mem_of_mem_take hclass)) l hl
  obtain ⟨shards, hshards, hall⟩ := mapM_ok hshard
  have hpartitions : List.Forall₂ (ProvedClass net) literals (shards.flatMap (·.1)) := by
    have hflat : List.Forall₂ (ProvedClass net)
        ((List.range count).flatMap fun shard => (literals.drop (shard * size)).take size)
        (shards.flatMap (·.1)) := List.rel_flatMap hall fun _ _ h => h
    rwa [flatMap_shards, ← hcount,
      List.take_of_length_le (length_le_shards literals.length hpos)] at hflat
  obtain ⟨final, hfinal, hsound⟩ := substituteClasses_ok hclasses (hlits.symm ▸ hpartitions)
    (Substitutions.sound_none net live) 0
  refine ⟨⟨final.2, shards.flatMap (·.2.1), shards.any (·.2.2)⟩, final.1, ?_, hsound⟩
  simp only [hshards, hfinal, bind, Except.bind, Except.mapError, pure, Except.pure]

end Opto.Synth
