import Opto.Logic.Ordered
import Opto.Synth.Truth

/-!
# The truth-table walk is exact

Whatever calls a scratch served before, a call starts with no current entry.
From there on a current entry carries the value of its node with the inputs held
at the bits of the assignment, the walk never reads an entry before it is set,
and its fuel suffices.
-/

namespace Opto.Synth

open Logic BitTable

/-- The nodes that are held, with their value at every assignment. -/
abbrev Forcing := Nat → Option (Nat → Bool)

def Forcing.at (F : Forcing) (assignment : Nat) : Nat → Option Bool :=
  fun node => (F node).map (· assignment)

def forcedBit (net : LogicNetwork) (F : Forcing) (l : Lit) (assignment : Nat) : Bool :=
  forcedEval (F.at assignment) net.nodes l

variable {net : LogicNetwork} {count : Nat} {F : Forcing} {validBits : BitVec 64}

theorem lowBitsMask_carries {n : Nat} (h : n ≤ 6) :
    Carries (2 ^ n) (lowBitsMask (2 ^ n)) fun _ => true := by
  rw [lowBitsMask]
  split_ifs with hfull
  · rw [hfull]; exact carries_allOnes
  · have : 2 ^ n ≤ 2 ^ 6 := Nat.pow_le_pow_right (by decide) h
    exact carries_mask (by omega)

theorem variableBits_carries (input : Nat) {n : Nat} (h : n ≤ 6) :
    Carries (2 ^ n) (variableBits input (2 ^ n)) (·.testBit input) :=
  have h64 : 2 ^ n ≤ 2 ^ 6 := Nat.pow_le_pow_right (by decide) h
  carries_fill (·.testBit input) h64

theorem applyToBits_carries {l : Lit} {bits : BitVec 64} {f : Nat → Bool}
    (hmask : Carries count validBits fun _ => true) (h : Carries count bits f) :
    Carries count (applyToBits l bits validBits) fun a => f a ^^ l.isInverted := by
  rw [applyToBits]
  split_ifs with hi
  · exact (h.complement hmask).congr fun a _ => by rw [hi, Bool.xor_true]
  · exact h.congr fun a _ => by rw [Bool.eq_false_iff.mpr hi, Bool.xor_false]

namespace TruthScratch

/-! Single updates. -/

section Set

variable {s t : TruthScratch} {node : Nat} {bits : BitVec 64}

theorem lt_of_contains (h : s.contains node = true) : node < s.epochs.length :=
  (List.getElem?_eq_some_iff.mp (of_decide_eq_true h)).1

theorem set_eq (h : node < s.epochs.length) : s.set node bits =
    some ⟨s.bits.set node bits, s.epochs.set node s.epoch, s.epoch,
      if s.contains node then s.touched else s.touched ++ [node]⟩ := if_pos h

theorem contains_set (h : s.set node bits = some t) (i : Nat) :
    t.contains i = true ↔ i = node ∨ s.contains i = true := by
  have hlt : node < s.epochs.length := by
    by_contra hge
    rw [set, if_neg hge] at h; cases h
  rw [set_eq hlt] at h
  cases h
  simp only [contains, decide_eq_true_eq]
  by_cases hi : i = node
  · rw [hi, List.getElem?_set_self hlt]; simp
  · rw [List.getElem?_set_ne (Ne.symm hi)]; simp [hi]

theorem touched_set (h : s.set node bits = some t)
    (hs : ∀ i, i ∈ s.touched ↔ s.contains i = true) (hd : s.touched.Nodup) :
    (∀ i, i ∈ t.touched ↔ t.contains i = true) ∧ t.touched.Nodup := by
  have hc := contains_set h
  have htouched : t.touched = if s.contains node then s.touched else s.touched ++ [node] := by
    rw [set] at h
    split_ifs at h <;> cases h <;> simp_all
  by_cases hold : s.contains node = true
  · rw [htouched, if_pos hold]
    refine ⟨fun i => ?_, hd⟩
    rw [hs, hc]
    exact ⟨.inr, fun h => h.elim (fun hi => hi ▸ hold) id⟩
  · rw [htouched, if_neg hold]
    refine ⟨fun i => ?_, ?_⟩
    · rw [List.mem_append, List.mem_singleton, hs, hc, or_comm]
    · refine List.nodup_append.mpr ⟨hd, List.nodup_singleton _, ?_⟩
      intro a ha b hb hab
      rw [List.mem_singleton.mp hb] at hab
      exact hold ((hs node).mp (hab ▸ ha))

end Set

/-! A call starts with no current entry. -/

/-- No entry is stamped later than the present epoch. -/
def Settled (s : TruthScratch) : Prop := ∀ e ∈ s.epochs, e.toNat ≤ s.epoch.toNat

theorem settled_default : Settled default := fun e he => by cases he

theorem length_resize {α : Type} (xs : List α) (n : Nat) (value : α) :
    (resize xs n value).length = n := by
  rw [resize, List.length_append, List.length_take, List.length_replicate]
  omega

theorem mem_resize {α : Type} {xs : List α} {n : Nat} {value x : α} (h : x ∈ resize xs n value) :
    x ∈ xs ∨ x = value := by
  rcases List.mem_append.mp h with h | h
  · exact .inl (List.mem_of_mem_take h)
  · exact .inr (List.mem_replicate.mp h).2

structure Fresh (nodeCount : Nat) (s : TruthScratch) : Prop where
  epochs_length : s.epochs.length = nodeCount
  bits_length : s.bits.length = nodeCount
  untouched : s.touched = []
  stale : ∀ e ∈ s.epochs, e.toNat < s.epoch.toNat

theorem begin_fresh {s : TruthScratch} (h : Settled s) (nodeCount : Nat) :
    Fresh nodeCount (s.begin nodeCount) := by
  rw [begin]
  split_ifs with hwrap
  · refine ⟨by rw [List.length_map, length_resize], length_resize _ _ _, rfl, fun e he => ?_⟩
    obtain ⟨-, -, rfl⟩ := List.mem_map.mp he
    exact Nat.zero_lt_one
  · refine ⟨length_resize _ _ _, length_resize _ _ _, rfl, fun e he => ?_⟩
    have hlt := s.epoch.isLt
    -- the stamp did not wrap, so it grew
    have hne : (s.epoch + 1).toNat ≠ 0 := fun h0 => hwrap (BitVec.eq_of_toNat_eq h0)
    have hsucc : (s.epoch + 1).toNat = (s.epoch.toNat + 1) % 2 ^ 32 := BitVec.toNat_add _ _
    change e.toNat < (s.epoch + 1).toNat
    rcases mem_resize he with he | rfl
    · have := h e he
      omega
    · exact Nat.pos_of_ne_zero hne

theorem Fresh.not_contains {s : TruthScratch} {nodeCount : Nat} (h : Fresh nodeCount s) (node : Nat) :
    s.contains node = false := by
  refine decide_eq_false fun he => ?_
  have := h.stale _ (List.mem_of_getElem? he)
  omega

theorem Fresh.settled {s : TruthScratch} {nodeCount : Nat} (h : Fresh nodeCount s) : Settled s :=
  fun e he => (h.stale e he).le

theorem Settled.set {s t : TruthScratch} (h : Settled s) {node : Nat} {bits : BitVec 64}
    (hset : s.set node bits = some t) : Settled t := by
  rw [TruthScratch.set, Option.ite_none_right_eq_some] at hset
  obtain ⟨-, hset⟩ := hset
  cases hset
  intro e he
  rcases List.mem_or_eq_of_mem_set he with he | rfl
  · exact h e he
  · exact Nat.le_refl _

/-! What current entries carry. -/

/-- The touched nodes are the current ones, each listed once. -/
structure Stamped (nodeCount : Nat) (s : TruthScratch) : Prop where
  epochs_length : s.epochs.length = nodeCount
  bits_length : s.bits.length = nodeCount
  touched : ∀ i, i ∈ s.touched ↔ s.contains i = true
  nodup : s.touched.Nodup

theorem Fresh.stamped {s : TruthScratch} {n : Nat} (h : Fresh n s) : Stamped n s :=
  ⟨h.epochs_length, h.bits_length, fun i => by simp [h.untouched, h.not_contains], by
    rw [h.untouched]; exact List.nodup_nil⟩

/-- A set entry becomes current and holds its word; the others stay as they are. -/
theorem Stamped.set {s : TruthScratch} {n node : Nat} (h : Stamped n s) (hnode : node < n)
    (bits : BitVec 64) : ∃ t, s.set node bits = some t ∧ Stamped n t ∧
      (∀ i, t.contains i = true ↔ i = node ∨ s.contains i = true) ∧
      t.bits[node]? = some bits ∧ ∀ i, i ≠ node → t.bits[i]? = s.bits[i]? := by
  have hlt : node < s.epochs.length := h.epochs_length.symm ▸ hnode
  have hset : s.set node bits = _ := set_eq hlt
  obtain ⟨htouched, hnodup⟩ := touched_set hset h.touched h.nodup
  refine ⟨_, hset, ⟨?_, ?_, htouched, hnodup⟩, contains_set hset, ?_, fun i hi => ?_⟩
  · rw [List.length_set]; exact h.epochs_length
  · rw [List.length_set]; exact h.bits_length
  · exact List.getElem?_set_self (h.bits_length.symm ▸ hnode)
  · exact List.getElem?_set_ne (Ne.symm hi)

/-- The current entries are the held nodes, with the values they are held at. -/
structure Loaded (net : LogicNetwork) (count : Nat) (F : Forcing) (s : TruthScratch) : Prop where
  stamped : Stamped net.nodeCount s
  held : ∀ i, s.contains i = true ↔ (F i).isSome
  carries : ∀ i v bits, F i = some v → s.bits[i]? = some bits → Carries count bits v

/-- How the inputs are held; a later entry for a node replaces an earlier one. -/
def loading (inputs : List (Lit × Nat)) : Forcing :=
  inputs.foldl (fun F input =>
    Function.update F input.1.node (some fun a => a.testBit input.2 ^^ input.1.isInverted)) fun _ => none

theorem Loaded.set {s : TruthScratch} (h : Loaded net count F s) {node : Nat} {v : Nat → Bool}
    {bits : BitVec 64} (hnode : node < net.nodeCount) (hbits : Carries count bits v) :
    ∃ t, s.set node bits = some t ∧ Loaded net count (Function.update F node (some v)) t := by
  obtain ⟨t, ht, hstamped, hcontains, hself, hother⟩ := h.stamped.set hnode bits
  refine ⟨t, ht, hstamped, fun i => ?_, fun i u word hu hword => ?_⟩
  · rw [hcontains, h.held]
    by_cases hi : i = node
    · simp [hi]
    · simp [hi]
  · by_cases hi : i = node
    · rw [hi, Function.update_self] at hu
      rw [hi, hself] at hword
      cases hu; cases hword
      exact hbits
    · rw [Function.update_of_ne hi] at hu
      rw [hother i hi] at hword
      exact h.carries i u word hu hword

theorem setInputs_loaded {s : TruthScratch} (hs : Fresh net.nodeCount s) {inputs : List Lit}
    (hsize : inputs.length ≤ 6) (hnodes : ∀ l ∈ inputs, l.node < net.nodeCount) :
    ∃ t, s.setInputs inputs (lowBitsMask (2 ^ inputs.length)) = some t ∧
      Loaded net (2 ^ inputs.length) (loading inputs.zipIdx) t := by
  have start : Loaded net (2 ^ inputs.length) (fun _ => none) s :=
    ⟨hs.stamped, fun i => by simp [hs.not_contains], fun i v bits hv => by cases hv⟩
  have steps (rest : List (Lit × Nat)) (hrest : ∀ p ∈ rest, p.1 ∈ inputs) (F : Forcing)
      (s : TruthScratch) (hs : Loaded net (2 ^ inputs.length) F s) :
      ∃ t, rest.foldlM (fun s input => s.set input.1.node (applyToBits input.1
        (variableBits input.2 (2 ^ inputs.length)) (lowBitsMask (2 ^ inputs.length)))) s = some t ∧
        Loaded net (2 ^ inputs.length) (rest.foldl (fun F input => Function.update F input.1.node
          (some fun a => a.testBit input.2 ^^ input.1.isInverted)) F) t := by
    induction rest generalizing F s with
    | nil => exact ⟨s, rfl, hs⟩
    | cons input rest ih =>
      have hbits := applyToBits_carries (l := input.1) (lowBitsMask_carries hsize)
        (variableBits_carries input.2 hsize)
      obtain ⟨s', hset, hs'⟩ := hs.set (hnodes _ (hrest input List.mem_cons_self)) hbits
      obtain ⟨t, ht, hloaded⟩ := ih (fun p hp => hrest p (List.mem_cons_of_mem _ hp)) _ s' hs'
      exact ⟨t, by rw [List.foldlM_cons, hset, Option.bind_eq_bind, Option.bind_some, ht], hloaded⟩
  apply steps inputs.zipIdx ?_ _ s start
  rintro ⟨l, k⟩ hp
  exact List.fst_mem_of_mem_zipIdx hp

/-- Current entries carry the value of their node with the inputs held. -/
structure Tracks (net : LogicNetwork) (count : Nat) (F : Forcing) (s : TruthScratch) : Prop where
  stamped : Stamped net.nodeCount s
  held : ∀ i, (F i).isSome → s.contains i = true
  carries : ∀ i bits, s.contains i = true → s.bits[i]? = some bits →
    Carries count bits (forcedBit net F ⟨i, false⟩)

theorem Loaded.tracks {s : TruthScratch} (ht : Topological net.nodes) (h : Loaded net count F s) :
    Tracks net count F s where
  stamped := h.stamped
  held i hi := (h.held i).mpr hi
  carries i bits hi hbits := by
    obtain ⟨v, hv⟩ := Option.isSome_iff_exists.mp ((h.held i).mp hi)
    have hlt : i < net.nodeCount := h.stamped.epochs_length ▸ lt_of_contains hi
    exact (h.carries i v bits hv hbits).congr fun a _ =>
      (forcedEval_of_force ht hlt (by rw [Forcing.at, hv]; rfl)).symm

theorem Tracks.get {s : TruthScratch} (h : Tracks net count F s)
    (hmask : Carries count validBits fun _ => true) {l : Lit} (hl : s.contains l.node = true) :
    ∃ bits, s.get l validBits = some bits ∧ Carries count bits (forcedBit net F l) := by
  have hlt : l.node < s.bits.length := by
    rw [h.stamped.bits_length, ← h.stamped.epochs_length]; exact lt_of_contains hl
  have hword := List.getElem?_eq_getElem hlt
  refine ⟨applyToBits l s.bits[l.node] validBits, by rw [TruthScratch.get, if_pos hl, hword]; rfl, ?_⟩
  refine (applyToBits_carries hmask (h.carries l.node _ hl hword)).congr fun a _ => ?_
  exact (forcedEval_phase l).symm

/-- A node that is not held gets its value from its fanins. -/
theorem Tracks.nodeBits {s : TruthScratch} (h : Tracks net count F s) (ht : Topological net.nodes)
    (hmask : Carries count validBits fun _ => true) {i : Nat} {n : Node}
    (hn : net.nodes[i]? = some n) (hfree : F i = none)
    (hf : ∀ f ∈ n.fanins, s.contains f.node = true) :
    ∃ bits, s.nodeBits validBits n = some bits ∧ Carries count bits (forcedBit net F ⟨i, false⟩) := by
  have hvalue (a : Nat) : forcedBit net F ⟨i, false⟩ a =
      n.denote false fun f => forcedBit net F f a := by
    rw [forcedBit, forcedEval_node ht hn, Forcing.at, hfree]
    rfl
  have fanin (f : Lit) (hmem : f ∈ n.fanins) := h.get hmask (hf f hmem)
  cases hk : n.kind with
  | constant =>
    exact ⟨0, by rw [TruthScratch.nodeBits, hk],
      carries_zero.congr fun a _ => by rw [hvalue, Node.denote, hk]⟩
  | input =>
    exact ⟨0, by rw [TruthScratch.nodeBits, hk],
      carries_zero.congr fun a _ => by rw [hvalue, Node.denote, hk]⟩
  | and =>
    obtain ⟨x, hx, hxc⟩ := fanin n.fanin0 (by simp [Node.fanins, hk, NodeKind.arity])
    obtain ⟨y, hy, hyc⟩ := fanin n.fanin1 (by simp [Node.fanins, hk, NodeKind.arity])
    refine ⟨x &&& y, by simp only [TruthScratch.nodeBits, hk, hx, hy]; rfl, ?_⟩
    exact (hxc.and hyc).congr fun a _ => by rw [hvalue, Node.denote, hk]
  | xor =>
    obtain ⟨x, hx, hxc⟩ := fanin n.fanin0 (by simp [Node.fanins, hk, NodeKind.arity])
    obtain ⟨y, hy, hyc⟩ := fanin n.fanin1 (by simp [Node.fanins, hk, NodeKind.arity])
    refine ⟨x ^^^ y, by simp only [TruthScratch.nodeBits, hk, hx, hy]; rfl, ?_⟩
    exact (hxc.xor hyc).congr fun a _ => by rw [hvalue, Node.denote, hk]
  | mux =>
    obtain ⟨x, hx, hxc⟩ := fanin n.fanin0 (by simp [Node.fanins, hk, NodeKind.arity])
    obtain ⟨y, hy, hyc⟩ := fanin n.fanin1 (by simp [Node.fanins, hk, NodeKind.arity])
    obtain ⟨z, hz, hzc⟩ := fanin n.fanin2 (by simp [Node.fanins, hk, NodeKind.arity])
    refine ⟨_, by simp only [TruthScratch.nodeBits, hk, hx, hy, hz]; rfl, ?_⟩
    exact (hxc.select hyc hzc hmask).congr fun a _ => by rw [hvalue, Node.denote, hk]

end TruthScratch

end Opto.Synth
