import Opto.Synth.SweepSound

/-!
# The signatures of a sweep

Simulation fills a word of every live node with the function of the node under the
patterns of that word. A rebuilt subject takes over the rows of the nodes it is mapped
from, and the next round fills only the words the refutations changed: the earlier words
are right wherever a row was carried over.
-/

namespace Opto.Synth

open Logic Formal Cnf

variable {E : Type} {net : LogicNetwork} {roots : List Lit} {live : List Bool}

/-! Functions under the patterns of a word. -/

/-- What the origins read in one pattern of a word. -/
def Stimulus.pattern (s : Stimulus) (word bit origin : Nat) : Bool :=
  (s.inputWord origin word).getLsbD bit

/-- Every bit of a word is the value of the literal under the pattern of that bit. -/
def Agrees (net : LogicNetwork) (patterns : Nat → Nat → Bool) (l : Lit) (bits : Word) : Prop :=
  ∀ bit < 64, bits.getLsbD bit = networkValue net (patterns bit) l

theorem Agrees.withPhase {patterns : Nat → Nat → Bool} {l : Lit} {bits : Word}
    (h : Agrees net patterns l bits) (inverted : Bool) :
    Agrees net patterns (withPhase l inverted) (if inverted then ~~~bits else bits) := by
  intro bit hbit
  rw [networkValue_withPhase, ← h bit hbit]
  cases inverted <;> simp [hbit]

theorem Agrees.operand {patterns : Nat → Nat → Bool} {rows : List (List Word)} {l : Lit} {word : Nat}
    (h : Agrees net patterns ⟨l.node, false⟩ (Signatures.value rows l.node word)) :
    Agrees net patterns l (operand rows l word) := by
  intro bit hbit
  rw [Logic.networkValue_phase, Synth.operand, ← h bit hbit]
  cases l.isInverted <;> simp [hbit]

theorem simulatedWord_agrees (hnet : Ordered net) {i : Nat} {n : Node} (hn : net.nodes[i]? = some n)
    {stimulus : Stimulus} {rows : List (List Word)} {word : Nat}
    (hfanins : ∀ f ∈ n.fanins, Agrees net (stimulus.pattern word) f (operand rows f word)) :
    Agrees net (stimulus.pattern word) ⟨i, false⟩ (simulatedWord stimulus rows n word) := by
  intro bit hbit
  rw [networkValue_node hnet.topological hn, Node.denote, simulatedWord]
  have hfanin : ∀ f ∈ n.fanins, (operand rows f word).getLsbD bit =
      networkValue net (stimulus.pattern word bit) f := fun f hf => hfanins f hf bit hbit
  cases hk : n.kind with
  | constant => simp
  | input => rfl
  | and =>
    have hleft := hfanin n.fanin0 (by simp [Node.fanins, hk, NodeKind.arity])
    have hright := hfanin n.fanin1 (by simp [Node.fanins, hk, NodeKind.arity])
    simp only [BitVec.getLsbD_and, hleft, hright]
  | xor =>
    have hleft := hfanin n.fanin0 (by simp [Node.fanins, hk, NodeKind.arity])
    have hright := hfanin n.fanin1 (by simp [Node.fanins, hk, NodeKind.arity])
    simp only [BitVec.getLsbD_xor, hleft, hright]
  | mux =>
    have hselect := hfanin n.fanin0 (by simp [Node.fanins, hk, NodeKind.arity])
    have hthen := hfanin n.fanin1 (by simp [Node.fanins, hk, NodeKind.arity])
    have helse := hfanin n.fanin2 (by simp [Node.fanins, hk, NodeKind.arity])
    simp only [BitVec.getLsbD_or, BitVec.getLsbD_and, BitVec.getLsbD_not, hselect, hthen, helse]
    cases networkValue net (stimulus.pattern word bit) n.fanin0 <;> simp [hbit]

/-! Rows. -/

structure Shaped (count : Nat) (rows : List (List Word)) : Prop where
  length : rows.length = count
  width : ∀ row ∈ rows, row.length = SIGNATURE_STRIDE

theorem Signatures.shaped_new (count : Nat) : Shaped count (Signatures.new count).rows where
  length := by simp [Signatures.new]
  width row h := by
    rw [List.eq_of_mem_replicate h, List.length_replicate]

theorem Signatures.value_new (count node word : Nat) : value (Signatures.new count).rows node word = 0 := by
  rw [value, Signatures.new, List.getD_eq_getElem?_getD, List.getD_eq_getElem?_getD,
    List.getElem?_replicate]
  split_ifs
  · rw [Option.getD_some, List.getElem?_replicate]
    split_ifs <;> rfl
  · rfl

theorem Shaped.modify {count : Nat} {rows : List (List Word)} (h : Shaped count rows) (node : Nat)
    (f : Nat → Word → Word) : Shaped count (rows.modify node fun row => row.mapIdx f) where
  length := by rw [List.length_modify, h.length]
  width row hrow := by
    obtain ⟨i, hi⟩ := List.getElem?_of_mem hrow
    rw [List.getElem?_modify] at hi
    obtain ⟨old, hold, rfl⟩ := Option.map_eq_some_iff.mp hi
    have hwidth := h.width old (List.mem_of_getElem? hold)
    by_cases hn : node = i <;> simp [hn, hwidth]

theorem Signatures.value_modify_ne (rows : List (List Word)) (f : List Word → List Word)
    {node j : Nat} (h : j ≠ node) (word : Nat) : value (rows.modify node f) j word = value rows j word := by
  simp [value, h.symm]

/-- Rewriting a row changes the words of that row only. -/
theorem Shaped.value_modify {count : Nat} {rows : List (List Word)} (h : Shaped count rows)
    (f : Nat → Word → Word) {node word : Nat} (hnode : node < count) (hword : word < SIGNATURE_STRIDE)
    (j : Nat) : Signatures.value (rows.modify node fun row => row.mapIdx f) j word =
      if j = node then f word (Signatures.value rows j word) else Signatures.value rows j word := by
  by_cases hj : j = node
  · subst hj
    have hlt : j < rows.length := h.length.symm ▸ hnode
    have hwidth := h.width _ (List.getElem_mem hlt)
    simp [Signatures.value, List.getElem?_eq_getElem hlt, hwidth, hword]
  · rw [if_neg hj, Signatures.value_modify_ne rows _ hj]

/-! Simulation. -/

/-- What simulation does to the row of one node. -/
def simulateNode (stimulus : Stimulus) (first words : Nat) (rows : List (List Word))
    (entry : (Node × Bool) × Nat) : List (List Word) :=
  if entry.1.2 then rows.modify entry.2 fun row => row.mapIdx fun word old =>
    if first ≤ word ∧ word < words then simulatedWord stimulus rows entry.1.1 word else old
  else rows

theorem simulate_rows (net : LogicNetwork) (live : List Bool) (stimulus : Stimulus)
    (signatures : Signatures) (first : Nat) :
    (simulate net live stimulus signatures first).rows =
      if stimulus.words ≤ first then signatures.rows
      else (net.nodes.zip live).zipIdx.foldl (simulateNode stimulus first stimulus.words)
        signatures.rows := by
  rw [simulate]
  split_ifs <;> rfl

theorem simulate_active (net : LogicNetwork) (live : List Bool) (stimulus : Stimulus)
    (signatures : Signatures) (first : Nat) :
    (simulate net live stimulus signatures first).active = stimulus.words := by
  rw [simulate]
  dsimp only
  split_ifs <;> rfl

/-- The words from `first` on of the nodes before `k` are filled, the earlier words kept. -/
structure Filled (net : LogicNetwork) (live : List Bool) (stimulus : Stimulus) (first : Nat)
    (start : List (List Word)) (k : Nat) (rows : List (List Word)) : Prop where
  shaped : Shaped net.nodeCount rows
  kept : ∀ node word, word < first → word < SIGNATURE_STRIDE →
    Signatures.value rows node word = Signatures.value start node word
  filled : ∀ node < k, live[node]? = some true → ∀ word, first ≤ word → word < stimulus.words →
    Agrees net (stimulus.pattern word) ⟨node, false⟩ (Signatures.value rows node word)

theorem Filled.step (hnet : Ordered net) (hlive : Live net roots live) {stimulus : Stimulus}
    (hwords : stimulus.words ≤ SIGNATURE_STRIDE) {first k : Nat} {start rows : List (List Word)}
    (h : Filled net live stimulus first start k rows) {n : Node} {flag : Bool}
    (hn : net.nodes[k]? = some n) (hflag : live[k]? = some flag) :
    Filled net live stimulus first start (k + 1)
      (simulateNode stimulus first stimulus.words rows ((n, flag), k)) := by
  have hk : k < net.nodeCount := (List.getElem?_eq_some_iff.mp hn).1
  cases flag with
  | false =>
    refine ⟨h.shaped, h.kept, fun node hnode hlivenode => ?_⟩
    have hne : node ≠ k := by
      intro he
      subst he
      rw [hflag] at hlivenode
      cases hlivenode
    exact h.filled node (by omega) hlivenode
  | true =>
    have hvalue (node word : Nat) (hword : word < SIGNATURE_STRIDE) := h.shaped.value_modify
      (fun word old => if first ≤ word ∧ word < stimulus.words then simulatedWord stimulus rows n word
        else old) hk hword node
    simp only [simulateNode, if_true]
    refine ⟨h.shaped.modify k _, fun node word hfirst hword => ?_, fun node hnode hlivenode => ?_⟩
    · rw [hvalue node word hword, ← h.kept node word hfirst hword]
      by_cases hnode : node = k
      · rw [if_pos hnode, if_neg (by omega)]
      · rw [if_neg hnode]
    · intro word hfirst hword
      rw [hvalue node word (hword.trans_le hwords)]
      by_cases hne : node = k
      · subst hne
        rw [if_pos rfl, if_pos ⟨hfirst, hword⟩]
        apply simulatedWord_agrees hnet hn
        intro f hf
        apply Agrees.operand
        exact h.filled f.node (hnet.topological node n hn f hf)
          (hlive.fanins node n hflag hn f hf) word hfirst hword
      · rw [if_neg hne]
        exact h.filled node (by omega) hlivenode word hfirst hword

theorem simulate_filled (hnet : Ordered net) (hlive : Live net roots live) {stimulus : Stimulus}
    (hwords : stimulus.words ≤ SIGNATURE_STRIDE) {signatures : Signatures}
    (hshaped : Shaped net.nodeCount signatures.rows) (first : Nat) :
    Filled net live stimulus first signatures.rows net.nodeCount
      (simulate net live stimulus signatures first).rows := by
  rw [simulate_rows]
  split_ifs with hfirst
  · exact ⟨hshaped, fun _ _ _ _ => rfl, fun _ _ _ word hge hlt => by omega⟩
  · have hlength : (net.nodes.zip live).length = net.nodeCount := by
      rw [List.length_zip, hlive.length]
      exact Nat.min_self _
    have hloop := Opto.foldl_zipIdx (simulateNode stimulus first stimulus.words)
      (Filled net live stimulus first signatures.rows) (net.nodes.zip live) 0 ?_
      ⟨hshaped, fun _ _ _ _ => rfl, fun _ hlt => by omega⟩
    · rwa [Nat.zero_add, hlength] at hloop
    · intro j entry hentry rows hrows
      obtain ⟨hn, hflag⟩ := List.getElem?_zip_eq_some.mp hentry
      rw [Nat.zero_add] at hrows ⊢
      exact hrows.step hnet hlive hwords hn hflag

/-- The rows of the live nodes are right in the words before `below`. -/
structure Exact (net : LogicNetwork) (live : List Bool) (stimulus : Stimulus) (below : Nat)
    (rows : List (List Word)) : Prop where
  shaped : Shaped net.nodeCount rows
  agrees : ∀ node, live[node]? = some true → ∀ word < below,
    Agrees net (stimulus.pattern word) ⟨node, false⟩ (Signatures.value rows node word)

/-- Simulating the words from `first` on completes rows whose earlier words are right. -/
theorem Exact.simulate (hnet : Ordered net) (hlive : Live net roots live) {stimulus : Stimulus}
    (hwords : stimulus.words ≤ SIGNATURE_STRIDE) {signatures : Signatures} {first : Nat}
    (h : Exact net live stimulus first signatures.rows) :
    Exact net live stimulus stimulus.words (simulate net live stimulus signatures first).rows := by
  have hfilled := simulate_filled hnet hlive hwords h.shaped first
  refine ⟨hfilled.shaped, fun node hnode word hword => ?_⟩
  rcases Nat.lt_or_ge word first with hlt | hge
  · rw [hfilled.kept node word hlt (hword.trans_le hwords)]
    exact h.agrees node hnode word hlt
  · have hbound : node < net.nodeCount := hlive.length ▸ (List.getElem?_eq_some_iff.mp hnode).1
    exact hfilled.filled node hbound hnode word hge hword

/-! Full simulation. -/

/-- The row of a node when every word of the stimulus is simulated, from fresh rows. -/
def fullSimulation (net : LogicNetwork) (stimulus : Stimulus) (node : Nat) : List Word :=
  (simulate net (List.replicate net.nodeCount true) stimulus (.new net.nodeCount) 0).row node

theorem Agrees.unique {patterns : Nat → Nat → Bool} {l : Lit} {bits bits' : Word}
    (h : Agrees net patterns l bits) (h' : Agrees net patterns l bits') : bits = bits' := by
  apply BitVec.eq_of_getLsbD_eq
  intro bit hbit
  rw [h bit hbit, h' bit hbit]

theorem live_all (hnet : Ordered net) : Live net [] (List.replicate net.nodeCount true) where
  length := List.length_replicate
  roots := by simp
  fanins i n _ hn f hf := by
    have hlt : f.node < net.nodeCount := hnet.fanin_lt hn hf
    rw [List.getElem?_replicate, if_pos hlt]

theorem exact_new (net : LogicNetwork) (live : List Bool) (stimulus : Stimulus) :
    Exact net live stimulus 0 (Signatures.new net.nodeCount).rows :=
  ⟨Signatures.shaped_new _, fun _ _ _ hlt => by omega⟩

theorem Shaped.getElem?_row {count : Nat} {signatures : Signatures} (h : Shaped count signatures.rows)
    (hactive : signatures.active ≤ SIGNATURE_STRIDE) {node : Nat} (hnode : node < count) (word : Nat) :
    (signatures.row node)[word]? = if word < signatures.active then
      some (Signatures.value signatures.rows node word) else none := by
  have hlt : node < signatures.rows.length := h.length.symm ▸ hnode
  have hwidth := h.width _ (List.getElem_mem hlt)
  have hrow : signatures.rows.getD node [] = signatures.rows[node] := by
    rw [List.getD_eq_getElem?_getD, List.getElem?_eq_getElem hlt, Option.getD_some]
  rw [Signatures.row, Signatures.value, hrow, List.getElem?_take]
  split_ifs with hword
  · rw [List.getD_eq_getElem?_getD, List.getElem?_eq_getElem (by omega), Option.getD_some]
  · rfl

/-- Completed rows of live nodes are those of a full simulation. -/
theorem Exact.row (hnet : Ordered net) (hlive : Live net roots live) {stimulus : Stimulus}
    (hwords : stimulus.words ≤ SIGNATURE_STRIDE) {signatures : Signatures}
    (hactive : signatures.active = stimulus.words)
    (h : Exact net live stimulus stimulus.words signatures.rows) {node : Nat}
    (hnode : live[node]? = some true) :
    signatures.row node = fullSimulation net stimulus node ∧
      ∀ word < stimulus.words, ∃ bits, (signatures.row node)[word]? = some bits ∧
        Agrees net (stimulus.pattern word) ⟨node, false⟩ bits := by
  have hbound : node < net.nodeCount := hlive.length ▸ (List.getElem?_eq_some_iff.mp hnode).1
  have hfull := (exact_new net _ stimulus).simulate hnet (live_all hnet) hwords
  have hfullActive := simulate_active net (List.replicate net.nodeCount true) stimulus
    (.new net.nodeCount) 0
  have hrow := h.shaped.getElem?_row (hactive ▸ hwords) hbound
  have hall : (List.replicate net.nodeCount true)[node]? = some true := by
    rw [List.getElem?_replicate, if_pos hbound]
  constructor
  · apply List.ext_getElem?
    intro word
    rw [hrow, fullSimulation, hfull.shaped.getElem?_row (hfullActive ▸ hwords) hbound, hactive,
      hfullActive]
    split_ifs with hword
    · exact congrArg some ((h.agrees node hnode word hword).unique
        (hfull.agrees node hall word hword))
    · rfl
  · intro word hword
    exact ⟨_, by rw [hrow, hactive, if_pos hword], h.agrees node hnode word hword⟩

/-- Each bit of a full simulation is the function of the node under that pattern. -/
theorem fullSimulation_agrees (hnet : Ordered net) {stimulus : Stimulus}
    (hwords : stimulus.words ≤ SIGNATURE_STRIDE) {node word : Nat} (hnode : node < net.nodeCount)
    (hword : word < stimulus.words) : ∃ bits, (fullSimulation net stimulus node)[word]? = some bits ∧
      Agrees net (stimulus.pattern word) ⟨node, false⟩ bits := by
  have hfull := (exact_new net _ stimulus).simulate hnet (live_all hnet) hwords
  have hall : (List.replicate net.nodeCount true)[node]? = some true := by
    rw [List.getElem?_replicate, if_pos hnode]
  exact (hfull.row hnet (live_all hnet) hwords (simulate_active _ _ _ _ _) hall).2 word hword

/-! Projection onto a rebuilt subject. -/

/-- What projection does with the row of one old node. -/
def projectNode (s : Signatures) (rows : List (List Word)) (entry : Option Lit × Nat) :
    List (List Word) :=
  match entry.1 with
  | none => rows
  | some mapped => rows.modify mapped.node fun row => row.mapIdx fun word old =>
      if word < s.active then
        let value := Signatures.value s.rows entry.2 word
        if mapped.isInverted then ~~~value else value
      else old

theorem Signatures.projected_rows (s : Signatures) (remap : List (Option Lit)) (nodeCount : Nat) :
    (s.projected remap nodeCount).rows =
      remap.zipIdx.foldl (projectNode s) (new nodeCount).rows := rfl

theorem Signatures.shaped_projected (s : Signatures) (remap : List (Option Lit)) (nodeCount : Nat) :
    Shaped nodeCount (s.projected remap nodeCount).rows := by
  rw [projected_rows]
  apply Opto.foldl_split fun _ => Shaped nodeCount
  · exact shaped_new nodeCount
  · intro done entry rest _ hdone
    obtain ⟨mapped, k⟩ := entry
    cases mapped with
    | none => exact hdone
    | some l => exact hdone.modify l.node _

/-- The rows of the images of the nodes before `k` are right in the active words. -/
structure Images (target : LogicNetwork) (stimulus : Stimulus) (remap : List (Option Lit))
    (active k : Nat) (rows : List (List Word)) : Prop where
  shaped : Shaped target.nodeCount rows
  agrees : ∀ i < k, ∀ l, remap[i]?.join = some l → ∀ word < active,
    Agrees target (stimulus.pattern word) ⟨l.node, false⟩ (Signatures.value rows l.node word)

theorem Preserves.agrees {target : LogicNetwork} {remap : List (Option Lit)}
    (h : Preserves net target remap) {i : Nat} {l : Lit} (hl : remap[i]?.join = some l)
    {patterns : Nat → Nat → Bool} {bits : Word} (hbits : Agrees net patterns ⟨i, false⟩ bits) :
    Agrees target patterns ⟨l.node, false⟩ (if l.isInverted then ~~~bits else bits) := by
  intro bit hbit
  have hvalue := (h i l hl).2 (patterns bit)
  rw [Logic.networkValue_phase, ← hbits bit hbit] at hvalue
  cases hinverted : l.isInverted with
  | false => simpa [hinverted] using hvalue.symm
  | true =>
    rw [hinverted, Bool.xor_true] at hvalue
    simp only [if_true, BitVec.getLsbD_not, hbit, decide_true, Bool.true_and, ← hvalue, Bool.not_not]

theorem Images.step {target : LogicNetwork} {remap : List (Option Lit)}
    (hpreserves : Preserves net target remap)
    (hlive : ∀ (i : Nat) (l : Lit), remap[i]?.join = some l → live[i]? = some true) {stimulus : Stimulus}
    {signatures : Signatures} (hactive : signatures.active ≤ SIGNATURE_STRIDE)
    (hexact : Exact net live stimulus signatures.active signatures.rows) {k : Nat}
    {rows : List (List Word)} (h : Images target stimulus remap signatures.active k rows)
    {entry : Option Lit} (hentry : remap[k]? = some entry) :
    Images target stimulus remap signatures.active (k + 1) (projectNode signatures rows (entry, k)) := by
  cases entry with
  | none =>
    refine ⟨h.shaped, fun i hi l hl => ?_⟩
    have hne : i ≠ k := by
      intro he
      rw [he, hentry] at hl
      cases hl
    exact h.agrees i (by omega) l hl
  | some mapped =>
    have hmapped : remap[k]?.join = some mapped := by rw [hentry]; rfl
    refine ⟨h.shaped.modify mapped.node _, fun i hi l hl word hword => ?_⟩
    simp only [projectNode]
    rw [h.shaped.value_modify _ (hpreserves k mapped hmapped).1 (hword.trans_le hactive)]
    by_cases hsame : l.node = mapped.node
    · rw [if_pos hsame, if_pos hword, hsame]
      apply hpreserves.agrees hmapped
      exact hexact.agrees k (hlive k mapped hmapped) word hword
    · rw [if_neg hsame]
      have hne : i ≠ k := by
        intro he
        rw [he, hmapped] at hl
        exact hsame (congrArg Lit.node (Option.some.inj hl)).symm
      exact h.agrees i (by omega) l hl word hword

theorem projected_images {target : LogicNetwork} {remap : List (Option Lit)}
    (hpreserves : Preserves net target remap)
    (hlive : ∀ (i : Nat) (l : Lit), remap[i]?.join = some l → live[i]? = some true) {stimulus : Stimulus}
    {signatures : Signatures} (hactive : signatures.active ≤ SIGNATURE_STRIDE)
    (hexact : Exact net live stimulus signatures.active signatures.rows) :
    Images target stimulus remap signatures.active remap.length
      (signatures.projected remap target.nodeCount).rows := by
  rw [Signatures.projected_rows]
  have hloop := Opto.foldl_zipIdx (projectNode signatures)
    (Images target stimulus remap signatures.active) remap 0 ?_
    ⟨Signatures.shaped_new target.nodeCount, fun _ hlt => by omega⟩
  · rwa [Nat.zero_add] at hloop
  · intro j entry hentry rows hrows
    rw [Nat.zero_add] at hrows ⊢
    exact hrows.step hpreserves hlive hactive hexact hentry

/-- A node that no old node is mapped to starts with zeros. -/
theorem projected_zero (s : Signatures) {remap : List (Option Lit)} (nodeCount : Nat) {node : Nat}
    (h : ∀ l, some l ∈ remap → l.node ≠ node) (word : Nat) :
    Signatures.value (s.projected remap nodeCount).rows node word = 0 := by
  rw [Signatures.projected_rows]
  apply Opto.foldl_split (fun _ rows => Signatures.value rows node word = 0)
  · exact Signatures.value_new nodeCount node word
  · intro done entry rest hsplit hdone
    obtain ⟨mapped, k⟩ := entry
    cases mapped with
    | none => exact hdone
    | some l =>
      have hmem : (some l, k) ∈ remap.zipIdx := by
        rw [hsplit]
        exact List.mem_append_right _ List.mem_cons_self
      have hne := h l (List.fst_mem_of_mem_zipIdx hmem)
      simp only [projectNode]
      rw [Signatures.value_modify_ne _ _ hne.symm]
      exact hdone

/-! The stimulus. -/

theorem Stimulus.words_le {s : Stimulus} (h : s.learned.length ≤ LEARNED_WORDS * 64) :
    s.words ≤ SIGNATURE_STRIDE := by
  rw [words, SIGNATURE_STRIDE]
  unfold LEARNED_WORDS at h ⊢
  omega

/-- Learning keeps the words before the one it reports. -/
theorem Stimulus.learn_some {s stimulus : Stimulus} {refutations : List BoundaryRefutation}
    {changed : Nat} (hbound : s.learned.length ≤ LEARNED_WORDS * 64)
    (h : s.learn refutations = (stimulus, some changed)) :
    stimulus.learned.length ≤ LEARNED_WORDS * 64 ∧ changed ≤ s.words ∧ changed ≤ stimulus.words ∧
      ∀ word < changed, ∀ bit, stimulus.pattern word bit = s.pattern word bit := by
  have hlearned : s.learned <+: stimulus.learned ∧
      stimulus.learned.length ≤ LEARNED_WORDS * 64 := by
    have hstimulus : (s.learn refutations).1 = stimulus := congrArg Prod.fst h
    rw [← hstimulus, learn]
    apply Opto.foldl_split (fun _ learned => s.learned <+: learned ∧
      learned.length ≤ LEARNED_WORDS * 64)
    · exact ⟨List.prefix_rfl, hbound⟩
    · intro done x rest _ hdone
      split_ifs with hfull
      · exact hdone
      · exact ⟨hdone.1.trans (List.prefix_append _ _), by
          rw [List.length_append, List.length_singleton]
          omega⟩
  have hchanged := congrArg Prod.snd h
  simp only [learn] at hchanged
  split_ifs at hchanged with hgrown
  obtain rfl := Option.some.inj hchanged
  have hlength := hlearned.1.length_le
  refine ⟨hlearned.2, ?_, ?_, fun word hword bit => ?_⟩
  · rw [words]
    omega
  · rw [words]
    omega
  · -- a pattern of an earlier word is one of the old ones
    funext origin
    rw [pattern, pattern, inputWord, inputWord]
    split_ifs with hrandom
    · rfl
    · congr 1
      apply List.foldl_ext
      intro bits offset hoffset
      have hoffset := List.mem_range.mp hoffset
      have hlt : (word - RANDOM_WORDS) * 64 + offset < s.learned.length := by omega
      obtain ⟨more, hmore⟩ := hlearned.1
      rw [← hmore, List.getElem?_append_left hlt]

/-! Rebuilding maps live nodes only. -/

theorem ensures_any {σ ε α : Type} (s : σ) (m : StateT σ (Except ε) α) :
    Ensures s m (fun _ _ => True) fun _ => True := by
  rw [Ensures]
  cases m.run s <;> trivial

theorem rebuildNode_remap (substitution : Option Substitution) (logic : Node) (st : Rebuilding)
    (b : LogicBuilder) : Ensures b (rebuildNode substitution logic st)
      (fun st' _ => ∃ l, st'.remap = st.remap ++ [some l]) fun _ => True := by
  cases substitution with
  | some s =>
    rw [rebuildNode]
    apply Ensures.bind (ensures_any b _)
    intro target t _
    exact ⟨_, rfl⟩
  | none =>
    rw [rebuildNode]
    cases logic.kind with
    | constant => exact ⟨_, rfl⟩
    | input =>
      dsimp only
      cases st.variableMap.lookup logic.origin with
      | some literal => exact ⟨_, rfl⟩
      | none =>
        apply Ensures.bind (ensures_any b _)
        intro literal t _
        exact ⟨_, rfl⟩
    | and | xor | mux =>
      apply Ensures.bind (ensures_any b _)
      intro mapped t _
      exact ⟨_, rfl⟩

theorem rebuild_live {substitutions : Substitutions} {product : TransformProduct}
    (h : rebuild net live substitutions = .ok product) (i : Nat) (l : Lit)
    (hl : product.remap[i]?.join = some l) : live[i]? = some true := by
  have hloop : Ensures .new ((net.nodes.zip (live.zip substitutions)).foldlM rebuildStep ⟨[], []⟩)
      (fun st _ => st.remap.length = 0 + (net.nodes.zip (live.zip substitutions)).length ∧
        ∀ (i : Nat) (l : Lit), st.remap[i]?.join = some l → live[i]? = some true) fun _ => True := by
    apply Ensures.foldlM fun k (st : Rebuilding) (_ : LogicBuilder) => st.remap.length = k ∧
      ∀ (i : Nat) (l : Lit), st.remap[i]?.join = some l → live[i]? = some true
    · intro j entry hentry st b hst
      obtain ⟨hlength, hst⟩ := hst
      have hflag := (List.getElem?_zip_eq_some.mp (List.getElem?_zip_eq_some.mp hentry).2).1
      rw [Nat.zero_add] at hlength ⊢
      rw [rebuildStep]
      split_ifs with hlive
      · apply (rebuildNode_remap entry.2.2 entry.1 st b).mono
        intro st' t hst'
        obtain ⟨mapped, hremap⟩ := hst'
        rw [hremap]
        refine ⟨by simp [hlength], fun i l hl => ?_⟩
        rcases Nat.lt_trichotomy i st.remap.length with hi | hi | hi
        · rw [List.getElem?_append_left hi] at hl
          exact hst i l hl
        · rw [hi, hlength, hflag, hlive]
        · rw [List.getElem?_eq_none (by simp; omega)] at hl
          cases hl
      · refine ⟨by simp [hlength], fun i l hl => ?_⟩
        rcases Nat.lt_trichotomy i st.remap.length with hi | hi | hi
        · exact hst i l (by rwa [List.getElem?_append_left hi] at hl)
        · simp [hi] at hl
        · rw [List.getElem?_eq_none (by simp; omega)] at hl
          cases hl
    · exact ⟨rfl, fun i l hl => by cases hl⟩
  rw [rebuild] at h
  obtain ⟨result, hresult, hproduct⟩ := bind_eq_ok h
  cases hproduct
  exact (Settles.ok hloop hresult).2 i l hl

/-! Rounds. -/

/-- A rebuilt subject with the live cone of its roots. -/
def rebuiltCone (net : LogicNetwork) (live : List Bool) (roots : List Lit)
    (substitutions : Substitutions) : Except Panic (TransformProduct × List Bool) := do
  let product ← rebuild net live substitutions
  let roots ← roots.mapM fun root =>
    expect (remapLiteral product.remap root) "AXM graph is topological within its live cone"
  let live ← liveCone product.network roots
  pure (product, live)

/-- Where the round merges, every live node of the rebuilt subject is the image of an old
one: the canonical rules add no live node in between. -/
def Sweep.Direct (solve : Solver E) (st : Sweep) : Prop :=
  ∀ round substitutions product live, st.proposed solve = .ok (round, substitutions) →
    round.proved ≠ 0 →
    rebuiltCone st.subject st.live st.roots substitutions = .ok (product, live) →
    ∀ node, live[node]? = some true → ∃ (i : Nat) (l : Lit), product.remap[i]?.join = some l ∧
      l.node = node

/-- The words a round leaves to its simulation lie behind words that are right. -/
structure Sweep.Consistent (st : Sweep) : Prop where
  learned : st.stimulus.learned.length ≤ LEARNED_WORDS * 64
  resume : st.resume ≤ st.stimulus.words
  exact : Exact st.subject st.live st.stimulus st.resume st.signatures.rows

/-- All words of the stimulus are right. -/
structure Sweep.Simulated (st : Sweep) : Prop where
  learned : st.stimulus.learned.length ≤ LEARNED_WORDS * 64
  active : st.signatures.active = st.stimulus.words
  exact : Exact st.subject st.live st.stimulus st.stimulus.words st.signatures.rows

theorem Sweep.start_consistent {metrics : SweepMetrics} {st : Sweep}
    (h : Sweep.start net roots .random metrics = .ok st) : st.Consistent := by
  rw [Sweep.start] at h
  obtain ⟨live, -, hst⟩ := bind_eq_ok h
  cases hst
  exact ⟨Nat.zero_le _, Nat.zero_le _, exact_new net live .random⟩

theorem Sweep.Consistent.nominated {st : Sweep} (h : st.Consistent) (htracks : st.Tracks net roots) :
    Exact st.subject st.live st.stimulus st.stimulus.words st.nominated.1.rows :=
  h.exact.simulate htracks.ordered htracks.live (Stimulus.words_le h.learned)

theorem Sweep.merge_ok {st next : Sweep} {substitutions : Substitutions}
    (h : st.merge substitutions = .ok next) :
    ∃ product, rebuild st.subject st.live substitutions = .ok product ∧
      rebuiltCone st.subject st.live st.roots substitutions = .ok (product, next.live) ∧
      next.subject = product.network ∧ next.stimulus = st.stimulus ∧
      next.signatures = st.signatures.projected product.remap product.network.nodeCount := by
  rw [Sweep.merge] at h
  obtain ⟨product, hproduct, h⟩ := bind_eq_ok h
  obtain ⟨mapped, hmapped, h⟩ := bind_eq_ok h
  refine ⟨product, hproduct, ?_⟩
  rw [rebuiltCone, hproduct]
  simp only [bind, Except.bind, hmapped]
  cases hreduced : st.reduced with
  | none =>
    rw [hreduced] at h
    obtain ⟨live, hlive, hnext⟩ := bind_eq_ok h
    cases hnext
    exact ⟨by rw [hlive]; rfl, rfl, rfl, rfl⟩
  | some previous =>
    rw [hreduced] at h
    obtain ⟨live, hlive, hnext⟩ := bind_eq_ok h
    cases hnext
    exact ⟨by rw [show liveCone product.network mapped = .ok live from hlive]; rfl, rfl, rfl, rfl⟩

/-- Rows that are right are carried over to the images. -/
theorem Sweep.Simulated.merge {st next : Sweep} (h : st.Simulated) (htracks : st.Tracks net roots)
    {substitutions : Substitutions} (hsound : substitutions.Sound st.subject st.live)
    (hmerge : st.merge substitutions = .ok next)
    (himages : ∀ product live,
      rebuiltCone st.subject st.live st.roots substitutions = .ok (product, live) →
      ∀ node, live[node]? = some true → ∃ (i : Nat) (l : Lit), product.remap[i]?.join = some l ∧
        l.node = node) : next.Simulated := by
  obtain ⟨product, hproduct, hcone, hsubject, hstimulus, hsignatures⟩ := Sweep.merge_ok hmerge
  have hrebuilds := (rebuild_settles htracks.ordered htracks.live hsound).ok hproduct
  have hexact := h.exact
  rw [← h.active] at hexact
  have hactive : st.signatures.active ≤ SIGNATURE_STRIDE := h.active ▸ Stimulus.words_le h.learned
  have hprojected := projected_images hrebuilds.preserves (rebuild_live hproduct) hactive hexact
  refine ⟨hstimulus ▸ h.learned, ?_, ?_, fun node hnode word hword => ?_⟩
  · rw [hsignatures, hstimulus, ← h.active]
    rfl
  · rw [hsignatures, hsubject]
    exact hprojected.shaped
  · obtain ⟨i, l, hl, rfl⟩ := himages product next.live hcone node hnode
    rw [hstimulus, ← h.active] at hword
    rw [hsignatures, hsubject, hstimulus]
    have hi : i < product.remap.length :=
      (List.getElem?_eq_some_iff.mp (Option.join_eq_some_iff.mp hl)).1
    exact hprojected.agrees i hi l hl word hword

theorem Sweep.Simulated.refined {st next : Sweep} (h : st.Simulated)
    {refutations : List BoundaryRefutation} (hrefined : st.refined refutations = (next, true)) :
    next.Consistent := by
  rw [Sweep.refined] at hrefined
  split_ifs at hrefined
  · cases hrefined
  · cases hlearn : st.stimulus.learn refutations with
    | mk stimulus reported =>
      rw [hlearn] at hrefined
      cases reported with
      | none => cases hrefined
      | some changed =>
        obtain ⟨hlearned, hold, hnew, hkept⟩ := Stimulus.learn_some h.learned hlearn
        cases hrefined
        refine ⟨hlearned, hnew, h.exact.shaped, fun node hnode word hword bit hbit => ?_⟩
        rw [hkept word hword]
        exact h.exact.agrees node hnode word (hword.trans_le hold) bit hbit

/-- A round whose merge is direct leaves consistent rows to the next one. -/
theorem Sweep.Consistent.round {solve : Solver E} (hs : solve.Correct) {st next : Sweep}
    (h : st.Consistent) (htracks : st.Tracks net roots) (hdirect : st.Direct solve)
    (hround : st.round solve = .ok (next, true)) : next.Consistent := by
  have hnominated := h.nominated htracks
  have hactive : st.nominated.1.active = st.stimulus.words :=
    simulate_active st.subject st.live st.stimulus st.signatures st.resume
  obtain ⟨round, substitutions, hproposed, hsound⟩ := Sweep.proposed_ok hs htracks
  rw [Sweep.round] at hround
  split_ifs at hround
  · cases hround
  dsimp only at hround
  split_ifs at hround
  · cases hround
  rw [hproposed] at hround
  simp only [bind, Except.bind] at hround
  -- the simulated state differs from the one before in what a merge does not read
  have hsimulated : Sweep.Simulated { st with
      signatures := st.nominated.1
      budget := st.budget - round.attempted
      metrics := { st.nominated.2.2 with
        proved := st.nominated.2.2.proved + round.proved
        refuted := st.nominated.2.2.refuted + round.refutations.length
        budgetExhausted := st.nominated.2.2.budgetExhausted || round.encodingBudgetExhausted } } :=
    ⟨h.learned, hactive, hnominated⟩
  split_ifs at hround with hproved
  · cases hmerge : Sweep.merge _ substitutions with
    | error e => rw [hmerge] at hround; cases hround
    | ok middle =>
      rw [hmerge] at hround
      apply Sweep.Simulated.refined ?_ (Except.ok.inj hround)
      apply hsimulated.merge ⟨htracks.ordered, htracks.live, htracks.start, htracks.reduced⟩ hsound hmerge
      intro product live hcone
      exact hdirect round substitutions product live hproposed hproved hcone
  · exact hsimulated.refined (Except.ok.inj hround)

/-- Runs of a sweep whose merges are all direct: the states at the start of the rounds. -/
inductive Sweep.DirectlyReached (solve : Solver E) (net : LogicNetwork) (roots : List Lit)
    (metrics : SweepMetrics) : Sweep → Prop
  | start {st : Sweep} : Sweep.start net roots .random metrics = .ok st →
      DirectlyReached solve net roots metrics st
  | round {st next : Sweep} : DirectlyReached solve net roots metrics st → st.Direct solve →
      st.round solve = .ok (next, true) → DirectlyReached solve net roots metrics next

section Runs

variable {solve : Solver E} {metrics : SweepMetrics} {st : Sweep}

theorem Sweep.DirectlyReached.reached (h : Sweep.DirectlyReached solve net roots metrics st) :
    Sweep.Reached solve net roots .random metrics st := by
  induction h with
  | start hstart => exact .start hstart
  | round _ _ hround ih => exact .round ih hround

theorem Sweep.DirectlyReached.consistent (hs : solve.Correct) (hnet : Ordered net)
    (hroots : ∀ r ∈ roots, r.node < net.nodeCount)
    (h : Sweep.DirectlyReached solve net roots metrics st) : st.Consistent := by
  induction h with
  | start hstart => exact Sweep.start_consistent hstart
  | round hst hdirect hround ih =>
    exact ih.round hs (hst.reached.tracks hs hnet hroots) hdirect hround

/-- In every round of a run whose merges are direct, the signature of every live node is
its full simulation: each bit is the function of the node under that pattern. -/
theorem signatures_consistent (hs : solve.Correct) {b : LogicBuilder} (hb : Reachable b)
    (hroots : ∀ r ∈ roots, r.node < b.nodes.length)
    (h : Sweep.DirectlyReached solve b.freeze roots metrics st) {node : Nat}
    (hnode : st.live[node]? = some true) :
    st.nominated.1.row node = fullSimulation st.subject st.stimulus node ∧
      ∀ word < st.stimulus.words, ∃ bits, (st.nominated.1.row node)[word]? = some bits ∧
        Agrees st.subject (st.stimulus.pattern word) ⟨node, false⟩ bits := by
  have hnet := ordered_freeze hb.inv
  have hconsistent := h.consistent hs hnet hroots
  have htracks := h.reached.tracks hs hnet hroots
  exact (hconsistent.nominated htracks).row htracks.ordered htracks.live
    (Stimulus.words_le hconsistent.learned) (simulate_active _ _ _ _ _) hnode

end Runs

/-- A round that merges and learns hands the rebuilt subject to the next one. -/
theorem Sweep.round_next {solve : Solver E} {st : Sweep} {round : Round}
    {substitutions : Substitutions} {product : TransformProduct} {cone : List Bool}
    {stimulus : Stimulus} {changed : Nat} (hbudget : st.budget ≠ 0) (hclasses : st.nominated.2.1 ≠ [])
    (hproposed : st.proposed solve = .ok (round, substitutions)) (hproved : round.proved ≠ 0)
    (hrefuted : round.refutations ≠ []) (hreduced : st.reduced = none)
    (hcone : rebuiltCone st.subject st.live st.roots substitutions = .ok (product, cone))
    (hlearn : st.stimulus.learn round.refutations = (stimulus, some changed)) :
    ∃ next, st.round solve = .ok (next, true) ∧ next.subject = product.network ∧
      next.live = cone ∧ next.stimulus = stimulus ∧ next.resume = changed ∧
      next.signatures = st.nominated.1.projected product.remap product.network.nodeCount := by
  rw [rebuiltCone] at hcone
  obtain ⟨rebuilt, hrebuilt, hcone⟩ := bind_eq_ok hcone
  obtain ⟨mapped, hmapped, hcone⟩ := bind_eq_ok hcone
  obtain ⟨live, hlive, hcone⟩ := bind_eq_ok hcone
  cases hcone
  have hmerge (signatures : Signatures) (budget : Nat) (metrics : SweepMetrics) :
      Sweep.merge { st with signatures, budget, metrics } substitutions =
        .ok { st with
          signatures := signatures.projected product.remap product.network.nodeCount
          budget
          metrics
          reduced := some product
          roots := mapped
          subject := product.network
          live := cone } := by
    simp only [Sweep.merge, hrebuilt, hreduced, hmapped, hlive, bind, Except.bind, pure, Except.pure]
  have hempty : st.nominated.2.1.isEmpty = false := by simpa using hclasses
  rw [Sweep.round, if_neg hbudget]
  simp only [hempty, Bool.false_eq_true, if_false, hproposed, bind, Except.bind, ne_eq, hproved,
    not_false_eq_true, if_true, hmerge, Except.mapError, pure, Except.pure, Sweep.refined,
    List.isEmpty_iff, hrefuted, hlearn]
  exact ⟨_, rfl, rfl, rfl, rfl, rfl, rfl⟩

/-! A subject with one pair of equal nodes, and a node that no random pattern sets. -/

theorem nominate_sorted {substitutions : Substitutions} {signatures : Signatures}
    {classes : List SweepClass} (metrics : SweepMetrics)
    (h : (((bucketNodes live substitutions signatures).map (·.2)).filter fun members =>
      1 < members.length).map (·.take MAX_CLASS_MEMBERS) = classes)
    (hsorted : classes.Pairwise fun a b => (a.headD (0, false)).1 ≤ (b.headD (0, false)).1) :
    (nominate live substitutions signatures metrics).1 = classes := by
  rw [nominate]
  simp only [h]
  exact List.mergeSort_of_pairwise (by simpa using hsorted)

theorem prove_pairs {solve : Solver E} (hs : solve.Correct) (hnet : Ordered net) {a b c d : Nat}
    (hknown : ∀ i ∈ [a, b, c, d], i < net.nodeCount)
    (hdiffer : ∃ g, networkValue net g ⟨a, false⟩ ≠ networkValue net g ⟨b, false⟩)
    (hequal : ∀ g, networkValue net g ⟨c, false⟩ = networkValue net g ⟨d, false⟩)
    {maxPairs : Nat} (hpairs : 2 ≤ maxPairs) (hnodes : net.nodeCount ≤ MAX_PROOF_ENCODING_NODES) :
    ∃ refutation,
      prove solve net [[(a, false), (b, false)], [(c, false), (d, false)]] maxPairs
        (List.replicate net.nodeCount none) =
        .ok (⟨1, [refutation], false⟩, (List.replicate net.nodeCount none).set d (some ⟨c, false⟩)) := by
  have hlits : ∀ l ∈ [(⟨a, false⟩ : Lit), ⟨b, false⟩, ⟨c, false⟩, ⟨d, false⟩], l.node < net.nodeCount := by
    simpa using hknown
  obtain ⟨refutation, hpartitions⟩ := proveLogicLiteralPartitions_pairs hs hnet hlits hdiffer hequal
    hpairs hnodes
  refine ⟨refutation, ?_⟩
  have hshard : proveShard solve net [[⟨a, false⟩, ⟨b, false⟩], [⟨c, false⟩, ⟨d, false⟩]] maxPairs =
      .ok ([[none, none], [none, some 0]], [refutation], false) := by
    rw [proveShard]
    have hrounds : MAX_REPRESENTATIVE_ROUNDS = 2 := rfl
    rw [hrounds, hpartitions]
  have hquota : shardQuota maxPairs 1 0 = maxPairs := by
    simp [shardQuota, Nat.mod_one]
  have hrepresentative : resolve (List.replicate net.nodeCount none) (c + 1) c false = some (c, false) := by
    have hc := hknown c (by simp)
    rw [resolve, List.getElem?_replicate, if_pos hc]
  have hsubstitute : [([(a, false), (b, false)], [none, none]),
      ([(c, false), (d, false)], [none, some 0])].foldlM substituteClass
        (List.replicate net.nodeCount none, 0) =
      .ok ((List.replicate net.nodeCount none).set d (some ⟨c, false⟩), 1) := by
    simp [substituteClass, substitute, List.zipIdx, expect, hrepresentative, bind, Except.bind, pure, Except.pure]
  have hliterals : [[(a, false), (b, false)], [(c, false), (d, false)]].map (·.map memberLiteral) =
      [[⟨a, false⟩, ⟨b, false⟩], [⟨c, false⟩, ⟨d, false⟩]] := rfl
  have hsize : min SHARD_CLASSES (max [[(⟨a, false⟩ : Lit), ⟨b, false⟩], [⟨c, false⟩, ⟨d, false⟩]].length 1) = 2 := rfl
  have hcount : ([[(⟨a, false⟩ : Lit), ⟨b, false⟩], [⟨c, false⟩, ⟨d, false⟩]].length + 2 - 1) / 2 = 1 := by simp
  have htake : ([[(⟨a, false⟩ : Lit), ⟨b, false⟩], [⟨c, false⟩, ⟨d, false⟩]].drop (0 * 2)).take 2 =
      [[⟨a, false⟩, ⟨b, false⟩], [⟨c, false⟩, ⟨d, false⟩]] := rfl
  rw [prove]
  simp only [hliterals, hsize, hcount, List.range_one, List.mapM_cons, List.mapM_nil, htake, hquota, hshard,
    bind, Except.bind, pure, Except.pure]
  have hzip : [[(a, false), (b, false)], [(c, false), (d, false)]].zip
      (List.flatMap (fun x => x.1) [([[none, none], [none, some 0]], [refutation], false)]) =
        [([(a, false), (b, false)], [none, none]), ([(c, false), (d, false)], [none, some 0])] := rfl
  rw [hzip, hsubstitute]
  rfl

/-- The builder that a call leaves behind, whether it succeeds or not. -/
def performed (b : LogicBuilder) (c : Call) : LogicBuilder :=
  match c.exec.run b with
  | .ok _ t => t
  | .error _ t => t

def built (calls : List Call) : LogicBuilder := calls.foldl performed .new

/-- Nodes seven and nine are the same conjunction of three inputs; the conjunction of
node thirteen is set by none of the random patterns. -/
def reassociatedCalls : List Call :=
  [.input 0, .input 1, .input 23, .input 58, .input 64,
    .and ⟨1, false⟩ ⟨2, false⟩ 0, .and ⟨6, false⟩ ⟨3, false⟩ 0,
    .and ⟨2, false⟩ ⟨3, false⟩ 0, .and ⟨8, false⟩ ⟨1, false⟩ 0,
    .and ⟨1, false⟩ ⟨2, true⟩ 0, .and ⟨10, false⟩ ⟨3, false⟩ 0,
    .and ⟨11, false⟩ ⟨4, true⟩ 0, .and ⟨12, false⟩ ⟨5, false⟩ 0]

/-- A multiplexer over node nine whose other arm selects node seven. -/
def nestedCalls : List Call :=
  reassociatedCalls ++ [.mux ⟨4, false⟩ ⟨3, false⟩ ⟨7, false⟩ 0, .mux ⟨5, false⟩ ⟨14, false⟩ ⟨9, false⟩ 0]

def known (b : LogicBuilder) (c : Call) : Bool :=
  c.args.all fun a => a.node < b.nodes.length ∧ a.node < 2 ^ 31

/-- Every call of the list takes literals that are known when it is made. -/
def admissible (calls : List Call) : Bool :=
  (List.range calls.length).all fun i => (calls[i]?).all fun c => known (built (calls.take i)) c

theorem reachable_built {calls : List Call} (h : admissible calls = true) : Reachable (built calls) := by
  have hprefix : ∀ i ≤ calls.length, Reachable (built (calls.take i)) := by
    intro i
    induction i with
    | zero => exact fun _ => .new
    | succ i ih =>
      intro hi
      have hc : calls[i]? = some calls[i] := List.getElem?_eq_getElem hi
      have hknown := List.all_eq_true.mp h i (List.mem_range.mpr hi)
      rw [hc, Option.all_some, known, List.all_eq_true] at hknown
      have hargs : ∀ a ∈ calls[i].args, Valid (built (calls.take i)) a := fun a ha => by
        simpa [Valid] using hknown a ha
      rw [List.take_add_one, hc, built, List.foldl_append]
      change Reachable (performed (built (calls.take i)) calls[i])
      rw [performed]
      cases hrun : calls[i].exec.run (built (calls.take i)) with
      | ok l t => exact (ih (by omega)).ok hargs hrun
      | error e t => exact (ih (by omega)).error hargs hrun
  have hall := hprefix calls.length (Nat.le_refl _)
  rwa [List.take_length] at hall

theorem reachable_reassociated : Reachable (built reassociatedCalls) :=
  reachable_built (by decide +kernel)

theorem reachable_nested : Reachable (built nestedCalls) :=
  reachable_built (by decide +kernel)

theorem networkValue_input (ht : Topological net.nodes) {i origin level : Nat}
    (hn : net.nodes[i]? = some ⟨.input, .FALSE, .FALSE, .FALSE, level, origin⟩) (g : Nat → Bool) :
    networkValue net g ⟨i, false⟩ = g origin := by
  rw [networkValue_node ht hn, Node.denote]

theorem networkValue_and (ht : Topological net.nodes) {i origin level : Nat} {left right : Lit}
    (hn : net.nodes[i]? = some ⟨.and, left, right, .FALSE, level, origin⟩) (g : Nat → Bool) :
    networkValue net g ⟨i, false⟩ = (networkValue net g left && networkValue net g right) := by
  rw [networkValue_node ht hn, Node.denote]

/-- The nodes of both builders up to the unset conjunction. -/
def sharedNodes : List Node :=
  [⟨.constant, .FALSE, .FALSE, .FALSE, 0, 0⟩, ⟨.input, .FALSE, .FALSE, .FALSE, 0, 0⟩,
    ⟨.input, .FALSE, .FALSE, .FALSE, 0, 1⟩, ⟨.input, .FALSE, .FALSE, .FALSE, 0, 23⟩,
    ⟨.input, .FALSE, .FALSE, .FALSE, 0, 58⟩, ⟨.input, .FALSE, .FALSE, .FALSE, 0, 64⟩,
    ⟨.and, ⟨1, false⟩, ⟨2, false⟩, .FALSE, 1, 0⟩, ⟨.and, ⟨3, false⟩, ⟨6, false⟩, .FALSE, 2, 0⟩,
    ⟨.and, ⟨2, false⟩, ⟨3, false⟩, .FALSE, 1, 0⟩, ⟨.and, ⟨1, false⟩, ⟨8, false⟩, .FALSE, 2, 0⟩,
    ⟨.and, ⟨1, false⟩, ⟨2, true⟩, .FALSE, 1, 0⟩, ⟨.and, ⟨3, false⟩, ⟨10, false⟩, .FALSE, 2, 0⟩,
    ⟨.and, ⟨4, true⟩, ⟨11, false⟩, .FALSE, 3, 0⟩, ⟨.and, ⟨5, false⟩, ⟨12, false⟩, .FALSE, 4, 0⟩]

section Shared

variable (hnet : Ordered net) (hshared : sharedNodes <+: net.nodes)

include hshared

theorem node_of_shared {i : Nat} {n : Node} (hn : sharedNodes[i]? = some n) : net.nodes[i]? = some n := by
  obtain ⟨more, hmore⟩ := hshared
  rw [← hmore, List.getElem?_append_left (List.getElem?_eq_some_iff.mp hn).1, hn]

include hnet

theorem reassociated_equal (g : Nat → Bool) :
    networkValue net g ⟨7, false⟩ = networkValue net g ⟨9, false⟩ := by
  have ht := hnet.topological
  rw [networkValue_and ht (node_of_shared hshared (i := 7) rfl),
    networkValue_and ht (node_of_shared hshared (i := 6) rfl),
    networkValue_and ht (node_of_shared hshared (i := 9) rfl),
    networkValue_and ht (node_of_shared hshared (i := 8) rfl), Bool.and_comm, Bool.and_assoc]

theorem unset_differs : ∃ g, networkValue net g ⟨0, false⟩ ≠ networkValue net g ⟨13, false⟩ := by
  have ht := hnet.topological
  refine ⟨fun origin => origin == 0 || origin == 23 || origin == 64, ?_⟩
  rw [networkValue_node ht (node_of_shared hshared (i := 0) rfl),
    networkValue_and ht (node_of_shared hshared (i := 13) rfl),
    networkValue_and ht (node_of_shared hshared (i := 12) rfl),
    networkValue_and ht (node_of_shared hshared (i := 11) rfl),
    networkValue_and ht (node_of_shared hshared (i := 10) rfl),
    Logic.networkValue_phase net _ ⟨4, true⟩, Logic.networkValue_phase net _ ⟨2, true⟩]
  simp only [networkValue_input ht (node_of_shared hshared (i := 1) rfl),
    networkValue_input ht (node_of_shared hshared (i := 2) rfl),
    networkValue_input ht (node_of_shared hshared (i := 3) rfl),
    networkValue_input ht (node_of_shared hshared (i := 4) rfl),
    networkValue_input ht (node_of_shared hshared (i := 5) rfl), Node.denote]
  decide

end Shared

/-- The state before the first round, when every node is live. -/
def fresh (b : LogicBuilder) (roots : List Lit) : Sweep :=
  ⟨.random, MAX_PROOF_PAIRS, none, roots, b.freeze, List.replicate b.nodes.length true,
    .new b.nodes.length, 0, ⟨0, 0, 0, 0, 0, false⟩⟩

theorem start_fresh {b : LogicBuilder}
    (h : liveCone b.freeze roots = .ok (List.replicate b.nodes.length true)) :
    Sweep.start b.freeze roots .random ⟨0, 0, 0, 0, 0, false⟩ = .ok (fresh b roots) := by
  rw [Sweep.start, h]
  rfl

theorem exists_ok {ε α : Type} {r : Except ε α} {Q : α → Prop} (h : Settles r Q fun _ => False) :
    ∃ a, r = .ok a ∧ Q a := by
  cases r with
  | ok a => exact ⟨a, rfl, h⟩
  | error e => exact h.elim

instance decidableSettles {ε α : Type} (r : Except ε α) (Q : α → Prop) (E : ε → Prop) [DecidablePred Q]
    [DecidablePred E] : Decidable (Settles r Q E) :=
  match r with
  | .ok a => inferInstanceAs (Decidable (Q a))
  | .error e => inferInstanceAs (Decidable (E e))

/-- The first round of a builder with the shared nodes proves one pair and refutes the other. -/
theorem proposed_fresh {solve : Solver E} (hs : solve.Correct) {b : LogicBuilder} (hb : Reachable b)
    (hshared : sharedNodes <+: b.nodes) (hsize : b.nodes.length ≤ MAX_PROOF_ENCODING_NODES)
    (hclasses : (fresh b roots).nominated.2.1 = [[(0, false), (13, false)], [(7, false), (9, false)]]) :
    ∃ refutation, (fresh b roots).proposed solve = .ok (⟨1, [refutation], false⟩,
      (List.replicate b.nodes.length none).set 9 (some ⟨7, false⟩)) := by
  have hnet := ordered_freeze hb.inv
  have hlength : sharedNodes.length ≤ b.nodes.length := hshared.length_le
  rw [Sweep.proposed, hclasses]
  apply prove_pairs hs hnet _ (unset_differs hnet hshared) (reassociated_equal hnet hshared)
    (by simp [fresh, MAX_ROUND_PAIRS, MAX_PROOF_PAIRS]) hsize
  intro i hi
  have hi : i ≤ 13 := by
    simp only [List.mem_cons, List.not_mem_nil, or_false] at hi
    omega
  exact Nat.lt_of_le_of_lt hi hlength

theorem learn_fresh (refutation : BoundaryRefutation) :
    Stimulus.random.learn [refutation] = (⟨[refutation.assignment]⟩, some 8) := by
  simp [Stimulus.learn, Stimulus.random, LEARNED_WORDS, RANDOM_WORDS]

/-- The second round of such a builder starts from the rebuilt subject. -/
theorem second_round {solve : Solver E} (hs : solve.Correct) {b : LogicBuilder} (hb : Reachable b)
    (hshared : sharedNodes <+: b.nodes) (hsize : b.nodes.length ≤ MAX_PROOF_ENCODING_NODES)
    (hclasses : (fresh b roots).nominated.2.1 = [[(0, false), (13, false)], [(7, false), (9, false)]])
    {product : TransformProduct} {cone : List Bool}
    (hcone : rebuiltCone b.freeze (List.replicate b.nodes.length true) roots
      ((List.replicate b.nodes.length none).set 9 (some ⟨7, false⟩)) = .ok (product, cone)) :
    ∃ next refutation, (fresh b roots).round solve = .ok (next, true) ∧
      next.subject = product.network ∧ next.live = cone ∧ next.stimulus = ⟨[refutation]⟩ ∧
      next.resume = 8 ∧ next.signatures =
        (fresh b roots).nominated.1.projected product.remap product.network.nodeCount ∧
      ((∀ node, cone[node]? = some true → ∃ (i : Nat) (l : Lit), product.remap[i]?.join = some l ∧
        l.node = node) → (fresh b roots).Direct solve) := by
  obtain ⟨refutation, hproposed⟩ := proposed_fresh hs hb hshared hsize hclasses
  have hnonempty : (fresh b roots).nominated.2.1 ≠ [] := by
    rw [hclasses]
    exact List.cons_ne_nil _ _
  obtain ⟨next, hround, hsubject, hlive, hstimulus, hresume, hsignatures⟩ := Sweep.round_next
    (by simp [fresh, MAX_PROOF_PAIRS]) hnonempty hproposed Nat.one_ne_zero
    (List.cons_ne_nil _ _) rfl hcone (learn_fresh refutation)
  refine ⟨next, refutation.assignment, hround, hsubject, hlive, hstimulus, hresume, hsignatures, ?_⟩
  intro himages round substitutions product' live' hproposed' _ hcone'
  cases hproposed.symm.trans hproposed'
  cases hcone.symm.trans hcone'
  exact himages

/-- The words before the resumed ones of a node no old node is mapped to stay zero. -/
theorem Sweep.carried_zero {st : Sweep} (hnet : Ordered st.subject) (hlive : Live st.subject roots st.live)
    (hwords : st.stimulus.words ≤ SIGNATURE_STRIDE) {s : Signatures} {remap : List (Option Lit)}
    (hsignatures : st.signatures = s.projected remap st.subject.nodeCount)
    (hshaped : Shaped st.subject.nodeCount st.signatures.rows) {node : Nat}
    (hnode : node < st.subject.nodeCount) (hunmapped : ∀ l, some l ∈ remap → l.node ≠ node)
    {word : Nat} (hresumed : word < st.resume) (hword : word < st.stimulus.words) :
    (st.nominated.1.row node)[word]? = some 0 := by
  have hfilled : Filled st.subject st.live st.stimulus st.resume st.signatures.rows st.subject.nodeCount
      st.nominated.1.rows := simulate_filled hnet hlive hwords hshaped st.resume
  have hactive : st.nominated.1.active = st.stimulus.words := simulate_active _ _ _ _ _
  have hrow := hfilled.shaped.getElem?_row (hactive ▸ hwords) hnode word
  rw [hrow, hactive, if_pos hword]
  have hkept := hfilled.kept node word hresumed (hword.trans_le hwords)
  have hzero : Signatures.value st.signatures.rows node word = 0 := by
    rw [hsignatures, projected_zero s _ hunmapped]
  exact congrArg some (hkept.trans hzero)

/-- The rebuilt subject has a live conjunction of the last two inputs at node fourteen
that no old node is mapped to. -/
def AddsConjunction (rebuilt : TransformProduct × List Bool) : Prop :=
  rebuilt.2[14]? = some true ∧ (∀ mapped ∈ rebuilt.1.remap, ∀ l ∈ mapped, l.node ≠ 14) ∧
    rebuilt.1.network.nodes[4]? = some ⟨.input, .FALSE, .FALSE, .FALSE, 0, 58⟩ ∧
    rebuilt.1.network.nodes[5]? = some ⟨.input, .FALSE, .FALSE, .FALSE, 0, 64⟩ ∧
    rebuilt.1.network.nodes[14]? = some ⟨.and, ⟨4, false⟩, ⟨5, false⟩, .FALSE, 1, 0⟩

instance decidableAddsConjunction (rebuilt : TransformProduct × List Bool) :
    Decidable (AddsConjunction rebuilt) := by
  unfold AddsConjunction
  infer_instance

/-- In the second round the words of the random patterns are zero for the new conjunction. -/
theorem stale_row {solve : Solver E} (hs : solve.Correct) {b : LogicBuilder} (hb : Reachable b)
    (hroots : ∀ r ∈ roots, r.node < b.nodes.length) (hshared : sharedNodes <+: b.nodes)
    (hsize : b.nodes.length ≤ MAX_PROOF_ENCODING_NODES)
    (hclasses : (fresh b roots).nominated.2.1 = [[(0, false), (13, false)], [(7, false), (9, false)]])
    (hstart : liveCone b.freeze roots = .ok (List.replicate b.nodes.length true))
    (hrebuilt : Settles (rebuiltCone b.freeze (List.replicate b.nodes.length true) roots
      ((List.replicate b.nodes.length none).set 9 (some ⟨7, false⟩))) AddsConjunction fun _ => False) :
    ∃ st, Sweep.Reached solve b.freeze roots .random ⟨0, 0, 0, 0, 0, false⟩ st ∧
      st.live[14]? = some true ∧
      st.nominated.1.row 14 ≠ fullSimulation st.subject st.stimulus 14 := by
  obtain ⟨⟨product, cone⟩, hcone, hlive, hunmapped, hfourth, hfifth, hconjunction⟩ := exists_ok hrebuilt
  obtain ⟨next, refutation, hround, hsubject, hcones, hstimulus, hresume, hsignatures, -⟩ :=
    second_round hs hb hshared hsize hclasses hcone
  have hreached : Sweep.Reached solve b.freeze roots .random ⟨0, 0, 0, 0, 0, false⟩ next :=
    .round (.start (start_fresh hstart)) hround
  refine ⟨next, hreached, hcones ▸ hlive, fun hrow => ?_⟩
  have htracks := hreached.tracks hs (ordered_freeze hb.inv) hroots
  have ht := htracks.ordered.topological
  have hwords : next.stimulus.words ≤ SIGNATURE_STRIDE := by
    rw [hstimulus]
    exact Stimulus.words_le (by simp [LEARNED_WORDS])
  have hword : 0 < next.stimulus.words := by
    rw [Stimulus.words, RANDOM_WORDS]
    omega
  rw [← hsubject] at hfourth hfifth hconjunction hsignatures
  have hnode : 14 < next.subject.nodeCount := (List.getElem?_eq_some_iff.mp hconjunction).1
  have hshaped : Shaped next.subject.nodeCount next.signatures.rows := by
    rw [hsignatures]
    exact Signatures.shaped_projected _ _ _
  have hzero : (next.nominated.1.row 14)[0]? = some 0 :=
    Sweep.carried_zero htracks.ordered htracks.live hwords hsignatures hshaped hnode
      (fun l hl => hunmapped (some l) hl l rfl) (hresume ▸ by decide) hword
  obtain ⟨bits, hbits, hagrees⟩ := fullSimulation_agrees htracks.ordered hwords hnode hword
  rw [← hrow, hzero] at hbits
  cases hbits
  -- both inputs are set in the second of the random patterns
  have hbit := hagrees 1 (by decide)
  rw [networkValue_and ht hconjunction, networkValue_input ht hfourth, networkValue_input ht hfifth] at hbit
  have hpattern (origin : Nat) : next.stimulus.pattern 0 1 origin = (randomWord origin 0).getLsbD 1 := rfl
  rw [hpattern, hpattern] at hbit
  revert hbit
  decide +kernel

theorem nominated_nested : (fresh (built nestedCalls) [⟨15, false⟩, ⟨13, false⟩]).nominated.2.1 =
    [[(0, false), (13, false)], [(7, false), (9, false)]] :=
  nominate_sorted _ (by decide +kernel) (by simp)

/-- A multiplexer that is rebuilt over one of the two equal nodes selects by a conjunction
that the old subject did not have. -/
theorem signatures_stale : ∃ (b : LogicBuilder) (roots : List Lit) (st : Sweep) (node : Nat),
    Reachable b ∧ (∀ r ∈ roots, r.node < b.nodes.length) ∧
      Sweep.Reached (exhaustive : Solver Unit) b.freeze roots .random ⟨0, 0, 0, 0, 0, false⟩ st ∧
      st.live[node]? = some true ∧
      st.nominated.1.row node ≠ fullSimulation st.subject st.stimulus node := by
  have hroots : ∀ r ∈ [(⟨15, false⟩ : Lit), ⟨13, false⟩], r.node < (built nestedCalls).nodes.length := by
    decide +kernel
  have hstale := stale_row (exhaustive_correct (E := Unit)) reachable_nested hroots
    (by decide +kernel) (by decide +kernel) nominated_nested (by decide +kernel) (by decide +kernel)
  obtain ⟨st, hreached, hlive, hrow⟩ := hstale
  exact ⟨_, _, st, 14, reachable_nested, hroots, hreached, hlive, hrow⟩

/-- Every live node of the rebuilt subject is the image of an old one. -/
def CoversLive (rebuilt : TransformProduct × List Bool) : Prop :=
  rebuilt.2[7]? = some true ∧ ∀ entry ∈ rebuilt.2.zipIdx, entry.1 = true →
    ∃ mapped ∈ rebuilt.1.remap, ∃ l ∈ mapped, l.node = entry.2

instance decidableCoversLive (rebuilt : TransformProduct × List Bool) : Decidable (CoversLive rebuilt) := by
  unfold CoversLive
  infer_instance

theorem CoversLive.images {product : TransformProduct} {cone : List Bool}
    (h : CoversLive (product, cone)) (node : Nat) (hnode : cone[node]? = some true) :
    ∃ (i : Nat) (l : Lit), product.remap[i]?.join = some l ∧ l.node = node := by
  have hmem : (true, node) ∈ cone.zipIdx := List.mk_mem_zipIdx_iff_getElem?.mpr hnode
  obtain ⟨mapped, hmapped, l, hl, hnode⟩ := h.2 _ hmem rfl
  obtain ⟨i, hi⟩ := List.getElem?_of_mem hmapped
  exact ⟨i, l, by rw [hi]; exact hl, hnode⟩

theorem direct_row {solve : Solver E} (hs : solve.Correct) {b : LogicBuilder} (hb : Reachable b)
    (hshared : sharedNodes <+: b.nodes) (hsize : b.nodes.length ≤ MAX_PROOF_ENCODING_NODES)
    (hclasses : (fresh b roots).nominated.2.1 = [[(0, false), (13, false)], [(7, false), (9, false)]])
    (hstart : liveCone b.freeze roots = .ok (List.replicate b.nodes.length true))
    (hrebuilt : Settles (rebuiltCone b.freeze (List.replicate b.nodes.length true) roots
      ((List.replicate b.nodes.length none).set 9 (some ⟨7, false⟩))) CoversLive fun _ => False) :
    ∃ st, Sweep.DirectlyReached solve b.freeze roots ⟨0, 0, 0, 0, 0, false⟩ st ∧ st.resume = 8 ∧
      st.live[7]? = some true := by
  obtain ⟨⟨product, cone⟩, hcone, hcovers⟩ := exists_ok hrebuilt
  obtain ⟨next, refutation, hround, -, hcones, -, hresume, -, hdirect⟩ :=
    second_round hs hb hshared hsize hclasses hcone
  refine ⟨next, ?_, hresume, hcones ▸ hcovers.1⟩
  exact .round (.start (start_fresh hstart)) (hdirect hcovers.images) hround

theorem nominated_reassociated :
    (fresh (built reassociatedCalls) [⟨7, false⟩, ⟨9, false⟩, ⟨13, false⟩]).nominated.2.1 =
      [[(0, false), (13, false)], [(7, false), (9, false)]] :=
  nominate_sorted _ (by decide +kernel) (by simp)

/-- Without the multiplexers the second round reads the projected words of node seven. -/
theorem signatures_reassociated : ∃ st, Sweep.DirectlyReached (exhaustive : Solver Unit)
      (built reassociatedCalls).freeze [⟨7, false⟩, ⟨9, false⟩, ⟨13, false⟩] ⟨0, 0, 0, 0, 0, false⟩ st ∧
    st.resume = 8 ∧ st.live[7]? = some true ∧
      st.nominated.1.row 7 = fullSimulation st.subject st.stimulus 7 := by
  have hroots : ∀ r ∈ [(⟨7, false⟩ : Lit), ⟨9, false⟩, ⟨13, false⟩],
      r.node < (built reassociatedCalls).nodes.length := by
    decide +kernel
  have hs := exhaustive_correct (E := Unit)
  obtain ⟨st, hreached, hresume, hlive⟩ := direct_row hs reachable_reassociated
    (by decide +kernel) (by decide +kernel) nominated_reassociated (by decide +kernel) (by decide +kernel)
  exact ⟨st, hreached, hresume, hlive,
    (signatures_consistent hs reachable_reassociated hroots hreached hlive).1⟩

end Opto.Synth
