import Opto.Formal.Equivalence

/-!
# Partitioning literal classes

Every class is swept with its first unresolved literal as representative; the
alternatives proved equal to it are resolved, the others stay for the next
round. The budgets bound the rounds, the pairs and the encoded nodes.
-/

namespace Opto.Formal

open Logic Cnf

variable {E : Type}

structure Partition where
  representatives : List (List (Option Nat))
  unresolved : List (List Nat)
  pairCount : Nat
  refutations : List BoundaryRefutation
deriving DecidableEq

namespace Partition

/-- The alternatives of one class against its representative. The first component
of the result is false when the pairs are used up, which ends the whole search. -/
def sweepClass (solve : Solver E) (encoder : LogicMiter) (encoded : List Literal)
    (base classIndex representative maxPairs : Nat) :
    List Nat → List Nat → Partition → Except (FormalError E) (Bool × List Nat × Partition)
  | [], remaining, st => .ok (true, remaining, st)
  | alternative :: rest, remaining, st =>
    if st.pairCount = maxPairs then .ok (false, remaining, st)
    else
      match proveEncodedLiteralEquivalence solve encoder
          (encoded.getD (base + representative) encoder.constantFalse)
          (encoded.getD (base + alternative) encoder.constantFalse) st.refutations with
      | .error e => .error e
      | .ok (true, refutations) =>
        sweepClass solve encoder encoded base classIndex representative maxPairs rest remaining
          { st with
            pairCount := st.pairCount + 1
            refutations
            representatives := st.representatives.modify classIndex fun class' =>
              class'.set alternative (some representative) }
      | .ok (false, refutations) =>
        sweepClass solve encoder encoded base classIndex representative maxPairs rest
          (remaining ++ [alternative])
          { st with pairCount := st.pairCount + 1, refutations }

def classOffset (classes : List (List Lit)) (classIndex : Nat) : Nat :=
  ((classes.take classIndex).map List.length).sum

/-- One round over the classes; the second component says whether it advanced. -/
def sweepRound (solve : Solver E) (encoder : LogicMiter) (encoded : List Literal)
    (classes : List (List Lit)) (maxPairs : Nat) :
    List Nat → Bool → Partition → Except (FormalError E) (Bool × Bool × Partition)
  | [], advanced, st => .ok (true, advanced, st)
  | classIndex :: rest, advanced, st =>
    match st.unresolved.getD classIndex [] with
    | representative :: alternative :: alternatives =>
      match sweepClass solve encoder encoded (classOffset classes classIndex) classIndex
          representative maxPairs (alternative :: alternatives) [] st with
      | .error e => .error e
      | .ok (false, _, st) => .ok (false, true, st)
      | .ok (true, remaining, st) =>
        sweepRound solve encoder encoded classes maxPairs rest true
          { st with unresolved := st.unresolved.set classIndex remaining }
    | _ => sweepRound solve encoder encoded classes maxPairs rest advanced st

def sweepRounds (solve : Solver E) (encoder : LogicMiter) (encoded : List Literal)
    (classes : List (List Lit)) (maxPairs : Nat) :
    Nat → Partition → Except (FormalError E) Partition
  | 0, st => .ok st
  | rounds + 1, st =>
    match sweepRound solve encoder encoded classes maxPairs (List.range classes.length) false st with
    | .error e => .error e
    | .ok (true, true, st) => sweepRounds solve encoder encoded classes maxPairs rounds st
    | .ok (_, _, st) => .ok st

def start (classes : List (List Lit)) (refutations : List BoundaryRefutation) : Partition :=
  ⟨classes.map fun class' => List.replicate class'.length none,
    classes.map fun class' => List.range class'.length, 0, refutations⟩

end Partition

/-- The representatives found, unless the encoding is over budget, and the refutations. -/
def proveLogicLiteralPartitions (solve : Solver E) (network : LogicNetwork)
    (classes : List (List Lit)) (maxRepresentatives maxPairs maxEncodedNodes : Nat)
    (refutations : List BoundaryRefutation) :
    Except (FormalError E) (Option (List (List (Option Nat))) × List BoundaryRefutation) :=
  let outputs := classes.flatten
  let start := Partition.start classes refutations
  if outputs.isEmpty ∨ maxRepresentatives = 0 ∨ maxPairs = 0 then
    .ok (some start.representatives, refutations)
  else
    match (LogicMiter.encodeNetwork network outputs).run .new with
    | .error e => .error e
    | .ok (encoded, encoder) =>
      if encoder.encodedNodes > maxEncodedNodes then .ok (none, refutations)
      else
        match Partition.sweepRounds solve encoder encoded classes maxPairs maxRepresentatives
            start with
        | .error e => .error e
        | .ok st => .ok (some st.representatives, st.refutations)

/-! What a partition in progress has established. -/

section Soundness

variable {solve : Solver E} {net : LogicNetwork} {encoder : LogicMiter}
  {val : (Nat → Bool) → Assignment} {encoded : List Literal} {classes : List (List Lit)}

/-- Positions `i` and `j` of one class hold literals of the same function. -/
def ClassEqual (net : LogicNetwork) (classes : List (List Lit)) (c i j : Nat) : Prop :=
  ∃ class' l r, classes[c]? = some class' ∧ class'[i]? = some l ∧ class'[j]? = some r ∧
    ∀ g, networkValue net g l = networkValue net g r

/-- The refutation separates positions `i` and `j` of the class wherever it admits. -/
def ClassSeparated (net : LogicNetwork) (classes : List (List Lit)) (c i j : Nat)
    (refutation : BoundaryRefutation) : Prop :=
  ∃ class' l r, classes[c]? = some class' ∧ class'[i]? = some l ∧ class'[j]? = some r ∧
    ∀ g, refutation.Admits g → networkValue net g l ≠ networkValue net g r

structure Partition.Sound (net : LogicNetwork) (classes : List (List Lit))
    (refutations : List BoundaryRefutation) (st : Partition) : Prop where
  shape : st.representatives.map List.length = classes.map List.length
  unresolved_length : st.unresolved.length = classes.length
  ascending : ∀ (c : Nat) (us : List Nat), st.unresolved[c]? = some us → us.Pairwise (· < ·)
  known : ∀ (c : Nat) (us : List Nat) (class' : List Lit), st.unresolved[c]? = some us →
    classes[c]? = some class' → ∀ i ∈ us, i < class'.length
  equal : ∀ (c i r : Nat) (reps : List (Option Nat)), st.representatives[c]? = some reps →
    reps[i]? = some (some r) → r < i ∧ ClassEqual net classes c r i
  refuted : ∃ found, st.refutations = refutations ++ found ∧
    ∀ refutation ∈ found, ∃ c r i, r < i ∧ ClassSeparated net classes c r i refutation

theorem Partition.start_sound (refutations : List BoundaryRefutation) :
    (Partition.start classes refutations).Sound net classes refutations where
  shape := by simp [start, Function.comp_def]
  unresolved_length := by simp [start]
  ascending c us h := by
    obtain ⟨class', -, rfl⟩ : ∃ class', classes[c]? = some class' ∧ List.range class'.length = us := by
      simpa [start] using h
    exact List.pairwise_lt_range
  known c us class' h hc i hi := by
    obtain ⟨k, hk, rfl⟩ : ∃ k, classes[c]? = some k ∧ List.range k.length = us := by
      simpa [start] using h
    rw [hc] at hk
    cases hk
    exact List.mem_range.mp hi
  equal c i r reps h hr := by
    obtain ⟨k, -, rfl⟩ : ∃ k, classes[c]? = some k ∧ List.replicate k.length none = reps := by
      simpa [start] using h
    simp [List.getElem?_replicate] at hr
  refuted := ⟨[], by simp [start], by simp⟩

theorem getElem?_flatten_offset {c : Nat} {class' : List Lit} (hc : classes[c]? = some class')
    {i : Nat} (hi : i < class'.length) :
    classes.flatten[Partition.classOffset classes c + i]? = class'[i]? := by
  induction classes generalizing c with
  | nil => cases hc
  | cons k classes ih =>
    cases c with
    | zero =>
      obtain rfl : k = class' := Option.some.inj hc
      simp [Partition.classOffset, List.getElem?_append_left hi]
    | succ c =>
      have := ih (c := c) hc
      rw [← this]
      simp only [Partition.classOffset, List.take_succ_cons, List.map_cons, List.sum_cons,
        List.flatten_cons]
      rw [List.getElem?_append_right (by omega)]
      congr 1
      omega

/-- The encoded literals stand for the literals of the classes, in order. -/
def ReadsClasses (encoder : LogicMiter) (val : (Nat → Bool) → Assignment) (net : LogicNetwork)
    (encoded : List Literal) (classes : List (List Lit)) : Prop :=
  List.Forall₂ (fun v l => Means encoder val v fun g => networkValue net g l) encoded
    classes.flatten

theorem ReadsClasses.means (h : ReadsClasses encoder val net encoded classes) {c i : Nat}
    {class' : List Lit} {l : Lit} (hc : classes[c]? = some class') (hl : class'[i]? = some l) :
    Means encoder val
      (encoded.getD (Partition.classOffset classes c + i) encoder.constantFalse)
      fun g => networkValue net g l := by
  have hi : i < class'.length := (List.getElem?_eq_some_iff.mp hl).1
  obtain ⟨v, hv, hm⟩ := exists_of_getElem?_right h ((getElem?_flatten_offset hc hi).trans hl)
  rwa [List.getD_eq_getElem?_getD, hv, Option.getD_some]

variable (hs : solve.Correct) (hm : Encodes encoder val)
  (hreads : ReadsClasses encoder val net encoded classes) {refutations : List BoundaryRefutation}

include hs hm hreads

theorem Partition.sweepClass_sound (maxPairs : Nat) {c representative : Nat} {class' : List Lit}
    (hc : classes[c]? = some class') (alternatives remaining : List Nat) (st : Partition)
    (h : st.Sound net classes refutations)
    (hknown : ∀ i ∈ representative :: alternatives, i < class'.length)
    (hlater : ∀ i ∈ alternatives, representative < i)
    (hsorted : (remaining ++ alternatives).Pairwise (· < ·))
    (hremaining : ∀ i ∈ remaining, i < class'.length) :
    ∃ goOn remaining' st', sweepClass solve encoder encoded (classOffset classes c) c
        representative maxPairs alternatives remaining st = .ok (goOn, remaining', st') ∧
      st'.Sound net classes refutations ∧ st'.unresolved = st.unresolved ∧
      remaining'.Pairwise (· < ·) ∧ ∀ i ∈ remaining', i < class'.length := by
  induction alternatives generalizing remaining st with
  | nil => exact ⟨true, remaining, st, rfl, h, rfl, by simpa using hsorted, hremaining⟩
  | cons alternative rest ih =>
    rw [sweepClass]
    by_cases hpairs : st.pairCount = maxPairs
    · rw [if_pos hpairs]
      exact ⟨false, remaining, st, rfl, h, rfl, (List.pairwise_append.mp hsorted).1, hremaining⟩
    rw [if_neg hpairs]
    have hr := hknown representative (by simp)
    have ha := hknown alternative (by simp)
    obtain ⟨l, hl⟩ : ∃ l, class'[representative]? = some l := ⟨_, List.getElem?_eq_getElem hr⟩
    obtain ⟨p, hp⟩ : ∃ p, class'[alternative]? = some p := ⟨_, List.getElem?_eq_getElem ha⟩
    have hlt := hlater alternative (by simp)
    have hknown' : ∀ i ∈ representative :: rest, i < class'.length := fun i hi =>
      hknown i (by rcases List.mem_cons.mp hi with hi | hi <;> simp [hi])
    have hlater' : ∀ i ∈ rest, representative < i := fun i hi => hlater i (by simp [hi])
    obtain ⟨hrem, hcons, hacross⟩ := List.pairwise_append.mp hsorted
    obtain ⟨hproved, hequal⟩ | ⟨refutation, hrefuted, hdiffer⟩ :=
      proveEncodedLiteralEquivalence_ok hs hm (hreads.means hc hl) (hreads.means hc hp)
        st.refutations
    · simp only [hproved]
      refine ih remaining _ ?_ hknown' hlater' ?_ hremaining
      · refine { h with shape := ?_, equal := ?_ }
        · rw [← h.shape]
          apply List.ext_getElem?
          intro k
          simp only [List.getElem?_map, List.getElem?_modify]
          by_cases hk : c = k
          · cases st.representatives[k]? <;> simp [hk]
          · cases st.representatives[k]? <;> simp [hk]
        · intro k i r reps hreps hri
          rw [List.getElem?_modify] at hreps
          by_cases hk : c = k
          · obtain ⟨old, hold, rfl⟩ : ∃ old, st.representatives[k]? = some old ∧
                old.set alternative (some representative) = reps := by
              simpa [hk] using hreps
            rw [List.getElem?_set] at hri
            by_cases hi : alternative = i
            · rw [if_pos hi] at hri
              split_ifs at hri
              cases hri
              exact ⟨hi ▸ hlt, class', l, p, hk ▸ hc, hl, hi ▸ hp, hequal⟩
            · rw [if_neg hi] at hri
              exact h.equal k i r old hold hri
          · exact h.equal k i r reps (by simpa [hk] using hreps) hri
      · exact List.pairwise_append.mpr ⟨hrem, (List.pairwise_cons.mp hcons).2,
          fun a ha b hb => hacross a ha b (by simp [hb])⟩
    · simp only [hrefuted]
      refine ih (remaining ++ [alternative]) _ ?_ hknown' hlater' ?_ ?_
      · obtain ⟨found, hfound, hall⟩ := h.refuted
        refine { h with refuted := ⟨found ++ [refutation], ?_, ?_⟩ }
        · rw [hfound, List.append_assoc]
        · intro x hx
          rcases List.mem_append.mp hx with hx | hx
          · exact hall x hx
          · obtain rfl := List.mem_singleton.mp hx
            exact ⟨c, representative, alternative, hlt, class', l, p, hc, hl, hp, hdiffer⟩
      · simpa [List.append_assoc] using hsorted
      · intro i hi
        rcases List.mem_append.mp hi with hi | hi
        · exact hremaining i hi
        · rw [List.mem_singleton.mp hi]
          exact ha

theorem Partition.sweepRound_sound (maxPairs : Nat) (indices : List Nat)
    (hindices : ∀ c ∈ indices, c < classes.length) (advanced : Bool) (st : Partition)
    (h : st.Sound net classes refutations) :
    ∃ goOn advanced' st', sweepRound solve encoder encoded classes maxPairs indices advanced st =
      .ok (goOn, advanced', st') ∧ st'.Sound net classes refutations := by
  induction indices generalizing advanced st with
  | nil => exact ⟨true, advanced, st, rfl, h⟩
  | cons c rest ih =>
    have hrest : ∀ c ∈ rest, c < classes.length := fun k hk => hindices k (by simp [hk])
    have hc := hindices c (by simp)
    obtain ⟨class', hclass⟩ : ∃ class', classes[c]? = some class' :=
      ⟨_, List.getElem?_eq_getElem hc⟩
    obtain ⟨us, hus⟩ : ∃ us, st.unresolved[c]? = some us :=
      ⟨_, List.getElem?_eq_getElem (by rw [h.unresolved_length]; exact hc)⟩
    have hgetD : st.unresolved.getD c [] = us := by
      rw [List.getD_eq_getElem?_getD, hus, Option.getD_some]
    have hasc := h.ascending c us hus
    have hknown := h.known c us class' hus hclass
    rw [sweepRound, hgetD]
    match us, hus, hasc, hknown with
    | [], _, _, _ => exact ih hrest advanced st h
    | [_], _, _, _ => exact ih hrest advanced st h
    | representative :: alternative :: alternatives, hus, hasc, hknown =>
      obtain ⟨hlater, hsorted⟩ := List.pairwise_cons.mp hasc
      obtain ⟨goOn, remaining, st', hrun, hsound, hsame, hrem, hremknown⟩ :=
        sweepClass_sound hs hm hreads maxPairs hclass (alternative :: alternatives) [] st h hknown
          hlater (by simpa using hsorted) (by simp)
      simp only [hrun]
      cases goOn with
      | false => exact ⟨false, true, st', rfl, hsound⟩
      | true =>
        refine ih hrest true _ { hsound with unresolved_length := ?_, ascending := ?_, known := ?_ }
        · rw [List.length_set, hsound.unresolved_length]
        · intro k ks hks
          rw [List.getElem?_set] at hks
          by_cases hk : c = k
          · rw [if_pos hk] at hks
            split_ifs at hks
            cases hks
            exact hrem
          · rw [if_neg hk] at hks
            exact hsound.ascending k ks hks
        · intro k ks class'' hks hclass'' i hi
          rw [List.getElem?_set] at hks
          by_cases hk : c = k
          · rw [if_pos hk] at hks
            split_ifs at hks
            cases hks
            rw [← hk, hclass] at hclass''
            cases hclass''
            exact hremknown i hi
          · rw [if_neg hk] at hks
            exact hsound.known k ks class'' hks hclass'' i hi

theorem Partition.sweepRounds_sound (maxPairs rounds : Nat) (st : Partition)
    (h : st.Sound net classes refutations) :
    ∃ st', sweepRounds solve encoder encoded classes maxPairs rounds st = .ok st' ∧
      st'.Sound net classes refutations := by
  induction rounds generalizing st with
  | zero => exact ⟨st, rfl, h⟩
  | succ rounds ih =>
    obtain ⟨goOn, advanced, st', hrun, hsound⟩ := sweepRound_sound hs hm hreads maxPairs
      (List.range classes.length) (fun c hc => List.mem_range.mp hc) false st h
    rw [sweepRounds, hrun]
    cases goOn <;> cases advanced
    · exact ⟨st', rfl, hsound⟩
    · exact ⟨st', rfl, hsound⟩
    · exact ⟨st', rfl, hsound⟩
    · exact ih st' hsound

end Soundness

/-- Over an ordered network the partition succeeds; what it reports is a sound
partition, and every refutation it adds separates a pair of one class. -/
theorem proveLogicLiteralPartitions_ok {solve : Solver E} (hs : solve.Correct)
    {net : LogicNetwork} (hnet : Ordered net) (classes : List (List Lit))
    (hknown : ∀ class' ∈ classes, ∀ l ∈ class', l.node < net.nodeCount)
    (maxRepresentatives maxPairs maxEncodedNodes : Nat) (refutations : List BoundaryRefutation) :
    ∃ result refutations', proveLogicLiteralPartitions solve net classes maxRepresentatives maxPairs
        maxEncodedNodes refutations = .ok (result, refutations') ∧
      (result = none ∧ refutations' = refutations ∨
        ∃ st : Partition, result = some st.representatives ∧ refutations' = st.refutations ∧
          st.Sound net classes refutations) := by
  have hstart : (Partition.start classes refutations).Sound net classes refutations :=
    Partition.start_sound refutations
  rw [proveLogicLiteralPartitions]
  by_cases hempty : classes.flatten.isEmpty ∨ maxRepresentatives = 0 ∨ maxPairs = 0
  · rw [if_pos hempty]
    exact ⟨_, _, rfl, .inr ⟨_, rfl, rfl, hstart⟩⟩
  rw [if_neg hempty]
  obtain ⟨encoded, encoder, hrun, val, hg, hreads⟩ :=
    encodeNetwork_yields (E := E) hnet encodes_new classes.flatten fun l hl => by
      obtain ⟨class', hclass, hl⟩ := List.mem_flatten.mp hl
      exact hknown class' hclass l hl
  simp only [hrun]
  by_cases hbudget : encoder.encodedNodes > maxEncodedNodes
  · rw [if_pos hbudget]
    exact ⟨none, refutations, rfl, .inl ⟨rfl, rfl⟩⟩
  rw [if_neg hbudget]
  obtain ⟨st, hsweep, hsound⟩ := Partition.sweepRounds_sound hs hg.encodes hreads maxPairs
    maxRepresentatives _ hstart
  simp only [hsweep]
  exact ⟨_, _, rfl, .inr ⟨st, rfl, rfl, hsound⟩⟩

/-! The nodes an encoding counts. -/

section Count

variable {net : LogicNetwork}

/-- The walk visits every node at most once. -/
theorem collect_length (visited : List Bool) (order pending : List Nat) {cone : List Nat}
    (h : (collect net visited order pending : Except (FormalError E) (List Nat)) = .ok cone) :
    cone.length ≤ order.length + visited.count false := by
  induction visited, order, pending using collect.induct net (E := E) with
  | case1 visited order =>
    rw [collect] at h
    cases h
    exact Nat.le_add_right _ _
  | case2 visited order node pending hnone =>
    rw [collect] at h
    split at h
    · cases h
    · rename_i hseen; rw [hnone] at hseen; cases hseen
    · rename_i hnew; rw [hnone] at hnew; cases hnew
  | case3 visited order node pending hseen ih =>
    rw [collect_seen hseen] at h
    exact ih h
  | case4 visited order node pending hnew e hfanins =>
    rw [collect] at h
    split at h
    · cases h
    · rename_i hseen; rw [hnew] at hseen; cases hseen
    · rw [hfanins] at h; cases h
  | case5 visited order node pending hnew fanins hfanins ih =>
    rw [collect_new hnew hfanins] at h
    have hcone := ih h
    obtain ⟨hlt, hget⟩ := List.getElem?_eq_some_iff.mp hnew
    have hpos : 0 < visited.count false := List.count_pos_iff.mpr (hget ▸ List.getElem_mem hlt)
    rw [List.count_set hlt, hget, List.length_append, List.length_singleton] at hcone
    simp at hcone
    omega

/-- A computation that leaves the count of encoded nodes as it is. -/
def Uncounted {α : Type} (x : EncodeM E LogicMiter α) : Prop :=
  ∀ m a m', x.run m = .ok (a, m') → m'.encodedNodes = m.encodedNodes

namespace Uncounted

theorem pure {α : Type} (a : α) : Uncounted (Pure.pure a : EncodeM E LogicMiter α) := by
  intro m b m' h
  cases h
  rfl

theorem throw {α : Type} (e : FormalError E) : Uncounted (throw e : EncodeM E LogicMiter α) := by
  intro m b m' h
  cases h

theorem bind {α β : Type} {x : EncodeM E LogicMiter α} {k : α → EncodeM E LogicMiter β}
    (hx : Uncounted x) (hk : ∀ a, Uncounted (k a)) : Uncounted (x >>= k) := by
  intro m b m' h
  rw [StateT.run_bind] at h
  obtain ⟨r, hr, h⟩ := bind_eq_ok h
  rw [hk r.1 r.2 b m' h, hx m r.1 r.2 hr]

theorem fromExcept {α : Type} (r : Except (FormalError E) α) :
    Uncounted (Formal.fromExcept r : EncodeM E LogicMiter α) := by
  intro m a m' h
  cases r with
  | error e => cases h
  | ok b => cases h; rfl

theorem get : Uncounted (get : EncodeM E LogicMiter LogicMiter) := by
  intro m a m' h
  cases h
  rfl

theorem newLit : Uncounted (LogicMiter.newLit : EncodeM E LogicMiter Literal) := by
  intro m a m' h
  cases h
  rfl

theorem addClauses (clauses : List Clause) :
    Uncounted (clauses.forM LogicMiter.addClause : EncodeM E LogicMiter PUnit) := by
  induction clauses with
  | nil => exact pure _
  | cons clause rest ih =>
    apply bind _ fun _ => ih
    intro m a m' h
    cases h
    rfl

theorem gate (clauses : Literal → Formula) : Uncounted (do
    let output ← LogicMiter.newLit
    (clauses output).forM LogicMiter.addClause
    Pure.pure output : EncodeM E LogicMiter Literal) :=
  newLit.bind fun output => (addClauses _).bind fun _ => pure output

theorem input (origin : Nat) : Uncounted (LogicMiter.input origin : EncodeM E LogicMiter Literal) := by
  apply get.bind
  intro m
  cases m.inputs.lookup origin with
  | some literal => exact pure literal
  | none =>
    apply newLit.bind
    intro literal
    apply bind _ fun _ => pure literal
    intro m a m' h
    cases h
    rfl

theorem encodeNode (encoded : List (Option Literal)) (node : Nat) :
    Uncounted (Formal.encodeNode net encoded node : EncodeM E LogicMiter Literal) := by
  unfold Formal.encodeNode
  cases net.kind node with
  | none => exact throw _
  | some kind =>
    cases kind with
    | constant => exact get.bind fun m => pure _
    | input =>
      dsimp only
      cases net.origin node with
      | none => exact throw _
      | some origin => exact input origin
    | and => exact (fromExcept _).bind fun l => (fromExcept _).bind fun r => gate (andClauses l r)
    | xor => exact (fromExcept _).bind fun l => (fromExcept _).bind fun r => gate (xorClauses l r)
    | mux =>
      exact (fromExcept _).bind fun s => (fromExcept _).bind fun t => (fromExcept _).bind fun e =>
        gate (muxClauses s t e)

theorem encodeNodes (nodes : List Nat) (encoded : List (Option Literal)) :
    Uncounted (Formal.encodeNodes net encoded nodes : EncodeM E LogicMiter _) := by
  induction nodes generalizing encoded with
  | nil => exact pure encoded
  | cons node rest ih => exact (encodeNode encoded node).bind fun output => ih _

end Uncounted

/-- A first encoding counts each node of the network at most once. -/
theorem encodeNetwork_nodes {outputs : List Lit} {encoded : List Literal} {encoder : LogicMiter}
    (h : (LogicMiter.encodeNetwork net outputs : EncodeM E LogicMiter _).run .new =
      .ok (encoded, encoder)) : encoder.encodedNodes ≤ net.nodeCount := by
  rw [LogicMiter.encodeNetwork, StateT.run_bind] at h
  obtain ⟨r, hr, h⟩ := bind_eq_ok h
  cases h
  rw [encodeLogicNetwork, StateT.run_bind] at hr
  obtain ⟨constant, hconstant, hr⟩ := bind_eq_ok hr
  cases hconstant
  rw [StateT.run_bind] at hr
  obtain ⟨cone, hcone, hr⟩ := bind_eq_ok hr
  cases hcollect : (collect net (List.replicate net.nodeCount false) []
      ((outputs.map (·.node)).filter (· ≠ 0)).reverse : Except (FormalError E) _) with
  | error e =>
    rw [hcollect] at hcone
    cases hcone
  | ok order =>
    rw [hcollect] at hcone
    cases hcone
    have hlength := collect_length _ _ _ hcollect
    rw [StateT.run_bind] at hr
    obtain ⟨table, htable, hr⟩ := bind_eq_ok hr
    have hcounted := Uncounted.encodeNodes _ _ _ _ _ htable
    rw [StateT.run_bind] at hr
    obtain ⟨literals, hliterals, hr⟩ := bind_eq_ok hr
    have houtputs := Uncounted.fromExcept _ _ _ _ hliterals
    cases hr
    simp only [List.length_mergeSort, List.count_replicate_self, List.length_nil, Nat.zero_add] at hlength ⊢
    rw [houtputs, hcounted]
    exact Nat.le_trans (Nat.le_of_eq (Nat.zero_add _)) hlength

end Count

/-! Pairs. -/

section Pairs

variable {net : LogicNetwork}

/-- Literals of one function have no model that separates them. -/
theorem proveEncodedLiteralEquivalence_equal {solve : Solver E} (hs : solve.Correct) {m : LogicMiter}
    {val : (Nat → Bool) → Assignment} (h : Encodes m val) {left right : Literal}
    {f p : (Nat → Bool) → Bool} (hl : Means m val left f) (hr : Means m val right p)
    (hequal : ∀ g, f g = p g) (refutations : List BoundaryRefutation) :
    proveEncodedLiteralEquivalence solve m left right refutations = .ok (true, refutations) := by
  obtain ⟨r, hrun, hcases⟩ := separate_ok hs refutations [[left, right.not], [left.not, right]]
  rw [proveEncodedLiteralEquivalence, hrun]
  obtain ⟨rfl, -⟩ | ⟨as, has, model, hsolve, -⟩ := hcases
  · rfl
  · -- a model would read some boundary, on which both literals agree
    have hmodel := hs.sat m.formula as model hsolve
    have hholds := hmodel.holds (a := complete model fun _ => false)
      fun l hl => complete_of_mem hmodel _ hl
    rw [holds_append, holds_units] at hholds
    have hvalues := (h.models _ (fun o => ((m.inputs.lookup o).map
      (Literal.eval (complete model fun _ => false))).getD false) fun o l hl => by simp [hl]).mp hholds.1
    have hleft := (Literal.eval_congr (hvalues _ hl.1)).trans (hl.2 _)
    have hright := (Literal.eval_congr (hvalues _ hr.1)).trans ((hr.2 _).trans (hequal _).symm)
    have hfirst := hholds.2
    simp only [List.mem_cons, List.not_mem_nil, or_false] at has
    rcases has with rfl | rfl <;>
      simp only [List.mem_cons, List.not_mem_nil, or_false, forall_eq_or_imp, forall_eq,
        Literal.eval_not, hleft, hright] at hfirst <;> simp at hfirst

section Rounds

variable {solve : Solver E} {encoder : LogicMiter} {encoded : List Literal} {classes : List (List Lit)}
  {maxPairs : Nat} {st st' : Partition}

theorem Partition.sweepRound_pair {c i j : Nat} {remaining : List Nat}
    (h : st.unresolved.getD c [] = [i, j])
    (hsweep : sweepClass solve encoder encoded (classOffset classes c) c i maxPairs [j] [] st =
      .ok (true, remaining, st')) (rest : List Nat) (advanced : Bool) :
    sweepRound solve encoder encoded classes maxPairs (c :: rest) advanced st =
      sweepRound solve encoder encoded classes maxPairs rest true
        { st' with unresolved := st'.unresolved.set c remaining } := by
  rw [sweepRound, h]
  simp only [hsweep]

theorem Partition.sweepRound_settled {c : Nat} (h : (st.unresolved.getD c []).length ≤ 1)
    (rest : List Nat) (advanced : Bool) :
    sweepRound solve encoder encoded classes maxPairs (c :: rest) advanced st =
      sweepRound solve encoder encoded classes maxPairs rest advanced st := by
  rw [sweepRound]
  cases hus : st.unresolved.getD c [] with
  | nil => rfl
  | cons i us =>
    rw [hus] at h
    obtain rfl : us = [] := List.eq_nil_of_length_eq_zero (Nat.le_zero.mp (Nat.le_of_succ_le_succ h))
    rfl

end Rounds

/-- Two classes of two literals, of which the first pair differs and the second agrees. -/
theorem proveLogicLiteralPartitions_pairs {solve : Solver E} (hs : solve.Correct) (hnet : Ordered net)
    {a b c d : Lit} (hknown : ∀ l ∈ [a, b, c, d], l.node < net.nodeCount)
    (hdiffer : ∃ g, networkValue net g a ≠ networkValue net g b)
    (hequal : ∀ g, networkValue net g c = networkValue net g d) {maxPairs maxEncodedNodes : Nat}
    (hpairs : 2 ≤ maxPairs) (hnodes : net.nodeCount ≤ maxEncodedNodes) :
    ∃ refutation, proveLogicLiteralPartitions solve net [[a, b], [c, d]] 2 maxPairs maxEncodedNodes [] =
      .ok (some [[none, none], [none, some 0]], [refutation]) := by
  obtain ⟨encoded, encoder, hrun, val, hg, hreads⟩ :=
    encodeNetwork_yields (E := E) hnet encodes_new [a, b, c, d] hknown
  have hreads : ReadsClasses encoder val net encoded [[a, b], [c, d]] := hreads
  have hbudget := encodeNetwork_nodes hrun
  obtain ⟨-, hsame⟩ | ⟨refutation, hrefuted, -⟩ := proveEncodedLiteralEquivalence_ok hs hg.encodes
    (hreads.means (c := 0) (i := 0) rfl rfl) (hreads.means (c := 0) (i := 1) rfl rfl) []
  · obtain ⟨g, hne⟩ := hdiffer
    exact (hne (hsame g)).elim
  have hproved := proveEncodedLiteralEquivalence_equal hs hg.encodes
    (hreads.means (c := 1) (i := 0) rfl rfl) (hreads.means (c := 1) (i := 1) rfl rfl) hequal [refutation]
  refine ⟨refutation, ?_⟩
  have hmax : ¬ maxPairs = 0 := by omega
  have hone : ¬ 1 = maxPairs := by omega
  have hbound : ¬ encoder.encodedNodes > maxEncodedNodes := by omega
  rw [proveLogicLiteralPartitions, if_neg (by simp [hmax])]
  simp only [List.flatten_cons, List.flatten_nil, List.cons_append, List.nil_append, List.append_nil, hrun,
    hbound, if_false]
  have hfirst : Partition.sweepClass solve encoder encoded (Partition.classOffset [[a, b], [c, d]] 0) 0 0
      maxPairs [1] [] ⟨[[none, none], [none, none]], [[0, 1], [0, 1]], 0, []⟩ = .ok (true, [1],
        ⟨[[none, none], [none, none]], [[0, 1], [0, 1]], 1, [refutation]⟩) := by
    rw [Partition.sweepClass, if_neg (Ne.symm hmax)]
    simp only [hrefuted]
    rfl
  have hsecond : Partition.sweepClass solve encoder encoded (Partition.classOffset [[a, b], [c, d]] 1) 1 0
      maxPairs [1] [] ⟨[[none, none], [none, none]], [[1], [0, 1]], 1, [refutation]⟩ = .ok (true, [],
        ⟨[[none, none], [none, some 0]], [[1], [0, 1]], 2, [refutation]⟩) := by
    rw [Partition.sweepClass, if_neg hone]
    simp only [hproved]
    rfl
  have hstart : Partition.start [[a, b], [c, d]] [] =
      ⟨[[none, none], [none, none]], [[0, 1], [0, 1]], 0, []⟩ := rfl
  have hindices : List.range [[a, b], [c, d]].length = [0, 1] := rfl
  have hround : Partition.sweepRound solve encoder encoded [[a, b], [c, d]] maxPairs [0, 1] false
      ⟨[[none, none], [none, none]], [[0, 1], [0, 1]], 0, []⟩ = .ok (true, true,
        ⟨[[none, none], [none, some 0]], [[1], []], 2, [refutation]⟩) := by
    rw [Partition.sweepRound_pair rfl hfirst]
    exact Partition.sweepRound_pair rfl hsecond [] true
  have hlast : Partition.sweepRound solve encoder encoded [[a, b], [c, d]] maxPairs [0, 1] false
      ⟨[[none, none], [none, some 0]], [[1], []], 2, [refutation]⟩ = .ok (true, false,
        ⟨[[none, none], [none, some 0]], [[1], []], 2, [refutation]⟩) := by
    rw [Partition.sweepRound_settled (c := 0) (by simp), Partition.sweepRound_settled (c := 1) (by simp)]
    rfl
  simp only [hstart, Partition.sweepRounds, hindices, hround, hlast]

end Pairs

end Opto.Formal
