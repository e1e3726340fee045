import Opto.Formal.Partitions
import Opto.Synth.Graph

/-!
# Simulation-guided SAT sweeping

Simulation nominates classes of nodes that may be equal or complementary, a
solver proves substitutions of later members by earlier ones, and the subject is
rebuilt with them. Refuted pairs extend the stimulus for the next round.
-/

namespace Opto.Synth

open Logic Formal Cnf

def RANDOM_WORDS : Nat := 8
def LEARNED_WORDS : Nat := 96
def MAX_REFINEMENT_ROUNDS : Nat := 8
def MAX_REPRESENTATIVE_ROUNDS : Nat := 2
def MAX_ROUND_PAIRS : Nat := 4000
def MAX_PROOF_PAIRS : Nat := 24000
def MAX_PROOF_ENCODING_NODES : Nat := 8192
def SHARD_CLASSES : Nat := 12
def MAX_CLASS_MEMBERS : Nat := 16
def SIGNATURE_STRIDE : Nat := RANDOM_WORDS + LEARNED_WORDS

abbrev Word := BitVec 64

/-- The earlier node a node collapses into, and whether the collapse inverts its phase. -/
structure Substitution where
  target : Nat
  inverted : Bool
deriving DecidableEq

abbrev Substitutions := List (Option Substitution)

structure SweepMetrics where
  rounds : Nat
  classes : Nat
  candidates : Nat
  proved : Nat
  refuted : Nat
  budgetExhausted : Bool
deriving DecidableEq

inductive SweepError (E : Type)
  | proof (error : FormalError E)
  | panic (panic : Panic)
deriving DecidableEq

/-! The stimulus. -/

/-- Assigned origins of each learned pattern, sorted by origin. -/
structure Stimulus where
  learned : List (List (Nat × Bool))

def randomWord (origin word : Nat) : Word :=
  let value : Word := (BitVec.ofNat 64 origin <<< 32) ^^^
    (BitVec.ofNat 64 word * 0x9e3779b97f4a7c15) ^^^ 0xd1b54a32d192ed03
  let value := (value ^^^ (value >>> 30)) * 0xbf58476d1ce4e5b9
  let value := (value ^^^ (value >>> 27)) * 0x94d049bb133111eb
  value ^^^ (value >>> 31)

namespace Stimulus

def random : Stimulus := ⟨[]⟩

def words (s : Stimulus) : Nat := RANDOM_WORDS + (s.learned.length + 63) / 64

/-- Appends refutations up to the capacity and reports the first changed word. -/
def learn (s : Stimulus) (refutations : List BoundaryRefutation) : Stimulus × Option Nat :=
  let capacity := LEARNED_WORDS * 64
  let before := s.learned.length
  let learned := refutations.foldl (fun learned refutation =>
    if learned.length = capacity then learned else learned ++ [refutation.assignment]) s.learned
  (⟨learned⟩, if learned.length > before then some (RANDOM_WORDS + before / 64) else none)

/-- Unassigned origins keep their random bits. -/
def inputWord (s : Stimulus) (origin word : Nat) : Word :=
  if word < RANDOM_WORDS then randomWord origin word
  else
    let start := (word - RANDOM_WORDS) * 64
    (List.range 64).foldl (fun bits offset =>
      match (s.learned[start + offset]?).bind (·.lookup origin) with
      | some true => bits ||| 1#64 <<< offset
      | some false => bits &&& ~~~(1#64 <<< offset)
      | none => bits) (randomWord origin word)

end Stimulus

/-! Simulation rows. -/

structure Signatures where
  rows : List (List Word)
  active : Nat

namespace Signatures

def new (nodeCount : Nat) : Signatures :=
  ⟨List.replicate nodeCount (List.replicate SIGNATURE_STRIDE 0), 0⟩

def value (rows : List (List Word)) (node word : Nat) : Word := (rows.getD node []).getD word 0

def row (s : Signatures) (node : Nat) : List Word := (s.rows.getD node []).take s.active

/-- The active words of every mapped node, in the phase it is mapped to. -/
def projected (s : Signatures) (remap : List (Option Lit)) (nodeCount : Nat) : Signatures :=
  let rows := remap.zipIdx.foldl (fun rows entry =>
    match entry.1 with
    | none => rows
    | some mapped => rows.modify mapped.node fun row => row.mapIdx fun word old =>
        if word < s.active then
          let value := value s.rows entry.2 word
          if mapped.isInverted then ~~~value else value
        else old) (new nodeCount).rows
  ⟨rows, s.active⟩

end Signatures

def operand (rows : List (List Word)) (literal : Lit) (word : Nat) : Word :=
  let bits := Signatures.value rows literal.node word
  if literal.isInverted then ~~~bits else bits

def simulatedWord (stimulus : Stimulus) (rows : List (List Word)) (logic : Node) (word : Nat) : Word :=
  match logic.kind with
  | .constant => 0
  | .input => stimulus.inputWord logic.origin word
  | .and => operand rows logic.fanin0 word &&& operand rows logic.fanin1 word
  | .xor => operand rows logic.fanin0 word ^^^ operand rows logic.fanin1 word
  | .mux =>
    let select := operand rows logic.fanin0 word
    (select &&& operand rows logic.fanin1 word) ||| (~~~select &&& operand rows logic.fanin2 word)

/-- Words from `first` on are filled for the live nodes; earlier words are kept. -/
def simulate (net : LogicNetwork) (live : List Bool) (stimulus : Stimulus) (signatures : Signatures)
    (first : Nat) : Signatures :=
  let words := stimulus.words
  if words ≤ first then ⟨signatures.rows, words⟩
  else
    let rows := (net.nodes.zip live).zipIdx.foldl (fun rows entry =>
      if entry.1.2 then rows.modify entry.2 fun row => row.mapIdx fun word old =>
        if first ≤ word ∧ word < words then simulatedWord stimulus rows entry.1.1 word else old
      else rows) signatures.rows
    ⟨rows, words⟩

/-! Nomination. -/

/-- Members of a class in ascending node order, each with its phase. -/
abbrev SweepClass := List (Nat × Bool)

def memberLiteral (member : Nat × Bool) : Lit := withPhase ⟨member.1, false⟩ member.2

abbrev Buckets := List (List Word × SweepClass)

def Buckets.push (buckets : Buckets) (key : List Word) (member : Nat × Bool) : Buckets :=
  match buckets with
  | [] => [(key, [member])]
  | (k, members) :: rest =>
    if k = key then (k, members ++ [member]) :: rest else (k, members) :: Buckets.push rest key member

/-- A node and its complement fall under one key. -/
def normalizedKey (row : List Word) : List Word × Bool :=
  let inverted := (row.headD 0).getLsbD 0
  (if inverted then row.map (~~~·) else row, inverted)

def bucketNode (signatures : Signatures) (buckets : Buckets)
    (entry : (Bool × Option Substitution) × Nat) : Buckets :=
  if entry.1.1 ∧ entry.1.2 = none then
    let key := normalizedKey (signatures.row entry.2)
    buckets.push key.1 (entry.2, key.2)
  else buckets

def bucketNodes (live : List Bool) (substitutions : Substitutions) (signatures : Signatures) :
    Buckets :=
  (live.zip substitutions).zipIdx.foldl (bucketNode signatures) []

/-- The order of the classes does not depend on that of the buckets. -/
def nominate (live : List Bool) (substitutions : Substitutions) (signatures : Signatures)
    (metrics : SweepMetrics) : List SweepClass × SweepMetrics :=
  let buckets := bucketNodes live substitutions signatures
  let classes := ((buckets.map (·.2)).filter fun members => 1 < members.length).map
    (·.take MAX_CLASS_MEMBERS)
  let classes := classes.mergeSort fun a b => (a.headD (0, false)).1 ≤ (b.headD (0, false)).1
  (classes, { metrics with
    classes := max metrics.classes classes.length
    candidates := metrics.candidates + (classes.map (·.length - 1)).sum })

/-! Proving. -/

def shardQuota (maxPairs shardCount shard : Nat) : Nat :=
  let shardCount := max shardCount 1
  maxPairs / shardCount + if shard < maxPairs % shardCount then 1 else 0

structure Round where
  proved : Nat
  refutations : List BoundaryRefutation
  encodingBudgetExhausted : Bool

def Round.attempted (round : Round) : Nat := round.proved + round.refutations.length

/-- Follows a chain of substitutions, accumulating its phase. -/
def resolve (substitutions : Substitutions) : Nat → Nat → Bool → Option (Nat × Bool)
  | 0, _, _ => none
  | fuel + 1, node, inverted =>
    match substitutions[node]? with
    | none => none
    | some none => some (node, inverted)
    | some (some substitution) =>
      resolve substitutions fuel substitution.target (inverted ^^ substitution.inverted)

variable {E : Type}

/-- What one shard of the classes establishes; over budget, it proves nothing. -/
def proveShard (solve : Solver E) (net : LogicNetwork) (literals : List (List Lit)) (maxPairs : Nat) :
    Except (SweepError E) (List (List (Option Nat)) × List BoundaryRefutation × Bool) :=
  match proveLogicLiteralPartitions solve net literals MAX_REPRESENTATIVE_ROUNDS maxPairs
      MAX_PROOF_ENCODING_NODES [] with
  | .error error => .error (.proof error)
  | .ok (some partitions, refutations) => .ok (partitions, refutations, false)
  | .ok (none, refutations) =>
    .ok (literals.map fun class' => List.replicate class'.length none, refutations, true)

/-- Records one proved member, its representative resolved first. -/
def substitute (members : SweepClass) (state : Substitutions × Nat)
    (entry : Option Nat × Nat) : Except Panic (Substitutions × Nat) :=
  match entry.1 with
  | none => .ok state
  | some representative => do
    let (node, inverted) ← expect members[entry.2]? "index out of bounds"
    let (target, targetInverted) ← expect members[representative]? "index out of bounds"
    let (target, targetInverted) ←
      expect (resolve state.1 (target + 1) target (inverted != targetInverted)) "index out of bounds"
    pure (state.1.set node (some ⟨target, targetInverted⟩), state.2 + 1)

def substituteClass (state : Substitutions × Nat) (entry : SweepClass × List (Option Nat)) :
    Except Panic (Substitutions × Nat) :=
  entry.2.zipIdx.foldlM (substitute entry.1) state

def prove (solve : Solver E) (net : LogicNetwork) (classes : List SweepClass) (maxPairs : Nat)
    (substitutions : Substitutions) : Except (SweepError E) (Round × Substitutions) := do
  let literals := classes.map (·.map memberLiteral)
  let shardSize := min SHARD_CLASSES (max literals.length 1)
  let shardCount := (literals.length + shardSize - 1) / shardSize
  let shards ← (List.range shardCount).mapM fun shard =>
    proveShard solve net ((literals.drop (shard * shardSize)).take shardSize)
      (shardQuota maxPairs shardCount shard)
  let partitions := shards.flatMap (·.1)
  let (substitutions, proved) ← ((classes.zip partitions).foldlM substituteClass
    (substitutions, 0)).mapError SweepError.panic
  pure (⟨proved, shards.flatMap (·.2.1), shards.any (·.2.2)⟩, substitutions)

/-! Rebuilding. -/

/-- One literal for each origin seen so far, and the entries of the map up to the
node that is next; later entries are still empty. -/
structure Rebuilding where
  variableMap : List (Nat × Lit)
  remap : List (Option Lit)

def rebuildNode (substitution : Option Substitution) (logic : Node) (st : Rebuilding) :
    GraphM Rebuilding :=
  match substitution with
  | some substitution => do
    let target ← liftM (expect st.remap[substitution.target]?.join
      "functional reduction elects an earlier live representative")
    let mapped := if substitution.inverted then target.inverted else target
    pure { st with remap := st.remap ++ [some mapped] }
  | none =>
    match logic.kind with
    | .constant => pure { st with remap := st.remap ++ [some (LogicBuilder.constant false)] }
    | .input =>
      match st.variableMap.lookup logic.origin with
      | some literal => pure { st with remap := st.remap ++ [some literal] }
      | none => do
        let literal ← LogicGraph.input logic.origin
        pure ⟨(logic.origin, literal) :: st.variableMap, st.remap ++ [some literal]⟩
    | .and | .xor | .mux => do
      let mapped ← copyGate st.remap "AXM graph is topological within its live cone" logic
      pure { st with remap := st.remap ++ [some mapped] }

def rebuildStep (st : Rebuilding) (entry : Node × Bool × Option Substitution) : GraphM Rebuilding :=
  if entry.2.1 then rebuildNode entry.2.2 entry.1 st
  else pure { st with remap := st.remap ++ [none] }

def rebuild (net : LogicNetwork) (live : List Bool) (substitutions : Substitutions) :
    Except Panic TransformProduct := do
  let (st, reduced) ← ((net.nodes.zip (live.zip substitutions)).foldlM rebuildStep ⟨[], []⟩).run .new
  pure ⟨reduced.freeze, st.remap⟩

/-! Rounds. -/

/-- The live cone of the roots, with the constant as a representative. -/
def liveCone (net : LogicNetwork) (roots : List Lit) : Except Panic (List Bool) := do
  let live ← expect (liveNodes net roots) "index out of bounds"
  pure (live.set 0 true)

def TransformProduct.compose (first second : TransformProduct) : TransformProduct :=
  ⟨second.network, composeRemaps first.remap second.remap⟩

structure Sweep where
  stimulus : Stimulus
  budget : Nat
  reduced : Option TransformProduct
  roots : List Lit
  subject : LogicNetwork
  live : List Bool
  signatures : Signatures
  resume : Nat
  metrics : SweepMetrics

namespace Sweep

def nominated (st : Sweep) : Signatures × List SweepClass × SweepMetrics :=
  let substitutions := List.replicate st.subject.nodeCount none
  let signatures := simulate st.subject st.live st.stimulus st.signatures st.resume
  (signatures, nominate st.live substitutions signatures
    { st.metrics with rounds := st.metrics.rounds + 1 })

def proposed (solve : Solver E) (st : Sweep) : Except (SweepError E) (Round × Substitutions) :=
  prove solve st.subject st.nominated.2.1 (min MAX_ROUND_PAIRS st.budget)
    (List.replicate st.subject.nodeCount none)

/-- Rebuilds the subject, and carries the roots and signatures over to it. -/
def merge (st : Sweep) (substitutions : Substitutions) : Except Panic Sweep := do
  let product ← rebuild st.subject st.live substitutions
  let signatures := st.signatures.projected product.remap product.network.nodeCount
  let roots ← st.roots.mapM fun root =>
    expect (remapLiteral product.remap root) "AXM graph is topological within its live cone"
  let reduced := match st.reduced with
    | some previous => previous.compose product
    | none => product
  let live ← liveCone reduced.network roots
  pure { st with reduced := some reduced, roots, subject := reduced.network, live, signatures }

/-- The refutations extend the stimulus; without a change no round follows. -/
def refined (st : Sweep) (refutations : List BoundaryRefutation) : Sweep × Bool :=
  if refutations.isEmpty then (st, false)
  else
    match st.stimulus.learn refutations with
    | (stimulus, none) => ({ st with stimulus }, false)
    | (stimulus, some changed) => ({ st with stimulus, resume := changed }, true)

/-- One refinement round; the second component says whether another one follows. -/
def round (solve : Solver E) (st : Sweep) : Except (SweepError E) (Sweep × Bool) :=
  if st.budget = 0 then
    .ok ({ st with metrics := { st.metrics with budgetExhausted := true } }, false)
  else
    let (signatures, classes, metrics) := st.nominated
    if classes.isEmpty then .ok ({ st with signatures, metrics }, false)
    else do
      let (round, substitutions) ← st.proposed solve
      let st := { st with
        signatures
        budget := st.budget - round.attempted
        metrics := { metrics with
          proved := metrics.proved + round.proved
          refuted := metrics.refuted + round.refutations.length
          budgetExhausted := metrics.budgetExhausted || round.encodingBudgetExhausted } }
      let merged := if round.proved ≠ 0 then st.merge substitutions else .ok st
      let st ← merged.mapError SweepError.panic
      pure (st.refined round.refutations)

def rounds (solve : Solver E) : Nat → Sweep → Except (SweepError E) Sweep
  | 0, st => .ok st
  | count + 1, st => do
    let (st, continues) ← st.round solve
    if continues then st.rounds solve count else pure st

def start (net : LogicNetwork) (roots : List Lit) (stimulus : Stimulus) (metrics : SweepMetrics) :
    Except Panic Sweep := do
  let live ← liveCone net roots
  pure ⟨stimulus, MAX_PROOF_PAIRS, none, roots, net, live, .new net.nodeCount, 0, metrics⟩

end Sweep

/-- The reduction from any stimulus with any number of rounds; `reduce` starts from
the random stimulus. -/
def reduceFrom (solve : Solver E) (net : LogicNetwork) (roots : List Lit) (stimulus : Stimulus)
    (count : Nat) (metrics : SweepMetrics) :
    Except (SweepError E) (Option TransformProduct × SweepMetrics) := do
  let st ← (Sweep.start net roots stimulus metrics).mapError SweepError.panic
  let st ← st.rounds solve count
  pure (st.reduced, st.metrics)

def reduce (solve : Solver E) (net : LogicNetwork) (roots : List Lit) (metrics : SweepMetrics) :
    Except (SweepError E) (Option TransformProduct × SweepMetrics) :=
  reduceFrom solve net roots .random MAX_REFINEMENT_ROUNDS metrics

end Opto.Synth
