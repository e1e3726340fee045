import Opto.Formal.NetworkExact

/-!
# Proving networks and literals equivalent

The miter of two networks asks the solver for an assignment on which some pair
of outputs differs. Literal classes of one network are partitioned pair by pair
under assumptions; a refuted pair leaves the boundary assignment of the model.
The solver is a parameter.
-/

namespace Opto.Formal

open Logic Cnf

variable {E : Type}

structure ProofReport where
  encodedValues : Nat
  clauses : Nat
deriving DecidableEq

inductive ProofOutcome
  | proved (report : ProofReport)
  | disproved (description : String)
deriving DecidableEq

/-- Both cones over shared inputs, with the clause that some pair of outputs differs. -/
def encodeDifferences (reference : LogicNetwork) (referenceOutputs : List Lit)
    (implementation : LogicNetwork) (implementationOutputs : List Lit) :
    EncodeM E LogicMiter Unit := do
  let referenceLits ← LogicMiter.encodeNetwork reference referenceOutputs
  let implementationLits ← LogicMiter.encodeNetwork implementation implementationOutputs
  let differences ← (referenceLits.zip implementationLits).mapM fun pair =>
    LogicMiter.xor pair.1 pair.2
  LogicMiter.addClause differences

def proveLogicNetworkEquivalence (solve : Solver E) (reference : LogicNetwork)
    (referenceOutputs : List Lit) (implementation : LogicNetwork)
    (implementationOutputs : List Lit) : Except (FormalError E) ProofOutcome :=
  if referenceOutputs.length ≠ implementationOutputs.length then
    .error (.invalidModel (s!"logic miter output count mismatch: " ++
      s!"reference={referenceOutputs.length}, implementation={implementationOutputs.length}"))
  else if referenceOutputs.isEmpty then
    .error (.invalidModel "logic miter requires at least one cut output")
  else
    match (encodeDifferences reference referenceOutputs implementation
        implementationOutputs).run .new with
    | .error e => .error e
    | .ok (_, miter) =>
      match solve miter.formula [] with
      | .error source => .error (.solver "logic miter" source)
      | .ok (some _) => .ok (.disproved "logic miter found a cut-boundary counterexample")
      | .ok none => .ok (.proved ⟨miter.encodedNodes, miter.clauses⟩)

/-- Assigned boundary origins, in ascending order. -/
structure BoundaryRefutation where
  assignment : List (Nat × Bool)
deriving DecidableEq

def assignedValue (model : List Literal) (index : Nat) : Option Bool :=
  ((model.filter fun l => l.index == index).getLast?).map (·.isPositive)

def LogicMiter.boundaryAssignment (m : LogicMiter) (model : List Literal) : BoundaryRefutation :=
  ⟨m.inputs.filterMap fun input =>
    (assignedValue model input.2.index).map fun value => (input.1, value != !input.2.isPositive)⟩

/-- The first satisfiable assumption refutes the pair. -/
def separate (solve : Solver E) (encoder : LogicMiter) (refutations : List BoundaryRefutation) :
    List (List Literal) → Except (FormalError E) (Bool × List BoundaryRefutation)
  | [] => .ok (true, refutations)
  | assumption :: rest =>
    match solve encoder.formula assumption with
    | .error source => .error (.solver "logic equivalence sweep" source)
    | .ok (some model) => .ok (false, refutations ++ [encoder.boundaryAssignment model])
    | .ok none => separate solve encoder refutations rest

def proveEncodedLiteralEquivalence (solve : Solver E) (encoder : LogicMiter)
    (left right : Literal) (refutations : List BoundaryRefutation) :
    Except (FormalError E) (Bool × List BoundaryRefutation) :=
  separate solve encoder refutations [[left, right.not], [left.not, right]]

/-! What the solver's answers say about the boundary. -/

/-- An assignment of all origins in which those of the refutation have its values. -/
def BoundaryRefutation.Admits (r : BoundaryRefutation) (g : Nat → Bool) : Prop :=
  ∀ o v, (o, v) ∈ r.assignment → g o = v

variable {m m' : LogicMiter} {val val' : (Nat → Bool) → Assignment}
  {net : LogicNetwork} {solve : Solver E}

theorem Encodes.holds (h : Encodes m val) (g : Nat → Bool) : Holds (val g) m.formula :=
  (h.models (val g) g fun o l hl => h.input o l hl g).mpr fun _ _ => rfl

theorem assignedValue_of_mem {model : List Literal} {f : Formula} (hm : IsModel model f)
    {l : Literal} (hl : l ∈ model) : assignedValue model l.index = some l.isPositive := by
  cases hx : (model.filter fun x => x.index == l.index).getLast? with
  | none =>
    have hmem : l ∈ model.filter fun x => x.index == l.index := by simp [hl]
    rw [List.getLast?_eq_none_iff.mp hx] at hmem
    cases hmem
  | some x =>
    have hx' : x ∈ model ∧ x.index = l.index := by
      simpa using List.mem_of_getLast? hx
    have hphase : x.isPositive = l.isPositive := by
      by_contra hne
      refine hm.consistent l hl ?_
      have : l.not = x := by
        obtain ⟨i, p⟩ := l
        obtain ⟨j, q⟩ := x
        simp only at hx' hne
        simp only [Literal.not, Literal.mk.injEq]
        exact ⟨hx'.2.symm, by cases p <;> cases q <;> simp_all⟩
      rw [this]
      exact hx'.1
    rw [assignedValue, hx, Option.map_some, hphase]

theorem mem_of_assignedValue {model : List Literal} {i : Nat} {v : Bool}
    (h : assignedValue model i = some v) : (⟨i, v⟩ : Literal) ∈ model := by
  obtain ⟨x, hx, rfl⟩ := Option.map_eq_some_iff.mp h
  have hx' : x ∈ model ∧ x.index = i := by simpa using List.mem_of_getLast? hx
  obtain ⟨hmem, rfl⟩ := hx'
  exact hmem

/-- A model, completed from the values of an admitted boundary, has that boundary. -/
theorem complete_reads (h : Encodes m val) {model : List Literal} {f : Formula}
    (hm : IsModel model f) {g : Nat → Bool} (hg : (m.boundaryAssignment model).Admits g) {o : Nat}
    {l : Literal} (hl : m.inputs.lookup o = some l) : l.eval (complete model (val g)) = g o := by
  have hpos := h.positive o l hl
  have hmem : (o, l) ∈ m.inputs := by
    obtain ⟨l₁, l₂, heq, -⟩ := List.lookup_eq_some_iff.mp hl
    simp [heq]
  cases hx : assignedValue model l.index with
  | some v =>
    have hv : (⟨l.index, v⟩ : Literal) ∈ model := mem_of_assignedValue hx
    have hgo : g o = v := by
      refine hg o v (List.mem_filterMap.mpr ⟨(o, l), hmem, ?_⟩)
      rw [hx, Option.map_some, hpos]
      cases v <;> rfl
    have heval := complete_of_mem hm (val g) hv
    rw [Literal.eval, beq_iff_eq] at heval
    rw [Literal.eval, hpos, hgo]
    dsimp only at heval
    rw [heval, beq_true]
  | none =>
    have hnot (p : Bool) : (⟨l.index, p⟩ : Literal) ∉ model := fun hp => by
      rw [assignedValue_of_mem hm hp] at hx
      cases hx
    rw [← h.input o l hl g, Literal.eval, Literal.eval, complete, if_neg (hnot true),
      if_neg (hnot false)]

theorem separate_ok (hs : solve.Correct) (refutations : List BoundaryRefutation)
    (assumptions : List (List Literal)) :
    ∃ r, separate solve m refutations assumptions = .ok r ∧
      ((r = (true, refutations) ∧ ∀ as ∈ assumptions, solve m.formula as = .ok none) ∨
        ∃ as ∈ assumptions, ∃ model, solve m.formula as = .ok (some model) ∧
          r = (false, refutations ++ [m.boundaryAssignment model])) := by
  induction assumptions with
  | nil => exact ⟨_, rfl, .inl ⟨rfl, by simp⟩⟩
  | cons as rest ih =>
    obtain ⟨answer, hanswer⟩ := hs.answers m.formula as
    rw [separate, hanswer]
    cases answer with
    | some model => exact ⟨_, rfl, .inr ⟨as, by simp, model, hanswer, rfl⟩⟩
    | none =>
      obtain ⟨r, hr, ⟨rfl, hall⟩ | ⟨as', hmem, hrest⟩⟩ := ih
      · refine ⟨_, hr, .inl ⟨rfl, fun x hx => ?_⟩⟩
        rcases List.mem_cons.mp hx with rfl | hx
        · exact hanswer
        · exact hall x hx
      · exact ⟨r, hr, .inr ⟨as', by simp [hmem], hrest⟩⟩

/-- A pair is proved equal, or refuted by the one boundary assignment it adds. -/
theorem proveEncodedLiteralEquivalence_ok (hs : solve.Correct) (h : Encodes m val)
    {left right : Literal} {f p : (Nat → Bool) → Bool} (hl : Means m val left f)
    (hr : Means m val right p) (refutations : List BoundaryRefutation) :
    ((proveEncodedLiteralEquivalence solve m left right refutations = .ok (true, refutations)) ∧
      ∀ g, f g = p g) ∨
    ∃ refutation, proveEncodedLiteralEquivalence solve m left right refutations =
      .ok (false, refutations ++ [refutation]) ∧ ∀ g, refutation.Admits g → f g ≠ p g := by
  obtain ⟨r, hrun, hcases⟩ := separate_ok hs refutations [[left, right.not], [left.not, right]]
  rw [proveEncodedLiteralEquivalence, hrun]
  rcases hcases with ⟨rfl, hall⟩ | ⟨as, has, model, hsolve, rfl⟩
  · refine .inl ⟨rfl, fun g => ?_⟩
    have hunsat (as : List Literal) (has : as ∈ [[left, right.not], [left.not, right]]) :=
      hs.unsat m.formula as (hall as has) (val g) (h.holds g)
    have h₁ := hunsat [left, right.not] (by simp)
    have h₂ := hunsat [left.not, right] (by simp)
    simp only [List.mem_cons, List.not_mem_nil, or_false, exists_eq_or_imp, exists_eq_left,
      Literal.eval_not, hl.2 g, hr.2 g] at h₁ h₂
    cases hfg : f g <;> cases hpg : p g <;> simp_all
  · refine .inr ⟨_, rfl, fun g hg => ?_⟩
    have hmodel := hs.sat m.formula as model hsolve
    have hholds := hmodel.holds fun l hl => complete_of_mem hmodel (val g) hl
    rw [holds_append, holds_units] at hholds
    have hvalues := (h.models _ g fun o l hl => complete_reads h hmodel hg hl).mp hholds.1
    have heval (l : Literal) (hl : l.index < m.variableCount) :
        l.eval (complete model (val g)) = l.eval (val g) := Literal.eval_congr (hvalues _ hl)
    simp only [List.mem_cons, List.not_mem_nil, or_false] at has
    rcases has with rfl | rfl
    · have h₁ := hholds.2 left (by simp)
      have h₂ := hholds.2 right.not (by simp)
      rw [heval left hl.1, hl.2 g] at h₁
      rw [heval right.not hr.1, Literal.eval_not, hr.2 g] at h₂
      rw [h₁, Bool.not_eq_eq_eq_not.mp h₂]
      simp
    · have h₁ := hholds.2 left.not (by simp)
      have h₂ := hholds.2 right (by simp)
      rw [heval left.not hl.1, Literal.eval_not, hl.2 g] at h₁
      rw [heval right hr.1, hr.2 g] at h₂
      rw [Bool.not_eq_eq_eq_not.mp h₁, h₂]
      simp

/-- The parity of every pair of outputs. -/
theorem differences_yields (hm : Encodes m val) {pairs : List (Literal × Literal)}
    {fs : List (((Nat → Bool) → Bool) × ((Nat → Bool) → Bool))}
    (h : List.Forall₂ (fun p f => Means m val p.1 f.1 ∧ Means m val p.2 f.2) pairs fs) :
    Yields m (pairs.mapM fun pair => LogicMiter.xor pair.1 pair.2 : EncodeM E LogicMiter _)
      fun ds m' => ∃ val', Grown m val m' val' ∧
        List.Forall₂ (fun d f => Means m' val' d fun g => f.1 g ^^ f.2 g) ds fs := by
  induction pairs generalizing m val fs with
  | nil =>
    cases h
    exact Yields.pure ⟨val, .refl hm, .nil⟩
  | cons p pairs ih =>
    cases h with
    | cons hp hrest =>
      rw [List.mapM_cons]
      refine Yields.bind (LogicMiter.xor_yields hm hp.1 hp.2) fun d t ⟨val₁, hg₁, hd⟩ => ?_
      refine Yields.bind (ih hg₁.encodes (hrest.imp fun _ _ h => ⟨h.1.grown hg₁, h.2.grown hg₁⟩)) ?_
      intro ds u ⟨val₂, hg₂, hds⟩
      exact Yields.pure ⟨val₂, hg₁.trans hg₂, .cons (hd.grown hg₂) hds⟩

/-- Every pair of outputs agrees whenever inputs of equal origin do. -/
def OutputsAgree (reference : LogicNetwork) (referenceOutputs : List Lit)
    (implementation : LogicNetwork) (implementationOutputs : List Lit) : Prop :=
  ∀ g, ∀ pair ∈ referenceOutputs.zip implementationOutputs,
    networkValue reference g pair.1 = networkValue implementation g pair.2

/-- The values the inputs have under an assignment of the variables. -/
def LogicMiter.boundaryOf (m : LogicMiter) (a : Assignment) (o : Nat) : Bool :=
  ((m.inputs.lookup o).map (·.eval a)).getD false

theorem LogicMiter.boundaryOf_reads (m : LogicMiter) (a : Assignment) {o : Nat} {l : Literal}
    (hl : m.inputs.lookup o = some l) : l.eval a = m.boundaryOf a o := by
  rw [boundaryOf, hl, Option.map_some, Option.getD_some]

section Miter

variable {reference implementation : LogicNetwork} {referenceOutputs implementationOutputs : List Lit}

theorem encodeDifferences_yields (hr : Ordered reference) (hi : Ordered implementation)
    (hro : ∀ l ∈ referenceOutputs, l.node < reference.nodeCount)
    (hio : ∀ l ∈ implementationOutputs, l.node < implementation.nodeCount) :
    Yields LogicMiter.new
      (encodeDifferences reference referenceOutputs implementation implementationOutputs :
        EncodeM E LogicMiter Unit)
      fun _ m => ∃ m₀ val ds, Encodes m₀ val ∧ m.formula = m₀.formula ++ [ds] ∧
        List.Forall₂ (fun d (f : Lit × Lit) => Means m₀ val d fun g =>
          networkValue reference g f.1 ^^ networkValue implementation g f.2) ds
          (referenceOutputs.zip implementationOutputs) := by
  refine Yields.bind (encodeNetwork_yields hr encodes_new referenceOutputs hro) ?_
  intro rs t ⟨val₁, hg₁, hrs⟩
  refine Yields.bind (encodeNetwork_yields hi hg₁.encodes implementationOutputs hio) ?_
  intro is u ⟨val₂, hg₂, his⟩
  have hrs' := hrs.imp fun _ _ h => Means.grown h hg₂
  have pairs : List.Forall₂
      (fun (p : Literal × Literal) (f : ((Nat → Bool) → Bool) × ((Nat → Bool) → Bool)) =>
        Means u val₂ p.1 f.1 ∧ Means u val₂ p.2 f.2) (rs.zip is)
      ((referenceOutputs.zip implementationOutputs).map fun l =>
        (fun g => networkValue reference g l.1, fun g => networkValue implementation g l.2)) := by
    clear hrs hg₁ hg₂ hro hio
    induction hrs' generalizing is implementationOutputs with
    | nil => exact .nil
    | cons hv _ ih =>
      cases his with
      | nil => exact .nil
      | cons hw hws => exact .cons ⟨hv, hw⟩ (ih _ hws)
  refine Yields.bind (differences_yields hg₂.encodes pairs) fun ds w ⟨val₃, hg₃, hds⟩ => ?_
  refine ⟨⟨⟩, _, rfl, w, val₃, ds, hg₃.encodes, rfl, ?_⟩
  simpa only [List.forall₂_map_right_iff] using hds

theorem proveLogicNetworkEquivalence_ok (hs : solve.Correct) (hr : Ordered reference)
    (hi : Ordered implementation) (hro : ∀ l ∈ referenceOutputs, l.node < reference.nodeCount)
    (hio : ∀ l ∈ implementationOutputs, l.node < implementation.nodeCount)
    (hlen : referenceOutputs.length = implementationOutputs.length) (hne : referenceOutputs ≠ []) :
    ∃ outcome, proveLogicNetworkEquivalence solve reference referenceOutputs implementation
        implementationOutputs = .ok outcome ∧
      ((∃ report, outcome = .proved report) ↔
        OutputsAgree reference referenceOutputs implementation implementationOutputs) := by
  obtain ⟨⟨⟩, m, hrun, m₀, val, ds, hm₀, hformula, hds⟩ :=
    encodeDifferences_yields (E := E) hr hi hro hio
  obtain ⟨answer, hanswer⟩ := hs.answers m.formula []
  have hempty : referenceOutputs.isEmpty = false := by simpa using hne
  rw [proveLogicNetworkEquivalence, if_neg (not_not.mpr hlen), hempty, if_neg (by simp), hrun]
  simp only [hanswer]
  cases answer with
  | none =>
    refine ⟨_, rfl, fun _ g pair hpair => ?_, fun _ => ⟨_, rfl⟩⟩
    by_contra hdiffer
    -- a pair that differs satisfies the clause of differences
    have hclause : Holds (val g) [ds] := by
      obtain ⟨d, hd, hmeans⟩ := exists_of_mem_right hds hpair
      intro c hc
      obtain rfl := List.mem_singleton.mp hc
      refine ⟨d, hd, ?_⟩
      rw [hmeans.2 g]
      simpa using hdiffer
    obtain ⟨l, hl, -⟩ := hs.unsat m.formula [] hanswer (val g) (by
      rw [hformula, holds_append]
      exact ⟨hm₀.holds g, hclause⟩)
    cases hl
  | some model =>
    refine ⟨_, rfl, fun ⟨_, h⟩ => (by cases h), fun hagree => ?_⟩
    have hmodel := hs.sat m.formula [] model hanswer
    have hholds := hmodel.holds fun l hl => complete_of_mem hmodel (fun _ => false) hl
    rw [holds_append, hformula, holds_append] at hholds
    obtain ⟨⟨hold, hclause⟩, -⟩ := hholds
    have hvalues := (hm₀.models _ _ fun o l hl => m₀.boundaryOf_reads _ hl).mp hold
    obtain ⟨d, hd, htrue⟩ := hclause ds (by simp)
    obtain ⟨pair, hpair, hmeans⟩ := exists_of_mem_left hds hd
    rw [Literal.eval_congr (hvalues _ hmeans.1), hmeans.2] at htrue
    dsimp only at htrue
    rw [hagree _ pair hpair, Bool.xor_self] at htrue
    cases htrue

end Miter

end Opto.Formal
