import Opto.Library.Lists
import Opto.Planning.Meaning

/-!
# Additive regions

An absorbed operation has one use, by an operation of its region. What the terms of a
region denote, with the surplus of its products, is what the root computes.
-/

namespace Opto.Planning

open Word
open TwosComplement

variable {m : WordModule} {observed uses : List Nat} {v : Nat}

/-! Use counts. -/

theorem incrementUseCount_settles (uses : List Nat) (v : Nat) :
    Settles (incrementUseCount uses v) (fun uses' => ∀ w : Nat,
      uses'[w]? = uses[w]?.map (· + [v].count w)) fun _ => True := by
  unfold incrementUseCount
  apply Settles.bind (orInvariant_settles _ _)
  intro count hcount
  split_ifs
  · intro w
    have hlt : v < uses.length := (List.getElem?_eq_some_iff.mp hcount).1
    by_cases hvw : v = w
    · subst hvw
      rw [List.getElem?_set_self hlt, hcount]
      simp
    · rw [List.getElem?_set_ne hvw]
      simp [hvw]
  · trivial

theorem countUses_settles (uses values : List Nat) :
    Settles (values.foldlM incrementUseCount uses) (fun uses' => ∀ w : Nat,
      uses'[w]? = uses[w]?.map (· + values.count w)) fun _ => True := by
  apply Settles.foldlM (fun done uses' => ∀ w : Nat, uses'[w]? = uses[w]?.map (· + done.count w))
  · intro w
    simp
  · intro done v _ s hs
    apply (incrementUseCount_settles s v).mono
    intro s' hs' w
    rw [hs' w, hs w, Option.map_map, List.count_append]
    congr 1
    funext n
    simp [Nat.add_assoc]

/-- `uses` counts the direct uses and the observations of every value. -/
def Counts (m : WordModule) (observed uses : List Nat) : Prop :=
  ∀ v : Nat, uses[v]? = m.values[v]?.map fun _ => (directValueUses m ++ observed).count v

theorem counts_settles (m : WordModule) (observed : List Nat) :
    Settles (do let uses ← valueUseCounts m; observed.foldlM incrementUseCount uses)
      (Counts m observed) fun _ => True := by
  apply Settles.bind (countUses_settles _ _)
  intro uses huses
  apply (countUses_settles _ _).mono
  intro uses' huses' v
  rw [huses' v, huses v, List.getElem?_replicate]
  split_ifs with hv
  · rw [List.getElem?_eq_getElem hv]
    simp
  · rw [List.getElem?_eq_none (by omega)]
    rfl

theorem Counts.usedOnce (h : Counts m observed uses) {v : Nat} (hv : uses[v]? = some 1) :
    UsedOnce m observed v := by
  rw [h v, Option.map_eq_some_iff] at hv
  obtain ⟨_, -, hcount⟩ := hv
  exact hcount

theorem Counts.usedOnce_iff (h : Counts m observed uses) {v o : Nat} (hv : m.producer v = some o) :
    uses[v]? = some 1 ↔ UsedOnce m observed v := by
  obtain ⟨ty, hvalue⟩ := WordModule.producer_eq_some.mp hv
  rw [h v, hvalue, Option.map_some, Option.some_inj, UsedOnce]

/-- A value used once is used once among the operands of an operation. -/
theorem UsedOnce.operand (h : UsedOnce m observed v) {o : Nat} {stored : Operation}
    (ho : m.operations[o]? = some stored) : stored.kind.inputs.count v ≤ 1 := by
  have hsub : List.Sublist stored.kind.inputs (directValueUses m ++ observed) := by
    apply List.Sublist.trans _ (List.sublist_append_left _ _)
    apply List.Sublist.trans _ (List.sublist_append_left _ _)
    rw [List.flatMap_def]
    exact List.sublist_flatten_of_mem (List.mem_map_of_mem (List.mem_of_getElem? ho))
  rw [← h]
  exact hsub.count_le v

/-- Only one operation uses a value that is used once. -/
theorem UsedOnce.unique (h : UsedOnce m observed v) {p q : Nat} {parent other : Operation}
    (hp : m.operations[p]? = some parent) (hq : m.operations[q]? = some other)
    (hparent : v ∈ parent.kind.inputs) (hother : v ∈ other.kind.inputs) : p = q := by
  have hle {p q : Nat} {parent other : Operation} (hp : m.operations[p]? = some parent)
      (hq : m.operations[q]? = some other) (hparent : v ∈ parent.kind.inputs)
      (hother : v ∈ other.kind.inputs) : ¬ p < q := by
    intro hlt
    have hsplit := List.take_append_drop q m.operations
    have hbefore : v ∈ (m.operations.take q).flatMap (·.kind.inputs) := by
      refine List.mem_flatMap.mpr ⟨parent, List.mem_of_getElem? (i := p) ?_, hparent⟩
      rw [List.getElem?_take_of_lt hlt, hp]
    have hafter : v ∈ (m.operations.drop q).flatMap (·.kind.inputs) := by
      refine List.mem_flatMap.mpr ⟨other, List.mem_of_getElem? (i := 0) ?_, hother⟩
      rw [List.getElem?_drop, Nat.add_zero, hq]
    have hcount := h
    rw [UsedOnce, directValueUses, ← hsplit, List.flatMap_append, List.count_append,
      List.count_append, List.count_append] at hcount
    have := List.one_le_count_iff.mpr hbefore
    have := List.one_le_count_iff.mpr hafter
    omega
  have := hle hp hq hparent hother
  have := hle hq hp hother hparent
  omega

/-! Absorption. -/

theorem consumers_spec {v p : Nat} (h : (consumers m uses)[v]?.join = some p) :
    uses[v]? = some 1 ∧ ∃ stored, m.operations[p]? = some stored ∧ v ∈ stored.kind.inputs := by
  have hall : ∀ v p : Nat, (consumers m uses)[v]?.join = some p →
      uses[v]? = some 1 ∧ ∃ stored, m.operations[p]? = some stored ∧ v ∈ stored.kind.inputs := by
    unfold consumers
    apply List.foldlRecOn (motive := fun consumer : List (Option Nat) => ∀ v p : Nat,
      consumer[v]?.join = some p → uses[v]? = some 1 ∧
        ∃ stored, m.operations[p]? = some stored ∧ v ∈ stored.kind.inputs)
    · intro v p hvp
      rw [List.getElem?_replicate] at hvp
      split_ifs at hvp <;> cases hvp
    · rintro consumer hconsumer ⟨stored, o⟩ hentry
      have ho : m.operations[o]? = some stored := by
        have := List.mem_zipIdx_iff_getElem?.mp hentry
        simpa using this
      apply List.foldlRecOn (motive := fun consumer : List (Option Nat) => ∀ v p : Nat,
        consumer[v]?.join = some p → uses[v]? = some 1 ∧
          ∃ stored, m.operations[p]? = some stored ∧ v ∈ stored.kind.inputs)
      · exact hconsumer
      · intro consumer hconsumer input hinput v p hvp
        split_ifs at hvp with huse
        · by_cases hiv : input = v
          · subst hiv
            by_cases hlt : input < consumer.length
            · rw [List.getElem?_set_self hlt] at hvp
              cases hvp
              exact ⟨huse, stored, ho, hinput⟩
            · rw [List.getElem?_eq_none (by rw [List.length_set]; omega)] at hvp
              cases hvp
          · rw [List.getElem?_set_ne hiv] at hvp
            exact hconsumer v p hvp
        · exact hconsumer v p hvp
  exact hall v p h

/-- A consumer is kept or replaced, and that of a value used once is found at its use. -/
theorem consume_isSome {v : Nat} (hv : uses[v]? = some 1) (o : Nat) (inputs : List Nat)
    (consumer : List (Option Nat)) (hlength : v < consumer.length) :
    let next := inputs.foldl (fun consumer input =>
      if uses[input]? = some 1 then consumer.set input (some o) else consumer) consumer
    next.length = consumer.length ∧
      (v ∈ inputs ∨ consumer[v]?.join.isSome = true → next[v]?.join.isSome = true) := by
  induction inputs generalizing consumer with
  | nil => simp
  | cons input inputs ih =>
    have hstep : ∀ consumer' : List (Option Nat), consumer'.length = consumer.length →
        (v = input ∨ consumer[v]?.join.isSome = true → consumer'[v]?.join.isSome = true) →
        let next := inputs.foldl (fun consumer input =>
          if uses[input]? = some 1 then consumer.set input (some o) else consumer) consumer'
        next.length = consumer.length ∧
          (v ∈ input :: inputs ∨ consumer[v]?.join.isSome = true → next[v]?.join.isSome = true) := by
      intro consumer' hlength' hsome
      obtain ⟨hnext, hall⟩ := ih consumer' (by omega)
      refine ⟨by omega, fun h => hall ?_⟩
      rw [List.mem_cons] at h
      tauto
    rw [List.foldl_cons]
    split_ifs with huse
    · apply hstep _ List.length_set
      intro h
      by_cases hiv : input = v
      · subst hiv
        rw [List.getElem?_set_self hlength]
        rfl
      · rw [List.getElem?_set_ne hiv]
        exact h.resolve_left fun he => hiv he.symm
    · apply hstep _ rfl
      rintro (rfl | h)
      · exact absurd hv huse
      · exact h

theorem consumers_isSome {v p : Nat} {parent : Operation} (hv : uses[v]? = some 1)
    (hlength : v < m.values.length) (hp : m.operations[p]? = some parent)
    (hmem : v ∈ parent.kind.inputs) : (consumers m uses)[v]?.join.isSome = true := by
  have hall (entries : List (Operation × Nat)) (consumer : List (Option Nat))
      (hconsumer : v < consumer.length)
      (h : (∃ entry ∈ entries, v ∈ entry.1.kind.inputs) ∨ consumer[v]?.join.isSome = true) :
      (entries.foldl (fun consumer entry => entry.1.kind.inputs.foldl (fun consumer input =>
        if uses[input]? = some 1 then consumer.set input (some entry.2) else consumer) consumer)
        consumer)[v]?.join.isSome = true := by
    induction entries generalizing consumer with
    | nil => exact h.resolve_left (by simp)
    | cons entry entries ih =>
      obtain ⟨hnext, hsome⟩ := consume_isSome hv entry.2 entry.1.kind.inputs consumer hconsumer
      rw [List.foldl_cons]
      apply ih _ (by omega)
      rcases h with ⟨other, hother, huse⟩ | h
      · rcases List.mem_cons.mp hother with rfl | hother
        · exact .inr (hsome (.inl huse))
        · exact .inl ⟨other, hother, huse⟩
      · exact .inr (hsome (.inr h))
  apply hall
  · rwa [List.length_replicate]
  · refine .inl ⟨(parent, p), ?_, hmem⟩
    rw [List.mem_zipIdx_iff_getElem?]
    simpa using hp

/-- What an entry of the absorption table says. -/
def Absorbed (m : WordModule) (uses : List Nat) (c p : Nat) : Prop :=
  ∃ child parent ty parentTy, m.operations[c]? = some child ∧ m.operations[p]? = some parent ∧
    isAdditive child.kind = true ∧ isAdditive parent.kind = true ∧
    uses[child.result]? = some 1 ∧ child.result ∈ parent.kind.inputs ∧
    m.valueTy child.result = some ty ∧ m.valueTy parent.result = some parentTy ∧
    ty.width = parentTy.width

theorem absorbParent_settles (hcounts : Counts m observed uses) (child : Operation) :
    Settles (absorbParent m (consumers m uses) child) (fun r => ∀ c : Nat,
      m.operations[c]? = some child → ∀ p, r = some p ↔ Absorbed m uses c p) fun _ => True := by
  -- the parent is the consumer, the only operation that uses the result
  have hparent {c p : Nat} (hc : m.operations[c]? = some child) (h : Absorbed m uses c p) :
      (consumers m uses)[child.result]?.join = some p := by
    obtain ⟨child', parent, ty, -, hc', hp, -, -, huse, hmem, hty, -⟩ := h
    rw [hc, Option.some_inj] at hc'
    subst hc'
    have hlength : child.result < m.values.length := by
      by_contra hge
      rw [WordModule.valueTy, List.getElem?_eq_none (by omega)] at hty
      cases hty
    obtain ⟨q, hq⟩ := Option.isSome_iff_exists.mp (consumers_isSome huse hlength hp hmem)
    obtain ⟨-, other, hother, hmem'⟩ := consumers_spec hq
    rw [hq, (hcounts.usedOnce huse).unique hp hother hmem hmem']
  have hnone (h : ∀ c p : Nat, m.operations[c]? = some child → ¬ Absorbed m uses c p) : ∀ c : Nat,
      m.operations[c]? = some child → ∀ p, (none : Option Nat) = some p ↔ Absorbed m uses c p :=
    fun c hc p => ⟨fun he => (by cases he), fun habsorbed => absurd habsorbed (h c p hc)⟩
  unfold absorbParent
  split
  · rename_i hadditive
    split
    · rename_i hconsumer
      exact hnone fun c p hc h => by
        rw [hparent hc h] at hconsumer
        cases hconsumer
    · rename_i p hconsumer
      obtain ⟨huse, parent, hp, hmem⟩ := consumers_spec hconsumer
      rw [hp]
      simp only
      split_ifs with hparentAdditive
      · apply Settles.bind (orInvariant_settles _ _)
        intro ty hty
        apply Settles.bind (orInvariant_settles _ _)
        intro parentTy hparentTy c hc q
        constructor
        · intro hq
          split_ifs at hq with hwidth
          cases hq
          exact ⟨child, parent, ty, parentTy, hc, hp, hadditive, hparentAdditive, huse, hmem,
            hty, hparentTy, hwidth⟩
        · intro h
          have hpq := hparent hc h
          rw [hconsumer, Option.some_inj] at hpq
          subst hpq
          obtain ⟨child', parent', ty', parentTy', hc', hp', -, -, -, -, hty', hparentTy', hwidth⟩ := h
          rw [hc, Option.some_inj] at hc'
          rw [hp, Option.some_inj] at hp'
          subst hc' hp'
          rw [hty, Option.some_inj] at hty'
          rw [hparentTy, Option.some_inj] at hparentTy'
          subst hty' hparentTy'
          rw [if_pos hwidth]
      · apply hnone
        intro c q hc h
        have hpq := hparent hc h
        rw [hconsumer, Option.some_inj] at hpq
        subst hpq
        obtain ⟨-, parent', -, -, -, hp', -, hadditive', -⟩ := h
        rw [hp, Option.some_inj] at hp'
        subst hp'
        exact hparentAdditive hadditive'
  · rename_i hadditive
    apply hnone
    rintro c p hc ⟨child', -, -, -, hc', -, hadditive', -⟩
    rw [hc, Option.some_inj] at hc'
    subst hc'
    exact hadditive hadditive'

/-- The entries of the table are the absorbed operations. -/
def Absorbs (m : WordModule) (uses : List Nat) (absorb : List (Option Nat)) : Prop :=
  ∀ c p : Nat, absorb[c]?.join = some p ↔ Absorbed m uses c p

theorem absorbInto_settles (hcounts : Counts m observed uses) :
    Settles (absorbInto m uses) (Absorbs m uses) fun _ => True := by
  apply (Settles.mapM fun child _ => absorbParent_settles hcounts child).mono
  intro absorb habsorb c p
  cases hentry : absorb[c]? with
  | none =>
    have hlength := habsorb.length_eq
    refine ⟨fun h => (nomatch h), ?_⟩
    rintro ⟨child, -, -, -, hc, -⟩
    have := (List.getElem?_eq_some_iff.mp hc).1
    rw [List.getElem?_eq_none_iff] at hentry
    omega
  | some entry =>
    obtain ⟨child, hchild, hspec⟩ := exists_of_getElem?_right habsorb hentry
    exact hspec c hchild p

/-! Reading operations. -/

theorem isAdditive_cases {kind : OpKind} (h : isAdditive kind = true) :
    ∃ left right, kind = .binary .add left right ∨ kind = .binary .sub left right := by
  unfold isAdditive at h
  split at h
  · exact ⟨_, _, .inl rfl⟩
  · exact ⟨_, _, .inr rfl⟩
  · cases h

section Readings

variable {value : Nat → Nat} {o left right result : Nat} {op : BinaryOp} {ty : WordType}

theorem operandReading_modEq (value : Nat → Nat) (product : WordType) {v : Nat} (hty : m.valueTy v = some ty) :
    operandReading m value product v ≡ value v [ZMOD 2 ^ ty.width] := by
  rw [operandReading, hty]
  exact read_modEq _ _ _

/-- The result of an arithmetic operation, up to its width. -/
theorem arithmetic_reading (hvalid : m.validate = true) (hval : Valuation m value)
    (ho : m.operations[o]? = some ⟨.binary op left right, result⟩) (hty : m.valueTy result = some ty)
    {x : Int} (hx : op.arithmetic (operandReading m value ty left)
      (operandReading m value ty right) = some x) : value result = encode ty.width x := by
  obtain ⟨ty', -, -, htype, -⟩ := WordModule.valid_result hvalid ho
  simp only [WordModule.operationType, Option.bind_eq_bind] at htype
  obtain ⟨leftTy, hleft, htype⟩ := Option.bind_eq_some_iff.mp htype
  obtain ⟨rightTy, hright, -⟩ := Option.bind_eq_some_iff.mp htype
  rw [operandReading, operandReading, hleft, hright] at hx
  exact hval.arithmetic o op left right result ty leftTy rightTy x ho hty hleft hright hx

end Readings

/-! The loop over a region. -/

section Loop

variable {absorb : List (Option Nat)} {value : Nat → Nat}

theorem absorbedChild_eq_some {e : Operand} {c : Nat} : absorbedChild m absorb e = some c ↔
    m.producer e.value = some c ∧ absorb[c]?.join = some e.parent := by
  unfold absorbedChild
  simp only [Option.bind_eq_bind, Option.bind_eq_some_iff]
  constructor
  · rintro ⟨d, hd, hc⟩
    split_ifs at hc with hparent
    cases hc
    exact ⟨hd, hparent⟩
  · rintro ⟨hd, hparent⟩
    exact ⟨c, hd, if_pos hparent⟩

theorem addend_eq_some {operand parent c : Nat} : addend m observed operand parent = some c ↔
    ∃ stored parentStored ty parentTy, m.producer operand = some c ∧ m.operations[c]? = some stored ∧
      m.operations[parent]? = some parentStored ∧ m.valueTy operand = some ty ∧
      m.valueTy parentStored.result = some parentTy ∧ isAdditive stored.kind = true ∧
      isAdditive parentStored.kind = true ∧ ty.width = parentTy.width ∧ UsedOnce m observed operand := by
  unfold addend
  simp only [Option.bind_eq_bind, Option.bind_eq_some_iff]
  constructor
  · rintro ⟨d, hd, stored, hstored, parentStored, hparent, ty, hty, parentTy, hparentTy, h⟩
    split_ifs at h with hcond
    cases h
    exact ⟨stored, parentStored, ty, parentTy, hd, hstored, hparent, hty, hparentTy, hcond⟩
  · rintro ⟨stored, parentStored, ty, parentTy, hd, hstored, hparent, hty, hparentTy, hcond⟩
    exact ⟨c, hd, stored, hstored, parentStored, hparent, ty, hty, parentTy, hparentTy, if_pos hcond⟩

/-- The table of absorbed operations has the addends. -/
theorem absorbedChild_eq (hvalid : m.validate = true) (hcounts : Counts m observed uses)
    (habsorb : Absorbs m uses absorb) {e : Operand} {parent : Operation}
    (hparent : m.operations[e.parent]? = some parent) (hmem : e.value ∈ parent.kind.inputs) :
    absorbedChild m absorb e = addend m observed e.value e.parent := by
  apply Option.ext
  intro c
  rw [absorbedChild_eq_some, addend_eq_some]
  constructor
  · rintro ⟨hproducer, hentry⟩
    obtain ⟨stored, hstored, hresult⟩ := WordModule.valid_producer hvalid hproducer
    obtain ⟨child, parent', ty, parentTy, hchild, hparent', hadditive, hparentAdditive, huse, -,
      hty, hparentTy, hwidth⟩ := (habsorb c e.parent).mp hentry
    rw [hchild, Option.some_inj] at hstored
    subst hstored
    rw [hresult] at huse hty
    exact ⟨child, parent', ty, parentTy, hproducer, hchild, hparent', hty, hparentTy, hadditive,
      hparentAdditive, hwidth, hcounts.usedOnce huse⟩
  · rintro ⟨stored, parent', ty, parentTy, hproducer, hstored, hparent', hty, hparentTy, hadditive,
      hparentAdditive, hwidth, honce⟩
    obtain ⟨stored', hstored', hresult⟩ := WordModule.valid_producer hvalid hproducer
    rw [hstored, Option.some_inj] at hstored'
    rw [hparent, Option.some_inj] at hparent'
    subst hstored' hparent'
    refine ⟨hproducer, (habsorb c e.parent).mpr ⟨stored, parent, ty, parentTy, hstored, hparent,
      hadditive, hparentAdditive, ?_, ?_, ?_, hparentTy, hwidth⟩⟩
    · rw [hresult]
      exact (hcounts.usedOnce_iff hproducer).mpr honce
    · rw [hresult]
      exact hmem
    · rw [hresult]
      exact hty

/-- An addend is the sum or the difference of two operands before it. -/
theorem addend_operation (hvalid : m.validate = true) {operand parent c : Nat}
    (hc : addend m observed operand parent = some c) : ∃ op left right,
      m.operations[c]? = some ⟨.binary op left right, operand⟩ ∧ (op = .add ∨ op = .sub) ∧
        left < operand ∧ right < operand := by
  obtain ⟨stored, -, -, -, hproducer, hstored, -, -, -, hadditive, -⟩ := addend_eq_some.mp hc
  obtain ⟨stored', hstored', hresult⟩ := WordModule.valid_producer hvalid hproducer
  rw [hstored, Option.some_inj] at hstored'
  subst hstored'
  obtain ⟨kind, result⟩ := stored
  simp only at hresult hadditive
  subst hresult
  obtain ⟨ty, -, -, -, hbefore⟩ := WordModule.valid_result hvalid hstored
  obtain ⟨left, right, hkind⟩ := isAdditive_cases hadditive
  have hinputs : ∀ i ∈ [left, right], i < result := by
    rcases hkind with rfl | rfl
    · exact hbefore
    · exact hbefore
  have hleft := hinputs left (by simp)
  have hright := hinputs right (by simp)
  rcases hkind with rfl | rfl
  · exact ⟨.add, left, right, hstored, .inl rfl, hleft, hright⟩
  · exact ⟨.sub, left, right, hstored, .inr rfl, hleft, hright⟩

/-- The surplus of an operand of a region; its number is fuel enough. -/
def surplusAt (m : WordModule) (value : Nat → Nat) (observed : List Nat) (operand parent : Nat) : Int :=
  regionSurplus m value observed (operand + 1) operand parent

theorem regionSurplus_fuel (hvalid : m.validate = true) {fuel operand : Nat} (hfuel : operand < fuel)
    (parent : Nat) : regionSurplus m value observed fuel operand parent =
      surplusAt m value observed operand parent := by
  induction operand using Nat.strong_induction_on generalizing fuel parent with
  | _ operand ih =>
    cases fuel with
    | zero => omega
    | succ fuel =>
      rw [surplusAt, regionSurplus, regionSurplus]
      cases hc : addend m observed operand parent with
      | none => rfl
      | some c =>
        obtain ⟨op, left, right, hop, hkind, hleft, hright⟩ := addend_operation hvalid hc
        have hfuelLeft := ih left hleft (show left < fuel by omega)
        have hfuelRight := ih right hright (show right < fuel by omega)
        rcases hkind with rfl | rfl
        · simp only [hop, hfuelLeft, hfuelRight, ih left hleft hleft, ih right hright hright]
        · simp only [hop, hfuelLeft, hfuelRight, ih left hleft hleft, ih right hright hright]

theorem surplusAt_add (hvalid : m.validate = true) {operand parent c left right : Nat}
    (hc : addend m observed operand parent = some c) (hleft : left < operand)
    (hright : right < operand) (hop : m.operations[c]? = some ⟨.binary .add left right, operand⟩) :
    surplusAt m value observed operand parent =
      surplusAt m value observed left c + surplusAt m value observed right c := by
  rw [surplusAt, regionSurplus]
  simp only [hc, hop, regionSurplus_fuel hvalid hleft, regionSurplus_fuel hvalid hright]

theorem surplusAt_sub (hvalid : m.validate = true) {operand parent c left right : Nat}
    (hc : addend m observed operand parent = some c) (hleft : left < operand)
    (hright : right < operand) (hop : m.operations[c]? = some ⟨.binary .sub left right, operand⟩) :
    surplusAt m value observed operand parent =
      surplusAt m value observed left c - surplusAt m value observed right c := by
  rw [surplusAt, regionSurplus]
  simp only [hc, hop, regionSurplus_fuel hvalid hleft, regionSurplus_fuel hvalid hright]

theorem productChild_eq (hcounts : Counts m observed uses) {operand parent : Nat} {stored : Operation}
    {ty parentTy : WordType} (hparent : m.operations[parent]? = some stored)
    (hparentTy : m.valueTy stored.result = some parentTy) (hty : m.valueTy operand = some ty) :
    (productChild m uses ty parentTy operand).map (fun product => (ty, product.2)) =
      addedProduct m observed operand parent := by
  unfold productChild addedProduct
  cases hproducer : m.producer operand with
  | none => simp
  | some c =>
    simp only [Option.bind_eq_bind, Option.bind_some, hparent, hty, hparentTy]
    cases m.operations[c]? with
    | none => simp
    | some child =>
      simp only [Option.bind_some]
      split
      · rename_i hkind
        simp only [hcounts.usedOnce_iff hproducer, hkind]
        split_ifs <;> rfl
      · simp

theorem surplusAt_boundary {operand parent : Nat} (hc : addend m observed operand parent = none) :
    surplusAt m value observed operand parent =
      match addedProduct m observed operand parent with
      | some (ty, left, right) => productSurplus m value ty left right
      | none => 0 := by
  rw [surplusAt, regionSurplus]
  cases addedProduct m observed operand parent with
  | none => simp only [hc]
  | some product => simp only [hc]

/-! The pending operands and the operations of the region. -/

/-- The only use of an operation's result is by an operation of the region. -/
def UsedWithin (m : WordModule) (uses operations : List Nat) (o : Nat) : Prop :=
  ∃ stored p parent, m.operations[o]? = some stored ∧ uses[stored.result]? = some 1 ∧
    p ∈ operations ∧ m.operations[p]? = some parent ∧ stored.result ∈ parent.kind.inputs

theorem UsedWithin.mono {operations operations' : List Nat} {o : Nat}
    (h : UsedWithin m uses operations o) (hsub : ∀ p ∈ operations, p ∈ operations') :
    UsedWithin m uses operations' o := by
  obtain ⟨stored, p, parent, hstored, huse, hp, hparent, hmem⟩ := h
  exact ⟨stored, p, parent, hstored, huse, hsub p hp, hparent, hmem⟩

structure Flattening (m : WordModule) (absorb : List (Option Nat)) (uses : List Nat) (root : Nat)
    (operations : List Nat) (pending : List Operand) : Prop where
  parent : ∀ e ∈ pending, e.parent ∈ operations ∧
    ∃ stored, m.operations[e.parent]? = some stored ∧ e.value ∈ stored.kind.inputs
  fresh : ∀ e ∈ pending, ∀ c, absorbedChild m absorb e = some c → c ∉ operations
  distinct : (pending.filterMap (absorbedChild m absorb)).Nodup
  parents : ∀ c ∈ operations, ∀ p, absorb[c]?.join = some p → p ∈ operations
  once : ∀ o ∈ operations, o = root ∨ UsedWithin m uses operations o

namespace Flattening

variable {root : Nat} {operations : List Nat} {pending : List Operand} {e : Operand}

/-- A boundary operand is dropped; the operation of its product, if any, joins the region. -/
theorem boundary (h : Flattening m absorb uses root operations (e :: pending)) {joined : List Nat}
    (hjoined : ∀ o ∈ joined, absorb[o]?.join = none ∧ ∃ stored, m.operations[o]? = some stored ∧
      stored.result = e.value ∧ uses[e.value]? = some 1) :
    Flattening m absorb uses root (operations ++ joined) pending := by
  obtain ⟨hparent, stored, hstored, hmem⟩ := h.parent e List.mem_cons_self
  have hsub (p : Nat) (hp : p ∈ operations) : p ∈ operations ++ joined := List.mem_append_left _ hp
  constructor
  · intro f hf
    obtain ⟨hp, hop⟩ := h.parent f (List.mem_cons_of_mem _ hf)
    exact ⟨hsub _ hp, hop⟩
  · intro f hf c hc hmem
    rcases List.mem_append.mp hmem with hmem | hmem
    · exact h.fresh f (List.mem_cons_of_mem _ hf) c hc hmem
    · have hnone := (hjoined c hmem).1
      rw [(absorbedChild_eq_some.mp hc).2] at hnone
      cases hnone
  · exact ((List.sublist_cons_self e pending).filterMap _).nodup h.distinct
  · intro c hc p hp
    rcases List.mem_append.mp hc with hc | hc
    · exact hsub p (h.parents c hc p hp)
    · rw [(hjoined c hc).1] at hp
      cases hp
  · intro o ho
    rcases List.mem_append.mp ho with ho | ho
    · exact (h.once o ho).imp_right fun honce => honce.mono hsub
    · obtain ⟨-, stored', hstored', hresult, huse⟩ := hjoined o ho
      exact .inr ⟨stored', e.parent, stored, hstored', by rw [hresult]; exact huse,
        hsub _ hparent, hstored, by rw [hresult]; exact hmem⟩

/-- The two operands of one operation are not one absorbed value. -/
theorem operands_distinct (hvalid : m.validate = true) (habsorb : Absorbs m uses absorb)
    (hcounts : Counts m observed uses) {c left right result : Nat} {op : BinaryOp} {a b : Bool}
    (hop : m.operations[c]? = some ⟨.binary op left right, result⟩) :
    ([⟨left, a, c⟩, ⟨right, b, c⟩].filterMap (absorbedChild m absorb)).Nodup := by
  have hone (xs : List Nat) (hxs : xs.length ≤ 1) : xs.Nodup := by
    match xs with
    | [] => exact List.nodup_nil
    | [x] => exact List.nodup_singleton x
  cases hleft : absorbedChild m absorb ⟨left, a, c⟩ with
  | none =>
    rw [List.filterMap_cons_none hleft]
    exact hone _ (List.length_filterMap_le _ _)
  | some d =>
    rw [List.filterMap_cons_some hleft]
    cases hright : absorbedChild m absorb ⟨right, b, c⟩ with
    | none =>
      rw [List.filterMap_cons_none hright]
      exact List.nodup_singleton d
    | some d' =>
      rw [List.filterMap_cons_some hright, List.filterMap_nil]
      simp only [List.nodup_cons, List.mem_singleton, List.not_mem_nil, not_false_eq_true,
        List.nodup_nil, and_true]
      rintro rfl
      obtain ⟨hproducer, hparent⟩ := absorbedChild_eq_some.mp hleft
      obtain ⟨hproducer', -⟩ := absorbedChild_eq_some.mp hright
      obtain ⟨stored, hstored, hresult⟩ := WordModule.valid_producer hvalid hproducer
      obtain ⟨stored', hstored', hresult'⟩ := WordModule.valid_producer hvalid hproducer'
      obtain ⟨child, -, -, -, hchild, -, -, -, huse, -⟩ := (habsorb d c).mp hparent
      rw [hstored, Option.some_inj] at hchild hstored'
      subst hchild hstored'
      rw [hresult] at huse
      have hcount := (hcounts.usedOnce huse).operand hop
      rw [hresult'] at hresult
      simp only at hresult
      rw [hresult] at hcount
      simp [OpKind.inputs] at hcount

theorem operand_spec {left right c : Nat} {a b : Bool} {op : BinaryOp} {f : Operand}
    (hf : f ∈ [⟨left, a, c⟩, ⟨right, b, c⟩]) :
    f.parent = c ∧ f.value ∈ (OpKind.binary op left right).inputs := by
  simp only [List.mem_cons, List.not_mem_nil, or_false] at hf
  rcases hf with rfl | rfl
  · exact ⟨rfl, by simp [OpKind.inputs]⟩
  · exact ⟨rfl, by simp [OpKind.inputs]⟩

/-- An absorbed operand is replaced by the operands of its operation. -/
theorem expand (hvalid : m.validate = true) (habsorb : Absorbs m uses absorb)
    (hcounts : Counts m observed uses)
    (h : Flattening m absorb uses root operations (e :: pending)) {c left right : Nat}
    (hc : absorbedChild m absorb e = some c) {op : BinaryOp}
    (hop : m.operations[c]? = some ⟨.binary op left right, e.value⟩) (a b : Bool) :
    Flattening m absorb uses root (operations ++ [c])
      ([⟨left, a, c⟩, ⟨right, b, c⟩] ++ pending) := by
  obtain ⟨hparent, stored, hstored, hmem⟩ := h.parent e List.mem_cons_self
  have hnew := h.fresh e List.mem_cons_self c hc
  obtain ⟨-, hentry⟩ := absorbedChild_eq_some.mp hc
  have hsub (p : Nat) (hp : p ∈ operations) : p ∈ operations ++ [c] := List.mem_append_left _ hp
  -- what is absorbed into `c` was not met before `c`
  have hlater (d : Nat) (hd : absorb[d]?.join = some c) : d ∉ operations ++ [c] := by
    intro hmem
    rcases List.mem_append.mp hmem with hmem | hmem
    · exact hnew (h.parents d hmem c hd)
    · rw [List.mem_singleton.mp hmem, hentry, Option.some_inj] at hd
      exact hnew (hd ▸ hparent)
  constructor
  · intro f hf
    rcases List.mem_append.mp hf with hf | hf
    · obtain ⟨hp, hinput⟩ := operand_spec hf
      rw [hp]
      exact ⟨by simp, _, hop, hinput⟩
    · obtain ⟨hp, hinput⟩ := h.parent f (List.mem_cons_of_mem _ hf)
      exact ⟨hsub _ hp, hinput⟩
  · intro f hf d hd hmem
    rcases List.mem_append.mp hf with hf | hf
    · have hentry' := (absorbedChild_eq_some.mp hd).2
      rw [(@operand_spec _ _ _ _ _ op _ hf).1] at hentry'
      exact hlater d hentry' hmem
    · rcases List.mem_append.mp hmem with hmem | hmem
      · exact h.fresh f (List.mem_cons_of_mem _ hf) d hd hmem
      · have hdistinct := h.distinct
        rw [List.filterMap_cons_some hc] at hdistinct
        rw [List.mem_singleton.mp hmem] at hd
        exact (List.nodup_cons.mp hdistinct).1 (List.mem_filterMap.mpr ⟨f, hf, hd⟩)
  · rw [List.filterMap_append]
    apply List.Nodup.append (operands_distinct hvalid habsorb hcounts hop)
    · exact ((List.sublist_cons_self e pending).filterMap _).nodup h.distinct
    · intro d hd hd'
      obtain ⟨f, hf, hfd⟩ := List.mem_filterMap.mp hd
      obtain ⟨g, hg, hgd⟩ := List.mem_filterMap.mp hd'
      have hfp := (absorbedChild_eq_some.mp hfd).2
      have hgp := (absorbedChild_eq_some.mp hgd).2
      rw [hfp, (@operand_spec _ _ _ _ _ op _ hf).1, Option.some_inj] at hgp
      exact hnew (hgp ▸ (h.parent g (List.mem_cons_of_mem _ hg)).1)
  · intro d hd p hp
    rcases List.mem_append.mp hd with hd | hd
    · exact hsub p (h.parents d hd p hp)
    · rw [List.mem_singleton.mp hd, hentry, Option.some_inj] at hp
      exact hsub p (hp ▸ hparent)
  · intro o ho
    rcases List.mem_append.mp ho with ho | ho
    · exact (h.once o ho).imp_right fun honce => honce.mono hsub
    · obtain ⟨child, -, -, -, hchild, -, -, -, huse, -⟩ := (habsorb c e.parent).mp hentry
      rw [hop, Option.some_inj] at hchild
      subst hchild
      rw [List.mem_singleton.mp ho]
      exact .inr ⟨_, e.parent, stored, hop, huse, hsub _ hparent, hstored, hmem⟩

/-- The region starts with the operands of its root. -/
theorem start {c left right result : Nat} (hvalid : m.validate = true)
    (habsorb : Absorbs m uses absorb) (hcounts : Counts m observed uses) {op : BinaryOp}
    (hroot : absorb[c]?.join = none) (hop : m.operations[c]? = some ⟨.binary op left right, result⟩)
    (a b : Bool) : Flattening m absorb uses c [c] [⟨left, a, c⟩, ⟨right, b, c⟩] := by
  constructor
  · intro f hf
    obtain ⟨hp, hinput⟩ := operand_spec hf
    rw [hp]
    exact ⟨List.mem_singleton.mpr rfl, _, hop, hinput⟩
  · intro f hf d hd hmem
    rw [List.mem_singleton.mp hmem] at hd
    rw [(absorbedChild_eq_some.mp hd).2] at hroot
    cases hroot
  · exact operands_distinct hvalid habsorb hcounts hop
  · intro d hd p hp
    rw [List.mem_singleton.mp hd, hroot] at hp
    cases hp
  · exact fun o ho => .inl (List.mem_singleton.mp ho)

end Flattening

/-! What the terms add up to. -/

section Sums

variable (m) (observed) (value)

/-- What a pending operand will contribute to the terms. -/
def contribution (e : Operand) : Int :=
  match m.operations[e.parent]?.bind fun stored => m.valueTy stored.result with
  | some ty => signed e.negative
      (operandReading m value ty e.value - surplusAt m value observed e.value e.parent)
  | none => 0

/-- The parents of the pending operands are as wide as the region. -/
def OfWidth (width : Nat) (pending : List Operand) : Prop :=
  ∀ e ∈ pending, ∃ stored ty, m.operations[e.parent]? = some stored ∧
    m.valueTy stored.result = some ty ∧ ty.width = width

end Sums

variable {width : Nat} {e : Operand}

theorem contribution_eq {stored : Operation} {ty : WordType}
    (hstored : m.operations[e.parent]? = some stored) (hty : m.valueTy stored.result = some ty) :
    contribution m observed value e = signed e.negative
      (operandReading m value ty e.value - surplusAt m value observed e.value e.parent) := by
  rw [contribution, hstored, Option.bind_some, hty]

/-- An addend has the region's width. -/
theorem addend_type (hwidth : ∃ stored ty, m.operations[e.parent]? = some stored ∧
      m.valueTy stored.result = some ty ∧ ty.width = width) {c : Nat}
    (hc : addend m observed e.value e.parent = some c) :
    ∃ ty, m.valueTy e.value = some ty ∧ ty.width = width := by
  obtain ⟨-, parent, ty, parentTy, -, -, hparent, hty, hparentTy, -, -, heq, -⟩ := addend_eq_some.mp hc
  obtain ⟨parent', parentTy', hparent', hparentTy', rfl⟩ := hwidth
  rw [hparent, Option.some_inj] at hparent'
  subst hparent'
  rw [hparentTy, Option.some_inj] at hparentTy'
  subst hparentTy'
  exact ⟨ty, hty, heq⟩

/-- An addend contributes what its operands do. -/
theorem contribution_addend (hvalid : m.validate = true) (hval : Valuation m value)
    (hwidth : ∃ stored ty, m.operations[e.parent]? = some stored ∧
      m.valueTy stored.result = some ty ∧ ty.width = width) {c left right : Nat} {op : BinaryOp}
    (hc : addend m observed e.value e.parent = some c) (hleft : left < e.value)
    (hright : right < e.value) (hop : m.operations[c]? = some ⟨.binary op left right, e.value⟩)
    {b : Bool} (hkind : op = .add ∧ b = e.negative ∨ op = .sub ∧ b = !e.negative) :
    contribution m observed value e ≡ contribution m observed value ⟨left, e.negative, c⟩ +
      contribution m observed value ⟨right, b, c⟩ [ZMOD 2 ^ width] := by
  obtain ⟨ty, hty, htyWidth⟩ := addend_type hwidth hc
  obtain ⟨stored, parentTy, hstored, hparentTy, -⟩ := hwidth
  rw [contribution_eq hstored hparentTy, @contribution_eq _ _ _ ⟨left, e.negative, c⟩ _ _ hop hty,
    @contribution_eq _ _ _ ⟨right, b, c⟩ _ _ hop hty]
  simp only
  have hreading := operandReading_modEq value parentTy hty
  rw [htyWidth] at hreading
  rcases hkind with ⟨rfl, rfl⟩ | ⟨rfl, rfl⟩
  · have hresult := arithmetic_reading hvalid hval hop hty rfl
    have hencode := encode_modEq ty.width
      (operandReading m value ty left + operandReading m value ty right)
    rw [← hresult, htyWidth] at hencode
    rw [surplusAt_add hvalid hc hleft hright hop, ← signed_add]
    apply signed_modEq
    have hdiff := (hreading.trans hencode).sub_right
      (surplusAt m value observed left c + surplusAt m value observed right c)
    convert hdiff using 1
    ring
  · have hresult := arithmetic_reading hvalid hval hop hty rfl
    have hencode := encode_modEq ty.width
      (operandReading m value ty left - operandReading m value ty right)
    rw [← hresult, htyWidth] at hencode
    rw [surplusAt_sub hvalid hc hleft hright hop, signed_not, ← Int.sub_eq_add_neg, ← signed_sub]
    apply signed_modEq
    have hdiff := (hreading.trans hencode).sub_right
      (surplusAt m value observed left c - surplusAt m value observed right c)
    convert hdiff using 1
    ring

theorem productChild_eq_some {ty parentTy : WordType} {v index left right : Nat}
    (h : productChild m uses ty parentTy v = some (index, left, right)) :
    m.producer v = some index ∧ uses[v]? = some 1 ∧ ty.width = parentTy.width ∧
      ∃ stored, m.operations[index]? = some stored ∧ stored.kind = .binary .mul left right := by
  unfold productChild at h
  simp only [Option.bind_eq_bind, Option.bind_eq_some_iff] at h
  obtain ⟨child, hchild, stored, hstored, h⟩ := h
  split at h
  · rename_i l r hkind
    split_ifs at h with hcond
    cases h
    exact ⟨hchild, hcond.1, hcond.2, stored, hstored, hkind⟩
  · cases h

/-- A boundary operand becomes a term of its contribution. -/
theorem boundaryTerm_settles (hvalid : m.validate = true) (hcounts : Counts m observed uses)
    (hval : Valuation m value)
    (hwidth : ∃ stored ty, m.operations[e.parent]? = some stored ∧
      m.valueTy stored.result = some ty ∧ ty.width = width)
    (hc : addend m observed e.value e.parent = none) (s : AdditiveRegion) :
    Settles (boundaryTerm m uses s e) (fun t => ∃ term joined, t.terms = s.terms ++ [term] ∧
      t.operations = s.operations ++ joined ∧
      (∀ o ∈ joined, ∃ stored, m.operations[o]? = some stored ∧ isAdditive stored.kind = false ∧
        stored.result = e.value ∧ uses[e.value]? = some 1) ∧
      term.isProduct = (addedProduct m observed e.value e.parent).isSome ∧
      term.denote value ≡ contribution m observed value e [ZMOD 2 ^ width]) fun _ => True := by
  obtain ⟨stored, parentTy, hstored, hparentTy, hparentWidth⟩ := hwidth
  unfold boundaryTerm
  apply Settles.bind (orInvariant_settles _ _)
  intro parent hparent
  rw [hstored, Option.some_inj] at hparent
  subst hparent
  apply Settles.bind (orInvariant_settles _ _)
  intro parentTy' hparentTy'
  rw [hparentTy, Option.some_inj] at hparentTy'
  subst hparentTy'
  apply Settles.bind (orInvariant_settles _ _)
  intro ty hty
  rw [contribution_eq hstored hparentTy, surplusAt_boundary hc,
    ← productChild_eq hcounts hstored hparentTy hty]
  cases hproduct : productChild m uses ty parentTy e.value with
  | none =>
    refine ⟨_, [], rfl, (List.append_nil _).symm, fun o ho => absurd ho List.not_mem_nil, rfl, ?_⟩
    simp only [ArithmeticTerm.denote, Option.map_none, Int.sub_zero, operandReading, hty, extended, Bool.and_comm]
    rfl
  | some product =>
    obtain ⟨index, left, right⟩ := product
    obtain ⟨hproducer, huse, htyWidth, mul, hmul, hkind⟩ := productChild_eq_some hproduct
    obtain ⟨mul', hmul', hresult⟩ := WordModule.valid_producer hvalid hproducer
    rw [hmul, Option.some_inj] at hmul'
    subst hmul'
    have hop : m.operations[index]? = some ⟨.binary .mul left right, e.value⟩ := by
      rw [hmul, ← hkind, ← hresult]
    apply Settles.bind (reading_settles hvalid hval ty left)
    rintro ⟨l, leftTy⟩ hl
    apply Settles.bind (reading_settles hvalid hval ty right)
    rintro ⟨r, rightTy⟩ hr
    refine ⟨_, [index], rfl, rfl, ?_, rfl, ?_⟩
    · intro o ho
      rw [List.mem_singleton.mp ho]
      exact ⟨mul, hmul, by rw [hkind]; rfl, hresult, huse⟩
    · have hreading := operandReading_modEq value parentTy hty
      have hencode := encode_modEq ty.width
        (operandReading m value ty left * operandReading m value ty right)
      rw [← arithmetic_reading hvalid hval hop hty rfl, product_reading hl hr] at hencode
      rw [htyWidth, hparentWidth] at hreading hencode
      simp only [ArithmeticTerm.denote, Option.map_some]
      apply signed_modEq
      have hdiff := ((hreading.trans hencode).sub_right (productSurplus m value ty left right)).symm
      convert hdiff using 1
      ring

/-- A region has more than its root's two operands, or none but them. -/
structure Growing (m : WordModule) (observed : List Nat) (grows : Bool) (terms : List ArithmeticTerm)
    (pending : List Operand) : Prop where
  two : 2 ≤ terms.length + pending.length
  larger : grows = true → 3 ≤ terms.length + pending.length ∨ terms.any (·.isProduct) = true ∨
    ∃ e ∈ pending, extendsRegion m observed e.value e.parent = true
  plain : grows = false → terms.length + pending.length = 2 ∧ terms.any (·.isProduct) = false ∧
    ∀ e ∈ pending, extendsRegion m observed e.value e.parent = false

namespace Growing

variable {grows : Bool} {terms : List ArithmeticTerm} {pending : List Operand}

theorem expand (h : Growing m observed grows terms (e :: pending))
    (he : (addend m observed e.value e.parent).isSome = true) (f g : Operand) :
    Growing m observed grows terms ([f, g] ++ pending) := by
  have htwo := h.two
  have hextends : extendsRegion m observed e.value e.parent = true := by rw [extendsRegion, he]; rfl
  simp only [List.length_cons] at htwo
  refine ⟨by simp; omega, fun _ => .inl (by simp; omega), fun hgrows => ?_⟩
  rw [(h.plain hgrows).2.2 e List.mem_cons_self] at hextends
  cases hextends

theorem boundary (h : Growing m observed grows terms (e :: pending))
    (he : addend m observed e.value e.parent = none) {term : ArithmeticTerm}
    (hterm : term.isProduct = (addedProduct m observed e.value e.parent).isSome) :
    Growing m observed grows (terms ++ [term]) pending := by
  have htwo := h.two
  have hextends : extendsRegion m observed e.value e.parent = term.isProduct := by
    rw [extendsRegion, he, hterm]
    rfl
  simp only [List.length_cons] at htwo
  refine ⟨by simp; omega, fun hgrows => ?_, fun hgrows => ?_⟩
  · rw [List.any_append, Bool.or_eq_true]
    rcases h.larger hgrows with hlarge | hproduct | ⟨f, hf, hfe⟩
    · rw [List.length_cons] at hlarge
      exact .inl (by simp; omega)
    · exact .inr (.inl (.inl hproduct))
    · rcases List.mem_cons.mp hf with rfl | hf
      · rw [hextends] at hfe
        exact .inr (.inl (.inr (by simp [hfe])))
      · exact .inr (.inr ⟨f, hf, hfe⟩)
  · obtain ⟨hlength, hproduct, hall⟩ := h.plain hgrows
    rw [List.length_cons] at hlength
    have hplain := hall e List.mem_cons_self
    rw [hextends] at hplain
    refine ⟨by simp; omega, by simp [hproduct, hplain], fun f hf => hall f (List.mem_cons_of_mem _ hf)⟩

theorem dropped_iff (h : Growing m observed grows terms []) :
    (terms.length < 3 ∧ (!terms.any (·.isProduct)) = true) ↔ grows = false := by
  constructor
  · rintro ⟨hlength, hproduct⟩
    rw [Bool.not_eq_true'] at hproduct
    by_contra hgrows
    rcases h.larger (by simpa using hgrows) with hlarge | hlarge | ⟨e, he, -⟩
    · rw [List.length_nil] at hlarge
      omega
    · rw [hproduct] at hlarge
      cases hlarge
    · cases he
  · intro hgrows
    obtain ⟨hlength, hproduct, -⟩ := h.plain hgrows
    rw [List.length_nil] at hlength
    exact ⟨by omega, by rw [hproduct]; rfl⟩

end Growing

/-- The loop between two operands. -/
structure Collecting (m : WordModule) (observed : List Nat) (absorb : List (Option Nat))
    (uses : List Nat) (value : Nat → Nat) (root width : Nat) (total : Int) (grows : Bool)
    (s : AdditiveRegion) (pending : List Operand) : Prop
    extends Flattening m absorb uses root s.operations pending where
  widths : OfWidth m width pending
  sum : (s.terms.map (·.denote value)).sum + (pending.map (contribution m observed value)).sum ≡
    total [ZMOD 2 ^ width]
  growing : Growing m observed grows s.terms pending

/-- The pending operands and those of the operations that were not met. -/
def AdditiveRegion.cost (m : WordModule) (s : AdditiveRegion) (pending : List Operand) : Nat :=
  pending.length + ((List.range m.operations.length).map fun o =>
    if o ∈ s.operations then 0 else 2).sum

variable {root : Nat} {total : Int} {grows : Bool} {s : AdditiveRegion} {pending : List Operand}

theorem additiveOperands_eq {c left right : Nat} {op : BinaryOp} {negative : Bool}
    (hop : op = .add ∨ op = .sub) : ∃ b, additiveOperands c (.binary op left right) negative =
      .ok [⟨left, negative, c⟩, ⟨right, b, c⟩] ∧
        (op = .add ∧ b = negative ∨ op = .sub ∧ b = !negative) := by
  rcases hop with rfl | rfl
  · exact ⟨negative, rfl, .inl ⟨rfl, rfl⟩⟩
  · exact ⟨!negative, rfl, .inr ⟨rfl, rfl⟩⟩

theorem cost_joined (s : AdditiveRegion) (joined : List Nat) (terms : List ArithmeticTerm)
    (pending : List Operand) :
    AdditiveRegion.cost m ⟨terms, s.operations ++ joined⟩ pending < s.cost m (e :: pending) := by
  have hle : ((List.range m.operations.length).map fun o =>
      if o ∈ s.operations ++ joined then 0 else 2).sum ≤
      ((List.range m.operations.length).map fun o => if o ∈ s.operations then 0 else 2).sum := by
    apply List.sum_le_sum
    intro o _
    by_cases ho : o ∈ s.operations
    · rw [if_pos ho, if_pos (List.mem_append_left _ ho)]
    · rw [if_neg ho]
      split_ifs <;> omega
  simp only [AdditiveRegion.cost, List.length_cons]
  omega

theorem cost_expand {c : Nat} (hc : c < m.operations.length) (hnew : c ∉ s.operations)
    (f g : Operand) : AdditiveRegion.cost m ⟨s.terms, s.operations ++ [c]⟩ ([f, g] ++ pending) <
      s.cost m (e :: pending) := by
  have hle : ((List.range m.operations.length).map fun o =>
      if o ∈ s.operations ++ [c] then 0 else 2).sum + 2 ≤
      ((List.range m.operations.length).map fun o => if o ∈ s.operations then 0 else 2).sum := by
    apply Worklist.sum_map_add_le _ (List.mem_range.mpr hc)
    · rw [if_pos (by simp), if_neg hnew]
    · intro o _
      by_cases ho : o ∈ s.operations
      · rw [if_pos ho, if_pos (List.mem_append_left _ ho)]
      · rw [if_neg ho]
        split_ifs <;> omega
  simp only [AdditiveRegion.cost, List.length_append, List.length_cons, List.length_nil]
  omega

theorem regionStep_settles (hvalid : m.validate = true) (habsorb : Absorbs m uses absorb)
    (hcounts : Counts m observed uses) (hval : Valuation m value)
    (h : Collecting m observed absorb uses value root width total grows s (e :: pending)) :
    Settles (regionStep m absorb uses s e) (fun r =>
      Collecting m observed absorb uses value root width total grows r.1 (r.2 ++ pending) ∧
        r.1.cost m (r.2 ++ pending) < s.cost m (e :: pending)) fun _ => True := by
  have hwidth := h.widths e List.mem_cons_self
  have hrest : OfWidth m width pending := fun f hf => h.widths f (List.mem_cons_of_mem _ hf)
  have hsum := h.sum
  rw [List.map_cons, List.sum_cons, ← Int.add_assoc] at hsum
  obtain ⟨-, parent, hparent, hmem⟩ := h.parent e List.mem_cons_self
  have haddend := absorbedChild_eq hvalid hcounts habsorb hparent hmem
  unfold regionStep
  split
  · rename_i c hc
    rw [hc] at haddend
    obtain ⟨op, left, right, hop, hadditive, hleft, hright⟩ := addend_operation hvalid haddend.symm
    obtain ⟨b, hoperands, hkind⟩ := @additiveOperands_eq c left right op e.negative hadditive
    obtain ⟨ty, hty, htyWidth⟩ := addend_type hwidth haddend.symm
    have hnew := h.fresh e List.mem_cons_self c hc
    apply Settles.bind (orInvariant_settles _ _)
    intro operation hoperation
    rw [hop, Option.some_inj] at hoperation
    subst hoperation
    rw [hoperands]
    refine ⟨⟨h.toFlattening.expand hvalid habsorb hcounts hc hop e.negative b, ?_, ?_,
      h.growing.expand (by rw [← haddend]; rfl) _ _⟩, ?_⟩
    · intro f hf
      rcases List.mem_append.mp hf with hf | hf
      · have hparent := (@Flattening.operand_spec _ _ _ _ _ op _ hf).1
        rw [hparent]
        exact ⟨_, ty, hop, hty, htyWidth⟩
      · exact hrest f hf
    · have hcontribution := contribution_addend hvalid hval hwidth haddend.symm hleft hright hop hkind
      have hnext := (hcontribution.symm.add_left (s.terms.map (·.denote value)).sum).add_right
        (pending.map (contribution m observed value)).sum
      refine Int.ModEq.trans ?_ (hnext.trans hsum)
      simp only [List.cons_append, List.nil_append, List.map_cons, List.sum_cons]
      exact Int.ModEq.refl _ |>.trans (by rw [← Int.add_assoc, ← Int.add_assoc, ← Int.add_assoc])
    · exact cost_expand (List.getElem?_eq_some_iff.mp hop).1 hnew _ _
  · rename_i hc
    rw [hc] at haddend
    apply Settles.bind (boundaryTerm_settles hvalid hcounts hval hwidth haddend.symm s)
    rintro t ⟨term, joined, hterms, hoperations, hjoined, hproduct, hdenote⟩
    obtain ⟨terms, operations⟩ := t
    simp only at hterms hoperations
    subst hterms hoperations
    refine ⟨⟨h.toFlattening.boundary fun o ho => ?_, hrest, ?_,
      h.growing.boundary haddend.symm hproduct⟩, cost_joined s joined _ pending⟩
    · obtain ⟨stored, hstored, hadditive, hresult, huse⟩ := hjoined o ho
      refine ⟨?_, stored, hstored, hresult, huse⟩
      cases hentry : absorb[o]?.join with
      | none => rfl
      | some p =>
        obtain ⟨child, -, -, -, hchild, -, hchildAdditive, -⟩ := (habsorb o p).mp hentry
        rw [hstored, Option.some_inj] at hchild
        subst hchild
        rw [hadditive] at hchildAdditive
        cases hchildAdditive
    · refine Int.ModEq.trans ?_ hsum
      simp only [List.map_append, List.map_cons, List.map_nil, List.sum_append, List.sum_cons,
        List.sum_nil, Int.add_zero, List.nil_append]
      exact (hdenote.add_left _).add_right _

/-- The surplus of the products of a region. -/
def rootSurplus (m : WordModule) (value : Nat → Nat) (observed : List Nat) (root : Nat) : Int :=
  match m.operations[root]? with
  | some ⟨.binary .add left right, _⟩ =>
    surplusAt m value observed left root + surplusAt m value observed right root
  | some ⟨.binary .sub left right, _⟩ =>
    surplusAt m value observed left root - surplusAt m value observed right root
  | _ => 0

/-- Whether a region has more than its root's two operands. -/
def rootGrows (m : WordModule) (observed : List Nat) (root : Nat) : Bool :=
  match m.operations[root]? with
  | some ⟨.binary _ left right, _⟩ => extendsRegion m observed left root || extendsRegion m observed right root
  | _ => false

/-- Every operation but the root is used once, by another of the operations. -/
def AbsorbedOnce (m : WordModule) (observed : List Nat) (root : Nat) (operations : List Nat) : Prop :=
  ∀ o ∈ operations, o = root ∨ ∃ stored p parent, m.operations[o]? = some stored ∧
    UsedOnce m observed stored.result ∧ p ∈ operations ∧ m.operations[p]? = some parent ∧
      stored.result ∈ parent.kind.inputs

/-- What a region computes, and what it absorbs. -/
def RegionExact (m : WordModule) (value : Nat → Nat) (observed : List Nat) (root : Nat)
    (region : AdditiveRegion) : Prop :=
  ∃ op left right result ty, m.operations[root]? = some ⟨.binary op left right, result⟩ ∧
    m.valueTy result = some ty ∧
    (region.terms.map (·.denote value)).sum ≡ value result - rootSurplus m value observed root
      [ZMOD 2 ^ ty.width] ∧
    ((region.terms.length < 3 ∧ (!region.terms.any (·.isProduct)) = true) ↔
      rootGrows m observed root = false) ∧
    AbsorbedOnce m observed root region.operations

theorem RegionExact.dropped_iff {root : Nat} {region : AdditiveRegion}
    (h : RegionExact m value observed root region) :
    (region.terms.length < 3 ∧ (!region.terms.any (·.isProduct)) = true) ↔
      rootGrows m observed root = false := by
  obtain ⟨-, -, -, -, -, -, -, -, hdropped, -⟩ := h
  exact hdropped

theorem collectAdditiveRegion_settles (hvalid : m.validate = true) (habsorb : Absorbs m uses absorb)
    (hcounts : Counts m observed uses) (hval : Valuation m value) {stored : Operation}
    (hstored : m.operations[root]? = some stored) (hadditive : isAdditive stored.kind = true)
    (hroot : absorb[root]?.join = none) :
    Settles (collectAdditiveRegion m absorb uses root) (RegionExact m value observed root)
      fun _ => True := by
  obtain ⟨kind, result⟩ := stored
  obtain ⟨left, right, hkind⟩ := isAdditive_cases hadditive
  obtain ⟨op, hop, hcases⟩ : ∃ op : BinaryOp, m.operations[root]? =
      some ⟨.binary op left right, result⟩ ∧ (op = .add ∨ op = .sub) := by
    rcases hkind with rfl | rfl
    · exact ⟨_, hstored, .inl rfl⟩
    · exact ⟨_, hstored, .inr rfl⟩
  obtain ⟨ty, hty, -⟩ := WordModule.valid_result hvalid hop
  obtain ⟨b, hoperands, hsigns⟩ := @additiveOperands_eq root left right op false hcases
  have htotal : contribution m observed value ⟨left, false, root⟩ +
      contribution m observed value ⟨right, b, root⟩ ≡
      value result - rootSurplus m value observed root [ZMOD 2 ^ ty.width] := by
    rw [@contribution_eq _ _ _ ⟨left, false, root⟩ _ _ hop hty,
      @contribution_eq _ _ _ ⟨right, b, root⟩ _ _ hop hty]
    rcases hsigns with ⟨rfl, rfl⟩ | ⟨rfl, rfl⟩
    · have hresult := arithmetic_reading hvalid hval hop hty rfl
      have hencode := (encode_modEq ty.width (operandReading m value ty left +
        operandReading m value ty right)).symm.sub_right (rootSurplus m value observed root)
      rw [← hresult] at hencode
      convert hencode using 1
      simp only [signed_false, rootSurplus, hop]
      ring
    · have hresult := arithmetic_reading hvalid hval hop hty rfl
      have hencode := (encode_modEq ty.width (operandReading m value ty left -
        operandReading m value ty right)).symm.sub_right (rootSurplus m value observed root)
      rw [← hresult] at hencode
      convert hencode using 1
      simp only [signed_not, signed_false, rootSurplus, hop]
      ring
  have hstart : Collecting m observed absorb uses value root ty.width
      (value result - rootSurplus m value observed root) (rootGrows m observed root) ⟨[], [root]⟩
      [⟨left, false, root⟩, ⟨right, b, root⟩] := by
    have hgrows : rootGrows m observed root =
        (extendsRegion m observed left root || extendsRegion m observed right root) := by
      rw [rootGrows, hop]
    refine ⟨.start hvalid habsorb hcounts hroot hop false b, ?_, ?_, le_rfl, ?_, ?_⟩
    · intro f hf
      rw [(@Flattening.operand_spec _ _ _ _ _ op _ hf).1]
      exact ⟨_, ty, hop, hty, rfl⟩
    · simpa using htotal
    · intro h
      rw [hgrows, Bool.or_eq_true] at h
      rcases h with h | h
      · exact .inr (.inr ⟨_, List.mem_cons_self, h⟩)
      · exact .inr (.inr ⟨_, List.mem_cons_of_mem _ List.mem_cons_self, h⟩)
    · intro h
      rw [hgrows, Bool.or_eq_false_iff] at h
      refine ⟨rfl, rfl, fun f hf => ?_⟩
      simp only [List.mem_cons, List.not_mem_nil, or_false] at hf
      rcases hf with rfl | rfl
      · exact h.1
      · exact h.2
  unfold collectAdditiveRegion
  rw [hop]
  simp only [orInvariant]
  apply Settles.bind (Q := fun pending => pending = [⟨left, false, root⟩, ⟨right, b, root⟩])
    (by rw [hoperands]; rfl)
  rintro _ rfl
  apply Settles.bind (Worklist.exhaust_settles (fun s pending => Collecting m observed absorb uses value root
    ty.width (value result - rootSurplus m value observed root) (rootGrows m observed root) s pending)
    (fun s pending => s.cost m pending)
    (fun s e pending h => regionStep_settles hvalid habsorb hcounts hval h) hstart ?_)
  · intro s hs
    have hperm := List.perm_insertionSort (· ≤ ·) s.operations
    refine ⟨op, left, right, result, ty, hop, hty, by simpa using hs.sum, hs.growing.dropped_iff,
      fun o ho => ?_⟩
    rcases hs.once o (hperm.mem_iff.mp ho) with hroot | ⟨stored, p, parent, hstored, huse, hp, hparent, hmem⟩
    · exact .inl hroot
    · exact .inr ⟨stored, p, parent, hstored, hcounts.usedOnce huse, hperm.mem_iff.mpr hp, hparent, hmem⟩
  · have hle : ((List.range m.operations.length).map fun o => if o ∈ [root] then 0 else 2).sum ≤
        2 * m.operations.length := by
      calc ((List.range m.operations.length).map fun o => if o ∈ [root] then 0 else 2).sum
        _ ≤ ((List.range m.operations.length).map fun _ => 2).sum := by
          apply List.sum_le_sum
          intro o _
          split_ifs <;> omega
        _ = 2 * m.operations.length := by
          rw [List.map_const', List.sum_replicate_nat, List.length_range, Nat.mul_comm]
    simp only [AdditiveRegion.cost, List.length_cons, List.length_nil]
    omega

end Loop

end Opto.Planning
