import Opto.Logic.CanonicalForm

/-!
# How far the probe is exact

The probe and the builder run the same rules in lockstep while every key they
need is present. They part at the first missing key: the probe stops, the
builder goes on with a new node. What the builder returns is then new as well,
unless a factoring rule was waiting for the missing node.
-/

namespace Opto.Logic

variable {b : LogicBuilder}

/-- The probe of the network a builder freezes. -/
def LogicBuilder.probe (b : LogicBuilder) : LogicProbe :=
  ⟨b.freeze, StructuralIndex.of b.freeze⟩

theorem lookup_index (hb : Inv b) (key : NodeKey) :
    (b.probe.index.nodes.lookup key).filter (· < 2 ^ 31) = b.interned.lookup key := by
  obtain ⟨hfound, hlast⟩ := StructuralIndex.lookup_of hb.size key
  apply Option.ext
  intro i
  simp only [Option.filter_eq_some_iff, decide_eq_true_eq]
  constructor
  · intro ⟨h, hlt⟩
    obtain ⟨n, hn, hk⟩ := hfound i h
    exact (hb.interned key i).mpr ⟨hlt, n, hn, hk⟩
  · intro h
    obtain ⟨hlt, n, hn, hk⟩ := (hb.interned key i).mp h
    obtain ⟨j, -, hj⟩ := hlast i n hn hk
    obtain ⟨m, hm, hmk⟩ := hfound j hj
    obtain rfl := hb.unique i j n m key hn hm hk hmk hlt
    exact ⟨hj, hlt⟩

theorem resolve_probe (hb : Inv b) (key : NodeKey) :
    (LogicProbe.resolve key).run b.probe = match b.interned.lookup key with
      | some i => .ok ⟨i, false⟩ b.probe
      | none => .error (.error ⟨⟩) b.probe := by
  rw [← lookup_index hb key]
  simp only [LogicProbe.resolve, EStateM.run, bind, EStateM.bind, get, getThe, MonadStateOf.get,
    stateGet_eq]
  cases b.probe.index.nodes.lookup key with
  | none => rfl
  | some i =>
    by_cases hi : i < 2 ^ 31
    · have hlit : Lit.fromNode i = .ok ⟨i, false⟩ := if_pos (by omega)
      simp only [hlit, Option.filter_some, hi, decide_true, if_true]
      rfl
    · have hlit : Lit.fromNode i = .error (.capacity "literal") := if_neg (by omega)
      simp only [hlit, Option.filter_some, hi, decide_false, Bool.false_eq_true, if_false]
      rfl

/-- Whatever `m` returns from `t` is a literal of node `n` or later. -/
def Fresh (n : Nat) (t : LogicBuilder) (m : BuildM Lit) : Prop :=
  ∀ l u, m.run t = .ok l u → n ≤ l.node

theorem Fresh.withPhase {n : Nat} {t : LogicBuilder} {m : BuildM Lit} (h : Fresh n t m)
    (p : Bool) : Fresh n t ((withPhase · p) <$> m) := by
  intro l u hl
  rw [map_eq_pure_bind, EStateM.run_bind] at hl
  cases hm : m.run t with
  | ok c v =>
    rw [hm] at hl
    cases hl
    rw [withPhase_node]
    exact h c _ hm
  | error e v => rw [hm] at hl; cases hl

/-- From `b` the builder's `m'` follows the probe's `m`: the two return the same
literal, or the probe misses a key and, if `clean`, the builder's literal is new. -/
def Agrees (b : LogicBuilder) (clean : Prop) (m : ProbeM Lit) (m' : BuildM Lit) : Prop :=
  match m.run b.probe with
  | .ok l p => p = b.probe ∧ m'.run b = .ok l b
  | .error .fuel _ => False
  | .error (.error _) _ => clean → Fresh b.nodes.length b m'

namespace Agrees

variable {clean clean' : Prop} {m : ProbeM Lit} {m' : BuildM Lit}

theorem pure (l : Lit) : Agrees b clean (Pure.pure l) (Pure.pure l) := ⟨rfl, rfl⟩

theorem mono (h : Agrees b clean m m') (hc : clean' → clean) : Agrees b clean' m m' := by
  unfold Agrees at *
  cases hm : m.run b.probe with
  | ok l p => rwa [hm] at h
  | error e p =>
    cases e with
    | fuel => rwa [hm] at h
    | error e =>
      rw [hm] at h
      exact fun hcl => h (hc hcl)

theorem get {k : LogicProbe → ProbeM Lit} {j : LogicBuilder → BuildM Lit}
    (h : Agrees b clean (k b.probe) (j b)) :
    Agrees b clean (MonadState.get >>= k) (MonadState.get >>= j) := h

/-- When the first part misses a key, the rest runs on a literal that is new. -/
theorem bind {k : Lit → ProbeM Lit} {j : Lit → BuildM Lit} (h : Agrees b clean' m m')
    (hk : ∀ c p, m.run b.probe = .ok c p → m'.run b = .ok c b → Agrees b clean (k c) (j c))
    (hfresh : ∀ e p, m.run b.probe = .error (.error e) p → clean →
      clean' ∧ ∀ c u, m'.run b = .ok c u → b.nodes.length ≤ c.node →
        Fresh b.nodes.length u (j c)) :
    Agrees b clean (m >>= k) (m' >>= j) := by
  unfold Agrees at *
  rw [EStateM.run_bind]
  cases hm : m.run b.probe with
  | ok c p =>
    rw [hm] at h
    obtain ⟨rfl, hm'⟩ := h
    have hrun := hk c _ hm hm'
    simpa only [EStateM.run_bind, hm', Fresh] using hrun
  | error e p =>
    cases e with
    | fuel => rw [hm] at h; exact h.elim
    | error e =>
      rw [hm] at h
      intro hc l u hl
      obtain ⟨hc', hnext⟩ := hfresh e p hm hc
      rw [EStateM.run_bind] at hl
      cases hm' : m'.run b with
      | ok c t =>
        rw [hm'] at hl
        exact hnext c t hm' (h hc' c t hm') l u hl
      | error e t => rw [hm'] at hl; cases hl

theorem withPhase (h : Agrees b clean m m') (p : Bool) :
    Agrees b clean ((withPhase · p) <$> m) ((withPhase · p) <$> m') := by
  have node (l : Lit) : (Logic.withPhase l p).node = l.node := withPhase_node l p
  refine Agrees.bind (k := fun l => Pure.pure (Logic.withPhase l p))
    (j := fun l => Pure.pure (Logic.withPhase l p)) h (fun c _ _ _ => .pure _) ?_
  intro e _ _ hc
  refine ⟨hc, fun c u _ hle l t hl => ?_⟩
  cases hl
  rwa [node]

end Agrees

/-! Keys and multiplexers that lead to new nodes. -/

theorem intern_fresh {u : LogicBuilder} (hu : Inv u) {n : Nat} (hn : n ≤ u.nodes.length)
    {key : NodeKey} (hkey : u.interned.lookup key = none ∨ ∃ f ∈ key.fanins, n ≤ f.node)
    (kind : NodeKind) (f0 f1 f2 : Lit) (origin : Nat) :
    Fresh n u (LogicBuilder.intern key kind f0 f1 f2 origin) := by
  suffices h : Outcome u (LogicBuilder.intern key kind f0 f1 f2 origin) (fun l _ => n ≤ l.node)
      fun _ _ => True from fun l t hl => h.ok hl
  apply Outcome.get
  cases hl : u.interned.lookup key with
  | some i =>
    obtain ⟨hi, m, hm, hmk⟩ := (hu.interned key i).mp hl
    have hlit : Lit.fromNode i = .ok ⟨i, false⟩ := if_pos (by omega)
    rcases hkey with hkey | ⟨f, hf, hfn⟩
    · rw [hl] at hkey; cases hkey
    · -- a stored gate comes after its fanins
      have hlt := hu.topological i m hm f (by rwa [Node.fanins_of_key hmk])
      simp only [hlit]
      exact Outcome.pure (by dsimp only; omega)
  | none =>
    refine Outcome.bind (LogicBuilder.push_outcome u kind f0 f1 f2 origin) ?_ fun _ _ _ => trivial
    intro l t ⟨_, _, _, hnode, _⟩
    subst hnode
    exact hn

theorem Reads.grows {u : LogicBuilder} (hu : Grows b u) {l : Lit} {key : NodeKey}
    (h : Reads b l key) : Reads u l key := by
  obtain ⟨hpos, n, hn, hk⟩ := h
  have hi := (List.getElem?_eq_some_iff.mp hn).1
  exact ⟨hpos, n, by rw [getElem?_extends hu.nodes hi, hn], hk⟩

/-- A multiplexer in canonical form is left as it is by the rules. -/
theorem muxReduced_canonical {s t e : Lit} (hs : MuxShape b.nodes s t e)
    (hu : Unfactored b.nodes t e) : muxReduced b s t e = .intern s t e := by
  have hne {x y : Lit} (h : x.node ≠ y.node) : x ≠ y ∧ x ≠ y.inverted :=
    ⟨fun hxy => h (by rw [hxy]), fun hxy => h (by rw [hxy, Lit.node_inverted])⟩
  have hconst {x : Lit} (h : x.node ≠ 0) : x ≠ .TRUE ∧ x ≠ .FALSE :=
    ⟨fun hx => h (by rw [hx]; rfl), fun hx => h (by rw [hx]; rfl)⟩
  have nested {l : Lit} {pick : Lit × Lit × Lit → Lit}
      (h : ∀ m : Node, b.nodes[l.node]? = some m → l.isInverted = false → m.kind = .mux →
        m.fanin0 ≠ s) :
      ((muxFanins b l).bind fun f => if f.1 = s then some (pick f) else none) = none := by
    cases hf : muxFanins b l with
    | none => rfl
    | some f =>
      obtain ⟨m, ⟨hm, hpos, hk⟩, rfl⟩ := muxAt_of_muxFanins hf
      exact if_neg (h m hm hpos hk)
  have ht := hconst hs.then_node
  have he := hconst hs.else_node
  have hts := hne hs.then_ne_select
  have hes := hne hs.else_ne_select
  have hthen : sameSelectThen b s t = none := nested hs.then_not_nested
  have helse : sameSelectElse b s e = none := nested hs.else_not_nested
  rw [muxReduced, if_neg (hne hs.arms_differ).2, if_neg (not_or.mpr ⟨ht.1, hts.1⟩),
    if_neg (not_or.mpr ⟨ht.2, hts.2⟩), if_neg (not_or.mpr ⟨he.2, hes.1⟩),
    if_neg (not_or.mpr ⟨he.1, hes.2⟩), muxNested, hthen, helse]
  exact muxFactor_unfactored hu

theorem muxPhased_canonical {s t e : Lit} (hs : MuxShape b.nodes s t e)
    (hu : Unfactored b.nodes t e) : muxPhased b s t e = (.intern s t e, false) := by
  rw [muxPhased, if_neg (by simpa only [Bool.and_eq_true] using hs.not_both_inverted),
    muxReduced_canonical hs hu]

/-- A new selector over the arms of an old multiplexer makes a new multiplexer. -/
theorem mux_fresh {u : LogicBuilder} (hb : Inv b) (hu : Grows b u) {c r p q inner : Lit}
    (hr : Reads b inner (.mux r p q)) (hv : ∀ l ∈ [p, q], Valid b l)
    (hc : b.nodes.length ≤ c.node) (fuel origin : Nat) :
    Fresh b.nodes.length u (canonicalMux fuel c p q origin) := by
  have hpos := hb.nonempty
  have hp : p.node < b.nodes.length := (hv p (by simp)).1
  have hq : q.node < b.nodes.length := (hv q (by simp)).1
  obtain ⟨shape, unfactored⟩ := (hr.grows hu).mux_arms hu.inv
  have selects (x : Lit) (hx : x.node < b.nodes.length) (m : Node)
      (hm : u.nodes[x.node]? = some m) (_ : x.isInverted = false) (hk : m.kind = .mux) :
      m.fanin0 ≠ c.positive := by
    have hlt := hu.inv.topological _ m hm m.fanin0 (by simp [Node.fanins, hk, NodeKind.arity])
    intro h
    rw [h, Lit.node_positive] at hlt
    omega
  have outer : MuxShape u.nodes c.positive p q :=
    { shape with
      select_positive := rfl
      select_node := by rw [Lit.node_positive]; omega
      then_ne_select := by rw [Lit.node_positive]; omega
      else_ne_select := by rw [Lit.node_positive]; omega
      then_not_nested := selects p hp
      else_not_nested := selects q hq }
  have swapped : MuxShape u.nodes c.positive q p := outer.symm
  have hc0 : c.node ≠ 0 := by omega
  have hcF : c ≠ .FALSE := fun h => hc0 (by rw [h]; rfl)
  have hcT : c ≠ .TRUE := fun h => hc0 (by rw [h]; rfl)
  have hpq : p ≠ q := fun h => shape.arms_differ (by rw [h])
  have hpT : p ≠ .TRUE := fun h => shape.then_node (by rw [h]; rfl)
  have hpF : p ≠ .FALSE := fun h => shape.then_node (by rw [h]; rfl)
  have rule : ∃ x y : Lit, muxRule u c p q = (.intern c.positive x y, false) := by
    rw [muxRule, if_neg hcF, if_neg (not_or.mpr ⟨hcT, hpq⟩), if_neg (fun h => hpT h.1),
      if_neg (fun h => hpF h.1)]
    by_cases hi : c.isInverted
    · exact ⟨q, p, by rw [if_pos hi, muxPhased_canonical swapped unfactored.symm]⟩
    · rw [if_neg hi]
      have hcp : c.positive = c := Lit.positive_of_not_inverted (by simpa using hi)
      exact ⟨p, q, by rw [hcp] at outer ⊢; exact muxPhased_canonical outer unfactored⟩
  obtain ⟨x, y, rule⟩ := rule
  cases fuel with
  | zero => intro l t hl; cases hl
  | succ fuel =>
    change Fresh _ u ((withPhase · (muxRule u c p q).2) <$>
      runMuxStep _ fuel origin (muxRule u c p q).1)
    rw [rule]
    apply Fresh.withPhase
    apply intern_fresh hu.inv hu.nodes.length_le
    exact .inr ⟨c.positive, by simp [NodeKey.fanins], hc⟩

/-! The branch on which the two may part: a factoring rule that needs a
multiplexer the network lacks. -/

namespace LogicProbe

def answer (p : LogicProbe) (m : ProbeM Lit) : Option Lit :=
  match m.run p with
  | .ok l _ => some l
  | .error _ _ => none

def orSettled (p : LogicProbe) (settled : Lit → Lit → Lit → Bool) (left right : Lit) : Bool :=
  match orFactor p left right with
  | some (select, whenTrue, whenFalse) => settled select whenTrue whenFalse
  | none => true

/-- The rules never wait for an absent multiplexer in order to factor a selector out. -/
def muxSettled (p : LogicProbe) : Nat → Lit → Lit → Lit → Bool
  | 0, _, _, _ => true
  | fuel + 1, select, thenValue, elseValue =>
    let settled := muxSettled p fuel
    let mux := fun s t e => canonicalMux fuel s t e 0
    match (muxRule p select thenValue elseValue).1 with
    | .value _ | .viaXor _ _ | .viaAnd _ _ | .intern _ _ _ => true
    | .viaOr l r => orSettled p settled l r
    | .again s t e => settled s t e
    | .combineAnd l r t e => (p.answer (canonicalAnd l r 0)).all (settled · t e)
    | .combineOr l r t e =>
      orSettled p settled l r && (p.answer (canonicalOrWith mux l r 0)).all (settled · t e)
    | .factorElse s t e outer a => settled s t e && (p.answer (mux s t e)).any (settled outer a ·)
    | .factorThen s t e outer a => settled s t e && (p.answer (mux s t e)).any (settled outer · a)

end LogicProbe

section Lockstep

theorem resolve_agrees (hb : Inv b) (key : NodeKey) (kind : NodeKind) (f0 f1 f2 : Lit)
    (origin : Nat) :
    Agrees b True (LogicProbe.resolve key) (LogicBuilder.intern key kind f0 f1 f2 origin) := by
  unfold Agrees
  rw [resolve_probe hb]
  cases hl : b.interned.lookup key with
  | some i =>
    have hlit : Lit.fromNode i = .ok ⟨i, false⟩ := if_pos (by
      have := ((hb.interned key i).mp hl).1
      omega)
    refine ⟨rfl, ?_⟩
    simp only [LogicBuilder.intern, EStateM.run_bind, EStateM.run_get, hl, hlit]
    rfl
  | none => exact fun _ => intern_fresh hb le_rfl (.inl hl) kind f0 f1 f2 origin

theorem canonicalAnd_agrees (hb : Inv b) (l r : Lit) (origin : Nat) :
    Agrees b True (canonicalAnd l r 0) (canonicalAnd l r origin) := by
  apply Agrees.get
  have rule : andIdentity b.probe l r = andIdentity b l r := rfl
  rw [rule]
  cases andIdentity b l r with
  | some v => exact .pure v
  | none => exact resolve_agrees hb _ _ _ _ _ _

theorem canonicalXor_agrees (fuel : Nat) (hb : Inv b) {l r : Lit} (hl : Valid b l)
    (hr : Valid b r) (hw : weight b.nodes l + weight b.nodes r ≤ fuel) (origin : Nat) :
    Agrees b True (canonicalXor fuel l r 0) (canonicalXor fuel l r origin) := by
  induction fuel generalizing l r with
  | zero => have := weight_pos b.nodes l; omega
  | succ fuel ih =>
    apply Agrees.get
    have rule : xorRule b.probe l r = xorRule b l r := rfl
    rw [rule]
    obtain ⟨hg, -⟩ := xorRule_good hb hl hr
    generalize xorRule b l r = step at hg
    obtain ⟨step, phase⟩ := step
    apply Agrees.withPhase
    cases step with
    | value v => exact .pure v
    | again x y =>
      obtain ⟨hx, hy, hlt⟩ := hg
      exact ih hx hy (by omega)
    | intern x y => exact resolve_agrees hb _ _ _ _ _ _

theorem canonicalOrWith_agrees {mux : Lit → Lit → Lit → ProbeM Lit}
    {mux' : Lit → Lit → Lit → BuildM Lit} {settled : Lit → Lit → Lit → Bool} (hb : Inv b)
    {l r : Lit} (hl : Valid b l) (hr : Valid b r) (origin : Nat)
    (hmux : ∀ s t e, Valid b s → Valid b t → Valid b e →
      weight b.nodes s + weight b.nodes t + weight b.nodes e <
        weight b.nodes l + weight b.nodes r →
      Agrees b (settled s t e = true) (mux s t e) (mux' s t e)) :
    Agrees b (b.probe.orSettled settled l r = true) (canonicalOrWith mux l r 0)
      (canonicalOrWith mux' l r origin) := by
  apply Agrees.get
  have rule : orFactor b.probe l r = orFactor b l r := rfl
  rw [LogicProbe.orSettled, rule]
  cases h : orFactor b l r with
  | some f =>
    obtain ⟨⟨hs, ht, he⟩, hw, -⟩ := orFactor_sound hb hl hr h
    exact hmux _ _ _ hs ht he (by omega)
  | none =>
    have hand := (canonicalAnd_agrees hb l.inverted r.inverted origin).withPhase true
    exact hand.mono fun _ => trivial

theorem LogicProbe.answer_ok {p q : LogicProbe} {m : ProbeM Lit} {l : Lit}
    (h : m.run p = .ok l q) : p.answer m = some l := by rw [answer, h]

theorem LogicProbe.answer_error {p q : LogicProbe} {m : ProbeM Lit} {e : Halt Absent}
    (h : m.run p = .error e q) : p.answer m = none := by rw [answer, h]

theorem canonicalMux_agrees (fuel : Nat) (hb : Inv b) {s t e : Lit} (hs : Valid b s)
    (ht : Valid b t) (he : Valid b e)
    (hw : weight b.nodes s + weight b.nodes t + weight b.nodes e ≤ fuel) (origin : Nat) :
    Agrees b (b.probe.muxSettled fuel s t e = true) (canonicalMux fuel s t e 0)
      (canonicalMux fuel s t e origin) := by
  induction fuel generalizing s t e with
  | zero => have := weight_pos b.nodes s; omega
  | succ fuel ih =>
    have or_agrees {x y : Lit} (hx : Valid b x) (hy : Valid b y)
        (hlt : weight b.nodes x + weight b.nodes y ≤ fuel + 1) :
        Agrees b (b.probe.orSettled (b.probe.muxSettled fuel) x y = true)
          (canonicalOrWith (fun s t e => canonicalMux fuel s t e 0) x y 0)
          (canonicalOrWith (fun s t e => canonicalMux fuel s t e origin) x y origin) :=
      canonicalOrWith_agrees hb hx hy origin fun s t e hs ht he h => ih hs ht he (by omega)
    have or_meets {x y : Lit} (hx : Valid b x) (hy : Valid b y)
        (hlt : weight b.nodes x + weight b.nodes y ≤ fuel + 1) :
        Meets b (1 + (weight b.nodes x + weight b.nodes y)) (fun v => v x || v y)
          (canonicalOrWith (fun s t e => canonicalMux fuel s t e origin) x y origin) :=
      canonicalOrWith_meets hb hx hy origin fun s t e hs ht he h =>
        canonicalMux_meets fuel hb hs ht he (by omega) origin
    apply Agrees.get
    have rule : muxRule b.probe s t e = muxRule b s t e := rfl
    rw [LogicProbe.muxSettled, rule]
    obtain ⟨hg, -⟩ := muxRule_serves hb hs ht he
    generalize muxRule b s t e = step at hg
    obtain ⟨step, phase⟩ := step
    apply Agrees.withPhase
    cases step with
    | value v => exact .pure v
    | viaXor x y =>
      obtain ⟨⟨hx, hy⟩, hlt⟩ := hg
      exact (canonicalXor_agrees fuel hb hx hy (by omega) origin).mono fun _ => trivial
    | viaOr x y =>
      obtain ⟨⟨hx, hy⟩, hlt⟩ := hg
      exact or_agrees hx hy (by omega)
    | viaAnd x y => exact (canonicalAnd_agrees hb x y origin).mono fun _ => trivial
    | again x y z =>
      obtain ⟨⟨hx, hy, hz⟩, hlt⟩ := hg
      exact ih hx hy hz (by omega)
    | combineAnd x y p q =>
      obtain ⟨⟨hx, hy, hp, hq⟩, hlt, inner, hr⟩ := hg
      have meets := canonicalAnd_meets hb hx hy origin
      refine Agrees.bind (canonicalAnd_agrees hb x y origin) (fun c _ hm hm' => ?_)
        fun _ _ _ _ => ⟨trivial, fun c u hm' hle => ?_⟩
      · obtain ⟨-, hc, hcw, -⟩ := meets.ok hm'
        refine (ih hc hp hq (by omega)).mono fun h => ?_
        simpa only [LogicProbe.answer_ok hm, Option.all_some] using h
      · exact mux_fresh hb (meets.ok hm').1 hr (by simp [hp, hq]) hle fuel origin
    | combineOr x y p q =>
      obtain ⟨⟨hx, hy, hp, hq⟩, hlt, inner, hr⟩ := hg
      have meets := or_meets hx hy (by omega)
      refine Agrees.bind (or_agrees hx hy (by omega)) (fun c _ hm hm' => ?_)
        fun _ _ _ hc => ⟨?_, fun c u hm' hle => ?_⟩
      · obtain ⟨-, hc, hcw, -⟩ := meets.ok hm'
        refine (ih hc hp hq (by omega)).mono fun h => ?_
        simp only [LogicProbe.answer_ok hm, Option.all_some, Bool.and_eq_true] at h
        exact h.2
      · simp only [Bool.and_eq_true] at hc
        exact hc.1
      · exact mux_fresh hb (meets.ok hm').1 hr (by simp [hp, hq]) hle fuel origin
    | factorElse x y z o a =>
      obtain ⟨⟨hx, hy, hz, ho, ha⟩, hlt⟩ := hg
      have meets := canonicalMux_meets fuel hb hx hy hz (by omega) origin
      refine Agrees.bind (ih hx hy hz (by omega)) (fun c _ hm hm' => ?_) fun _ _ hm h => ?_
      · obtain ⟨-, hc, hcw, -⟩ := meets.ok hm'
        refine (ih ho ha hc (by omega)).mono fun h => ?_
        simp only [LogicProbe.answer_ok hm, Option.any_some, Bool.and_eq_true] at h
        exact h.2
      · simp [LogicProbe.answer_error hm] at h
    | factorThen x y z o a =>
      obtain ⟨⟨hx, hy, hz, ho, ha⟩, hlt⟩ := hg
      have meets := canonicalMux_meets fuel hb hx hy hz (by omega) origin
      refine Agrees.bind (ih hx hy hz (by omega)) (fun c _ hm hm' => ?_) fun _ _ hm h => ?_
      · obtain ⟨-, hc, hcw, -⟩ := meets.ok hm'
        refine (ih ho hc ha (by omega)).mono fun h => ?_
        simp only [LogicProbe.answer_ok hm, Option.any_some, Bool.and_eq_true] at h
        exact h.2
      · simp [LogicProbe.answer_error hm] at h
    | intern x y z => exact (resolve_agrees hb _ _ _ _ _ _).mono fun _ => trivial

end Lockstep

/-! Queries. -/

inductive Query
  | and (left right : Lit)
  | or (left right : Lit)
  | xor (left right : Lit)
  | mux (select thenValue elseValue : Lit)
deriving DecidableEq

namespace Query

def ask : Query → ProbeM Lit
  | .and l r => LogicProbe.and l r
  | .or l r => LogicProbe.or l r
  | .xor l r => LogicProbe.xor l r
  | .mux s t e => LogicProbe.mux s t e

/-- The same request to the builder, under any origin. -/
def call (origin : Nat) : Query → Call
  | .and l r => .and l r origin
  | .or l r => .or l r origin
  | .xor l r => .xor l r origin
  | .mux s t e => .mux s t e origin

def args (q : Query) : List Lit := (q.call 0).args

def settled (p : LogicProbe) : Query → Bool
  | .and _ _ | .xor _ _ => true
  | .or l r => p.orSettled
      (p.muxSettled (weight p.network.nodes l + weight p.network.nodes r)) l r
  | .mux s t e => p.muxSettled
      (weight p.network.nodes s + weight p.network.nodes t + weight p.network.nodes e) s t e

theorem agrees (hb : Inv b) (q : Query) (hargs : ∀ a ∈ q.args, Valid b a) (origin : Nat) :
    Agrees b (q.settled b.probe = true) q.ask (q.call origin).exec := by
  cases q with
  | and l r => exact (canonicalAnd_agrees hb l r origin).mono fun _ => trivial
  | xor l r =>
    have hl := hargs l (by simp [args, call, Call.args])
    have hr := hargs r (by simp [args, call, Call.args])
    exact .get ((canonicalXor_agrees _ hb hl hr le_rfl origin).mono fun _ => trivial)
  | or l r =>
    have hl := hargs l (by simp [args, call, Call.args])
    have hr := hargs r (by simp [args, call, Call.args])
    exact .get <| canonicalOrWith_agrees hb hl hr origin fun s t e hs ht he h =>
      canonicalMux_agrees _ hb hs ht he h.le origin
  | mux s t e =>
    have hs := hargs s (by simp [args, call, Call.args])
    have ht := hargs t (by simp [args, call, Call.args])
    have he := hargs e (by simp [args, call, Call.args])
    exact .get (canonicalMux_agrees _ hb hs ht he le_rfl origin)

/-- The probe answers a query as a builder that continues from its network would:
with the same literal where that literal is already there, and `Absent` otherwise. -/
structure Exact (b : LogicBuilder) (q : Query) (origin : Nat) : Prop where
  present : ∀ l, (∃ p, q.ask.run b.probe = .ok l p) ↔
    (∃ t, (q.call origin).exec.run b = .ok l t) ∧ l.node < b.nodes.length
  absent : (∃ p, q.ask.run b.probe = .error (.error ⟨⟩) p) ↔
    ∀ l t, (q.call origin).exec.run b = .ok l t → b.nodes.length ≤ l.node

/-- A literal the probe reports is the builder's, which then adds no node. The
probe is exact unless a factoring rule waits for a multiplexer that is absent. -/
theorem probe_exact (h : Reachable b) (q : Query) (hargs : ∀ a ∈ q.args, Valid b a)
    (origin : Nat) :
    (∀ l p, q.ask.run b.probe = .ok l p →
      (q.call origin).exec.run b = .ok l b ∧ l.node < b.nodes.length) ∧
    (q.settled b.probe = true → Exact b q origin) := by
  have hb := h.inv
  have hagrees := q.agrees hb hargs origin
  have hvalid : ∀ a ∈ (q.call origin).args, Valid b a := by
    cases q <;> exact hargs
  unfold Agrees at hagrees
  cases hm : q.ask.run b.probe with
  | ok l p =>
    rw [hm] at hagrees
    obtain ⟨rfl, hrun⟩ := hagrees
    have hlt : l.node < b.nodes.length := ((Call.outcome hb _ hvalid).ok hrun).2.1.1
    refine ⟨fun l' p' hl => (by cases hl; exact ⟨hrun, hlt⟩), fun _ => ⟨fun l' => ⟨?_, ?_⟩, ?_, ?_⟩⟩
    · rintro ⟨p', hl⟩
      rw [hm] at hl
      cases hl
      exact ⟨⟨b, hrun⟩, hlt⟩
    · rintro ⟨⟨t, ht⟩, -⟩
      rw [hrun] at ht
      cases ht
      exact ⟨_, hm⟩
    · rintro ⟨p', hl⟩
      rw [hm] at hl
      cases hl
    · intro hnew
      have := hnew l b hrun
      omega
  | error e p =>
    rw [hm] at hagrees
    cases e with
    | fuel => exact hagrees.elim
    | error e =>
      refine ⟨fun _ _ hl => (by cases hl), fun hs => ⟨fun l' => ⟨?_, ?_⟩, ?_, ?_⟩⟩
      · rintro ⟨p', hl⟩
        rw [hm] at hl
        cases hl
      · rintro ⟨⟨t, ht⟩, hlt⟩
        have := hagrees hs l' t ht
        omega
      · intro _
        exact hagrees hs
      · intro _
        exact ⟨p, hm⟩

/-! Three inputs and three multiplexers that share a selector. -/

def sharedSelector : LogicBuilder :=
  ⟨(leaves 3).nodes ++ [⟨.mux, ⟨2, false⟩, ⟨1, false⟩, ⟨3, false⟩, 1, 0⟩,
    ⟨.mux, ⟨3, false⟩, ⟨2, false⟩, ⟨4, false⟩, 2, 0⟩,
    ⟨.mux, ⟨2, false⟩, ⟨5, false⟩, ⟨3, false⟩, 3, 0⟩],
    [(.mux ⟨2, false⟩ ⟨5, false⟩ ⟨3, false⟩, 6), (.mux ⟨3, false⟩ ⟨2, false⟩ ⟨4, false⟩, 5),
      (.mux ⟨2, false⟩ ⟨1, false⟩ ⟨3, false⟩, 4)]⟩

theorem reachable_sharedSelector : Reachable sharedSelector := by
  have start : Reachable (leaves 3) := reachable_leaves (by omega)
  have first : Reachable ⟨(leaves 3).nodes ++ [⟨.mux, ⟨2, false⟩, ⟨1, false⟩, ⟨3, false⟩, 1, 0⟩],
      [(.mux ⟨2, false⟩ ⟨1, false⟩ ⟨3, false⟩, 4)]⟩ :=
    .ok (c := .mux ⟨2, false⟩ ⟨1, false⟩ ⟨3, false⟩ 0) (l := ⟨4, false⟩)
      start (by simp [Call.args, Valid, leaves]) rfl
  have second := Reachable.ok (c := .mux ⟨3, false⟩ ⟨2, false⟩ ⟨4, false⟩ 0) (l := ⟨5, false⟩) first
    (by simp [Call.args, Valid, leaves]) rfl
  exact .ok (c := .mux ⟨2, false⟩ ⟨5, false⟩ ⟨3, false⟩ 0) (l := ⟨6, false⟩) second
    (by simp [Call.args, Valid, leaves]) rfl

theorem exact_sharedSelector : Exact sharedSelector (.mux ⟨1, false⟩ ⟨6, false⟩ ⟨3, true⟩) 0 :=
  (probe_exact reachable_sharedSelector (.mux ⟨1, false⟩ ⟨6, false⟩ ⟨3, true⟩)
    (by simp [args, call, Call.args, Valid, sharedSelector, leaves]) 0).2 rfl

/-- The probe misses the factored multiplexer and reports `Absent`; the builder
makes it, finds the outer one nested in it, and lands on node 4. -/
theorem not_exact_sharedSelector : Reachable sharedSelector ∧
    (∀ a ∈ [⟨3, true⟩, ⟨6, false⟩, ⟨4, false⟩], Valid sharedSelector a) ∧
    ¬Exact sharedSelector (.mux ⟨3, true⟩ ⟨6, false⟩ ⟨4, false⟩) 0 := by
  refine ⟨reachable_sharedSelector, by simp [Valid, sharedSelector, leaves], fun h => ?_⟩
  have missed : (ask (.mux ⟨3, true⟩ ⟨6, false⟩ ⟨4, false⟩)).run sharedSelector.probe =
      .error (.error ⟨⟩) sharedSelector.probe := rfl
  have found : ∃ t, (Call.mux ⟨3, true⟩ ⟨6, false⟩ ⟨4, false⟩ 0).exec.run sharedSelector =
      .ok ⟨4, false⟩ t := ⟨_, rfl⟩
  obtain ⟨t, ht⟩ := found
  have := h.absent.mp ⟨_, missed⟩ _ t ht
  exact absurd this (by decide)

end Query
end Opto.Logic
