import Opto.Frontend.ArenaSound

/-!
# Cofactors of predicates

What a restriction remembers for a literal has the literal's value wherever the condition has
the value assumed. A walk over the literals below a root computes what is missing.
-/

namespace Opto.Frontend.PredicateArena

open Logic Word

/-! The literals below a literal. -/

section Literals

variable {b : LogicBuilder} {l d : Lit} {n : Node}

/-- A positive literal rests on its node's fanins, an inverted one on the positive one. -/
def below (b : LogicBuilder) (l : Lit) : List Lit :=
  if l.isInverted then [l.positive] else (b.nodes[l.node]?.map Node.fanins).getD []

theorem below_positive (h : l.isInverted = false) (hn : b.nodes[l.node]? = some n) : below b l = n.fanins := by
  rw [below, h, hn]
  rfl

theorem below_inverted (h : l.isInverted = true) : below b l = [l.positive] := if_pos h

theorem code_below (hb : Logic.Inv b) (hd : d ∈ below b l) : d.code < l.code := by
  rw [below] at hd
  split_ifs at hd with hinverted
  · rw [List.mem_singleton.mp hd]
    simp [Lit.code, Lit.positive, hinverted]
  · cases hn : b.nodes[l.node]? with
    | none =>
      rw [hn] at hd
      cases hd
    | some n =>
      rw [hn] at hd
      have hlt := hb.topological l.node n hn d hd
      have hphase := Bool.toNat_le d.isInverted
      simp only [Lit.code]
      omega

/-- The literals of the nodes that have literals. -/
def literals (b : LogicBuilder) : List Lit :=
  (List.range (min b.nodes.length (2 ^ 31))).flatMap fun node => [⟨node, false⟩, ⟨node, true⟩]

theorem mem_literals : l ∈ literals b ↔ Valid b l := by
  obtain ⟨node, inverted⟩ := l
  simp only [literals, List.mem_flatMap, List.mem_range, Nat.lt_min, List.mem_cons, Lit.mk.injEq, List.not_mem_nil,
    or_false]
  constructor
  · rintro ⟨i, hi, ⟨rfl, -⟩ | ⟨rfl, -⟩⟩
    · exact hi
    · exact hi
  · intro h
    refine ⟨node, h, ?_⟩
    cases inverted <;> simp

theorem length_literals_le (b : LogicBuilder) : (literals b).length ≤ 2 * b.nodes.length := by
  have hlength : (literals b).length = min b.nodes.length (2 ^ 31) * 2 := by
    rw [literals, List.length_flatMap]
    simp
  have hmin := Nat.min_le_left b.nodes.length (2 ^ 31)
  omega

theorem valid_below (hb : Logic.Inv b) (hl : Valid b l) (hd : d ∈ below b l) : Valid b d := by
  rw [below] at hd
  split_ifs at hd with hinverted
  · rw [List.mem_singleton.mp hd]
    exact hl.positive
  · cases hn : b.nodes[l.node]? with
    | none =>
      rw [hn] at hd
      cases hd
    | some n =>
      rw [hn] at hd
      have hlt := hb.topological l.node n hn d hd
      exact ⟨Nat.lt_trans hlt hl.1, Nat.lt_trans hlt hl.2⟩

theorem length_below_le (b : LogicBuilder) (l : Lit) : (below b l).length ≤ 3 := by
  rw [below]
  split_ifs
  · rw [List.length_singleton]
    exact Nat.le_of_ble_eq_true rfl
  · cases b.nodes[l.node]? with
    | none => exact Nat.zero_le 3
    | some n =>
      rw [Option.map_some, Option.getD_some, Node.fanins, List.length_take]
      exact Nat.min_le_right _ _

theorem below_grows {t : LogicBuilder} (h : Logic.Grows b t) (hl : Valid b l) : below t l = below b l := by
  rw [below, below, getElem?_extends h.nodes hl.1]

/-- A gate waits below its fanins. -/
theorem postpone_ok {arena : PredicateArena} (hn : arena.builder.nodes[l.node]? = some n) :
    postpone arena l (List.range n.kind.arity) = .ok (n.fanins.map (·, false) ++ [(l, true)]) := by
  have hfanin (index : Nat) {f : Lit} (hf : arena.builder.fanin l.node index = some f) :
      arena.fanin l.node index = .ok f := by rw [PredicateArena.fanin, hf]
  have h0 := hfanin 0 (f := n.fanin0) (by rw [LogicBuilder.fanin, hn]; rfl)
  have h1 := hfanin 1 (f := n.fanin1) (by rw [LogicBuilder.fanin, hn]; rfl)
  have h2 := hfanin 2 (f := n.fanin2) (by rw [LogicBuilder.fanin, hn]; rfl)
  rw [postpone, Node.fanins]
  cases n.kind with
  | constant => rfl
  | input => rfl
  | and =>
    simp [NodeKind.arity, List.range, List.range.loop, h0, h1]
    rfl
  | xor =>
    simp [NodeKind.arity, List.range, List.range.loop, h0, h1]
    rfl
  | mux =>
    simp [NodeKind.arity, List.range, List.range.loop, h0, h1, h2]
    rfl

end Literals

/-! What a restriction remembers. -/

/-- The second literal has the first one's value wherever the condition has its value. -/
def Agrees (b : LogicBuilder) (r : PredicateRestriction) (l k : Lit) : Prop :=
  Valid b k ∧ ∀ g, networkValue b.freeze g r.condition = r.conditionValue →
    networkValue b.freeze g k = networkValue b.freeze g l

structure Cofactors (b : LogicBuilder) (r : PredicateRestriction) : Prop where
  condition : Valid b r.condition
  restricted : ∀ l k, r.restricted.get l = some k → Valid b l ∧ Agrees b r l k

section Restrict

variable {b t : LogicBuilder} {r : PredicateRestriction} {l k : Lit} {m : WordModule}

theorem Agrees.mono (hb : Logic.Inv b) (hgrows : Logic.Grows b t) (hcondition : Valid b r.condition) (hl : Valid b l)
    (h : Agrees b r l k) : Agrees t r l k := by
  refine ⟨hgrows.valid h.1, fun g hg => ?_⟩
  rw [networkValue_later hb hgrows hcondition] at hg
  rw [networkValue_later hb hgrows h.1, networkValue_later hb hgrows hl]
  exact h.2 g hg

theorem Cofactors.mono (hb : Logic.Inv b) (hgrows : Logic.Grows b t) (h : Cofactors b r) : Cofactors t r where
  condition := hgrows.valid h.condition
  restricted l k hk := by
    obtain ⟨hl, hagrees⟩ := h.restricted l k hk
    exact ⟨hgrows.valid hl, hagrees.mono hb hgrows h.condition hl⟩

theorem Cofactors.set (h : Cofactors b r) (hl : Valid b l) (hk : Agrees b r l k) :
    Cofactors b { r with restricted := r.restricted.set l k } where
  condition := h.condition
  restricted l' k' hget := by
    simp only [PhaseTable.get_set] at hget
    split_ifs at hget with heq
    · cases hget
      rw [heq]
      exact ⟨hl, hk⟩
    · exact h.restricted l' k' hget

/-- A new restriction has its condition only. -/
theorem cofactors_restriction {arena : PredicateArena} {condition : Predicate} {conditionValue : Bool}
    (hcondition : Valid arena.builder condition.literal) (h : restriction arena condition conditionValue = .ok r) :
    Cofactors arena.builder r ∧ r.condition = condition.literal ∧ r.conditionValue = conditionValue := by
  cases condition with
  | never => cases h
  | always => cases h
  | value literal =>
    cases h
    refine ⟨⟨hcondition, fun l k hget => ?_⟩, rfl, rfl⟩
    rw [PhaseTable.get] at hget
    obtain ⟨row, hrow, hentry⟩ := Option.bind_eq_some_iff.mp hget
    obtain ⟨-, rfl⟩ := List.mem_replicate.mp (List.mem_of_getElem? hrow)
    simp at hentry

/-! The walk. -/

/-- What a walk keeps: the network grew, and the restriction is the same one. -/
structure Restricting (s : PredicateArena × PredicateRestriction) (m : WordModule)
    (t : PredicateArena × PredicateRestriction) : Prop where
  kept : Kept s.1 m t.1
  cofactors : Cofactors t.1.builder t.2
  condition : t.2.condition = s.2.condition
  conditionValue : t.2.conditionValue = s.2.conditionValue

variable {s u : PredicateArena × PredicateRestriction}

def Restricted (s : PredicateArena × PredicateRestriction) (l : Lit) : Prop := (s.2.restricted.get l).isSome

theorem Restricting.trans (h : Restricting s m u) {w : PredicateArena × PredicateRestriction}
    (h' : Restricting u m w) : Restricting s m w :=
  ⟨h.kept.trans h'.kept, h'.cofactors, h'.condition.trans h.condition, h'.conditionValue.trans h.conditionValue⟩

theorem Restricting.refl (h : s.1.Sound m) (hr : Cofactors s.1.builder s.2) : Restricting s m s :=
  ⟨.refl h, hr, rfl, rfl⟩

/-- What a visit of a literal establishes. -/
def Visits (s : PredicateArena × PredicateRestriction) (m : WordModule) (x : Lit) (expanded : Bool)
    (visit : RestrictM (List (Lit × Bool))) : Prop :=
  Outcome s visit
    (fun pushed t => Restricting s m t ∧ Visited (below s.1.builder) x expanded (Restricted s) (Restricted t) pushed)
    fun e t => Refused e ∧ Restricting s m t

theorem finishRestricted_visits (h : Restricting s m u) (hsame : u.2 = s.2) {expanded : Bool} (hl : Valid u.1.builder l)
    (hk : Agrees u.1.builder u.2 l k) : Outcome u (finishRestricted l k)
      (fun pushed t => Restricting s m t ∧ Visited (below s.1.builder) l expanded (Restricted s) (Restricted t) pushed)
      fun e t => Refused e ∧ Restricting s m t := by
  refine ⟨⟨h.kept, h.cofactors.set hl hk, h.condition, h.conditionValue⟩, fun y hy => ?_, .inl ⟨rfl, ?_⟩⟩
  · simp only [Restricted, PhaseTable.get_set, hsame]
    split_ifs
    · rfl
    · exact hy
  · simp only [Restricted, PhaseTable.get_set_self]
    rfl

theorem restrictedFanin_outcome {i index : Nat} {f : Lit} (hf : s.1.builder.fanin i index = some f)
    (hk : s.2.restricted.get f = some k) {E : Halt SynthError → PredicateArena × PredicateRestriction → Prop} :
    Outcome s (restrictedFanin i index) (fun a t => a = k ∧ t = s) E := by
  apply Outcome.get
  have hfanin : s.1.fanin i index = .ok f := by rw [PredicateArena.fanin, hf]
  simp only [hfanin, raise]
  apply Outcome.bind (Outcome.pure (Q := fun a t => a = f ∧ t = s) ⟨rfl, rfl⟩) ?_ fun _ _ he => he
  rintro _ _ ⟨rfl, rfl⟩
  rw [hk]
  exact ⟨rfl, rfl⟩

/-- A call on the network in the middle of a walk. -/
theorem restrictNetwork_outcome (h : Restricting s m u) {c : Call} (hc : c.Connects)
    (hargs : ∀ a ∈ c.args, Valid u.1.builder a) :
    Outcome u (restrictNetwork c.exec) (fun l t => (Restricting s m t ∧ t.2 = u.2) ∧
        Logic.Grows u.1.builder t.1.builder ∧
        Denotes t.1.builder l fun g => c.denote false (networkValue u.1.builder.freeze g))
      fun e t => Refused e ∧ Restricting s m t := by
  have hsound := h.kept.sound
  have hnext {b : LogicBuilder} (hgrows : Logic.Grows u.1.builder b) (hgates : AddsGates u.1.builder b) :
      Restricting s m ({ u.1 with builder := b }, u.2) :=
    ⟨⟨hsound.addGates hgrows hgates, h.kept.grows.trans hgrows⟩, h.cofactors.mono hsound.builder hgrows, h.condition,
      h.conditionValue⟩
  apply outcome_zoom (fun s : PredicateArena × PredicateRestriction => s.1.builder) (c.connects_denotes hsound.builder hc hargs)
  · exact fun l t ⟨⟨hgrows, hgates⟩, hl⟩ => ⟨⟨hnext hgrows hgates, rfl⟩, hgrows, hl⟩
  · exact fun e t ⟨hfuel, hgrows, hgates⟩ => ⟨refused_toCapacity hfuel, hnext hgrows hgates⟩

/-- A gate's cofactor is its function of the cofactors of its fanins. -/
theorem restrictGate_visits (h : s.1.Sound m) (hr : Cofactors s.1.builder s.2) {c : Call} (hc : c.Connects) {expanded : Bool}
    (hl : Valid s.1.builder l) (hargs : ∀ a ∈ c.args, Valid s.1.builder a)
    (hagrees : ∀ g, networkValue s.1.builder.freeze g s.2.condition = s.2.conditionValue →
      c.denote false (networkValue s.1.builder.freeze g) = networkValue s.1.builder.freeze g l) :
    Visits s m l expanded (restrictNetwork c.exec >>= finishRestricted l) := by
  have hstart : Restricting s m s := .refl h hr
  apply Outcome.bind (restrictNetwork_outcome hstart hc hargs)
  · intro k t ⟨⟨ht, hsame⟩, hgrows, hk⟩
    apply finishRestricted_visits ht hsame (hgrows.valid hl)
    refine ⟨hk.valid, fun g hg => ?_⟩
    rw [hsame, networkValue_later h.builder hgrows hr.condition] at hg
    rw [hk.value, networkValue_later h.builder hgrows hl]
    exact hagrees g hg
  · exact fun _ _ he => he

variable {n : Node} {expanded : Bool}

/-- The cofactor of a fanin. -/
theorem fanin_agrees (hr : Cofactors s.1.builder s.2) {f : Lit} (hf : Restricted s f) :
    ∃ k, s.2.restricted.get f = some k ∧ Agrees s.1.builder s.2 f k := by
  obtain ⟨k, hk⟩ := Option.isSome_iff_exists.mp hf
  exact ⟨k, hk, (hr.restricted f k hk).2⟩

theorem restrictNode_visits (h : s.1.Sound m) (hr : Cofactors s.1.builder s.2) (hl : Valid s.1.builder l)
    (hpositive : l.isInverted = false) (hn : s.1.builder.nodes[l.node]? = some n)
    (hfanins : ∀ f ∈ n.fanins, Restricted s f) : Visits s m l expanded (restrictNode l n.kind) := by
  have hvalue (g : Nat → Bool) : networkValue s.1.builder.freeze g l = n.denote (g n.origin) (networkValue s.1.builder.freeze g) := by
    have hnode := @networkValue_node s.1.builder.freeze h.builder.topological _ _ hn g
    rwa [← Lit.positive, Lit.positive_of_not_inverted hpositive] at hnode
  have hstart : Restricting s m s := .refl h hr
  have h0 : s.1.builder.fanin l.node 0 = some n.fanin0 := by rw [LogicBuilder.fanin, hn]; rfl
  have h1 : s.1.builder.fanin l.node 1 = some n.fanin1 := by rw [LogicBuilder.fanin, hn]; rfl
  have h2 : s.1.builder.fanin l.node 2 = some n.fanin2 := by rw [LogicBuilder.fanin, hn]; rfl
  cases hkind : n.kind with
  | constant =>
    apply finishRestricted_visits hstart rfl hl
    refine ⟨(denotes_constant h.builder false).valid, fun g _ => ?_⟩
    rw [hvalue, Node.denote, hkind]
    exact (denotes_constant h.builder false).value g
  | input => exact finishRestricted_visits hstart rfl hl ⟨hl, fun _ _ => rfl⟩
  | and =>
    obtain ⟨k0, hk0, hv0, ha0⟩ := fanin_agrees hr (hfanins n.fanin0 (by simp [Node.fanins, hkind, NodeKind.arity]))
    obtain ⟨k1, hk1, hv1, ha1⟩ := fanin_agrees hr (hfanins n.fanin1 (by simp [Node.fanins, hkind, NodeKind.arity]))
    apply Outcome.bind (restrictedFanin_outcome h0 hk0) ?_ fun _ _ he => he
    rintro _ _ ⟨rfl, rfl⟩
    apply Outcome.bind (restrictedFanin_outcome h1 hk1) ?_ fun _ _ he => he
    rintro _ _ ⟨rfl, rfl⟩
    apply restrictGate_visits h hr (c := .and _ _ 0) trivial hl
    · simp [Call.args, hv0, hv1]
    · intro g hg
      rw [hvalue, Node.denote, hkind, Call.denote, ha0 g hg, ha1 g hg]
  | xor =>
    obtain ⟨k0, hk0, hv0, ha0⟩ := fanin_agrees hr (hfanins n.fanin0 (by simp [Node.fanins, hkind, NodeKind.arity]))
    obtain ⟨k1, hk1, hv1, ha1⟩ := fanin_agrees hr (hfanins n.fanin1 (by simp [Node.fanins, hkind, NodeKind.arity]))
    apply Outcome.bind (restrictedFanin_outcome h0 hk0) ?_ fun _ _ he => he
    rintro _ _ ⟨rfl, rfl⟩
    apply Outcome.bind (restrictedFanin_outcome h1 hk1) ?_ fun _ _ he => he
    rintro _ _ ⟨rfl, rfl⟩
    apply restrictGate_visits h hr (c := .xor _ _ 0) trivial hl
    · simp [Call.args, hv0, hv1]
    · intro g hg
      rw [hvalue, Node.denote, hkind, Call.denote, ha0 g hg, ha1 g hg]
  | mux =>
    obtain ⟨k0, hk0, hv0, ha0⟩ := fanin_agrees hr (hfanins n.fanin0 (by simp [Node.fanins, hkind, NodeKind.arity]))
    obtain ⟨k1, hk1, hv1, ha1⟩ := fanin_agrees hr (hfanins n.fanin1 (by simp [Node.fanins, hkind, NodeKind.arity]))
    obtain ⟨k2, hk2, hv2, ha2⟩ := fanin_agrees hr (hfanins n.fanin2 (by simp [Node.fanins, hkind, NodeKind.arity]))
    apply Outcome.bind (restrictedFanin_outcome h0 hk0) ?_ fun _ _ he => he
    rintro _ _ ⟨rfl, rfl⟩
    apply Outcome.bind (restrictedFanin_outcome h1 hk1) ?_ fun _ _ he => he
    rintro _ _ ⟨rfl, rfl⟩
    apply Outcome.bind (restrictedFanin_outcome h2 hk2) ?_ fun _ _ he => he
    rintro _ _ ⟨rfl, rfl⟩
    apply restrictGate_visits h hr (c := .mux _ _ _ 0) trivial hl
    · simp [Call.args, hv0, hv1, hv2]
    · intro g hg
      rw [hvalue, Node.denote, hkind, Call.denote, ha0 g hg, ha1 g hg, ha2 g hg]

/-- A node or literal that is not finished is pushed back below what it rests on. -/
theorem visits_postponed (h : s.1.Sound m) (hr : Cofactors s.1.builder s.2) (hexpanded : expanded = false)
    (hopen : ¬Restricted s l) {pushed : List (Lit × Bool)}
    (hpushed : pushed = (below s.1.builder l).map (·, false) ++ [(l, true)]) :
    Visits s m l expanded (pure pushed) :=
  ⟨.refl h hr, fun _ hy => hy, .inr ⟨hexpanded, hopen, hpushed⟩⟩

theorem restrictPositive_visits (h : s.1.Sound m) (hr : Cofactors s.1.builder s.2) (hl : Valid s.1.builder l)
    (hopen : ¬Restricted s l) (hpositive : l.isInverted = false)
    (hdone : expanded = true → ∀ d ∈ below s.1.builder l, Restricted s d) :
    Visits s m l expanded (restrictPositive l expanded) := by
  obtain ⟨n, hn⟩ : ∃ n, s.1.builder.nodes[l.node]? = some n := ⟨_, List.getElem?_eq_getElem hl.1⟩
  have hbelow := below_positive hpositive hn
  have hkind : s.1.builder.kind l.node = some n.kind := by rw [LogicBuilder.kind, hn]; rfl
  apply Outcome.get
  simp only [hkind]
  split_ifs with hpush
  · rw [Bool.and_eq_true, Bool.not_eq_true'] at hpush
    rw [postpone_ok hn]
    exact visits_postponed h hr hpush.1 hopen (by rw [hbelow])
  · apply restrictNode_visits h hr hl hpositive hn
    intro f hf
    cases expanded with
    | true => exact hdone rfl f (hbelow ▸ hf)
    | false =>
      -- a node that is not pushed back has no fanins
      have hgate : ¬(n.kind = .and ∨ n.kind = .xor ∨ n.kind = .mux) := by simpa using hpush
      rw [Node.fanins] at hf
      cases hk : n.kind with
      | constant =>
        rw [hk] at hf
        cases hf
      | input =>
        rw [hk] at hf
        cases hf
      | and => exact absurd (.inl hk) hgate
      | xor => exact absurd (.inr (.inl hk)) hgate
      | mux => exact absurd (.inr (.inr hk)) hgate

theorem restrictInverted_visits (h : s.1.Sound m) (hr : Cofactors s.1.builder s.2) (hl : Valid s.1.builder l)
    (hopen : ¬Restricted s l) (hinverted : l.isInverted = true)
    (hdone : expanded = true → ∀ d ∈ below s.1.builder l, Restricted s d) :
    Visits s m l expanded (restrictInverted l expanded) := by
  have hbelow := below_inverted (b := s.1.builder) hinverted
  cases expanded with
  | false => exact visits_postponed h hr rfl hopen (by rw [hbelow]; rfl)
  | true =>
    obtain ⟨k, hk, hvalid, hagrees⟩ := fanin_agrees hr (hdone rfl l.positive (by rw [hbelow]; exact List.mem_singleton_self _))
    apply Outcome.get
    simp only [Bool.not_true, Bool.false_eq_true, if_false, hk]
    apply finishRestricted_visits (.refl h hr) rfl hl
    refine ⟨hvalid.inverted, fun g hg => ?_⟩
    rw [networkValue_inverted, hagrees g hg, ← networkValue_inverted, Lit.inverted_positive_of_inverted hinverted]

theorem restrictVisit_visits (h : s.1.Sound m) (hr : Cofactors s.1.builder s.2) (hl : Valid s.1.builder l)
    (hdone : expanded = true → ∀ d ∈ below s.1.builder l, Restricted s d) :
    Visits s m l expanded (restrictVisit l expanded) := by
  have hstart : Restricting s m s := .refl h hr
  have hconstant (bit : Bool) := denotes_constant h.builder bit
  apply Outcome.get
  split_ifs with hknown hcondition hinverse hnode hinverted
  · exact ⟨hstart, fun _ hy => hy, .inl ⟨rfl, hknown⟩⟩
  · apply finishRestricted_visits hstart rfl hl
    exact ⟨(hconstant _).valid, fun g hg => by rw [(hconstant _).value, hcondition, hg]⟩
  · apply finishRestricted_visits hstart rfl hl
    exact ⟨(hconstant _).valid, fun g hg => by rw [(hconstant _).value, hinverse, networkValue_inverted, hg]⟩
  · exact finishRestricted_visits hstart rfl hl ⟨hl, fun _ _ => rfl⟩
  · exact restrictInverted_visits h hr hl hknown hinverted hdone
  · exact restrictPositive_visits h hr hl hknown (Bool.eq_false_iff.mpr hinverted) hdone

/-- Whatever happened during the walk, a literal of its start is visited as it was there. -/
theorem Restricting.visits (h : Restricting s m u) {x : Lit} (hx : x ∈ literals s.1.builder)
    (hdone : expanded = true → ∀ d ∈ below s.1.builder x, Restricted u d) :
    Outcome u (restrictVisit x expanded) (fun pushed t => Restricting s m t ∧
        Visited (below s.1.builder) x expanded (Restricted u) (Restricted t) pushed)
      fun e t => Refused e ∧ Restricting s m t := by
  have hvalid := mem_literals.mp hx
  have hbelow := below_grows h.kept.grows hvalid
  apply Outcome.mono (restrictVisit_visits h.kept.sound h.cofactors (h.kept.grows.valid hvalid) (by rwa [hbelow]))
  · intro pushed t ⟨ht, hvisited⟩
    refine ⟨h.trans ht, ?_⟩
    rwa [Visited, hbelow] at hvisited
  · exact fun e t ⟨he, ht⟩ => ⟨he, h.trans ht⟩

theorem restrictFrom_outcome (h : s.1.Sound m) (hr : Cofactors s.1.builder s.2) {root : Lit} (hroot : Valid s.1.builder root) :
    Outcome s (restrictFrom root) (fun p t => Restricting s m t ∧ Agrees t.1.builder t.2 root p.literal)
      fun e t => Refused e ∧ Restricting s m t := by
  apply Outcome.get
  have hbudget : (3 + 2) * (literals s.1.builder).length < s.1.traversalBudget := by
    have hle := length_literals_le s.1.builder
    rw [traversalBudget, LogicBuilder.nodeCount]
    omega
  have hvisit (u : PredicateArena × PredicateRestriction) (hu : Restricting s m u) (x : Lit)
      (hx : x ∈ literals s.1.builder) (expanded : Bool)
      (hdone : expanded = true → ∀ d ∈ below s.1.builder x, Restricted u d) := hu.visits hx hdone
  have hwalk : Outcome s (traverse .fuel restrictVisit s.1.traversalBudget [(root, false)])
      (fun _ t => Restricting s m t ∧ Restricted t root) fun e t => Refused e ∧ Restricting s m t :=
    traverse_outcome (fun _ _ hd => code_below h.builder hd)
      (fun _ hx _ hd => mem_literals.mpr (valid_below h.builder (mem_literals.mp hx) hd)) (length_below_le _)
      hvisit (.refl h hr) (mem_literals.mpr hroot) hbudget
  apply Outcome.bind hwalk ?_ fun _ _ he => he
  rintro _ t ⟨ht, hdone⟩
  apply Outcome.get
  obtain ⟨k, hk⟩ := Option.isSome_iff_exists.mp hdone
  simp only [hk]
  refine ⟨ht, ?_⟩
  have hagrees := (ht.cofactors.restricted root k hk).2
  split_ifs with hsame
  · exact hsame ▸ hagrees
  · rwa [Predicate.literal_fromLiteral]

/-- The cofactor of a predicate has its value wherever the condition has the value assumed. -/
theorem restrict_outcome (h : s.1.Sound m) (hr : Cofactors s.1.builder s.2) {p : Predicate} (hp : Valid s.1.builder p.literal) :
    Outcome s (restrict p) (fun q t => Restricting s m t ∧ Agrees t.1.builder t.2 p.literal q.literal)
      fun e t => Refused e ∧ Restricting s m t := by
  have hsame (q : Predicate) (hq : q.literal = p.literal) : Restricting s m s ∧ Agrees s.1.builder s.2 p.literal q.literal :=
    ⟨.refl h hr, hq ▸ hp, fun _ _ => by rw [hq]⟩
  cases p with
  | never => exact hsame .never rfl
  | always => exact hsame .always rfl
  | value root =>
    apply Outcome.get
    cases hknown : s.2.restricted.get root with
    | some k =>
      refine ⟨.refl h hr, ?_⟩
      rw [Predicate.literal_fromLiteral]
      exact (hr.restricted root k hknown).2
    | none => exact restrictFrom_outcome h hr hp

end Restrict

end Opto.Frontend.PredicateArena
