import Opto.Frontend.PredicateSound

/-!
# What the arena remembers

Every literal that is remembered for a word value has that value's truth, every input stands
for its source, and every atom's variable for the atom in the polarity of its source.
-/

namespace Opto.Frontend

open Logic Word

def SynthError.IsCapacity : SynthError → Prop
  | .capacity _ => True
  | .word e => e = .invariant "value ID exceeds 32-bit capacity" ∨ e = .invariant "operation ID exceeds 32-bit capacity"
  | .invariant _ => False

/-- The arenas' 32-bit capacities are the only errors. -/
def Refused (e : Halt SynthError) : Prop := ∃ error, e = .error error ∧ error.IsCapacity

def Atom.truth (value signal : Nat → Bits) : Atom → Bool
  | .signal reference => referred signal reference
  | .value v => (value v).truth

namespace PredicateArena

structure Sound (arena : PredicateArena) (m : WordModule) : Prop where
  builder : Logic.Inv arena.builder
  sourcesFit : arena.inputSources.length ≤ arena.builder.nodes.length
  cachedFit : arena.materialized.length ≤ arena.builder.nodes.length
  cached : ∀ l v, arena.cached l = some v → Represents arena.builder m l v
  represented : ∀ v l, arena.represented.lookup v = some l → Represents arena.builder m l v
  sources : ∀ (i : Nat) (node : Node), arena.builder.nodes[i]? = some node → node.kind = .input → i < 2 ^ 31 →
    arena.inputSources[i]? = some (some node.origin) ∧ OneBit m node.origin
  atoms : ∀ atom known, arena.atoms.lookup atom = some known →
    Means arena.builder m known.literal fun value signal => atom.truth value signal == known.sourceActiveHigh

/-- What a call leaves behind. -/
structure Kept (arena : PredicateArena) (m : WordModule) (t : PredicateArena) : Prop where
  sound : t.Sound m
  grows : Logic.Grows arena.builder t.builder

variable {arena t u : PredicateArena} {m m' : WordModule} {l : Lit} {v : Nat}

theorem Kept.refl (h : arena.Sound m) : Kept arena m arena := ⟨h, .refl h.builder⟩

theorem Kept.trans (h : Kept arena m t) (h' : Kept t m u) : Kept arena m u := ⟨h'.sound, h.grows.trans h'.grows⟩

theorem Sound.new (m : WordModule) : new.Sound m where
  builder := inv_new
  sourcesFit := le_rfl
  cachedFit := le_rfl
  cached l v h := by
    obtain ⟨_ | node, inverted⟩ := l
    · cases inverted <;> cases h
    · cases h
  represented v l h := by cases h
  sources i node hnode hkind _ := by
    rcases i with _ | i
    · cases hnode
      cases hkind
    · cases hnode
  atoms atom known h := by cases h

theorem Sound.mono (hext : m.Extends m') (h : arena.Sound m) : arena.Sound m' where
  builder := h.builder
  sourcesFit := h.sourcesFit
  cachedFit := h.cachedFit
  cached l v hl := (h.cached l v hl).mono h.builder (.refl h.builder) hext
  represented v l hl := (h.represented v l hl).mono h.builder (.refl h.builder) hext
  sources i node hnode hkind hi := by
    obtain ⟨hsource, hone⟩ := h.sources i node hnode hkind hi
    exact ⟨hsource, hone.mono hext⟩
  atoms atom known hk := (h.atoms atom known hk).mono h.builder (.refl h.builder) hext

/-- The network grew, by nodes that are no input or have no literal. -/
theorem Sound.withBuilder (h : arena.Sound m) {b : LogicBuilder} (hgrows : Logic.Grows arena.builder b)
    (hinputs : ∀ (i : Nat) (node : Node), b.nodes[i]? = some node → node.kind = .input → i < 2 ^ 31 →
      arena.builder.nodes[i]? = some node) : Sound { arena with builder := b } m where
  builder := hgrows.inv
  sourcesFit := h.sourcesFit.trans hgrows.nodes.length_le
  cachedFit := h.cachedFit.trans hgrows.nodes.length_le
  cached l v hl := (h.cached l v hl).mono h.builder hgrows (.refl m)
  represented v l hl := (h.represented v l hl).mono h.builder hgrows (.refl m)
  sources i node hnode hkind hi := h.sources i node (hinputs i node hnode hkind hi) hkind hi
  atoms atom known hk := (h.atoms atom known hk).mono h.builder hgrows (.refl m)

theorem Sound.rememberRepresentation (h : arena.Sound m) (hl : Represents arena.builder m l v) :
    (arena.rememberRepresentation v l).Sound m :=
  { h with
    represented := by
      intro w k hk
      rw [PredicateArena.rememberRepresentation, List.lookup_cons] at hk
      split at hk
      · rename_i heq
        cases hk
        exact eq_of_beq heq ▸ hl
      · exact h.represented w k hk }

theorem Sound.setCached (h : arena.Sound m) (hl : Represents arena.builder m l v) :
    (arena.setCached l v).Sound m := by
  have hset : Sound { arena with materialized := arena.materialized.set l v } m :=
    { h with
      cachedFit := by
        have hlt := hl.means.valid.1
        have hfit := h.cachedFit
        simp only [PhaseTable.length_set]
        omega
      cached := by
        intro k w hk
        rw [PredicateArena.cached, PhaseTable.get_set] at hk
        split_ifs at hk with heq
        · cases hk
          exact heq ▸ hl
        · exact h.cached k w hk }
  exact hset.rememberRepresentation hl

theorem Sound.rememberWord (h : arena.Sound m) (hl : Represents arena.builder m l v) :
    (arena.rememberWord v l).Sound m := by
  rw [PredicateArena.rememberWord]
  split_ifs
  · exact h.setCached hl
  · exact h.rememberRepresentation hl

@[simp] theorem builder_rememberWord : (arena.rememberWord v l).builder = arena.builder := by
  rw [PredicateArena.rememberWord]
  split_ifs <;> rfl

@[simp] theorem builder_setCached : (arena.setCached l v).builder = arena.builder := rfl

end PredicateArena

@[simp] theorem Predicate.literal_fromLiteral (l : Lit) : (Predicate.fromLiteral l).literal = l := by
  rw [fromLiteral]
  split_ifs with hfalse htrue
  · exact hfalse.symm
  · exact htrue.symm
  · rfl

namespace PredicateArena

section Calls

variable {arena : PredicateArena} {m : WordModule} {f g : (Nat → Bits) → (Nat → Bits) → Bool}

theorem refused_toCapacity {e : Halt LogicError} (h : e ≠ .fuel) : Refused (toCapacity e) := by
  cases e with
  | fuel => exact absurd rfl h
  | error e => exact ⟨_, rfl, trivial⟩

/-- From a sound arena, the call keeps what is remembered, and only capacity can stop it. -/
def Keeps {α : Type} (arena : PredicateArena) (m : WordModule) (call : ArenaM α)
    (Q : α → PredicateArena → Prop) : Prop :=
  Outcome arena call (fun a t => Kept arena m t ∧ Q a t) fun e t => Refused e ∧ Kept arena m t

theorem Keeps.pure {α : Type} {Q : α → PredicateArena → Prop} {a : α} (h : arena.Sound m) (hQ : Q a arena) :
    Keeps arena m (Pure.pure a) Q := ⟨.refl h, hQ⟩

theorem Keeps.bind {α β : Type} {call : ArenaM α} {k : α → ArenaM β} {Q : α → PredicateArena → Prop}
    {R : β → PredicateArena → Prop} (h : Keeps arena m call Q)
    (hk : ∀ a t, Kept arena m t → Q a t → Keeps t m (k a) R) : Keeps arena m (call >>= k) R := by
  apply Outcome.bind h
  · intro a t ⟨hkept, ha⟩
    apply Outcome.mono (hk a t hkept ha)
    · exact fun b u ⟨hu, hb⟩ => ⟨hkept.trans hu, hb⟩
    · exact fun e u ⟨he, hu⟩ => ⟨he, hkept.trans hu⟩
  · exact fun _ _ he => he

theorem Keeps.map {α β : Type} {call : ArenaM α} {k : α → β} {Q : α → PredicateArena → Prop}
    {R : β → PredicateArena → Prop} (h : Keeps arena m call Q)
    (hk : ∀ a t, Kept arena m t → Q a t → R (k a) t) : Keeps arena m (k <$> call) R :=
  Outcome.map h fun a t ⟨hkept, ha⟩ => ⟨hkept, hk a t hkept ha⟩

theorem Keeps.mono {α : Type} {call : ArenaM α} {Q R : α → PredicateArena → Prop} (h : Keeps arena m call Q)
    (hQ : ∀ a t, Kept arena m t → Q a t → R a t) : Keeps arena m call R :=
  Outcome.mono h (fun a t ⟨hkept, ha⟩ => ⟨hkept, hQ a t hkept ha⟩) fun _ _ he => he

theorem Sound.addGates (h : arena.Sound m) {b : LogicBuilder} (hgrows : Logic.Grows arena.builder b)
    (hgates : AddsGates arena.builder b) : Sound { arena with builder := b } m := by
  refine h.withBuilder hgrows fun i node hnode hkind _ => ?_
  exact hgates.old hnode (by rw [hkind]; rintro (hk | hk | hk) <;> cases hk)

theorem network_keeps (h : arena.Sound m) {c : Call} (hc : c.Connects) (hargs : ∀ a ∈ c.args, Valid arena.builder a) :
    Keeps arena m (network c.exec) fun l t =>
      Denotes t.builder l fun assigned => c.denote false (networkValue arena.builder.freeze assigned) := by
  apply outcome_zoom PredicateArena.builder (c.connects_denotes h.builder hc hargs)
  · exact fun l t ⟨⟨hgrows, hgates⟩, hl⟩ => ⟨⟨h.addGates hgrows hgates, hgrows⟩, hl⟩
  · exact fun e t ⟨hfuel, hgrows, hgates⟩ => ⟨refused_toCapacity hfuel, h.addGates hgrows hgates, hgrows⟩

variable {left right : Predicate}

/-- A binary call on two predicates. -/
theorem networkPair_keeps (h : arena.Sound m) {c : Call} (hc : c.Connects) (hargs : c.args = [left.literal, right.literal])
    (hleft : Means arena.builder m left.literal f) (hright : Means arena.builder m right.literal g)
    {op : Bool → Bool → Bool} (hop : ∀ v, c.denote false v = op (v left.literal) (v right.literal)) :
    Keeps arena m (Predicate.fromLiteral <$> network c.exec) fun p t =>
      Means t.builder m p.literal fun value signal => op (f value signal) (g value signal) := by
  have hvalid : ∀ a ∈ c.args, Valid arena.builder a := by
    rw [hargs]
    intro a ha
    rcases List.mem_cons.mp ha with rfl | ha
    · exact hleft.valid
    · exact List.mem_singleton.mp ha ▸ hright.valid
  apply Keeps.map (network_keeps h hc hvalid)
  intro l t _ hl
  rw [Predicate.literal_fromLiteral]
  apply means_of_denotes hl
  intro value signal he
  rw [hop, hleft.value value signal he, hright.value value signal he]

theorem means_of_eq {l : Lit} (bit : Bool) (h : arena.Sound m) (hl : l = LogicBuilder.constant bit)
    (hf : Means arena.builder m l f) (value signal : Nat → Bits) (he : Evaluates m value signal) :
    f value signal = bit := by
  subst hl
  rw [← hf.value value signal he, (means_constant h.builder m bit).value value signal he]

theorem and_keeps (h : arena.Sound m) (hleft : Means arena.builder m left.literal f)
    (hright : Means arena.builder m right.literal g) : Keeps arena m (PredicateArena.and left right) fun p t =>
      Means t.builder m p.literal fun value signal => f value signal && g value signal := by
  rw [PredicateArena.and]
  split_ifs with hfalse hl hr
  · refine .pure h ((means_constant h.builder m false).congr fun value signal he => ?_)
    rcases hfalse with hl | hr
    · rw [means_of_eq false h hl hleft value signal he, Bool.false_and]
    · rw [means_of_eq false h hr hright value signal he, Bool.and_false]
  · refine .pure h (hright.congr fun value signal he => ?_)
    rw [means_of_eq true h hl hleft value signal he, Bool.true_and]
  · refine .pure h (hleft.congr fun value signal he => ?_)
    rw [means_of_eq true h hr hright value signal he, Bool.and_true]
  · exact networkPair_keeps h (c := .and left.literal right.literal 0) trivial rfl hleft hright fun _ => rfl

theorem or_keeps (h : arena.Sound m) (hleft : Means arena.builder m left.literal f)
    (hright : Means arena.builder m right.literal g) : Keeps arena m (PredicateArena.or left right) fun p t =>
      Means t.builder m p.literal fun value signal => f value signal || g value signal := by
  rw [PredicateArena.or]
  split_ifs with htrue hl hr
  · refine .pure h ((means_constant h.builder m true).congr fun value signal he => ?_)
    rcases htrue with hl | hr
    · rw [means_of_eq true h hl hleft value signal he, Bool.true_or]
    · rw [means_of_eq true h hr hright value signal he, Bool.or_true]
  · refine .pure h (hright.congr fun value signal he => ?_)
    rw [means_of_eq false h hl hleft value signal he, Bool.false_or]
  · refine .pure h (hleft.congr fun value signal he => ?_)
    rw [means_of_eq false h hr hright value signal he, Bool.or_false]
  · exact networkPair_keeps h (c := .or left.literal right.literal 0) trivial rfl hleft hright fun _ => rfl

theorem xor_keeps (h : arena.Sound m) (hleft : Means arena.builder m left.literal f)
    (hright : Means arena.builder m right.literal g) : Keeps arena m (PredicateArena.xor left right) fun p t =>
      Means t.builder m p.literal fun value signal => f value signal ^^ g value signal :=
  networkPair_keeps h (c := .xor left.literal right.literal 0) trivial rfl hleft hright fun _ => rfl

theorem not_means {p : Predicate} (hp : Means arena.builder m p.literal f) :
    Means arena.builder m p.not.literal fun value signal => !f value signal := by
  rw [Predicate.not, Predicate.literal_fromLiteral]
  exact hp.inverted

/-! Variables. -/

theorem lookup_cons_some {α β : Type} [BEq α] [LawfulBEq α] {key other : α} {entry found : β} {rest : List (α × β)}
    (h : ((key, entry) :: rest).lookup other = some found) :
    other = key ∧ found = entry ∨ rest.lookup other = some found := by
  rw [List.lookup_cons] at h
  split at h
  · rename_i heq
    cases h
    exact .inl ⟨eq_of_beq heq, rfl⟩
  · exact .inr h

/-- A fresh input stands for its source, which decides the atom. -/
theorem Sound.declare {b : LogicBuilder} {l : Lit} {atom : Atom} {source : Nat} {activeHigh : Bool} (h : arena.Sound m)
    (hgrows : Logic.Grows arena.builder b) (hone : OneBit m source)
    (htruth : ∀ value signal, Evaluates m value signal → (value source).truth = (atom.truth value signal == activeHigh))
    {level : Nat} (hl : l = ⟨arena.builder.nodes.length, false⟩)
    (hb : b.nodes = arena.builder.nodes ++ [⟨.input, .FALSE, .FALSE, .FALSE, level, source⟩])
    (hmeans : Means b m l fun value _ => (value source).truth) :
    (({ arena with builder := b } : PredicateArena).declare atom source activeHigh l).Sound m := by
  have hfit := h.sourcesFit
  have hlength : b.nodes.length = arena.builder.nodes.length + 1 := by rw [hb, List.length_append]; rfl
  exact {
    builder := hgrows.inv
    sourcesFit := by
      simp only [PredicateArena.declare, List.length_set, List.takeD_length]
      exact le_rfl
    cachedFit := h.cachedFit.trans hgrows.nodes.length_le
    cached := fun k v hk => (h.cached k v hk).mono h.builder hgrows (.refl m)
    represented := fun v k hk => (h.represented v k hk).mono h.builder hgrows (.refl m)
    sources := by
      intro i node hnode hkind hi
      have hlt : i < b.nodes.length := (List.getElem?_eq_some_iff.mp hnode).1
      have hrow : b.nodes[i]? = some node := hnode
      rw [hb] at hrow
      simp only [PredicateArena.declare, LogicBuilder.nodeCount, hl]
      by_cases hnew : i = arena.builder.nodes.length
      · subst hnew
        rw [List.getElem?_concat_length, Option.some.injEq] at hrow
        rw [List.getElem?_set_self (by rw [List.takeD_length]; exact hlt), ← hrow]
        exact ⟨rfl, hone⟩
      · have hold : arena.builder.nodes[i]? = some node := by
          rwa [List.getElem?_append_left (by omega)] at hrow
        obtain ⟨hsource, hbit⟩ := h.sources i node hold hkind hi
        refine ⟨?_, hbit⟩
        rw [List.getElem?_set_ne (Ne.symm hnew), PhaseTable.getElem?_takeD, if_pos hlt, List.getD, hsource]
        rfl
    atoms := by
      intro other known hk
      rcases lookup_cons_some hk with ⟨rfl, rfl⟩ | hk
      · exact hmeans.congr htruth
      · exact (h.atoms other known hk).mono h.builder hgrows (.refl m) }

theorem variableFor_keeps (h : arena.Sound m) {atom : Atom} {source : Nat} {activeHigh : Bool} (hone : OneBit m source)
    (htruth : ∀ value signal, Evaluates m value signal → (value source).truth = (atom.truth value signal == activeHigh)) :
    Keeps arena m (variableFor atom source activeHigh) fun p t => Represents t.builder m p.literal source := by
  apply Outcome.get
  cases hatom : arena.atoms.lookup atom with
  | some known =>
    have hmeans := h.atoms atom known hatom
    have hrepresents : Represents arena.builder m
        (if activeHigh = known.sourceActiveHigh then known.literal else known.literal.inverted) source := by
      refine ⟨hone, ?_⟩
      split_ifs with hphase
      · exact hmeans.congr fun value signal he => by rw [htruth value signal he, hphase]
      · apply hmeans.inverted.congr
        intro value signal he
        rw [htruth value signal he]
        revert hphase
        cases atom.truth value signal <;> cases activeHigh <;> cases known.sourceActiveHigh <;> simp
    refine ⟨⟨h.rememberWord hrepresents, ?_⟩, ?_⟩
    · simp only [builder_rememberWord]
      exact .refl h.builder
    · simp only [builder_rememberWord, Predicate.literal_fromLiteral]
      exact hrepresents
  | none =>
    have hinput := outcome_and (input_denotes h.builder source)
      (LogicBuilder.push_outcome arena.builder .input .FALSE .FALSE .FALSE source)
    have hcall : Outcome arena (network (LogicBuilder.input source))
        (fun l t => Kept arena m ((t.declare atom source activeHigh l).rememberWord source l) ∧
          Represents t.builder m l source) fun e t => Refused e ∧ Kept arena m t := by
      apply outcome_zoom PredicateArena.builder hinput
      · rintro l b ⟨⟨hgrows, hl⟩, level, -, -, hliteral, rfl⟩
        have hmeans : Means _ m l fun value _ => (value source).truth := means_of_denotes hl fun _ _ _ => rfl
        have hsound := h.declare hgrows hone htruth hliteral rfl hmeans
        exact ⟨⟨hsound.rememberWord ⟨hone, hmeans⟩, by rw [builder_rememberWord]; exact hgrows⟩, hone, hmeans⟩
      · rintro e b ⟨⟨hfuel, hgrows⟩, -, hb⟩
        refine ⟨refused_toCapacity hfuel, h.withBuilder hgrows fun i node hnode _ hi => ?_, hgrows⟩
        rcases hb with rfl | ⟨level, -, hlarge, -, rfl⟩
        · exact hnode
        · rwa [List.getElem?_append_left (by omega)] at hnode
    apply Outcome.bind hcall
    · intro l t ⟨hkept, hl⟩
      refine ⟨hkept, ?_⟩
      simp only [builder_rememberWord, Predicate.literal_fromLiteral]
      exact hl
    · exact fun _ _ he => he

end Calls

end PredicateArena

end Opto.Frontend
