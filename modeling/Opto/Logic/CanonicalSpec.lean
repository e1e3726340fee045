import Opto.Logic.BuilderInvariant

/-!
# What the canonicalization rules compute

Every decision of a rule is sound for the function it stands for, hands on valid
literals of smaller weight, and interns only canonical keys. The runners follow
by induction on fuel; their fuel is bounded by the weight of the arguments.
-/

namespace Opto.Logic

def NodeKey.fanins : NodeKey → List Lit
  | .and l r | .xor l r => [l, r]
  | .mux s t e => [s, t, e]

def NodeKey.denote (v : Lit → Bool) : NodeKey → Bool
  | .and l r => v l && v r
  | .xor l r => v l ^^ v r
  | .mux s t e => if v s then v t else v e

theorem NodeKey.denote_congr (key : NodeKey) {v w : Lit → Bool}
    (h : ∀ l ∈ key.fanins, v l = w l) : key.denote v = key.denote w := by
  cases key <;> simp_all [NodeKey.denote, NodeKey.fanins]

theorem Node.fanins_of_key {n : Node} {key : NodeKey} (h : n.key? = some key) :
    n.fanins = key.fanins := by
  cases hk : n.kind <;> simp only [Node.key?, hk] at h <;> cases h <;>
    simp [Node.fanins, NodeKind.arity, NodeKey.fanins, hk]

theorem Node.denote_of_key {n : Node} {key : NodeKey} (h : n.key? = some key) (leaf : Bool)
    (v : Lit → Bool) : n.denote leaf v = key.denote v := by
  cases hk : n.kind <;> simp only [Node.key?, hk] at h <;> cases h <;>
    simp [Node.denote, NodeKey.denote, hk]

/-- A positive literal of a gate, with the gate's key. -/
def Reads (b : LogicBuilder) (l : Lit) (key : NodeKey) : Prop :=
  l.isInverted = false ∧ ∃ n, b.nodes[l.node]? = some n ∧ n.key? = some key

namespace Reads

variable {b : LogicBuilder} {l : Lit} {key : NodeKey}

theorem valid (h : Reads b l key) (hb : Inv b) (hl : Valid b l) {f : Lit}
    (hf : f ∈ key.fanins) : Valid b f := by
  obtain ⟨-, n, hn, hk⟩ := h
  exact hb.valid_fanin hn hl.2 (by rwa [Node.fanins_of_key hk])

theorem eval (h : Reads b l key) (hb : Inv b) (leaf : Nat → Bool) :
    eval leaf b.nodes l = key.denote (eval leaf b.nodes) := by
  obtain ⟨hpos, n, hn, hk⟩ := h
  rw [eval_node hb.topological hn hpos, Node.denote_of_key hk]

theorem weight (h : Reads b l key) (hb : Inv b) :
    weight b.nodes l = 1 + (key.fanins.map (weight b.nodes)).sum := by
  obtain ⟨-, n, hn, hk⟩ := h
  rw [weight_node hb.topological hn, Node.fanins_of_key hk]

theorem mux_arms {s t e : Lit} (h : Reads b l (.mux s t e)) (hb : Inv b) :
    MuxShape b.nodes s t e ∧ Unfactored b.nodes t e := by
  obtain ⟨-, n, hn, hk⟩ := h
  have hc := hb.canonical _ n hn
  cases hkind : n.kind <;> simp only [Node.key?, hkind] at hk <;> cases hk
  simpa only [Node.Canonical, hkind] using hc

end Reads

theorem binaryFanins_eq_some {b : LogicBuilder} {l x y : Lit} {k : NodeKind}
    (h : binaryFanins b l k = some (x, y)) :
    l.isInverted = false ∧ ∃ n : Node, b.nodes[l.node]? = some n ∧ n.kind = k ∧
      n.fanin0 = x ∧ n.fanin1 = y := by
  simp only [binaryFanins, Canonical.kind, LogicBuilder.kind, Canonical.fanin,
    LogicBuilder.fanin] at h
  cases hn : b.nodes[l.node]? with
  | none => simp [hn] at h
  | some n => simp_all

theorem binaryFanins_reads_and {b : LogicBuilder} {l x y : Lit}
    (h : binaryFanins b l .and = some (x, y)) : Reads b l (.and x y) := by
  obtain ⟨hpos, n, hn, hk, rfl, rfl⟩ := binaryFanins_eq_some h
  exact ⟨hpos, n, hn, by simp [Node.key?, hk]⟩

theorem binaryFanins_reads_xor {b : LogicBuilder} {l x y : Lit}
    (h : binaryFanins b l .xor = some (x, y)) : Reads b l (.xor x y) := by
  obtain ⟨hpos, n, hn, hk, rfl, rfl⟩ := binaryFanins_eq_some h
  exact ⟨hpos, n, hn, by simp [Node.key?, hk]⟩

theorem muxFanins_reads {b : LogicBuilder} {l s t e : Lit}
    (h : muxFanins b l = some (s, t, e)) : Reads b l (.mux s t e) := by
  simp only [muxFanins, Canonical.kind, LogicBuilder.kind, Canonical.fanin,
    LogicBuilder.fanin] at h
  cases hn : b.nodes[l.node]? with
  | none => simp [hn] at h
  | some n =>
    simp only [hn, Option.map_some] at h
    split at h
    · cases h
    · simp_all only [not_or, Bool.not_eq_true, ne_eq, Option.some.injEq, not_not]
      cases h
      exact ⟨by simp_all, n, hn, by simp_all [Node.key?]⟩

/-- From `b`, `m` returns a literal of weight at most `w` that computes `f` of the
literals of `b`; it never runs out of fuel, and keeps the invariant even on failure. -/
def Meets (b : LogicBuilder) (w : Nat) (f : (Lit → Bool) → Bool) (m : BuildM Lit) : Prop :=
  Outcome b m
    (fun l t => Grows b t ∧ Valid t l ∧ weight t.nodes l ≤ w ∧
      ∀ leaf, eval leaf t.nodes l = f (eval leaf b.nodes))
    (fun e t => e ≠ .fuel ∧ Grows b t)

namespace Meets

variable {b : LogicBuilder} {w w' : Nat} {f g : (Lit → Bool) → Bool} {m : BuildM Lit}

theorem pure (hb : Inv b) {l : Lit} (hl : Valid b l) (hw : weight b.nodes l ≤ w)
    (hf : ∀ leaf, eval leaf b.nodes l = f (eval leaf b.nodes)) : Meets b w f (Pure.pure l) :=
  Outcome.pure ⟨.refl hb, hl, hw, hf⟩

theorem mono (h : Meets b w f m) (hw : w ≤ w')
    (hfg : ∀ leaf, f (eval leaf b.nodes) = g (eval leaf b.nodes)) : Meets b w' g m := by
  refine Outcome.mono h (fun l t ⟨hg, hv, hle, he⟩ => ⟨hg, hv, hle.trans hw, fun leaf => ?_⟩)
    fun _ _ h => h
  rw [he, hfg]

theorem bind {next : Lit → BuildM Lit} {k : Lit → (Lit → Bool) → Bool} (h : Meets b w f m)
    (hk : ∀ c t, Grows b t → Valid t c → weight t.nodes c ≤ w → Meets t w' (k c) (next c))
    (hg : ∀ c t, Grows b t → (∀ leaf, eval leaf t.nodes c = f (eval leaf b.nodes)) →
      ∀ leaf, k c (eval leaf t.nodes) = g (eval leaf b.nodes)) :
    Meets b w' g (m >>= next) := by
  refine Outcome.bind h (fun c t ⟨hgr, hv, hw, he⟩ => ?_) fun _ _ h => h
  refine Outcome.mono (hk c t hgr hv hw) (fun l u ⟨hgu, hvu, hwu, heu⟩ => ?_)
    fun e u ⟨hne, hgu⟩ => ⟨hne, hgr.trans hgu⟩
  exact ⟨hgr.trans hgu, hvu, hwu, fun leaf => by rw [heu, hg c t hgr he]⟩

theorem withPhase (h : Meets b w f m) (p : Bool) :
    Meets b w (fun v => f v ^^ p) ((withPhase · p) <$> m) :=
  Outcome.map h fun l t ⟨hg, hv, hw, he⟩ =>
    ⟨hg, hv.withPhase p, by simpa using hw, fun leaf => by rw [eval_withPhase, he]⟩

theorem get {k : LogicBuilder → BuildM Lit} (h : Meets b w f (k b)) :
    Meets b w f (MonadState.get >>= k) := h

end Meets

/-- Resolving a canonical key returns its gate, the old one or a new one. -/
theorem intern_meets {b : LogicBuilder} (hb : Inv b) {key : NodeKey} {kind : NodeKind}
    {f0 f1 f2 : Lit} (origin : Nat) (hkey : (Node.mk kind f0 f1 f2 0 0).key? = some key)
    (hf : ∀ l ∈ key.fanins, Valid b l) (hc : (Node.mk kind f0 f1 f2 0 0).Canonical b.nodes) :
    Meets b (1 + (key.fanins.map (weight b.nodes)).sum) key.denote
      (LogicBuilder.intern key kind f0 f1 f2 origin) := by
  have hkind : kind ≠ .constant := by rintro rfl; cases hkey
  refine Meets.get ?_
  cases hl : b.interned.lookup key with
  | some i =>
    obtain ⟨hi, n, hn, hnk⟩ := (hb.interned key i).mp hl
    have hr : Reads b ⟨i, false⟩ key := ⟨rfl, n, hn, hnk⟩
    have hlit : Lit.fromNode i = .ok ⟨i, false⟩ := by rw [Lit.fromNode, if_pos (by omega)]
    simp only [hlit]
    exact Meets.pure hb ⟨(List.getElem?_eq_some_iff.mp hn).1, hi⟩ (hr.weight hb).le
      (hr.eval hb)
  | none =>
    have fits (level : Nat) (h : b.nextLevel kind f0 f1 f2 = .ok level) :
        Fits b ⟨kind, f0, f1, f2, level, origin⟩ := by
      have hk : (Node.mk kind f0 f1 f2 level origin).key? = some key := hkey
      have hfan : ∀ l ∈ Node.fanins ⟨kind, f0, f1, f2, level, origin⟩, Valid b l := by
        rw [Node.fanins_of_key hk]; exact hf
      refine ⟨hkind, hfan, hc, nextLevel_leveled origin hkind hfan h, fun k hk => ?_⟩
      obtain rfl : key = k := Option.some.inj (hkey.symm.trans hk)
      exact hl
    refine Outcome.bind (LogicBuilder.push_outcome b kind f0 f1 f2 origin) ?_ ?_
    · rintro l t ⟨level, hlev, hlt, rfl, rfl⟩
      have hinv := hb.append (fits level hlev) (by omega)
        ((key, b.nodes.length) :: b.interned) (fun k => by
          have : (Node.mk kind f0 f1 f2 level origin).key? = some key := hkey
          simp only [lookup_cons, this, hlt, true_and, Option.some.injEq, eq_comm])
      have hgrow : Grows b _ := ⟨hinv, List.prefix_append _ _⟩
      have hr : Reads ⟨b.nodes ++ [⟨kind, f0, f1, f2, level, origin⟩],
          (key, b.nodes.length) :: b.interned⟩ ⟨b.nodes.length, false⟩ key :=
        ⟨rfl, ⟨kind, f0, f1, f2, level, origin⟩, by simp, hkey⟩
      refine ⟨hgrow, ⟨by simp, hlt⟩, ?_, fun leaf => ?_⟩
      · exact ((hr.weight hinv).trans (by
          rw [List.map_congr_left fun l hl => hgrow.weight (hf l hl)])).le
      · rw [hr.eval hinv]
        exact key.denote_congr fun l hl => hgrow.eval (hf l hl) leaf
    · rintro e t ⟨hne, rfl | ⟨level, hlev, hge, hlt, rfl⟩⟩
      · exact ⟨hne, .refl hb⟩
      · exact ⟨hne, hb.append (fits level hlev) hlt b.interned (fun k => by
          rw [if_neg (by omega)]), List.prefix_append _ _⟩

section Rules

variable {b : LogicBuilder}

theorem hasFanin_eval (hb : Inv b) {l r : Lit} (h : hasFanin (binaryFanins b l .and) r = true)
    (leaf : Nat → Bool) (hl : eval leaf b.nodes l = true) : eval leaf b.nodes r = true := by
  cases hf : binaryFanins b l .and with
  | none => simp [hf, hasFanin] at h
  | some f =>
    obtain ⟨x, y⟩ := f
    rw [(binaryFanins_reads_and hf).eval hb] at hl
    simp only [NodeKey.denote, Bool.and_eq_true] at hl
    simp only [hf, hasFanin, Option.any_some, Bool.or_eq_true, beq_iff_eq] at h
    rcases h with rfl | rfl
    · exact hl.1
    · exact hl.2

theorem andIdentity_sound (hb : Inv b) {l r v : Lit} (h : andIdentity b l r = some v) :
    (v = .FALSE ∨ v = l ∨ v = r) ∧
      ∀ leaf, eval leaf b.nodes v = (eval leaf b.nodes l && eval leaf b.nodes r) := by
  simp only [andIdentity] at h
  split_ifs at h with h₁ h₂ h₃ h₄ h₅ h₆ h₇ <;> cases h
  · refine ⟨.inl rfl, fun leaf => ?_⟩
    rcases h₁ with rfl | rfl | rfl <;> simp [hb.eval_FALSE]
  · exact ⟨.inr (.inr rfl), fun leaf => by rw [h₂, hb.eval_TRUE, Bool.true_and]⟩
  · refine ⟨.inr (.inl rfl), fun leaf => ?_⟩
    rcases h₃ with rfl | rfl
    · rw [hb.eval_TRUE, Bool.and_true]
    · rw [Bool.and_self]
  · refine ⟨.inr (.inl rfl), fun leaf => ?_⟩
    have := hasFanin_eval hb h₄ leaf
    cases hl : eval leaf b.nodes l <;> simp_all
  · refine ⟨.inr (.inr rfl), fun leaf => ?_⟩
    have := hasFanin_eval hb h₅ leaf
    cases hr : eval leaf b.nodes r <;> simp_all
  · -- the inverted right product contains the complement of the left literal
    refine ⟨.inr (.inl rfl), fun leaf => ?_⟩
    have := hasFanin_eval hb h₆.2 leaf
    rw [eval_positive, h₆.1, eval_inverted] at this
    cases hl : eval leaf b.nodes l <;> cases hr : eval leaf b.nodes r <;> simp_all
  · refine ⟨.inr (.inr rfl), fun leaf => ?_⟩
    have := hasFanin_eval hb h₇.2 leaf
    rw [eval_positive, h₇.1, eval_inverted] at this
    cases hl : eval leaf b.nodes l <;> cases hr : eval leaf b.nodes r <;> simp_all

theorem andIdentity_none {l r : Lit} (h : andIdentity b l r = none) :
    l.node ≠ 0 ∧ r.node ≠ 0 ∧ l ≠ r ∧ l ≠ r.inverted := by
  simp only [andIdentity] at h
  split_ifs at h with h₁ h₂ h₃
  simp only [not_or] at h₁ h₃
  exact ⟨Valid.ne_constant h₁.1 h₂, Valid.ne_constant h₁.2.1 h₃.1, h₃.2, h₁.2.2⟩

theorem canonicalAnd_meets (hb : Inv b) {l r : Lit} (hl : Valid b l) (hr : Valid b r)
    (origin : Nat) : Meets b (1 + (weight b.nodes l + weight b.nodes r)) (fun v => v l && v r)
      (canonicalAnd l r origin) := by
  refine Meets.get ?_
  cases h : andIdentity b l r with
  | some v =>
    obtain ⟨hv, he⟩ := andIdentity_sound hb h
    have hone := weight_pos b.nodes l
    have hF : weight b.nodes .FALSE = 1 := by
      rw [weight_node hb.topological (l := .FALSE) hb.constant]; rfl
    rcases hv with rfl | rfl | rfl
    · exact Meets.pure hb hb.valid_FALSE (by omega) he
    · exact Meets.pure hb hl (by omega) he
    · exact Meets.pure hb hr (by omega) he
  | none =>
    obtain ⟨hl0, hr0, hne, hni⟩ := andIdentity_none h
    have hni' : r ≠ l.inverted := fun hc => hni (by rw [hc, Lit.inverted_inverted])
    have hlt := ordered_lt hne
    rcases ordered_eq_or l r with ho | ho <;> simp only [ho] at hlt ⊢
    · have hc : (Node.mk .and l r .FALSE 0 0).Canonical b.nodes := ⟨hl0, hr0, hlt, hni⟩
      exact (intern_meets hb origin rfl (by simp [NodeKey.fanins, hl, hr]) hc).mono
        (by simp [NodeKey.fanins]) fun leaf => rfl
    · have hc : (Node.mk .and r l .FALSE 0 0).Canonical b.nodes := ⟨hr0, hl0, hlt, hni'⟩
      exact (intern_meets hb origin rfl (by simp [NodeKey.fanins, hl, hr]) hc).mono
        (by simp [NodeKey.fanins]; omega) fun leaf => Bool.and_comm _ _

theorem complementaryProductFactor_eq_some {p q : Lit × Lit} {s t e : Lit}
    (h : complementaryProductFactor p q = some (s, t, e)) :
    ((s = p.1 ∧ t = p.2) ∨ (s = p.2 ∧ t = p.1)) ∧
      ((q.1 = s.inverted ∧ e = q.2) ∨ (q.2 = s.inverted ∧ e = q.1)) := by
  obtain ⟨p₁, p₂⟩ := p
  obtain ⟨q₁, q₂⟩ := q
  simp only [complementaryProductFactor] at h
  split_ifs at h <;>
    simp only [Option.or, Option.some.injEq, Prod.mk.injEq, reduceCtorEq] at h <;>
    obtain ⟨rfl, rfl, rfl⟩ := h <;> tauto

theorem orFactor_sound (hb : Inv b) {l r s t e : Lit} (hl : Valid b l) (hr : Valid b r)
    (h : orFactor b l r = some (s, t, e)) :
    (Valid b s ∧ Valid b t ∧ Valid b e) ∧
      weight b.nodes s + weight b.nodes t + weight b.nodes e + 1 ≤
        weight b.nodes l + weight b.nodes r ∧
      ∀ leaf, (if eval leaf b.nodes s then eval leaf b.nodes t else eval leaf b.nodes e) =
        (eval leaf b.nodes l || eval leaf b.nodes r) := by
  simp only [orFactor] at h
  split at h
  · rename_i p q hp hq
    have hlp := binaryFanins_reads_and hp
    have hrq := binaryFanins_reads_and hq
    have hw := hlp.weight hb
    have hw' := hrq.weight hb
    have hv : ∀ f ∈ [p.1, p.2], Valid b f := fun f hf => hlp.valid hb hl hf
    have hv' : ∀ f ∈ [q.1, q.2], Valid b f := fun f hf => hrq.valid hb hr hf
    simp only [List.mem_cons, List.not_mem_nil, or_false, forall_eq_or_imp, forall_eq] at hv hv'
    simp only [NodeKey.fanins, List.map_cons, List.map_nil, List.sum_cons, List.sum_nil] at hw hw'
    simp only [hlp.eval hb, hrq.eval hb, NodeKey.denote]
    obtain ⟨hs, he⟩ := complementaryProductFactor_eq_some h
    rcases hs with ⟨rfl, rfl⟩ | ⟨rfl, rfl⟩ <;> rcases he with ⟨hq, rfl⟩ | ⟨hq, rfl⟩ <;>
      rw [hq] at hw' <;> simp only [hq, weight_inverted, eval_inverted] at hw' ⊢
    all_goals
      refine ⟨⟨by tauto, by tauto, by tauto⟩, by omega, fun leaf => ?_⟩
      split <;> simp_all
  · cases h

end Rules
end Opto.Logic
