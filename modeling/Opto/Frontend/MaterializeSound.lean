import Opto.Frontend.CofactorSound
import Opto.Frontend.ValueSound

/-!
# Word values of predicates

A literal gets the word value of its operation on the word values below it. A multiplexer of
words wants arms of one type, which the types of the sources decide.
-/

namespace Opto.Frontend

open Logic Word Bits

/-! One more operation in a module. -/

section Builds

variable {m m' : WordModule} {value signal : Nat → Bits} {kind : OpKind} {ty : WordType} {v : Nat}

theorem idFromIndex_ok {name : String} {index id : Nat} (h : idFromIndex name index = .ok id) : id = index := by
  rw [idFromIndex] at h
  split_ifs at h
  cases h
  rfl

theorem idFromIndex_error {name : String} {index : Nat} {e : WordError} (h : idFromIndex name index = .error e) :
    e = .invariant s!"{name} ID exceeds 32-bit capacity" := by
  rw [idFromIndex] at h
  split_ifs at h
  cases h
  rfl

/-- The module with one more operation and its result. -/
def withOperation (m : WordModule) (kind : OpKind) (ty : WordType) : WordModule :=
  { m with
    values := m.values ++ [⟨.operation m.operations.length, ty⟩]
    operations := m.operations ++ [⟨kind, m.values.length⟩] }

def withConstant (m : WordModule) (bits : List BitVal) (ty : WordType) : WordModule :=
  { m with values := m.values ++ [⟨.constant bits, ty⟩] }

theorem pushValue_outcome (m : WordModule) (kind : ValueKind) (ty : WordType) : Outcome m (pushValue kind ty)
    (fun v m' => v = m.values.length ∧ m' = { m with values := m.values ++ [⟨kind, ty⟩] })
    fun e m' => (SynthError.word e).IsCapacity ∧ m' = m := by
  apply Outcome.get
  cases hid : idFromIndex "value" m.values.length with
  | error e => exact ⟨.inl (idFromIndex_error hid), rfl⟩
  | ok id => exact ⟨idFromIndex_ok hid, rfl⟩

theorem pushOperation_outcome : Outcome m (pushOperation kind ty)
    (fun v m' => v = m.values.length ∧ m' = withOperation m kind ty)
    fun e m' => (SynthError.word e).IsCapacity ∧ m' = m := by
  apply Outcome.get
  cases hid : idFromIndex "operation" m.operations.length with
  | error e => exact ⟨.inr (idFromIndex_error hid), rfl⟩
  | ok op =>
    obtain rfl := idFromIndex_ok hid
    apply Outcome.bind (Outcome.pure (Q := fun op m' => op = m.operations.length ∧ m' = m) ⟨rfl, rfl⟩) ?_
      fun _ _ he => he
    rintro _ _ ⟨rfl, rfl⟩
    apply Outcome.bind (pushValue_outcome _ _ ty) ?_ fun _ _ he => he
    rintro v m' ⟨rfl, rfl⟩
    exact ⟨rfl, rfl⟩

theorem addOperation_outcome (hty : m.operationType kind = some ty) :
    Outcome m (addOperation kind) (fun v m' => v = m.values.length ∧ m' = withOperation m kind ty)
      fun e m' => (SynthError.word e).IsCapacity ∧ m' = m := by
  apply Outcome.get
  rw [hty]
  exact pushOperation_outcome

theorem constant_outcome (m : WordModule) {bits : List BitVal} (hlength : bits.length = ty.width)
    (hstate : ty.state ≠ .twoState) : Outcome m (Word.constant bits ty)
      (fun v m' => v = m.values.length ∧ m' = withConstant m bits ty)
      fun e m' => (SynthError.word e).IsCapacity ∧ m' = m := by
  have hcall : Word.constant bits ty = pushValue (.constant bits) ty := by
    rw [Word.constant, hlength]
    simp [hstate, Word.check, fromExcept]
  rw [hcall]
  exact pushValue_outcome m _ ty

/-! What the new module promises. -/

theorem extends_withOperation (m : WordModule) (kind : OpKind) (ty : WordType) : m.Extends (withOperation m kind ty) :=
  ⟨List.prefix_rfl, List.prefix_rfl, List.prefix_append _ _, List.prefix_append _ _, List.prefix_rfl⟩

theorem extends_withConstant (m : WordModule) (bits : List BitVal) (ty : WordType) : m.Extends (withConstant m bits ty) :=
  ⟨List.prefix_rfl, List.prefix_rfl, List.prefix_append _ _, List.prefix_rfl, List.prefix_rfl⟩

theorem getElem?_concat_some {α : Type} {xs : List α} {x y : α} {i : Nat} (h : (xs ++ [x])[i]? = some y) :
    xs[i]? = some y ∨ i = xs.length ∧ y = x := by
  by_cases hi : i < xs.length
  · rw [List.getElem?_append_left hi] at h
    exact .inl h
  · have hlt := (List.getElem?_eq_some_iff.mp h).1
    rw [List.length_append, List.length_singleton] at hlt
    obtain rfl : i = xs.length := by omega
    rw [List.getElem?_concat_length] at h
    cases h
    exact .inr ⟨rfl, rfl⟩

theorem Consistent.withOperation (hm : Consistent m) (hinputs : ∀ i ∈ kind.inputs, i < m.values.length) :
    Consistent (withOperation m kind ty) where
  result v o ty' hv := by
    rcases getElem?_concat_some hv with hv | ⟨rfl, heq⟩
    · obtain ⟨stored, ho, hresult⟩ := hm.result v o ty' hv
      exact ⟨stored, getElem?_extended (extends_withOperation m kind ty).operations ho, hresult⟩
    · cases heq
      exact ⟨_, List.getElem?_concat_length, rfl⟩
  inputs o stored ho i hi := by
    rcases getElem?_concat_some ho with ho | ⟨rfl, rfl⟩
    · exact hm.inputs o stored ho i hi
    · exact hinputs i hi
  constant v bits ty' hv := by
    rcases getElem?_concat_some hv with hv | ⟨-, heq⟩
    · exact hm.constant v bits ty' hv
    · cases heq

theorem Consistent.withConstant (hm : Consistent m) {bits : List BitVal} (hlength : bits.length = ty.width) :
    Consistent (withConstant m bits ty) where
  result v o ty' hv := by
    rcases getElem?_concat_some hv with hv | ⟨-, heq⟩
    · exact hm.result v o ty' hv
    · cases heq
  inputs := hm.inputs
  constant v bits' ty' hv := by
    rcases getElem?_concat_some hv with hv | ⟨-, heq⟩
    · exact hm.constant v bits' ty' hv
    · cases heq
      exact hlength

theorem valueTy_withOperation (m : WordModule) (kind : OpKind) (ty : WordType) :
    (withOperation m kind ty).valueTy m.values.length = some ty := by
  rw [WordModule.valueTy, withOperation, List.getElem?_concat_length]
  rfl

theorem valueTy_withConstant (m : WordModule) (bits : List BitVal) (ty : WordType) :
    (withConstant m bits ty).valueTy m.values.length = some ty := by
  rw [WordModule.valueTy, withConstant, List.getElem?_concat_length]
  rfl

/-- The new value is what its operation computes. -/
theorem value_withOperation (he : Evaluates (withOperation m kind ty) value signal) {bits : Bits}
    (hdenote : kind.denote m.valueTy value ty = some bits) : value m.values.length = bits :=
  he.operation m.operations.length ⟨kind, m.values.length⟩ ty bits List.getElem?_concat_length
    (valueTy_withOperation m kind ty) (denote_extends (extends_withOperation m kind ty) hdenote)

end Builds

namespace PredicateArena

/-! Types of the word values of literals. -/

/-- The literal has, or can get, a word value of the type. A multiplexer needs arms of one type,
every other operation takes what it is given. -/
inductive Typed (arena : PredicateArena) (m : WordModule) : Lit → WordType → Prop
  | cached {l : Lit} {v : Nat} {ty : WordType} (h : arena.cached l = some v) (hty : m.valueTy v = some ty) :
      Typed arena m l ty
  | disjunction {l left right : Lit} {leftTy rightTy : WordType} (h : arena.cached l = none)
      (hor : arena.demorganOr l = some (left, right)) (hleft : Typed arena m left leftTy)
      (hright : Typed arena m right rightTy) : Typed arena m l (.scalar (leftTy.mergedState rightTy))
  | negation {l : Lit} {ty : WordType} (h : arena.cached l = none) (hor : arena.demorganOr l = none)
      (hinverted : l.isInverted = true) (hl : Typed arena m l.positive ty) : Typed arena m l (.scalar ty.state)
  | constant {l : Lit} {n : Node} (h : arena.cached l = none) (hpositive : l.isInverted = false)
      (hn : arena.builder.nodes[l.node]? = some n) (hkind : n.kind = .constant) : Typed arena m l (.scalar .fourState)
  | input {l : Lit} {n : Node} {v : Nat} {ty : WordType} (h : arena.cached l = none)
      (hpositive : l.isInverted = false) (hn : arena.builder.nodes[l.node]? = some n) (hkind : n.kind = .input)
      (hsource : arena.inputSources[l.node]?.join = some v) (hty : m.valueTy v = some ty) : Typed arena m l ty
  | and {l : Lit} {n : Node} {leftTy rightTy : WordType} (h : arena.cached l = none) (hpositive : l.isInverted = false)
      (hn : arena.builder.nodes[l.node]? = some n) (hkind : n.kind = .and) (hleft : Typed arena m n.fanin0 leftTy)
      (hright : Typed arena m n.fanin1 rightTy) : Typed arena m l (.scalar (leftTy.mergedState rightTy))
  | xor {l : Lit} {n : Node} {leftTy rightTy : WordType} (h : arena.cached l = none) (hpositive : l.isInverted = false)
      (hn : arena.builder.nodes[l.node]? = some n) (hkind : n.kind = .xor) (hleft : Typed arena m n.fanin0 leftTy)
      (hright : Typed arena m n.fanin1 rightTy) :
      Typed arena m l ⟨1, leftTy.signed && rightTy.signed, leftTy.mergedState rightTy, Nat.one_pos⟩
  | mux {l : Lit} {n : Node} {selectTy ty : WordType} (h : arena.cached l = none) (hpositive : l.isInverted = false)
      (hn : arena.builder.nodes[l.node]? = some n) (hkind : n.kind = .mux) (hselect : Typed arena m n.fanin0 selectTy)
      (hthen : Typed arena m n.fanin1 ty) (helse : Typed arena m n.fanin2 ty) : Typed arena m l ty

/-- The word value of the predicate has a type. -/
def Typable (arena : PredicateArena) (m : WordModule) : Predicate → Prop
  | .value l => ∃ ty, Typed arena m l ty
  | _ => True

section Walk

variable {arena : PredicateArena} {m : WordModule} {s u t : PredicateArena × WordModule} {l : Lit} {ty : WordType} {n : Node}
  {v : Nat} {expanded : Bool}

theorem Typed.of_cached (h : Typed arena m l ty) (hv : arena.cached l = some v) : m.valueTy v = some ty := by
  cases h with
  | cached hcached hty =>
    rw [hv] at hcached
    cases hcached
    exact hty
  | disjunction h => rw [hv] at h; cases h
  | negation h => rw [hv] at h; cases h
  | constant h => rw [hv] at h; cases h
  | input h => rw [hv] at h; cases h
  | and h => rw [hv] at h; cases h
  | xor h => rw [hv] at h; cases h
  | mux h => rw [hv] at h; cases h

/-- Rows without entries change no type. -/
theorem Typed.resized {width : Nat} (hfit : arena.materialized.length ≤ width) (h : Typed arena m l ty) :
    Typed { arena with materialized := arena.materialized.resize width } m l ty := by
  have hcached (k : Lit) :
      PredicateArena.cached { arena with materialized := arena.materialized.resize width } k = arena.cached k :=
    PhaseTable.get_resize hfit k
  induction h with
  | cached h hty => exact .cached ((hcached _).trans h) hty
  | disjunction h hor _ _ ihl ihr => exact .disjunction ((hcached _).trans h) hor ihl ihr
  | negation h hor hinverted _ ih => exact .negation ((hcached _).trans h) hor hinverted ih
  | constant h hpositive hn hkind => exact .constant ((hcached _).trans h) hpositive hn hkind
  | input h hpositive hn hkind hsource hty => exact .input ((hcached _).trans h) hpositive hn hkind hsource hty
  | and h hpositive hn hkind _ _ ihl ihr => exact .and ((hcached _).trans h) hpositive hn hkind ihl ihr
  | xor h hpositive hn hkind _ _ ihl ihr => exact .xor ((hcached _).trans h) hpositive hn hkind ihl ihr
  | mux h hpositive hn hkind _ _ _ ihs iht ihe => exact .mux ((hcached _).trans h) hpositive hn hkind ihs iht ihe

/-- What a literal's word value is computed from. -/
def operandsOf (arena : PredicateArena) (l : Lit) : List Lit :=
  if (arena.cached l).isSome then []
  else
    match arena.demorganOr l with
    | some (left, right) => [left, right]
    | none => below arena.builder l

theorem operandsOf_open (h : arena.cached l = none) : operandsOf arena l =
    match arena.demorganOr l with
    | some (left, right) => [left, right]
    | none => below arena.builder l := by
  rw [operandsOf, h]
  rfl

theorem demorganOr_positive (h : l.isInverted = false) : arena.demorganOr l = none := by
  rw [demorganOr, h]
  rfl

theorem demorganOr_some {left right : Lit} (h : arena.demorganOr l = some (left, right)) :
    ∃ n, arena.builder.nodes[l.node]? = some n ∧ n.kind = .and ∧ l.isInverted = true ∧
      n.fanin0 = left.inverted ∧ n.fanin1 = right.inverted := by
  rw [demorganOr] at h
  split_ifs at h with hguard
  simp only [Bool.or_eq_true, Bool.not_eq_true', decide_eq_true_eq, not_or, Bool.not_eq_false, not_not] at hguard
  obtain ⟨hinverted, hkind⟩ := hguard
  obtain ⟨n, hn, hand⟩ := Option.map_eq_some_iff.mp hkind
  have h0 : arena.builder.fanin l.node 0 = some n.fanin0 := by rw [LogicBuilder.fanin, hn]; rfl
  have h1 : arena.builder.fanin l.node 1 = some n.fanin1 := by rw [LogicBuilder.fanin, hn]; rfl
  simp only [h0, h1] at h
  split_ifs at h with hphases
  cases h
  rw [Bool.and_eq_true] at hphases
  exact ⟨n, hn, hand, hinverted, (Lit.inverted_positive_of_inverted hphases.1).symm,
    (Lit.inverted_positive_of_inverted hphases.2).symm⟩

/-- Operands of a literal that can be typed can be typed. -/
theorem Typed.operands (h : Typed arena m l ty) {d : Lit} (hd : d ∈ operandsOf arena l) : ∃ ty, Typed arena m d ty := by
  have hgate {n : Node} (hopen : arena.cached l = none) (hpositive : l.isInverted = false)
      (hn : arena.builder.nodes[l.node]? = some n) : d ∈ n.fanins := by
    rwa [operandsOf_open hopen, demorganOr_positive hpositive, below_positive hpositive hn] at hd
  cases h with
  | cached h hty =>
    rw [operandsOf, h] at hd
    cases hd
  | disjunction h hor hleft hright =>
    rw [operandsOf_open h, hor] at hd
    rcases List.mem_cons.mp hd with rfl | hd
    · exact ⟨_, hleft⟩
    · exact List.mem_singleton.mp hd ▸ ⟨_, hright⟩
  | negation h hor hinverted hl =>
    rw [operandsOf_open h, hor, below_inverted hinverted] at hd
    exact List.mem_singleton.mp hd ▸ ⟨_, hl⟩
  | constant h hpositive hn hkind =>
    have hfanin := hgate h hpositive hn
    rw [Node.fanins, hkind] at hfanin
    cases hfanin
  | input h hpositive hn hkind =>
    have hfanin := hgate h hpositive hn
    rw [Node.fanins, hkind] at hfanin
    cases hfanin
  | and h hpositive hn hkind hleft hright =>
    have hfanin := hgate h hpositive hn
    simp only [Node.fanins, hkind, NodeKind.arity, List.take_succ_cons, List.take_zero, List.mem_cons,
      List.not_mem_nil, or_false] at hfanin
    rcases hfanin with rfl | rfl
    · exact ⟨_, hleft⟩
    · exact ⟨_, hright⟩
  | xor h hpositive hn hkind hleft hright =>
    have hfanin := hgate h hpositive hn
    simp only [Node.fanins, hkind, NodeKind.arity, List.take_succ_cons, List.take_zero, List.mem_cons,
      List.not_mem_nil, or_false] at hfanin
    rcases hfanin with rfl | rfl
    · exact ⟨_, hleft⟩
    · exact ⟨_, hright⟩
  | mux h hpositive hn hkind hselect hthen helse =>
    have hfanin := hgate h hpositive hn
    simp only [Node.fanins, hkind, NodeKind.arity, List.take_succ_cons, List.take_zero, List.mem_cons,
      List.not_mem_nil, or_false] at hfanin
    rcases hfanin with rfl | rfl | rfl
    · exact ⟨_, hselect⟩
    · exact ⟨_, hthen⟩
    · exact ⟨_, helse⟩

/-- Every operand of a disjunction or of a literal is numbered lower. -/
theorem code_operand (hb : Logic.Inv arena.builder) {d : Lit} (hd : d ∈ operandsOf arena l) : d.code < l.code := by
  rw [operandsOf] at hd
  split_ifs at hd
  · cases hd
  · cases hor : arena.demorganOr l with
    | none =>
      rw [hor] at hd
      exact code_below hb hd
    | some parts =>
      obtain ⟨left, right⟩ := parts
      rw [hor] at hd
      obtain ⟨n, hn, hand, hinverted, h0, h1⟩ := demorganOr_some hor
      have hfanins : n.fanins = [left.inverted, right.inverted] := by rw [Node.fanins, hand, h0, h1]; rfl
      have hlt (f : Lit) (hf : f.inverted ∈ n.fanins) : f.code < l.code := by
        have hnode := hb.topological l.node n hn _ hf
        have hphase := Bool.toNat_le f.isInverted
        simp only [Lit.code, Lit.inverted] at hnode ⊢
        omega
      rcases List.mem_cons.mp hd with rfl | hd
      · exact hlt d (by simp [hfanins])
      · rw [List.mem_singleton.mp hd]
        exact hlt right (by simp [hfanins])

theorem valid_operand (hb : Logic.Inv arena.builder) (hl : Valid arena.builder l) {d : Lit} (hd : d ∈ operandsOf arena l) :
    Valid arena.builder d := by
  have hcode := code_operand hb hd
  have hnode : d.node ≤ l.node := by
    have hphase := Bool.toNat_le l.isInverted
    simp only [Lit.code] at hcode
    omega
  exact ⟨Nat.lt_of_le_of_lt hnode hl.1, Nat.lt_of_le_of_lt hnode hl.2⟩

theorem length_operandsOf_le (arena : PredicateArena) (l : Lit) : (operandsOf arena l).length ≤ 3 := by
  rw [operandsOf]
  split_ifs
  · exact Nat.zero_le 3
  · cases arena.demorganOr l with
    | none => exact length_below_le _ _
    | some parts => exact Nat.le_of_ble_eq_true rfl

/-- The way that a type is found is decided by the arena. -/
theorem Typed.unique (h : Typed arena m l ty) {ty' : WordType} (h' : Typed arena m l ty') : ty' = ty := by
  induction h generalizing ty' with
  | cached hv hty => exact Option.some.inj ((h'.of_cached hv).symm.trans hty)
  | disjunction h hor _ _ ihl ihr =>
    cases h' with
    | disjunction _ hor' hl hr =>
      rw [hor] at hor'
      cases hor'
      rw [ihl hl, ihr hr]
    | _ => simp_all [demorganOr_positive]
  | negation h hor hinverted _ ih =>
    cases h' with
    | negation _ _ _ hl => rw [ih hl]
    | _ => simp_all
  | constant h hpositive hn hkind =>
    cases h' with
    | constant => rfl
    | _ => simp_all [demorganOr_positive]
  | input h hpositive hn hkind hsource hty =>
    cases h' with
    | input _ _ _ _ hsource' hty' =>
      rw [hsource] at hsource'
      cases hsource'
      exact Option.some.inj (hty'.symm.trans hty)
    | _ => simp_all [demorganOr_positive]
  | and h hpositive hn hkind _ _ ihl ihr =>
    cases h' with
    | and _ _ hn' _ hl hr =>
      rw [hn] at hn'
      cases hn'
      rw [ihl hl, ihr hr]
    | _ => simp_all [demorganOr_positive]
  | xor h hpositive hn hkind _ _ ihl ihr =>
    cases h' with
    | xor _ _ hn' _ hl hr =>
      rw [hn] at hn'
      cases hn'
      rw [ihl hl, ihr hr]
    | _ => simp_all [demorganOr_positive]
  | mux h hpositive hn hkind _ _ _ _ iht _ =>
    cases h' with
    | mux _ _ hn' _ _ ht _ =>
      rw [hn] at hn'
      cases hn'
      exact iht ht
    | _ => simp_all [demorganOr_positive]

/-! The walk. -/

/-- What a walk keeps: the network is the same, the module grew, and new word values have the
types of their literals. -/
structure Materializing (s u : PredicateArena × WordModule) : Prop where
  sound : u.1.Sound u.2
  consistent : Consistent u.2
  builder : u.1.builder = s.1.builder
  sources : u.1.inputSources = s.1.inputSources
  grown : s.2.Extends u.2
  kept : ∀ l v, s.1.cached l = some v → u.1.cached l = some v
  typed : ∀ l v ty, u.1.cached l = some v → Typed s.1 s.2 l ty → u.2.valueTy v = some ty

def Materialized (s : PredicateArena × WordModule) (l : Lit) : Prop := (s.1.cached l).isSome

theorem Materializing.refl (h : s.1.Sound s.2) (hm : Consistent s.2) : Materializing s s where
  sound := h
  consistent := hm
  builder := rfl
  sources := rfl
  grown := .refl _
  kept _ _ hv := hv
  typed _ _ _ hv hty := hty.of_cached hv

theorem Materializing.extend (h : Materializing s u) {m' : WordModule} (hext : u.2.Extends m') (hm : Consistent m') :
    Materializing s (u.1, m') where
  sound := h.sound.mono hext
  consistent := hm
  builder := h.builder
  sources := h.sources
  grown := h.grown.trans hext
  kept := h.kept
  typed l v ty hv hty := valueTy_extends hext (h.typed l v ty hv hty)

/-- What a visit of a literal establishes. -/
def Emits (s u : PredicateArena × WordModule) (x : Lit) (expanded : Bool) (visit : MaterializeM (List (Lit × Bool))) :
    Prop :=
  Outcome u visit
    (fun pushed t => Materializing s t ∧ Visited (operandsOf s.1) x expanded (Materialized u) (Materialized t) pushed)
    fun e t => Refused e ∧ Materializing s t

theorem Materializing.open (h : Materializing s u) (hopen : u.1.cached l = none) : s.1.cached l = none := by
  cases hv : s.1.cached l with
  | none => rfl
  | some v =>
    rw [h.kept l v hv] at hopen
    cases hopen

/-- A literal gets a word value of its type. -/
theorem finishCached_emits (h : Materializing s u) {m' : WordModule} (hext : u.2.Extends m') (hm : Consistent m')
    (hopen : u.1.cached l = none) (hl : Typed s.1 s.2 l ty) (hty : m'.valueTy v = some ty)
    (hv : Represents u.1.builder m' l v) : Outcome (u.1, m') (finishCached l v)
      (fun pushed t => Materializing s t ∧ Visited (operandsOf s.1) l expanded (Materialized u) (Materialized t) pushed)
      fun e t => Refused e ∧ Materializing s t := by
  have hbefore := h.open hopen
  have hgrown := h.extend hext hm
  have hcached (k : Lit) : (u.1.setCached l v).cached k = if k = l then some v else u.1.cached k :=
    PhaseTable.get_set _ _ _ _
  refine ⟨?_, fun k hk => ?_, .inl ⟨rfl, ?_⟩⟩
  · exact {
      sound := hgrown.sound.setCached hv
      consistent := hm
      builder := h.builder
      sources := h.sources
      grown := hgrown.grown
      kept := by
        intro k w hk
        rw [hcached, if_neg, h.kept k w hk]
        rintro rfl
        rw [hbefore] at hk
        cases hk
      typed := by
        intro k w kTy hk hkTy
        rw [hcached] at hk
        split_ifs at hk with heq
        · cases hk
          subst heq
          rw [hty, hl.unique hkTy]
        · exact hgrown.typed k w kTy hk hkTy }
  · simp only [Materialized, hcached]
    split_ifs
    · rfl
    · exact hk
  · simp only [Materialized, hcached, if_true]
    rfl

/-- A literal gets the result of an operation that has its truth. -/
theorem emitFinish_emits (h : Materializing s u) (hopen : u.1.cached l = none) (hvalid : Valid u.1.builder l)
    (hl : Typed s.1 s.2 l ty) (hwidth : ty.width = 1) {kind : OpKind} (hty : u.2.operationType kind = some ty)
    (hinputs : ∀ i ∈ kind.inputs, i < u.2.values.length)
    (htruth : ∀ value signal, Evaluates u.2 value signal → ∃ bits, kind.denote u.2.valueTy value ty = some bits ∧
      Bits.truth bits = networkValue u.1.builder.freeze (boundary value) l) :
    Emits s u l expanded (emit (addOperation kind) >>= finishCached l) := by
  have hemit : Outcome u (emit (addOperation kind))
      (fun v t => v = u.2.values.length ∧ t = (u.1, withOperation u.2 kind ty))
      fun e t => Refused e ∧ Materializing s t := by
    apply outcome_zoom Prod.snd (addOperation_outcome hty)
    · rintro v m' ⟨rfl, rfl⟩
      exact ⟨rfl, rfl⟩
    · rintro e m' ⟨he, rfl⟩
      exact ⟨⟨_, rfl, he⟩, h⟩
  apply Outcome.bind hemit ?_ fun _ _ he => he
  rintro v t ⟨rfl, rfl⟩
  have hresult := valueTy_withOperation u.2 kind ty
  have hext := extends_withOperation u.2 kind ty
  refine finishCached_emits h hext (h.consistent.withOperation hinputs) hopen hl hresult
    ⟨⟨ty, hresult, hwidth⟩, hvalid, fun value signal he => ?_⟩
  obtain ⟨bits, hdenote, hbits⟩ := htruth value signal (he.of_extends hext)
  rw [value_withOperation he hdenote, hbits]

/-- An operand that is finished has a word value of its type. -/
theorem Materializing.ready (h : Materializing s u) {f : Lit} (hf : Materialized u f) {fTy : WordType}
    (hty : Typed s.1 s.2 f fTy) : ∃ v, u.1.cached f = some v ∧ Represents u.1.builder u.2 f v ∧
      u.2.valueTy v = some fTy ∧ fTy.width = 1 := by
  obtain ⟨v, hv⟩ := Option.isSome_iff_exists.mp hf
  have hrepresents := h.sound.cached f v hv
  have hvalueTy := h.typed f v fTy hv hty
  obtain ⟨ty, hty', hwidth⟩ := hrepresents.oneBit
  rw [hvalueTy] at hty'
  cases hty'
  exact ⟨v, hv, hrepresents, hvalueTy, hwidth⟩

theorem cachedOr_outcome {message : String} {f : Lit} (hv : u.1.cached f = some v)
    {E : Halt SynthError → PredicateArena × WordModule → Prop} :
    Outcome u (cachedOr message f) (fun a t => a = v ∧ t = u) E := by
  apply Outcome.get
  rw [hv]
  exact ⟨rfl, rfl⟩

theorem faninValue_outcome {i index : Nat} {f : Lit} (hf : u.1.builder.fanin i index = some f)
    (hv : u.1.cached f = some v) {E : Halt SynthError → PredicateArena × WordModule → Prop} :
    Outcome u (faninValue i index) (fun a t => a = v ∧ t = u) E := by
  apply Outcome.get
  have hfanin : u.1.fanin i index = .ok f := by rw [PredicateArena.fanin, hf]
  simp only [hfanin, raise]
  apply Outcome.bind (Outcome.pure (Q := fun a t => a = f ∧ t = u) ⟨rfl, rfl⟩) ?_ fun _ _ he => he
  rintro _ _ ⟨rfl, rfl⟩
  exact cachedOr_outcome hv

/-- A Boolean operation on two word values. -/
theorem binary_emits (h : Materializing s u) (hopen : u.1.cached l = none) (hvalid : Valid u.1.builder l)
    (hl : Typed s.1 s.2 l ty) (hwidth : ty.width = 1) {op : BinaryOp} {c : Connective} (hc : connective op = some c)
    {left right : Lit} {a b : Nat} {leftTy rightTy : WordType} (hleft : Represents u.1.builder u.2 left a)
    (hright : Represents u.1.builder u.2 right b) (ha : u.2.valueTy a = some leftTy) (hb : u.2.valueTy b = some rightTy)
    (hty : u.2.operationType (.binary op a b) = some ty)
    (hvalue : ∀ g, networkValue u.1.builder.freeze g l =
      c.apply (networkValue u.1.builder.freeze g left) (networkValue u.1.builder.freeze g right)) :
    Emits s u l expanded (emit (binary op a b) >>= finishCached l) := by
  apply emitFinish_emits h hopen hvalid hl hwidth hty
  · intro i hi
    rcases List.mem_cons.mp hi with rfl | hi
    · exact WordModule.lt_of_valueTy ha
    · exact List.mem_singleton.mp hi ▸ WordModule.lt_of_valueTy hb
  · intro value signal he
    refine ⟨op.denote leftTy rightTy ty (value a) (value b), ?_, ?_⟩
    · simp only [OpKind.denote, ha, hb, Option.bind_eq_bind, Option.bind_some]
    · rw [connective_truth hc leftTy rightTy ty hwidth (hleft.oneBit.length he) (hright.oneBit.length he), hvalue,
        hleft.means.value value signal he, hright.means.value value signal he]

theorem operationType_xor {a b : Nat} {leftTy rightTy : WordType} (ha : m.valueTy a = some leftTy)
    (hb : m.valueTy b = some rightTy) (hleft : leftTy.width = 1) (hright : rightTy.width = 1) :
    m.operationType (.binary .bitXor a b) =
      some ⟨1, leftTy.signed && rightTy.signed, leftTy.mergedState rightTy, Nat.one_pos⟩ := by
  simp [WordModule.operationType, ha, hb, hleft, hright, WordType.new]

theorem materializeNode_emits (h : Materializing s u) (hopen : u.1.cached l = none) (hvalid : Valid u.1.builder l)
    (hl : Typed s.1 s.2 l ty) (hpositive : l.isInverted = false) (hn : u.1.builder.nodes[l.node]? = some n)
    (hfanins : ∀ f ∈ n.fanins, Materialized u f) : Emits s u l expanded (materializeNode l n.kind) := by
  have hbefore := h.open hopen
  have hrow : s.1.builder.nodes[l.node]? = some n := h.builder ▸ hn
  have hvalue (g : Nat → Bool) :
      networkValue u.1.builder.freeze g l = n.denote (g n.origin) (networkValue u.1.builder.freeze g) := by
    have hnode := @networkValue_node u.1.builder.freeze h.sound.builder.topological _ _ hn g
    rwa [← Lit.positive, Lit.positive_of_not_inverted hpositive] at hnode
  have h0 : u.1.builder.fanin l.node 0 = some n.fanin0 := by rw [LogicBuilder.fanin, hn]; rfl
  have h1 : u.1.builder.fanin l.node 1 = some n.fanin1 := by rw [LogicBuilder.fanin, hn]; rfl
  have h2 : u.1.builder.fanin l.node 2 = some n.fanin2 := by rw [LogicBuilder.fanin, hn]; rfl
  have hsame {n' : Node} (hn' : s.1.builder.nodes[l.node]? = some n') : n' = n := Option.some.inj (hn'.symm.trans hrow)
  cases hl with
  | cached hcached => rw [hbefore] at hcached; cases hcached
  | disjunction _ hor => rw [demorganOr_positive hpositive] at hor; cases hor
  | negation _ _ hinverted => rw [hpositive] at hinverted; cases hinverted
  | constant _ _ hn' hkind =>
    obtain rfl := hsame hn'
    rw [hkind]
    have hemit : Outcome u (emit zeroBit)
        (fun v t => v = u.2.values.length ∧ t = (u.1, withConstant u.2 [.zero] (.scalar .fourState)))
        fun e t => Refused e ∧ Materializing s t := by
      apply outcome_zoom Prod.snd (constant_outcome u.2 rfl (by decide))
      · rintro v m' ⟨rfl, rfl⟩
        exact ⟨rfl, rfl⟩
      · rintro e m' ⟨he, rfl⟩
        exact ⟨⟨_, rfl, he⟩, h⟩
    apply Outcome.bind hemit ?_ fun _ _ he => he
    rintro v t ⟨rfl, rfl⟩
    have hresult := valueTy_withConstant u.2 [.zero] (.scalar .fourState)
    refine finishCached_emits h (extends_withConstant u.2 _ _) (h.consistent.withConstant rfl) hopen
      (.constant hbefore hpositive hn' hkind) hresult ⟨⟨_, hresult, rfl⟩, hvalid, fun value signal he => ?_⟩
    rw [hvalue, Node.denote, hkind]
    have hbit : constantBit (withConstant u.2 [.zero] (.scalar .fourState)) u.2.values.length = some (BitVal.ofBool false) := by
      rw [constantBit, withConstant, List.getElem?_concat_length]
      rfl
    exact (constantBit_truth hbit he).symm
  | @input _ leaf v _ _ _ hn' hkind hsource hty =>
    obtain rfl := hsame hn'
    rw [hkind]
    obtain ⟨hrowSource, hone⟩ := h.sound.sources l.node leaf hn hkind hvalid.2
    have horigin : v = leaf.origin := by
      rw [← h.sources, hrowSource] at hsource
      exact (Option.some.inj hsource).symm
    apply Outcome.bind (Q := fun a t => a = v ∧ t = u) ?_ ?_ fun _ _ he => he
    · apply Outcome.get
      rw [h.sources, hsource]
      exact ⟨rfl, rfl⟩
    · rintro _ _ ⟨rfl, rfl⟩
      refine finishCached_emits h (.refl _) h.consistent hopen (.input hbefore hpositive hn' hkind hsource hty)
        (valueTy_extends h.grown hty) ⟨horigin ▸ hone, hvalid, fun value signal he => ?_⟩
      rw [hvalue, Node.denote, hkind, horigin]
      rfl
  | and _ _ hn' hkind hleft hright =>
    obtain rfl := hsame hn'
    obtain ⟨a, hca, hra, hta, _⟩ := h.ready (hfanins _ (by simp [Node.fanins, hkind, NodeKind.arity])) hleft
    obtain ⟨b, hcb, hrb, htb, _⟩ := h.ready (hfanins _ (by simp [Node.fanins, hkind, NodeKind.arity])) hright
    rw [hkind]
    apply Outcome.bind (faninValue_outcome h0 hca) ?_ fun _ _ he => he
    rintro _ _ ⟨rfl, rfl⟩
    apply Outcome.bind (faninValue_outcome h1 hcb) ?_ fun _ _ he => he
    rintro _ _ ⟨rfl, rfl⟩
    refine binary_emits h hopen hvalid (.and hbefore hpositive hn' hkind hleft hright) rfl (c := .and) rfl hra hrb hta
      htb (by simp [WordModule.operationType, hta, htb]) fun g => ?_
    rw [hvalue, Node.denote, hkind]
    rfl
  | xor _ _ hn' hkind hleft hright =>
    obtain rfl := hsame hn'
    obtain ⟨a, hca, hra, hta, hwa⟩ := h.ready (hfanins _ (by simp [Node.fanins, hkind, NodeKind.arity])) hleft
    obtain ⟨b, hcb, hrb, htb, hwb⟩ := h.ready (hfanins _ (by simp [Node.fanins, hkind, NodeKind.arity])) hright
    rw [hkind]
    apply Outcome.bind (faninValue_outcome h0 hca) ?_ fun _ _ he => he
    rintro _ _ ⟨rfl, rfl⟩
    apply Outcome.bind (faninValue_outcome h1 hcb) ?_ fun _ _ he => he
    rintro _ _ ⟨rfl, rfl⟩
    refine binary_emits h hopen hvalid (.xor hbefore hpositive hn' hkind hleft hright) rfl (c := .xor) rfl hra hrb hta
      htb (operationType_xor hta htb hwa hwb) fun g => ?_
    rw [hvalue, Node.denote, hkind]
    rfl
  | mux _ _ hn' hkind hselect hthen helse =>
    obtain rfl := hsame hn'
    obtain ⟨c, hcc, hrc, htc, hwc⟩ := h.ready (hfanins _ (by simp [Node.fanins, hkind, NodeKind.arity])) hselect
    obtain ⟨a, hca, hra, hta, hwa⟩ := h.ready (hfanins _ (by simp [Node.fanins, hkind, NodeKind.arity])) hthen
    obtain ⟨b, hcb, hrb, htb, _⟩ := h.ready (hfanins _ (by simp [Node.fanins, hkind, NodeKind.arity])) helse
    rw [hkind]
    apply Outcome.bind (faninValue_outcome h0 hcc) ?_ fun _ _ he => he
    rintro _ _ ⟨rfl, rfl⟩
    apply Outcome.bind (faninValue_outcome h1 hca) ?_ fun _ _ he => he
    rintro _ _ ⟨rfl, rfl⟩
    apply Outcome.bind (faninValue_outcome h2 hcb) ?_ fun _ _ he => he
    rintro _ _ ⟨rfl, rfl⟩
    refine emitFinish_emits h hopen hvalid (.mux hbefore hpositive hn' hkind hselect hthen helse) hwa
      (by simp [WordModule.operationType, WordModule.requireValueWidth, htc, hwc, hta, htb]) ?_ fun value signal he => ?_
    · intro i hi
      simp only [OpKind.inputs, List.mem_cons, List.not_mem_nil, or_false] at hi
      rcases hi with rfl | rfl | rfl
      · exact WordModule.lt_of_valueTy htc
      · exact WordModule.lt_of_valueTy hta
      · exact WordModule.lt_of_valueTy htb
    · refine ⟨_, rfl, ?_⟩
      rw [hvalue, Node.denote, hkind, hrc.means.value value signal he, hra.means.value value signal he,
        hrb.means.value value signal he]
      split_ifs <;> rfl

theorem postponed_emits (h : Materializing s u) (hexpanded : expanded = false) (hopen : u.1.cached l = none)
    {pushed : List (Lit × Bool)} (hpushed : pushed = (operandsOf s.1 l).map (·, false) ++ [(l, true)]) :
    Emits s u l expanded (pure pushed) :=
  ⟨h, fun _ hy => hy, .inr ⟨hexpanded, by rw [Materialized, hopen]; exact Bool.false_ne_true, hpushed⟩⟩

theorem materializePositive_emits (h : Materializing s u) (hopen : u.1.cached l = none) (hvalid : Valid u.1.builder l)
    (hl : Typed s.1 s.2 l ty) (hpositive : l.isInverted = false)
    (hdone : expanded = true → ∀ d ∈ operandsOf s.1 l, Materialized u d) :
    Emits s u l expanded (materializePositive l expanded) := by
  obtain ⟨n, hn⟩ : ∃ n, u.1.builder.nodes[l.node]? = some n := ⟨_, List.getElem?_eq_getElem hvalid.1⟩
  have hoperands : operandsOf s.1 l = n.fanins := by
    rw [operandsOf_open (h.open hopen), demorganOr_positive hpositive, ← h.builder]
    exact below_positive hpositive hn
  have hkind : u.1.builder.kind l.node = some n.kind := by rw [LogicBuilder.kind, hn]; rfl
  apply Outcome.get
  simp only [hkind]
  split_ifs with hpush
  · rw [Bool.and_eq_true, Bool.not_eq_true'] at hpush
    rw [postpone_ok hn]
    exact postponed_emits h hpush.1 hopen (by rw [hoperands])
  · apply materializeNode_emits h hopen hvalid hl hpositive hn
    intro f hf
    cases expanded with
    | true => exact hdone rfl f (hoperands ▸ hf)
    | false =>
      -- a node that is not pushed back has no fanins
      have hgate : ¬(n.kind = .and ∨ n.kind = .xor ∨ n.kind = .mux) := by simpa using hpush
      rw [Node.fanins] at hf
      cases hk : n.kind with
      | constant =>
        rw [hk] at hf
        cases hf
      | input =>
        rw [hk] at hf
        cases hf
      | and => exact absurd (.inl hk) hgate
      | xor => exact absurd (.inr (.inl hk)) hgate
      | mux => exact absurd (.inr (.inr hk)) hgate

theorem materializeInverted_emits (h : Materializing s u) (hopen : u.1.cached l = none) (hvalid : Valid u.1.builder l)
    (hl : Typed s.1 s.2 l ty) (hinverted : l.isInverted = true) (hor : s.1.demorganOr l = none)
    (hdone : expanded = true → ∀ d ∈ operandsOf s.1 l, Materialized u d) :
    Emits s u l expanded (materializeInverted l expanded) := by
  have hbefore := h.open hopen
  have hoperands : operandsOf s.1 l = [l.positive] := by rw [operandsOf_open hbefore, hor, below_inverted hinverted]
  cases expanded with
  | false => exact postponed_emits h rfl hopen (by rw [hoperands]; rfl)
  | true =>
    cases hl with
    | cached hcached => rw [hbefore] at hcached; cases hcached
    | disjunction _ hor' => rw [hor] at hor'; cases hor'
    | negation _ _ _ hpos =>
      obtain ⟨a, hca, hra, hta, _⟩ := h.ready (hdone rfl l.positive (by rw [hoperands]; exact List.mem_singleton_self _)) hpos
      apply Outcome.bind (cachedOr_outcome hca) ?_ fun _ _ he => he
      rintro _ _ ⟨rfl, rfl⟩
      refine emitFinish_emits h hopen hvalid (.negation hbefore hor hinverted hpos) rfl
        (by simp [WordModule.operationType, hta]) ?_ fun value signal he => ⟨_, rfl, ?_⟩
      · exact fun i hi => List.mem_singleton.mp hi ▸ WordModule.lt_of_valueTy hta
      · rw [UnaryOp.denote, truth_bit, ← hra.means.value value signal he, ← networkValue_inverted,
          Lit.inverted_positive_of_inverted hinverted]
    | constant _ hpositive => rw [hinverted] at hpositive; cases hpositive
    | input _ hpositive => rw [hinverted] at hpositive; cases hpositive
    | and _ hpositive => rw [hinverted] at hpositive; cases hpositive
    | xor _ hpositive => rw [hinverted] at hpositive; cases hpositive
    | mux _ hpositive => rw [hinverted] at hpositive; cases hpositive

theorem materializeOr_emits (h : Materializing s u) (hopen : u.1.cached l = none) (hvalid : Valid u.1.builder l)
    (hl : Typed s.1 s.2 l ty) {left right : Lit} (hor : s.1.demorganOr l = some (left, right))
    (hdone : expanded = true → ∀ d ∈ operandsOf s.1 l, Materialized u d) :
    Emits s u l expanded (materializeOr l left right expanded) := by
  have hbefore := h.open hopen
  have hoperands : operandsOf s.1 l = [left, right] := by rw [operandsOf_open hbefore, hor]
  cases expanded with
  | false => exact postponed_emits h rfl hopen (by rw [hoperands]; rfl)
  | true =>
    obtain ⟨n, hn, hand, hinverted, h0, h1⟩ := demorganOr_some hor
    cases hl with
    | cached hcached => rw [hbefore] at hcached; cases hcached
    | disjunction _ hor' hleft hright =>
      rw [hor] at hor'
      cases hor'
      obtain ⟨a, hca, hra, hta, _⟩ := h.ready (hdone rfl left (by simp [hoperands])) hleft
      obtain ⟨b, hcb, hrb, htb, _⟩ := h.ready (hdone rfl right (by simp [hoperands])) hright
      apply Outcome.bind (cachedOr_outcome hca) ?_ fun _ _ he => he
      rintro _ _ ⟨rfl, rfl⟩
      apply Outcome.bind (cachedOr_outcome hcb) ?_ fun _ _ he => he
      rintro _ _ ⟨rfl, rfl⟩
      refine binary_emits h hopen hvalid (.disjunction hbefore hor hleft hright) rfl (c := .or) rfl hra hrb hta htb
        (by simp [WordModule.operationType, hta, htb]) fun g => ?_
      have hnode := @networkValue_node (LogicBuilder.freeze _) h.sound.builder.topological _ _ (h.builder ▸ hn) g
      rw [networkValue_phase, hinverted, hnode, Node.denote, hand, h0, h1]
      simp only [networkValue_inverted, Connective.apply]
      cases networkValue _ g left <;> cases networkValue _ g right <;> rfl
    | negation _ hor' => rw [hor] at hor'; cases hor'
    | constant _ hpositive => rw [hinverted] at hpositive; cases hpositive
    | input _ hpositive => rw [hinverted] at hpositive; cases hpositive
    | and _ hpositive => rw [hinverted] at hpositive; cases hpositive
    | xor _ hpositive => rw [hinverted] at hpositive; cases hpositive
    | mux _ hpositive => rw [hinverted] at hpositive; cases hpositive

theorem demorganOr_builder {a : PredicateArena} (h : a.builder = arena.builder) (l : Lit) :
    a.demorganOr l = arena.demorganOr l := by rw [demorganOr, demorganOr, h]

theorem materializeVisit_emits (h : Materializing s u) (hvalid : Valid u.1.builder l) (hl : Typed s.1 s.2 l ty)
    (hdone : expanded = true → ∀ d ∈ operandsOf s.1 l, Materialized u d) :
    Emits s u l expanded (materializeVisit l expanded) := by
  have horigin := demorganOr_builder h.builder l
  apply Outcome.get
  by_cases hknown : (u.1.cached l).isSome
  · rw [if_pos hknown]
    exact ⟨h, fun _ hy => hy, .inl ⟨rfl, hknown⟩⟩
  · rw [if_neg hknown]
    have hopen : u.1.cached l = none := by simpa using hknown
    rw [horigin]
    cases hor : s.1.demorganOr l with
    | some parts =>
      obtain ⟨left, right⟩ := parts
      exact materializeOr_emits h hopen hvalid hl hor hdone
    | none =>
      dsimp only
      split_ifs with hinverted
      · exact materializeInverted_emits h hopen hvalid hl hinverted hor hdone
      · exact materializePositive_emits h hopen hvalid hl (Bool.eq_false_iff.mpr hinverted) hdone

open Classical in
/-- The literals that can be typed. -/
noncomputable def typable (arena : PredicateArena) (m : WordModule) : List Lit :=
  (literals arena.builder).filter fun l => ∃ ty, Typed arena m l ty

theorem mem_typable : l ∈ typable arena m ↔ Valid arena.builder l ∧ ∃ ty, Typed arena m l ty := by
  simp [typable, mem_literals]

/-- A literal that can be typed gets a word value. -/
theorem traverse_materializes (h : s.1.Sound s.2) (hm : Consistent s.2) (hl : Valid s.1.builder l)
    (hty : Typed s.1 s.2 l ty) : Outcome s (traverse .fuel materializeVisit s.1.traversalBudget [(l, false)])
      (fun _ t => Materializing s t ∧ Materialized t l) fun e t => Refused e ∧ Materializing s t := by
  have hbudget : (3 + 2) * (typable s.1 s.2).length < s.1.traversalBudget := by
    have hle : (typable s.1 s.2).length ≤ (literals s.1.builder).length := List.length_filter_le _ _
    have hliterals := length_literals_le s.1.builder
    rw [traversalBudget, LogicBuilder.nodeCount]
    omega
  apply traverse_outcome (fun _ _ hd => code_operand h.builder hd) ?_ (length_operandsOf_le s.1) ?_ (.refl h hm)
    (mem_typable.mpr ⟨hl, ty, hty⟩) hbudget
  · intro x hx d hd
    obtain ⟨hvalid, xTy, hxTy⟩ := mem_typable.mp hx
    exact mem_typable.mpr ⟨valid_operand h.builder hvalid hd, hxTy.operands hd⟩
  · intro u hu x hx expanded hdone
    obtain ⟨hvalid, xTy, hxTy⟩ := mem_typable.mp hx
    exact materializeVisit_emits hu (hu.builder ▸ hvalid) hxTy hdone

theorem materializeLiteral_outcome (h : s.1.Sound s.2) (hm : Consistent s.2) (hl : Valid s.1.builder l)
    (hty : Typed s.1 s.2 l ty) : Outcome s (materializeLiteral l)
      (fun v t => (t.1.Sound t.2 ∧ t.1.builder = s.1.builder ∧ s.2.Extends t.2 ∧ Consistent t.2) ∧
        Represents t.1.builder t.2 l v)
      fun e t => Refused e ∧ t.1.Sound t.2 ∧ t.1.builder = s.1.builder ∧ s.2.Extends t.2 ∧ Consistent t.2 := by
  have hcached (k : Lit) : PredicateArena.cached
      { s.1 with materialized := s.1.materialized.resize s.1.builder.nodeCount } k = s.1.cached k :=
    PhaseTable.get_resize h.cachedFit k
  have hsound : Sound { s.1 with materialized := s.1.materialized.resize s.1.builder.nodeCount } s.2 :=
    { h with
      cachedFit := by rw [PhaseTable.length_resize]; exact le_rfl
      cached := fun k v hk => h.cached k v (by rwa [hcached] at hk) }
  have hwalk := traverse_materializes (s := ({ s.1 with materialized := s.1.materialized.resize s.1.builder.nodeCount }, s.2))
    hsound hm hl (hty.resized h.cachedFit)
  apply Outcome.modify
  apply Outcome.get
  apply Outcome.bind hwalk
  · intro _ t ⟨ht, hdone⟩
    obtain ⟨v, hv⟩ := Option.isSome_iff_exists.mp hdone
    apply Outcome.mono (cachedOr_outcome hv (E := fun _ _ => False)) ?_ fun _ _ he => he.elim
    rintro _ _ ⟨rfl, rfl⟩
    exact ⟨⟨ht.sound, ht.builder, ht.grown, ht.consistent⟩, ht.sound.cached l _ hv⟩
  · exact fun e t ⟨he, ht⟩ => ⟨he, ht.sound, ht.builder, ht.grown, ht.consistent⟩

end Walk

end PredicateArena

end Opto.Frontend
