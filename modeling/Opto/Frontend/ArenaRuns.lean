import Opto.Frontend.MaterializeSound

/-!
# Runs of the arena

Calls come in any order while the module grows, and each leaves its answer behind. In a run
whose values are readable and whose word values have types, every answer is right from then
on, and only capacity stops a call.
-/

namespace Opto.Frontend

open Logic Word

/-- A call that came back, with its arguments and its result. -/
inductive Answer
  | value (value : Nat) (result : Predicate)
  | negation (predicate result : Predicate)
  | conjunction (left right result : Predicate)
  | disjunction (left right result : Predicate)
  | cofactor (condition : Lit) (conditionValue : Bool) (predicate result : Predicate)
  | word (predicate : Predicate) (result : MaterializedPredicate)
  deriving DecidableEq

/-- The word that a materialized predicate stands for. -/
def MaterializedPredicate.word (value : Nat → Bits) : MaterializedPredicate → Bits
  | .never => [false]
  | .always => [true]
  | .value v => value v

namespace Answer

def result : Answer → Option Predicate
  | .value _ result | .negation _ result | .conjunction _ _ result | .disjunction _ _ result
  | .cofactor _ _ _ result => some result
  | .word _ _ => none

def literals : Answer → List Lit
  | .value _ result => [result.literal]
  | .negation predicate result => [predicate.literal, result.literal]
  | .conjunction left right result | .disjunction left right result => [left.literal, right.literal, result.literal]
  | .cofactor condition _ predicate result => [condition, predicate.literal, result.literal]
  | .word predicate _ => [predicate.literal]

/-- What an answer claims, for the truths of the literals and the words of the values. -/
def Holds (truth : Lit → Bool) (value : Nat → Bits) : Answer → Prop
  | .value v result => truth result.literal = (value v).truth
  | .negation predicate result => truth result.literal = !truth predicate.literal
  | .conjunction left right result => truth result.literal = (truth left.literal && truth right.literal)
  | .disjunction left right result => truth result.literal = (truth left.literal || truth right.literal)
  | .cofactor condition conditionValue predicate result =>
    truth condition = conditionValue → truth result.literal = truth predicate.literal
  | .word predicate result => result.word value = [truth predicate.literal]

theorem holds_congr {a : Answer} {truth truth' : Lit → Bool} (value : Nat → Bits)
    (h : ∀ l ∈ a.literals, truth' l = truth l) (ha : a.Holds truth value) : a.Holds truth' value := by
  cases a <;> simp_all [Holds, literals]

instance (truth : Lit → Bool) (value : Nat → Bits) (a : Answer) : Decidable (a.Holds truth value) :=
  match a with
  | .value v result => inferInstanceAs (Decidable (truth result.literal = (value v).truth))
  | .negation p result => inferInstanceAs (Decidable (truth result.literal = !truth p.literal))
  | .conjunction p q result => inferInstanceAs (Decidable (truth result.literal = (truth p.literal && truth q.literal)))
  | .disjunction p q result => inferInstanceAs (Decidable (truth result.literal = (truth p.literal || truth q.literal)))
  | .cofactor c b p result =>
    inferInstanceAs (Decidable (truth c = b → truth result.literal = truth p.literal))
  | .word p result => inferInstanceAs (Decidable (result.word value = [truth p.literal]))

end Answer

structure Session where
  arena : PredicateArena
  module : WordModule
  restrictions : List PredicateRestriction
  answers : List Answer
  deriving DecidableEq

namespace Session

def start (m : WordModule) : Session := ⟨.new, m, [], []⟩

/-- A predicate that a caller can hold. -/
def Known (s : Session) (p : Predicate) : Prop :=
  p = .never ∨ p = .always ∨ ∃ a ∈ s.answers, a.result = some p

/-- Under all words for the module, every answer holds, with the sources' truths at the inputs. -/
def Exact (s : Session) : Prop :=
  ∀ a ∈ s.answers, ∀ value signal, Evaluates s.module value signal →
    a.Holds (networkValue s.arena.builder.freeze (boundary value)) value

end Session

inductive ArenaCall
  | value (value : Nat)
  | not (predicate : Predicate)
  | and (left right : Predicate)
  | or (left right : Predicate)
  | restriction (condition : Predicate) (conditionValue : Bool)
  | restrict (predicate : Predicate) (restriction : Nat)
  | materialize (predicate : Predicate)
  deriving DecidableEq

namespace ArenaCall

abbrev SessionM := EStateM (Halt SynthError) Session

def answer (a : Answer) : SessionM Unit := modify fun s => { s with answers := s.answers ++ [a] }

def onArena {α : Type} (m : ArenaM α) : SessionM α :=
  zoom Session.arena (fun arena s => { s with arena }) id m

def onRestriction (index : Nat) (restriction : PredicateRestriction) (m : PredicateArena.RestrictM Predicate) :
    SessionM Predicate :=
  zoom (fun s : Session => (s.arena, restriction))
    (fun t s => { s with arena := t.1, restrictions := s.restrictions.set index t.2 }) id m

def onModule (m : PredicateArena.MaterializeM MaterializedPredicate) : SessionM MaterializedPredicate :=
  zoom (fun s : Session => (s.arena, s.module)) (fun t s => { s with arena := t.1, module := t.2 }) id m

def exec : ArenaCall → SessionM Unit
  | .value v => do
    let s ← get
    let p ← onArena (PredicateArena.value s.module v)
    answer (.value v p)
  | .not p => answer (.negation p p.not)
  | .and p q => do
    let r ← onArena (PredicateArena.and p q)
    answer (.conjunction p q r)
  | .or p q => do
    let r ← onArena (PredicateArena.or p q)
    answer (.disjunction p q r)
  | .restriction condition conditionValue => do
    let s ← get
    let r ← PredicateArena.raise (PredicateArena.restriction s.arena condition conditionValue)
    modify fun s => { s with restrictions := s.restrictions ++ [r] }
  | .restrict p index => do
    let s ← get
    match s.restrictions[index]? with
    | none => pure ()
    | some r => do
      let q ← onRestriction index r (PredicateArena.restrict p)
      answer (.cofactor r.condition r.conditionValue p q)
  | .materialize p => do
    let w ← onModule (PredicateArena.materialize p)
    answer (.word p w)

/-- Values are one-bit values of the module, and predicates came from the arena. -/
def Admissible (s : Session) : ArenaCall → Prop
  | .value v => OneBit s.module v
  | .not p | .materialize p | .restriction p _ => s.Known p
  | .and p q | .or p q => s.Known p ∧ s.Known q
  | .restrict p index => s.Known p ∧ index < s.restrictions.length

/-- A value that is not known yet reads bits, and a word value has a type. -/
def Careful (s : Session) : ArenaCall → Prop
  | .value v => s.arena.represented.lookup v = none → PredicateArena.Readable s.module v
  | .materialize p => PredicateArena.Typable s.arena s.module p
  | _ => True

/-- A constant has no cofactors. -/
def Constant : ArenaCall → Prop
  | .restriction .never _ | .restriction .always _ => True
  | _ => False

/-- Capacity aside, the call comes back. -/
def Settles (s : Session) (c : ArenaCall) : Prop :=
  ∀ e t, c.exec.run s = .error e t → Refused e ∨ c.Constant

/-- The session that a call leaves behind. -/
def after (c : ArenaCall) (s : Session) : Session :=
  match c.exec.run s with
  | .ok _ t | .error _ t => t

theorem run_eq_after (c : ArenaCall) (s : Session) :
    c.exec.run s = .ok () (c.after s) ∨ ∃ e, c.exec.run s = .error e (c.after s) := by
  unfold after
  cases c.exec.run s with
  | ok u t => exact .inl rfl
  | error e t => exact .inr ⟨e, rfl⟩

end ArenaCall

namespace Session

inductive Step (allowed : Session → ArenaCall → Prop) : Session → Session → Prop
  | grow {s : Session} {m : WordModule} (hext : s.module.Extends m) (hm : Consistent m) :
    Step allowed s { s with module := m }
  | call {s t : Session} (c : ArenaCall) (hadmissible : c.Admissible s) (hallowed : allowed s c)
    (hrun : c.exec.run s = .ok () t ∨ ∃ e, c.exec.run s = .error e t) : Step allowed s t

def Run (allowed : Session → ArenaCall → Prop) : Session → Session → Prop :=
  Relation.ReflTransGen (Step allowed)

structure Sound (s : Session) : Prop where
  arena : s.arena.Sound s.module
  consistent : Consistent s.module
  restrictions : ∀ r ∈ s.restrictions, PredicateArena.Cofactors s.arena.builder r
  valid : ∀ a ∈ s.answers, ∀ l ∈ a.literals, Valid s.arena.builder l
  exact : s.Exact

variable {s t : Session} {p q : Predicate}

theorem Sound.start {m : WordModule} (hm : Consistent m) : (start m).Sound where
  arena := PredicateArena.Sound.new m
  consistent := hm
  restrictions r hr := by cases hr
  valid a ha := by cases ha
  exact a ha := by cases ha

/-- Answers stay right while the network and the module grow. -/
theorem Sound.later (h : s.Sound) (harena : t.arena.Sound t.module)
    (hgrows : Logic.Grows s.arena.builder t.arena.builder) (hext : s.module.Extends t.module)
    (hm : Consistent t.module) (hrestrictions : ∀ r ∈ t.restrictions, PredicateArena.Cofactors t.arena.builder r)
    (hanswers : t.answers = s.answers) : t.Sound where
  arena := harena
  consistent := hm
  restrictions := hrestrictions
  valid a ha l hl := hgrows.valid (h.valid a (hanswers ▸ ha) l hl)
  exact a ha value signal he := by
    rw [hanswers] at ha
    apply Answer.holds_congr value ?_ (h.exact a ha value signal (he.of_extends hext))
    exact fun l hl => networkValue_later h.arena.builder hgrows (h.valid a ha l hl) _

theorem Sound.answer (h : s.Sound) {a : Answer} (hvalid : ∀ l ∈ a.literals, Valid s.arena.builder l)
    (hholds : ∀ value signal, Evaluates s.module value signal →
      a.Holds (networkValue s.arena.builder.freeze (boundary value)) value) :
    Sound { s with answers := s.answers ++ [a] } where
  arena := h.arena
  consistent := h.consistent
  restrictions := h.restrictions
  valid b hb l hl := by
    rcases List.mem_append.mp hb with hb | hb
    · exact h.valid b hb l hl
    · rw [List.mem_singleton.mp hb] at hl
      exact hvalid l hl
  exact b hb value signal he := by
    rcases List.mem_append.mp hb with hb | hb
    · exact h.exact b hb value signal he
    · rw [List.mem_singleton.mp hb]
      exact hholds value signal he

/-- A predicate that a caller can hold has a literal of the network. -/
theorem Sound.known (h : s.Sound) (hp : s.Known p) : Valid s.arena.builder p.literal := by
  rcases hp with rfl | rfl | ⟨a, ha, hresult⟩
  · exact h.arena.builder.valid_FALSE
  · exact h.arena.builder.valid_TRUE
  · apply h.valid a ha
    cases a with
    | word predicate result => cases hresult
    | _ =>
      cases hresult
      simp [Answer.literals]

/-- Under all words, a literal means what it is. -/
theorem Sound.means (h : s.Sound) (hp : s.Known p) : Means s.arena.builder s.module p.literal fun value _ =>
    networkValue s.arena.builder.freeze (boundary value) p.literal :=
  ⟨h.known hp, fun _ _ _ => rfl⟩

end Session

namespace ArenaCall

variable {s : Session}

/-- What a call from a sound session leaves behind. -/
def Safe (s : Session) (c : ArenaCall) : Prop :=
  Outcome s c.exec (fun _ t => t.Sound) fun e t => (Refused e ∨ c.Constant) ∧ t.Sound

theorem onArena_outcome (h : s.Sound) {α : Type} {m : ArenaM α} {Q : α → PredicateArena → Prop}
    (hm : PredicateArena.Keeps s.arena s.module m Q) :
    Outcome s (onArena m) (fun a t => t = { s with arena := t.arena } ∧ t.Sound ∧
        Logic.Grows s.arena.builder t.arena.builder ∧ Q a t.arena)
      fun e t => Refused e ∧ t.Sound := by
  have hlater {arena : PredicateArena} (hkept : PredicateArena.Kept s.arena s.module arena) :
      Session.Sound { s with arena } :=
    h.later hkept.sound hkept.grows (.refl _) h.consistent
      (fun r hr => (h.restrictions r hr).mono h.arena.builder hkept.grows) rfl
  apply outcome_zoom Session.arena hm
  · exact fun a t ⟨hkept, ha⟩ => ⟨rfl, hlater hkept, hkept.grows, ha⟩
  · exact fun e t ⟨he, hkept⟩ => ⟨he, hlater hkept⟩

theorem value_safe (h : s.Sound) {v : Nat} (hone : OneBit s.module v) (hcareful : Careful s (.value v)) :
    Safe s (.value v) := by
  apply Outcome.get
  apply Outcome.bind (onArena_outcome h (PredicateArena.value_keeps h.arena h.consistent hone hcareful))
  · intro p t ⟨ht, hsound, _, hp⟩
    rw [ht] at hsound ⊢
    refine hsound.answer ?_ fun value signal he => hp.means.value value signal he
    exact fun l hl => List.mem_singleton.mp hl ▸ hp.means.valid
  · exact fun e t ⟨he, hsound⟩ => ⟨.inl he, hsound⟩

theorem not_safe (h : s.Sound) {p : Predicate} (hp : s.Known p) : Safe s (.not p) := by
  have hmeans := PredicateArena.not_means (h.means hp)
  refine h.answer ?_ fun value signal he => hmeans.value value signal he
  intro l hl
  rcases List.mem_cons.mp hl with rfl | hl
  · exact h.known hp
  · exact List.mem_singleton.mp hl ▸ hmeans.valid

theorem and_safe (h : s.Sound) {p q : Predicate} (hp : s.Known p) (hq : s.Known q) : Safe s (.and p q) := by
  apply Outcome.bind (onArena_outcome h (PredicateArena.and_keeps h.arena (h.means hp) (h.means hq)))
  · intro r t ⟨ht, hsound, hgrows, hr⟩
    rw [ht] at hsound ⊢
    have hleft := hgrows.valid (h.known hp)
    have hright := hgrows.valid (h.known hq)
    refine hsound.answer (by simp [Answer.literals, hleft, hright, hr.valid]) fun value signal he => ?_
    rw [Answer.Holds, hr.value value signal he, networkValue_later h.arena.builder hgrows (h.known hp),
      networkValue_later h.arena.builder hgrows (h.known hq)]
  · exact fun e t ⟨he, hsound⟩ => ⟨.inl he, hsound⟩

theorem or_safe (h : s.Sound) {p q : Predicate} (hp : s.Known p) (hq : s.Known q) : Safe s (.or p q) := by
  apply Outcome.bind (onArena_outcome h (PredicateArena.or_keeps h.arena (h.means hp) (h.means hq)))
  · intro r t ⟨ht, hsound, hgrows, hr⟩
    rw [ht] at hsound ⊢
    have hleft := hgrows.valid (h.known hp)
    have hright := hgrows.valid (h.known hq)
    refine hsound.answer (by simp [Answer.literals, hleft, hright, hr.valid]) fun value signal he => ?_
    rw [Answer.Holds, hr.value value signal he, networkValue_later h.arena.builder hgrows (h.known hp),
      networkValue_later h.arena.builder hgrows (h.known hq)]
  · exact fun e t ⟨he, hsound⟩ => ⟨.inl he, hsound⟩

theorem restriction_safe (h : s.Sound) {condition : Predicate} {conditionValue : Bool} (hp : s.Known condition) :
    Safe s (.restriction condition conditionValue) := by
  apply Outcome.get
  cases hr : PredicateArena.restriction s.arena condition conditionValue with
  | error e =>
    cases condition with
    | value literal => cases hr
    | never => exact ⟨.inr trivial, h⟩
    | always => exact ⟨.inr trivial, h⟩
  | ok r =>
    apply h.later (t := { s with restrictions := s.restrictions ++ [r] }) h.arena (.refl h.arena.builder) (.refl _)
      h.consistent ?_ rfl
    intro k hk
    rcases List.mem_append.mp hk with hk | hk
    · exact h.restrictions k hk
    · rw [List.mem_singleton.mp hk]
      exact (PredicateArena.cofactors_restriction (h.known hp) hr).1

theorem restrict_safe (h : s.Sound) {p : Predicate} (hp : s.Known p) (index : Nat) : Safe s (.restrict p index) := by
  apply Outcome.get
  cases hr : s.restrictions[index]? with
  | none => exact h
  | some r =>
    have hcofactors := h.restrictions r (List.mem_of_getElem? hr)
    have hlater {u : PredicateArena × PredicateRestriction}
        (hu : PredicateArena.Restricting (s.arena, r) s.module u) :
        Session.Sound { s with arena := u.1, restrictions := s.restrictions.set index u.2 } := by
      apply h.later (t := { s with arena := u.1, restrictions := s.restrictions.set index u.2 }) hu.kept.sound
        hu.kept.grows (.refl _) h.consistent ?_ rfl
      intro k hk
      rcases List.mem_or_eq_of_mem_set hk with hk | rfl
      · exact (h.restrictions k hk).mono h.arena.builder hu.kept.grows
      · exact hu.cofactors
    have hcall : Outcome s (onRestriction index r (PredicateArena.restrict p))
        (fun q t => t.Sound ∧ Logic.Grows s.arena.builder t.arena.builder ∧ ∃ u : PredicateRestriction,
          u.condition = r.condition ∧ u.conditionValue = r.conditionValue ∧
            PredicateArena.Agrees t.arena.builder u p.literal q.literal)
        fun e t => Refused e ∧ t.Sound := by
      apply outcome_zoom (fun s : Session => (s.arena, r))
        (PredicateArena.restrict_outcome (m := s.module) h.arena hcofactors (h.known hp))
      · exact fun q u ⟨hu, hq⟩ => ⟨hlater hu, hu.kept.grows, u.2, hu.condition, hu.conditionValue, hq⟩
      · exact fun e u ⟨he, hu⟩ => ⟨he, hlater hu⟩
    apply Outcome.bind hcall
    · intro q t ⟨hsound, hgrows, u, hcondition, hvalue, hvalid, hagrees⟩
      rw [hcondition, hvalue] at hagrees
      have hknown := hgrows.valid (h.known hp)
      have hlit := hgrows.valid hcofactors.condition
      exact hsound.answer (by simp [Answer.literals, hlit, hknown, hvalid]) fun value _ _ => hagrees (boundary value)
    · exact fun e t ⟨he, hsound⟩ => ⟨.inl he, hsound⟩

theorem materialize_safe (h : s.Sound) {p : Predicate} (hp : s.Known p) (hcareful : Careful s (.materialize p)) :
    Safe s (.materialize p) := by
  have hlater {u : PredicateArena × WordModule} (hu : u.1.Sound u.2 ∧ u.1.builder = s.arena.builder ∧
      s.module.Extends u.2 ∧ Consistent u.2) : Session.Sound { s with arena := u.1, module := u.2 } := by
    obtain ⟨harena, hbuilder, hext, hm⟩ := hu
    apply h.later (t := { s with arena := u.1, module := u.2 }) harena ?_ hext hm ?_ rfl
    · rw [hbuilder]
      exact .refl h.arena.builder
    · simp only [hbuilder]
      exact h.restrictions
  have hcall : Outcome s (onModule (PredicateArena.materialize p))
      (fun w t => t.Sound ∧ t.arena.builder = s.arena.builder ∧ ∀ value signal, Evaluates t.module value signal →
        w.word value = [networkValue t.arena.builder.freeze (boundary value) p.literal])
      fun e t => Refused e ∧ t.Sound := by
    cases p with
    | never =>
      refine ⟨h, rfl, fun value _ _ => ?_⟩
      exact congrArg List.singleton (h.arena.builder.eval_FALSE (leafOf s.arena.builder.freeze _)).symm
    | always =>
      refine ⟨h, rfl, fun value _ _ => ?_⟩
      exact congrArg List.singleton (h.arena.builder.eval_TRUE (leafOf s.arena.builder.freeze _)).symm
    | value l =>
      obtain ⟨ty, hty⟩ := hcareful
      apply outcome_zoom (fun s : Session => (s.arena, s.module))
        (Outcome.map (PredicateArena.materializeLiteral_outcome h.arena h.consistent (h.known hp) hty)
          (R := fun w t => (t.1.Sound t.2 ∧ t.1.builder = s.arena.builder ∧ s.module.Extends t.2 ∧ Consistent t.2) ∧
            ∃ v, w = .value v ∧ Represents t.1.builder t.2 l v) fun v t ⟨ht, hv⟩ => ⟨ht, v, rfl, hv⟩)
      · rintro w t ⟨ht, v, rfl, hv⟩
        refine ⟨hlater ht, ht.2.1, fun value signal he => ?_⟩
        rw [MaterializedPredicate.word, eq_truth (hv.oneBit.length he), Predicate.literal, hv.means.value value signal he]
      · exact fun e t ⟨he, ht⟩ => ⟨he, hlater ht⟩
  apply Outcome.bind hcall
  · intro w t ⟨hsound, hbuilder, hw⟩
    have hknown := h.known hp
    refine hsound.answer ?_ fun value signal he => hw value signal he
    intro l hl
    rw [List.mem_singleton.mp hl, hbuilder]
    exact hknown
  · exact fun e t ⟨he, hsound⟩ => ⟨.inl he, hsound⟩

theorem safe (h : s.Sound) {c : ArenaCall} (hadmissible : c.Admissible s) (hcareful : c.Careful s) : Safe s c := by
  cases c with
  | value v => exact value_safe h hadmissible hcareful
  | not p => exact not_safe h hadmissible
  | and p q => exact and_safe h hadmissible.1 hadmissible.2
  | or p q => exact or_safe h hadmissible.1 hadmissible.2
  | restriction condition conditionValue => exact restriction_safe h hadmissible
  | restrict p index => exact restrict_safe h hadmissible.1 index
  | materialize p => exact materialize_safe h hadmissible hcareful

end ArenaCall

namespace Session

variable {s t : Session}

theorem Sound.step (h : s.Sound) (hstep : Step (fun s c => c.Careful s) s t) : t.Sound := by
  cases hstep with
  | grow hext hm =>
    exact h.later (h.arena.mono hext) (.refl h.arena.builder) hext hm h.restrictions rfl
  | call c hadmissible hcareful hrun =>
    have hsafe := ArenaCall.safe h hadmissible hcareful
    rcases hrun with hok | ⟨e, herror⟩
    · exact hsafe.ok hok
    · exact (hsafe.error herror).2

theorem Sound.run (h : s.Sound) (hrun : Run (fun s c => c.Careful s) s t) : t.Sound := by
  induction hrun with
  | refl => exact h
  | tail _ hstep ih => exact ih.step hstep

/-- In every run of careful calls from a new arena, every answer holds under all words for the
module, and only capacity, or a constant condition, stops a careful call. -/
theorem predicates_exact (m : WordModule) (hvalid : m.validate = true) (s : Session)
    (hrun : Run (fun s c => c.Careful s) (start m) s) :
    s.Exact ∧ ∀ c : ArenaCall, c.Admissible s → c.Careful s → c.Settles s := by
  have hsound := (Sound.start (consistent_of_validate hvalid)).run hrun
  refine ⟨hsound.exact, fun c hadmissible hcareful e t herror => ?_⟩
  exact ((ArenaCall.safe hsound hadmissible hcareful).error herror).1

/-! The runs of a list of calls. -/

instance (s : Session) (p : Predicate) : Decidable (s.Known p) := inferInstanceAs (Decidable (_ ∨ _ ∨ _))

instance (s : Session) (c : ArenaCall) : Decidable (c.Admissible s) :=
  match c with
  | .value v => inferInstanceAs (Decidable (OneBit s.module v))
  | .not p | .materialize p | .restriction p _ => inferInstanceAs (Decidable (s.Known p))
  | .and p q | .or p q => inferInstanceAs (Decidable (s.Known p ∧ s.Known q))
  | .restrict p index => inferInstanceAs (Decidable (s.Known p ∧ index < s.restrictions.length))

def after (s : Session) (calls : List ArenaCall) : Session := calls.foldl (fun s c => c.after s) s

/-- Every call is allowed where it is made. -/
def Admits (allowed : Session → ArenaCall → Prop) : Session → List ArenaCall → Prop
  | _, [] => True
  | s, c :: calls => c.Admissible s ∧ allowed s c ∧ Admits allowed (c.after s) calls

instance decidableAdmits (allowed : Session → ArenaCall → Prop) [∀ s c, Decidable (allowed s c)] :
    ∀ s calls, Decidable (Admits allowed s calls)
  | _, [] => isTrue trivial
  | s, c :: calls =>
    have := decidableAdmits allowed (c.after s) calls
    inferInstanceAs (Decidable (_ ∧ _ ∧ _))

theorem run_after {allowed : Session → ArenaCall → Prop} {calls : List ArenaCall} {s : Session}
    (h : Admits allowed s calls) : Run allowed s (s.after calls) := by
  induction calls generalizing s with
  | nil => exact .refl
  | cons c calls ih =>
    obtain ⟨hadmissible, hallowed, hrest⟩ := h
    exact .head (.call c hadmissible hallowed (ArenaCall.run_eq_after c s)) (ih hrest)

def scalar : WordType := .scalar .fourState

/-- A wire, a constant, and whether they are equal. -/
def comparison (bits : List BitVal) (ty : WordType) : WordModule :=
  { WordModule.empty with
    signals := [⟨none, .wire, scalar, .singleDriver, none⟩]
    values := [⟨.signal ⟨0, 0, 1⟩, scalar⟩, ⟨.constant bits, ty⟩, ⟨.operation 0, scalar⟩]
    operations := [⟨.binary .eq 0 1, 2⟩] }

def signedScalar : WordType := ⟨1, true, .fourState, Nat.one_pos⟩

def pair : WordType := ⟨2, false, .fourState, by decide⟩

/-- A wire compared with one is the wire, and its complement gets a word. -/
theorem comparison_exact : ∃ s : Session, s.Exact ∧
    s.answers = [.value 2 (.value ⟨1, false⟩), .negation (.value ⟨1, false⟩) (.value ⟨1, true⟩),
      .word (.value ⟨1, true⟩) (.value 3)] := by
  have hrun : Run (fun s c => c.Careful s) (start (comparison [.zero, .one] pair))
      ((start (comparison [.zero, .one] pair)).after
        [.value 2, .not (.value ⟨1, false⟩), .materialize (.value ⟨1, true⟩)]) := by
    apply run_after
    refine ⟨by decide, fun _ => ⟨by decide, fun _ _ _ h => by cases h⟩, by decide, trivial, by decide, ?_, trivial⟩
    refine ⟨_, .negation ?_ ?_ rfl (.cached (v := 2) ?_ (rfl : _ = some scalar))⟩ <;> decide
  exact ⟨_, (predicates_exact _ (by decide) _ hrun).1, by decide⟩

/-- The wire is low, which is not two. -/
def lowWire : Nat → Bits
  | 0 => [false]
  | 1 => [false, true]
  | 2 => [false]
  | _ => []

theorem lowWire_evaluates : Evaluates (comparison [.one, .zero] pair) lowWire fun _ => [false] where
  width v ty h := by
    rcases v with _ | _ | _ | v <;> cases h <;> rfl
  signalWidth s ty h := by
    rcases s with _ | s <;> cases h
    rfl
  constant v bits ty h := by
    rcases v with _ | _ | _ | v <;> cases h
    exact .cons rfl (.cons rfl .nil)
  read v reference ty h := by
    rcases v with _ | _ | _ | v <;> cases h
    rfl
  operation o stored ty bits h hty hbits := by
    rcases o with _ | o <;> cases h
    cases hty
    cases hbits
    decide

/-- `s ? a : b` with a signed `b`. -/
def selection : WordModule :=
  { WordModule.empty with
    signals := [⟨none, .wire, scalar, .singleDriver, none⟩, ⟨none, .wire, scalar, .singleDriver, none⟩,
      ⟨none, .wire, signedScalar, .singleDriver, none⟩]
    values := [⟨.signal ⟨0, 0, 1⟩, scalar⟩, ⟨.signal ⟨1, 0, 1⟩, scalar⟩, ⟨.signal ⟨2, 0, 1⟩, signedScalar⟩] }

/-- A wire compared with two is taken for its complement, and a selection between words of two
types, which is a multiplexer of the network, gets no word. -/
theorem predicates_misread :
    ((comparison [.one, .zero] pair).validate = true ∧
      ∃ s, Run (fun _ _ => True) (start (comparison [.one, .zero] pair)) s ∧ ¬s.Exact) ∧
    selection.validate = true ∧ ∃ s, Run (fun _ _ => True) (start selection) s ∧
      ∃ c : ArenaCall, c.Admissible s ∧ ¬c.Constant ∧ ¬c.Settles s := by
  refine ⟨⟨by decide, (start (comparison [.one, .zero] pair)).after [.value 2, .value 0], run_after (by decide),
    fun hexact => ?_⟩, by decide, (start selection).after
      [.value 0, .value 1, .value 2, .and (.value ⟨1, false⟩) (.value ⟨2, false⟩), .not (.value ⟨1, false⟩),
        .and (.value ⟨1, true⟩) (.value ⟨3, false⟩), .or (.value ⟨4, false⟩) (.value ⟨5, false⟩)],
    run_after (by decide), .materialize (.value ⟨6, false⟩), by decide, id, fun hsettles => ?_⟩
  · have hholds := hexact (.value 0 (.value ⟨1, true⟩)) (by decide) lowWire _ lowWire_evaluates
    exact absurd hholds (by decide)
  · rcases hsettles (.error (.word .mismatch)) _ rfl with ⟨e, he, hcapacity⟩ | hconstant
    · cases he
      rcases hcapacity with h | h <;> cases h
    · exact hconstant

end Session

end Opto.Frontend
