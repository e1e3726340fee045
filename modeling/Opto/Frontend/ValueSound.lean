import Opto.Frontend.ArenaSound

/-!
# Predicates of word values

The predicate of a one-bit value has its truth, through constants, controls and Boolean
operations of both, as long as comparisons are with constants that fit one bit.
-/

namespace Opto.Frontend.PredicateArena

open Logic Word Bits

variable {arena : PredicateArena} {m : WordModule} {value signal : Nat → Bits} {v : Nat}

theorem constantBit_some {bit : BitVal} (h : constantBit m v = some bit) :
    ∃ ty, m.values[v]? = some ⟨.constant [bit], ty⟩ := by
  rw [constantBit] at h
  split at h
  · rename_i bits ty hv
    split_ifs at h with hlength
    obtain ⟨first, rfl⟩ := List.length_eq_one_iff.mp hlength
    cases h
    exact ⟨ty, hv⟩
  · cases h

theorem constantBit_oneBit (hm : Consistent m) {bit : BitVal} (h : constantBit m v = some bit) : OneBit m v := by
  obtain ⟨ty, hv⟩ := constantBit_some h
  exact ⟨ty, by rw [WordModule.valueTy, hv]; rfl, (hm.constant v _ ty hv).symm⟩

theorem constantBit_truth {bit : Bool} (h : constantBit m v = some (BitVal.ofBool bit)) (he : Evaluates m value signal) :
    (value v).truth = bit := by
  obtain ⟨ty, hv⟩ := constantBit_some h
  have hword := he.constant v _ ty hv
  rw [List.reverse_singleton] at hword
  obtain ⟨digit, hdigit⟩ := List.length_eq_one_iff.mp hword.length_eq.symm
  rw [hdigit] at hword ⊢
  cases hword with
  | cons hallows _ =>
    rw [truth_bit]
    exact allows_ofBool hallows

/-- A value with a variable of its own. -/
theorem ownVariable_keeps (h : arena.Sound m) (hone : OneBit m v) :
    Keeps arena m (variableFor (.value v) v true) fun p t => Represents t.builder m p.literal v :=
  variableFor_keeps h hone fun value signal _ => by rw [Atom.truth, beq_true]

theorem constantPredicate_keeps (h : arena.Sound m) (hm : Consistent m) {bit : BitVal}
    (hbit : constantBit m v = some bit) :
    Keeps arena m (constantPredicate v bit) fun p t => Represents t.builder m p.literal v := by
  have hone := constantBit_oneBit hm hbit
  have hdefined (b : Bool) (hb : constantBit m v = some (BitVal.ofBool b)) :
      Represents arena.builder m (LogicBuilder.constant b) v :=
    ⟨hone, (means_constant h.builder m b).congr fun value signal he => (constantBit_truth hb he).symm⟩
  cases bit with
  | zero => exact .pure h (hdefined false hbit)
  | one => exact .pure h (hdefined true hbit)
  | x => exact ownVariable_keeps h hone
  | z => exact ownVariable_keeps h hone

theorem control_keeps (h : arena.Sound m) (hm : Consistent m) (hreads : ReadsBits m v) (hone : OneBit m v)
    {reference : SignalRef} {activeHigh : Bool} (hcontrol : booleanControl m v true = some (reference, activeHigh)) :
    Keeps arena m (variableFor (.signal reference) v activeHigh) fun p t => Represents t.builder m p.literal v := by
  have hbits : comparesBits m (v + 1) v = true := by
    rcases hreads with hnone | hbits
    · rw [hcontrol] at hnone
      cases hnone
    · exact hbits
  apply variableFor_keeps h hone
  intro value signal he
  have hsound := normalize_sound hm he hcontrol hbits
  rwa [beq_true] at hsound

theorem simpleBooleanValue_keeps (h : arena.Sound m) (hm : Consistent m) (hreads : ReadsBits m v) :
    Keeps arena m (simpleBooleanValue m v) fun r t => ∀ p, r = some p → Represents t.builder m p.literal v := by
  rw [simpleBooleanValue]
  cases hconstant : constantBit m v with
  | some bit =>
    apply Keeps.map (constantPredicate_keeps h hm hconstant)
    intro p t _ hp q hq
    cases hq
    exact hp
  | none =>
    cases hcontrol : booleanControl m v true with
    | none => exact .pure h fun p hp => by cases hp
    | some control =>
      obtain ⟨reference, activeHigh⟩ := control
      apply Keeps.map (control_keeps h hm hreads (normalize_width hcontrol) hcontrol)
      intro p t _ hp q hq
      cases hq
      exact hp

/-! Boolean operations. -/

def Connective.apply : Connective → Bool → Bool → Bool
  | .and, a, b => a && b
  | .or, a, b => a || b
  | .xor, a, b => a ^^ b

theorem connect_keeps (h : arena.Sound m) {op : Connective} {left right : Predicate}
    {f g : (Nat → Bits) → (Nat → Bits) → Bool} (hleft : Means arena.builder m left.literal f)
    (hright : Means arena.builder m right.literal g) : Keeps arena m (connect op left right) fun p t =>
      Means t.builder m p.literal fun value signal => op.apply (f value signal) (g value signal) := by
  cases op with
  | and => exact and_keeps h hleft hright
  | or => exact or_keeps h hleft hright
  | xor => exact xor_keeps h hleft hright

/-- An operator that a connective stands for computes it on one-bit words. -/
theorem connective_truth {op : BinaryOp} {c : Connective} (h : connective op = some c) (leftTy rightTy ty : WordType)
    (hwidth : ty.width = 1) {left right : Bits} (hleft : left.length = 1) (hright : right.length = 1) :
    Bits.truth (op.denote leftTy rightTy ty left right) = c.apply left.truth right.truth := by
  obtain ⟨a, rfl⟩ := List.length_eq_one_iff.mp hleft
  obtain ⟨b, rfl⟩ := List.length_eq_one_iff.mp hright
  have hbitwise (signed signed' : Bool) (f : Bool → Bool → Bool) : Bits.truth
      (List.zipWith f (resize signed ty.width [a]) (resize signed' ty.width [b])) = f a b := by
    rw [hwidth, show (1 : Nat) = [a].length from rfl, resize_self, show [a].length = [b].length from rfl, resize_self,
      List.zipWith_cons_cons, List.zipWith_nil_left, truth_bit]
  rw [truth_bit, truth_bit]
  cases op <;> cases h
  · exact hbitwise _ _ _
  · exact hbitwise _ _ _
  · exact hbitwise _ _ _
  · rw [BinaryOp.denote, truth_bit, truth_bit, truth_bit]
    rfl
  · rw [BinaryOp.denote, truth_bit, truth_bit, truth_bit]
    rfl

theorem booleanBinary_some {c : Connective} {left right : Nat} (h : booleanBinary m v = some (c, left, right)) :
    ∃ o ty op result, m.values[v]? = some ⟨.operation o, ty⟩ ∧ ty.width = 1 ∧
      m.operations[o]? = some ⟨.binary op left right, result⟩ ∧ connective op = some c := by
  rw [booleanBinary] at h
  split at h
  · rename_i o ty hv
    split_ifs at h with hwidth
    split at h
    · rename_i op left' right' result ho
      obtain ⟨c', hc, heq⟩ := Option.map_eq_some_iff.mp h
      cases heq
      exact ⟨o, ty, op, result, hv, hwidth, ho, hc⟩
    · cases h
  · cases h

theorem booleanBinary_truth (hm : Consistent m) (he : Evaluates m value signal) {c : Connective} {left right : Nat}
    (h : booleanBinary m v = some (c, left, right)) (hleft : OneBit m left) (hright : OneBit m right) :
    (value v).truth = c.apply (value left).truth (value right).truth := by
  obtain ⟨o, ty, op, result, hv, hwidth, ho, hc⟩ := booleanBinary_some h
  obtain ⟨stored, hstored, hresult⟩ := hm.result v o ty hv
  rw [ho] at hstored
  cases hstored
  obtain rfl : result = v := hresult
  obtain ⟨leftTy, hleftTy, hleftOne⟩ := hleft
  obtain ⟨rightTy, hrightTy, hrightOne⟩ := hright
  have hvalue := he.operation o _ ty (op.denote leftTy rightTy ty (value left) (value right)) ho
    (by rw [WordModule.valueTy, hv]; rfl)
    (by simp only [OpKind.denote, hleftTy, hrightTy, Option.bind_eq_bind, Option.bind_some])
  rw [hvalue]
  exact connective_truth hc leftTy rightTy ty hwidth ((he.width left leftTy hleftTy).trans hleftOne)
    ((he.width right rightTy hrightTy).trans hrightOne)

/-! The predicate of a value. -/

/-- Whatever the reading of the value and of its operands meets fits one bit. -/
def Readable (m : WordModule) (v : Nat) : Prop :=
  ReadsBits m v ∧ ∀ c left right, booleanBinary m v = some (c, left, right) → ReadsBits m left ∧ ReadsBits m right

theorem combineBinary_keeps (h : arena.Sound m) (hm : Consistent m) (hone : OneBit m v) {op : Connective}
    {left right : Nat} (hbinary : booleanBinary m v = some (op, left, right)) {p q : Option Predicate}
    (hp : ∀ l, p = some l → Represents arena.builder m l.literal left)
    (hq : ∀ r, q = some r → Represents arena.builder m r.literal right) :
    Keeps arena m (combineBinary v op p q) fun p t => Represents t.builder m p.literal v := by
  cases p with
  | none => cases q <;> exact ownVariable_keeps h hone
  | some p =>
    cases q with
    | none => exact ownVariable_keeps h hone
    | some q =>
      have hleft := hp p rfl
      have hright := hq q rfl
      apply Keeps.bind (connect_keeps h hleft.means hright.means)
      intro r t hkept hr
      have hrepresents : Represents t.builder m r.literal v := by
        refine ⟨hone, hr.congr fun value signal he => ?_⟩
        exact (booleanBinary_truth hm he hbinary hleft.oneBit hright.oneBit).symm
      refine ⟨⟨hkept.sound.rememberWord hrepresents, ?_⟩, ?_⟩
      · rw [builder_rememberWord]
        exact .refl hkept.sound.builder
      · simp only [builder_rememberWord]
        exact hrepresents

theorem uncachedValue_keeps (h : arena.Sound m) (hm : Consistent m) (hone : OneBit m v) (hreads : Readable m v) :
    Keeps arena m (uncachedValue m v) fun p t => Represents t.builder m p.literal v := by
  rw [uncachedValue]
  cases hconstant : constantBit m v with
  | some bit => exact constantPredicate_keeps h hm hconstant
  | none =>
    cases hcontrol : booleanControl m v true with
    | some control =>
      obtain ⟨reference, activeHigh⟩ := control
      exact control_keeps h hm hreads.1 hone hcontrol
    | none =>
      cases hbinary : booleanBinary m v with
      | none => exact ownVariable_keeps h hone
      | some parts =>
        obtain ⟨op, left, right⟩ := parts
        obtain ⟨hleft, hright⟩ := hreads.2 op left right hbinary
        apply Keeps.bind (simpleBooleanValue_keeps h hm hleft)
        intro p t ht hp
        apply Keeps.bind (simpleBooleanValue_keeps ht.sound hm hright)
        intro q u hu hq
        refine combineBinary_keeps hu.sound hm hone hbinary (fun l hl => ?_) hq
        exact (hp l hl).mono ht.sound.builder hu.grows (.refl m)

theorem value_keeps (h : arena.Sound m) (hm : Consistent m) (hone : OneBit m v)
    (hreads : arena.represented.lookup v = none → Readable m v) :
    Keeps arena m (PredicateArena.value m v) fun p t => Represents t.builder m p.literal v := by
  apply Outcome.get
  cases hknown : arena.represented.lookup v with
  | some l =>
    apply Keeps.pure h
    rw [Predicate.literal_fromLiteral]
    exact h.represented v l hknown
  | none => exact uncachedValue_keeps h hm hone (hreads hknown)

end Opto.Frontend.PredicateArena
