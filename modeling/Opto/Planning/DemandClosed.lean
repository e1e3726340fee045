import Opto.Planning.Demand
import Opto.Planning.UsesClosed

/-!
# The demands are closed

Every demand is met by the demands on the operands: the rule of an operator holds for the
final demands, and only what observability reaches is demanded.
-/

namespace Opto.Planning

open Word

variable {m : WordModule} {o : NetlistObservability}

/-! Rules over the demands of values, `P`, and of signals, `S`. -/

section Rules

variable (m : WordModule) (P S : Nat → Nat)

/-- The low bits of a value, or all of it, are demanded. -/
def Met (value bits : Nat) : Prop := ∃ ty, m.valueTy value = some ty ∧ min bits ty.width ≤ P value

def Full (value : Nat) : Prop := ∃ ty, m.valueTy value = some ty ∧ ty.width ≤ P value

def PartsMet (remaining : Nat) : List Nat → Prop
  | [] => True
  | part :: parts => remaining = 0 ∨ ∃ ty, m.valueTy part = some ty ∧ min remaining ty.width ≤ P part ∧
      PartsMet (remaining - ty.width) parts

def ResetsMet (resets : List Reset) (demand : Nat) : Prop :=
  ∀ reset ∈ resets, Full m P reset.value ∧ Met m P reset.resetValue demand

/-- What a demand on a result asks of the operands. -/
def OperationMet (demand : Nat) : OpKind → Prop
  | .unary .bitNot arg => Met m P arg demand
  | .unary _ arg => Full m P arg
  | .binary op left right =>
    if keepsLowBits op then Met m P left demand ∧ Met m P right demand else Full m P left ∧ Full m P right
  | .mux cond thenValue elseValue => Full m P cond ∧ Met m P thenValue demand ∧ Met m P elseValue demand
  | .triState data enable => Met m P data demand ∧ Full m P enable.value
  | .concat parts => PartsMet m P demand parts.reverse
  | .extract source lsb _ => Met m P source (lsb + demand)
  | .dynamicExtract source offset _ => Full m P source ∧ Full m P offset
  | .dynamicInsert source offset replacement => Full m P source ∧ Full m P offset ∧ Full m P replacement
  | .cast _ source _ => Met m P source demand
  | .register register => Met m P register.d demand ∧ Full m P register.clock ∧
      (∀ enable ∈ register.enable, Full m P enable.value) ∧ ResetsMet m P register.resets demand
  | .latch latch => Met m P latch.d demand ∧ Full m P latch.enable.value ∧ ResetsMet m P latch.resets demand

def SignalMet (signal bits : Nat) : Prop := ∃ ty, m.signalTy signal = some ty ∧ min bits ty.width ≤ S signal

def ValueMet (demand value : Nat) : Prop :=
  ∀ stored, m.values[value]? = some stored → match stored.kind with
    | .signal reference => SignalMet m S reference.signal (reference.lsb + min demand reference.width)
    | .constant _ => True
    | .operation operation => ∃ stored, m.operations[operation]? = some stored ∧ OperationMet m P demand stored.kind

def DriverMet (demand : Nat) (connect : Connect) : Prop := ∃ ty, m.valueTy connect.value = some ty ∧
  min (sourceDemand connect.target.range demand ty.width) ty.width ≤ P connect.value

def DriversMet (demand signal : Nat) : Prop :=
  ∀ connect ∈ m.connects, connect.target.signal = signal → DriverMet m P demand connect

/-- The demands on the roots and what follows from all demands. -/
structure Demanded (o : NetlistObservability) : Prop where
  root : ∀ v ∈ o.rootValues, Full m P v
  value : ∀ v, 0 < P v → ValueMet m P S (P v) v
  driver : ∀ g, 0 < S g → DriversMet m P (S g) g
  reached : ∀ v, 0 < P v → Marked o.reachableValues v
  observed : ∀ g, 0 < S g → Marked o.observedSignals g

variable {m P S} {P' S' : Nat → Nat} (hP : ∀ v, P v ≤ P' v)
include hP

theorem Met.mono {v d : Nat} (h : Met m P v d) : Met m P' v d := by
  obtain ⟨ty, hty, hle⟩ := h
  exact ⟨ty, hty, hle.trans (hP v)⟩

theorem Full.mono {v : Nat} (h : Full m P v) : Full m P' v := by
  obtain ⟨ty, hty, hle⟩ := h
  exact ⟨ty, hty, hle.trans (hP v)⟩

theorem PartsMet.mono {parts : List Nat} {d : Nat} (h : PartsMet m P d parts) : PartsMet m P' d parts := by
  induction parts generalizing d with
  | nil => exact trivial
  | cons part parts ih =>
    rcases h with hzero | ⟨ty, hty, hle, hrest⟩
    · exact .inl hzero
    · exact .inr ⟨ty, hty, hle.trans (hP part), ih hrest⟩

theorem ResetsMet.mono {resets : List Reset} {d : Nat} (h : ResetsMet m P resets d) : ResetsMet m P' resets d :=
  fun reset hreset => ⟨(h reset hreset).1.mono hP, (h reset hreset).2.mono hP⟩

theorem OperationMet.mono {kind : OpKind} {d : Nat} (h : OperationMet m P d kind) : OperationMet m P' d kind := by
  cases kind with
  | unary op arg =>
    cases op with
    | bitNot => exact Met.mono hP h
    | logicalNot => exact Full.mono hP h
    | reductionAnd => exact Full.mono hP h
    | reductionOr => exact Full.mono hP h
    | reductionXor => exact Full.mono hP h
  | binary op left right =>
    simp only [OperationMet] at h ⊢
    split_ifs at h ⊢
    · exact h.imp (Met.mono hP) (Met.mono hP)
    · exact h.imp (Full.mono hP) (Full.mono hP)
  | mux cond thenValue elseValue => exact ⟨h.1.mono hP, h.2.1.mono hP, h.2.2.mono hP⟩
  | triState data enable => exact ⟨h.1.mono hP, h.2.mono hP⟩
  | concat parts => exact PartsMet.mono hP h
  | extract source lsb width => exact Met.mono hP h
  | dynamicExtract source offset width => exact ⟨h.1.mono hP, h.2.mono hP⟩
  | dynamicInsert source offset replacement => exact ⟨h.1.mono hP, h.2.1.mono hP, h.2.2.mono hP⟩
  | cast kind source target => exact Met.mono hP h
  | register register =>
    exact ⟨h.1.mono hP, h.2.1.mono hP, fun enable he => (h.2.2.1 enable he).mono hP, h.2.2.2.mono hP⟩
  | latch latch => exact ⟨h.1.mono hP, h.2.1.mono hP, h.2.2.mono hP⟩

theorem ValueMet.mono (hS : ∀ g, S g ≤ S' g) {v d : Nat} (h : ValueMet m P S d v) : ValueMet m P' S' d v := by
  intro stored hstored
  have hvalue := h stored hstored
  obtain ⟨kind, ty⟩ := stored
  cases kind with
  | constant bits => exact trivial
  | signal reference =>
    obtain ⟨ty, hty, hle⟩ := hvalue
    exact ⟨ty, hty, hle.trans (hS _)⟩
  | operation operation =>
    obtain ⟨stored, ho, hmet⟩ := hvalue
    exact ⟨stored, ho, hmet.mono hP⟩

theorem DriverMet.mono {connect : Connect} {d : Nat} (h : DriverMet m P d connect) : DriverMet m P' d connect := by
  obtain ⟨ty, hty, hle⟩ := h
  exact ⟨ty, hty, hle.trans (hP _)⟩

theorem DriversMet.mono {g d : Nat} (h : DriversMet m P d g) : DriversMet m P' d g :=
  fun connect hmem htarget => (h connect hmem htarget).mono hP

end Rules

/-! One requirement. -/

/-- The demands are those of the module and lie within what observability reaches. -/
structure Demanding (m : WordModule) (o : NetlistObservability) (a : DemandAnalysis) : Prop where
  values : a.valuePrefixes.length = m.values.length
  signals : a.signalPrefixes.length = m.signals.length
  reached : ∀ v, 0 < a.value v → Marked o.reachableValues v
  observed : ∀ g, 0 < a.signal g → Marked o.observedSignals g
  valuesDemanded : ∀ v ∈ a.pendingValues, 0 < a.value v
  signalsDemanded : ∀ g ∈ a.pendingSignals, 0 < a.signal g

/-- Demands grow, and what grows becomes pending. -/
structure Grows (m : WordModule) (a b : DemandAnalysis) : Prop where
  value : ∀ v, a.value v ≤ b.value v
  signal : ∀ g, a.signal g ≤ b.signal g
  valueKept : ∀ v, b.value v = a.value v ∨ v ∈ b.pendingValues
  signalKept : ∀ g, b.signal g = a.signal g ∨ g ∈ b.pendingSignals
  valuePending : ∀ v ∈ a.pendingValues, v ∈ b.pendingValues
  signalPending : ∀ g ∈ a.pendingSignals, g ∈ b.pendingSignals
  remaining : b.remaining m ≤ a.remaining m

theorem Grows.refl (a : DemandAnalysis) : Grows m a a where
  value _ := le_rfl
  signal _ := le_rfl
  valueKept _ := .inl rfl
  signalKept _ := .inl rfl
  valuePending _ h := h
  signalPending _ h := h
  remaining := le_rfl

theorem Grows.trans {a b c : DemandAnalysis} (h : Grows m a b) (h' : Grows m b c) : Grows m a c where
  value v := (h.value v).trans (h'.value v)
  signal g := (h.signal g).trans (h'.signal g)
  valueKept v := (h'.valueKept v).elim (fun he => (h.valueKept v).imp he.trans (h'.valuePending v)) .inr
  signalKept g := (h'.signalKept g).elim (fun he => (h.signalKept g).imp he.trans (h'.signalPending g)) .inr
  valuePending v hv := h'.valuePending v (h.valuePending v hv)
  signalPending g hg := h'.signalPending g (h.signalPending g hg)
  remaining := h'.remaining.trans h.remaining

/-- An answer of `r` keeps the demands sound, only adds demands and satisfies `Q`. -/
abbrev Asks (m : WordModule) (o : NetlistObservability) (a : DemandAnalysis)
    (r : Except SynthError DemandAnalysis) (Q : DemandAnalysis → Prop) : Prop :=
  Settles r (fun b => Demanding m o b ∧ Grows m a b ∧ Q b) fun _ => True

variable {a : DemandAnalysis} {v g d : Nat}

theorem Asks.pure (h : Demanding m o a) {Q : DemandAnalysis → Prop} (hQ : Q a) : Asks m o a (.ok a) Q :=
  ⟨h, .refl a, hQ⟩

/-- Later requirements keep what earlier ones have asked for. -/
theorem Asks.bind {r : Except SynthError DemandAnalysis} {Q R : DemandAnalysis → Prop}
    {k : DemandAnalysis → Except SynthError DemandAnalysis} (h : Asks m o a r Q)
    (hmono : ∀ b c, Grows m b c → Q b → Q c) (hk : ∀ b, Demanding m o b → Asks m o b (k b) R) :
    Asks m o a (r >>= k) fun b => Q b ∧ R b := by
  apply Settles.bind h
  intro b ⟨hb, hgrows, hQ⟩
  apply Settles.mono (hk b hb)
  exact fun c ⟨hc, hmore, hR⟩ => ⟨hc, hgrows.trans hmore, hmono b c hmore hQ, hR⟩

theorem getD_set {xs : List Nat} {i j x : Nat} (hi : i < xs.length) :
    (xs.set i x).getD j 0 = if j = i then x else xs.getD j 0 := by
  rw [List.getD_eq_getElem?_getD, List.getElem?_set]
  by_cases hij : i = j
  · subst hij
    simp [hi]
  · rw [if_neg hij, if_neg (Ne.symm hij), List.getD_eq_getElem?_getD]

/-- A larger demand leaves less room below the widths. -/
theorem slack_set {widths demands : List Nat} {i w x y : Nat} (hw : widths[i]? = some w) (hx : demands[i]? = some x)
    (hlt : x < y) (hle : y ≤ w) :
    (List.zipWith (· - ·) widths (demands.set i y)).sum < (List.zipWith (· - ·) widths demands).sum := by
  induction widths generalizing demands i with
  | nil => cases hw
  | cons width widths ih =>
    cases demands with
    | nil => cases hx
    | cons demand demands =>
      cases i with
      | zero =>
        cases hw
        cases hx
        simp only [List.set_cons_zero, List.zipWith_cons_cons, List.sum_cons]
        omega
      | succ i =>
        have hrest := ih hw hx
        simp only [List.set_cons_succ, List.zipWith_cons_cons, List.sum_cons]
        omega

theorem requireValue_asks (h : Demanding m o a) (hv : Marked o.reachableValues v) (d : Nat) :
    Asks m o a (requireValue m a v d) fun b => Met m b.value v d := by
  unfold requireValue valueWidth
  apply Settles.bind (orInvariant_settles _ _)
  intro width hwidth
  obtain ⟨ty, hty, rfl⟩ := Option.map_eq_some_iff.mp hwidth
  apply Settles.bind (orInvariant_settles _ _)
  intro slot hslot
  have hvalue : a.value v = slot := by rw [DemandAnalysis.value, List.getD_eq_getElem?_getD, hslot]; rfl
  split_ifs with hlt
  · have hset (w : Nat) : (a.valuePrefixes.set v (min d ty.width)).getD w 0 =
        if w = v then min d ty.width else a.value w := getD_set (List.getElem?_eq_some_iff.mp hslot).1
    have hroom : (m.values.map (·.ty.width))[v]? = some ty.width := by
      obtain ⟨stored, hstored, rfl⟩ := Option.map_eq_some_iff.mp hty
      rw [List.getElem?_map, hstored]
      rfl
    have hslack := slack_set hroom hslot hlt (min_le_right _ _)
    have hmore (w : Nat) : a.value w ≤ if w = v then min d ty.width else a.value w := by
      split_ifs with he
      · rw [he, hvalue]
        exact hlt.le
      · exact le_rfl
    refine ⟨⟨?_, h.signals, ?_, h.observed, ?_, h.signalsDemanded⟩,
      ⟨?_, fun _ => le_rfl, ?_, fun _ => .inl rfl, ?_, fun _ hg => hg, ?_⟩, ?_⟩
    · rw [List.length_set]
      exact h.values
    · intro w hw
      by_cases he : w = v
      · rw [he]; exact hv
      · rw [DemandAnalysis.value, hset, if_neg he] at hw
        exact h.reached w hw
    · intro w hw
      rw [DemandAnalysis.value, hset]
      rcases List.mem_cons.mp hw with rfl | hw
      · rw [if_pos rfl]
        exact Nat.zero_lt_of_lt hlt
      · exact (h.valuesDemanded w hw).trans_le (hmore w)
    · exact fun w => (hmore w).trans_eq (hset w).symm
    · intro w
      by_cases he : w = v
      · exact .inr (he ▸ List.mem_cons_self)
      · left
        rw [DemandAnalysis.value, hset, if_neg he]
    · exact fun w hw => List.mem_cons_of_mem _ hw
    · simp only [DemandAnalysis.remaining, List.length_cons]
      omega
    · refine ⟨ty, hty, ?_⟩
      rw [DemandAnalysis.value, hset, if_pos rfl]
  · refine Asks.pure h ⟨ty, hty, ?_⟩
    rw [hvalue]
    exact not_lt.mp hlt

theorem requireSignal_asks (h : Demanding m o a) (hg : Marked o.observedSignals g) (d : Nat) :
    Asks m o a (requireSignal m a g d) fun b => SignalMet m b.signal g d := by
  unfold requireSignal
  apply Settles.bind (orInvariant_settles _ _)
  intro ty hty
  apply Settles.bind (orInvariant_settles _ _)
  intro slot hslot
  have hsignal : a.signal g = slot := by rw [DemandAnalysis.signal, List.getD_eq_getElem?_getD, hslot]; rfl
  split_ifs with hlt
  · have hset (w : Nat) : (a.signalPrefixes.set g (min d ty.width)).getD w 0 =
        if w = g then min d ty.width else a.signal w := getD_set (List.getElem?_eq_some_iff.mp hslot).1
    have hroom : (m.signals.map (·.ty.width))[g]? = some ty.width := by
      obtain ⟨stored, hstored, rfl⟩ := Option.map_eq_some_iff.mp hty
      rw [List.getElem?_map, hstored]
      rfl
    have hslack := slack_set hroom hslot hlt (min_le_right _ _)
    have hmore (w : Nat) : a.signal w ≤ if w = g then min d ty.width else a.signal w := by
      split_ifs with he
      · rw [he, hsignal]
        exact hlt.le
      · exact le_rfl
    refine ⟨⟨h.values, ?_, h.reached, ?_, h.valuesDemanded, ?_⟩,
      ⟨fun _ => le_rfl, ?_, fun _ => .inl rfl, ?_, fun _ hv => hv, ?_, ?_⟩, ?_⟩
    · rw [List.length_set]
      exact h.signals
    · intro w hw
      by_cases he : w = g
      · rw [he]; exact hg
      · rw [DemandAnalysis.signal, hset, if_neg he] at hw
        exact h.observed w hw
    · intro w hw
      rw [DemandAnalysis.signal, hset]
      rcases List.mem_cons.mp hw with rfl | hw
      · rw [if_pos rfl]
        exact Nat.zero_lt_of_lt hlt
      · exact (h.signalsDemanded w hw).trans_le (hmore w)
    · exact fun w => (hmore w).trans_eq (hset w).symm
    · intro w
      by_cases he : w = g
      · exact .inr (he ▸ List.mem_cons_self)
      · left
        rw [DemandAnalysis.signal, hset, if_neg he]
    · exact fun w hw => List.mem_cons_of_mem _ hw
    · simp only [DemandAnalysis.remaining, List.length_cons]
      omega
    · refine ⟨ty, hty, ?_⟩
      rw [DemandAnalysis.signal, hset, if_pos rfl]
  · refine Asks.pure h ⟨ty, hty, ?_⟩
    rw [hsignal]
    exact not_lt.mp hlt

theorem requireValueFull_asks (h : Demanding m o a) (hv : Marked o.reachableValues v) :
    Asks m o a (requireValueFull m a v) fun b => Full m b.value v := by
  unfold requireValueFull valueWidth
  apply Settles.bind (orInvariant_settles _ _)
  intro width hwidth
  obtain ⟨ty, hty, rfl⟩ := Option.map_eq_some_iff.mp hwidth
  apply Settles.mono (requireValue_asks h hv ty.width)
  intro b ⟨hb, hgrows, ty', hty', hle⟩
  rw [hty] at hty'
  cases hty'
  rw [min_self] at hle
  exact ⟨hb, hgrows, ty, hty, hle⟩

/-! The rules. -/

theorem requireParts_asks {parts : List Nat} (h : Demanding m o a)
    (hparts : ∀ part ∈ parts, Marked o.reachableValues part) (d : Nat) :
    Asks m o a (requireParts m a d parts) fun b => PartsMet m b.value d parts := by
  induction parts generalizing a d with
  | nil => exact Asks.pure h trivial
  | cons part parts ih =>
    rw [requireParts]
    split_ifs with hzero
    · exact Asks.pure h (.inl hzero)
    · apply Settles.bind (orInvariant_settles _ _)
      intro width hwidth
      obtain ⟨ty, hty, rfl⟩ := Option.map_eq_some_iff.mp hwidth
      have hpart := requireValue_asks h (hparts part List.mem_cons_self) (min d ty.width)
      have hrest := hpart.bind (fun _ _ hgrows => Met.mono hgrows.value) fun b hb =>
        ih hb (fun p hp => hparts p (List.mem_cons_of_mem _ hp)) (d - ty.width)
      apply Settles.mono hrest
      intro b ⟨hb, hgrows, ⟨ty', hty', hle⟩, hmet⟩
      rw [hty] at hty'
      cases hty'
      rw [min_assoc, min_self] at hle
      exact ⟨hb, hgrows, .inr ⟨ty, hty, hle, hmet⟩⟩

theorem requireResets_asks {resets : List Reset} (h : Demanding m o a)
    (hresets : ∀ reset ∈ resets, Marked o.reachableValues reset.value ∧ Marked o.reachableValues reset.resetValue)
    (d : Nat) : Asks m o a (requireResets m a resets d) fun b => ResetsMet m b.value resets d := by
  unfold requireResets
  induction resets generalizing a with
  | nil => exact Asks.pure h fun _ hreset => absurd hreset List.not_mem_nil
  | cons reset resets ih =>
    have hreset := hresets reset List.mem_cons_self
    rw [List.foldlM_cons]
    have hone := (requireValueFull_asks h hreset.1).bind (fun _ _ hgrows => Full.mono hgrows.value) fun b hb =>
      requireValue_asks hb hreset.2 d
    have hall := hone.bind (fun _ _ hgrows hmet => ⟨hmet.1.mono hgrows.value, hmet.2.mono hgrows.value⟩) fun b hb =>
      ih hb fun r hr => hresets r (List.mem_cons_of_mem _ hr)
    apply Settles.mono hall
    intro b ⟨hb, hgrows, hmet, hrest⟩
    refine ⟨hb, hgrows, fun r hr => ?_⟩
    rcases List.mem_cons.mp hr with rfl | hr
    · exact hmet
    · exact hrest r hr

theorem requireEnable_asks {enable : Option Enable} (h : Demanding m o a)
    (henable : ∀ e ∈ enable, Marked o.reachableValues e.value) :
    Asks m o a (enable.toList.foldlM (fun a e => requireValueFull m a e.value) a) fun b =>
      ∀ e ∈ enable, Full m b.value e.value := by
  cases enable with
  | none => exact Asks.pure h fun _ he => by cases he
  | some e =>
    rw [Option.toList_some, List.foldlM_cons]
    apply Settles.bind (requireValueFull_asks h (henable e rfl))
    intro b ⟨hb, hgrows, hfull⟩
    refine ⟨hb, hgrows, fun e' he => ?_⟩
    cases he
    exact hfull

theorem propagateOperation_asks (h : Demanding m o a) {kind : OpKind}
    (hinputs : ∀ i ∈ kind.inputs, Marked o.reachableValues i) (d : Nat) :
    Asks m o a (propagateOperation m a d kind) fun b => OperationMet m b.value d kind := by
  have met (v d : Nat) (b c : DemandAnalysis) (hgrows : Grows m b c) (hmet : Met m b.value v d) :
      Met m c.value v d := hmet.mono hgrows.value
  have full (v : Nat) (b c : DemandAnalysis) (hgrows : Grows m b c) (hfull : Full m b.value v) :
      Full m c.value v := hfull.mono hgrows.value
  cases kind with
  | unary op arg =>
    have harg := hinputs arg List.mem_cons_self
    cases op with
    | bitNot => exact requireValue_asks h harg d
    | logicalNot => exact requireValueFull_asks h harg
    | reductionAnd => exact requireValueFull_asks h harg
    | reductionOr => exact requireValueFull_asks h harg
    | reductionXor => exact requireValueFull_asks h harg
  | binary op left right =>
    have hleft := hinputs left (by simp [OpKind.inputs])
    have hright := hinputs right (by simp [OpKind.inputs])
    simp only [propagateOperation, OperationMet]
    split_ifs
    · exact (requireValue_asks h hleft d).bind (met left d) fun b hb => requireValue_asks hb hright d
    · exact (requireValueFull_asks h hleft).bind (full left) fun b hb => requireValueFull_asks hb hright
  | mux cond thenValue elseValue =>
    have hcond := hinputs cond (by simp [OpKind.inputs])
    have hthen := hinputs thenValue (by simp [OpKind.inputs])
    have helse := hinputs elseValue (by simp [OpKind.inputs])
    exact (requireValueFull_asks h hcond).bind (full cond) fun b hb =>
      (requireValue_asks hb hthen d).bind (met thenValue d) fun c hc => requireValue_asks hc helse d
  | triState data enable =>
    have hdata := hinputs data (by simp [OpKind.inputs])
    have henable := hinputs enable.value (by simp [OpKind.inputs])
    exact (requireValue_asks h hdata d).bind (met data d) fun b hb => requireValueFull_asks hb henable
  | concat parts => exact requireParts_asks h (fun part hpart => hinputs part (List.mem_reverse.mp hpart)) d
  | extract source lsb width =>
    simp only [propagateOperation]
    apply Settles.bind (checked _ _)
    intro bits hbits
    rw [hbits]
    exact requireValue_asks h (hinputs source List.mem_cons_self) (lsb + d)
  | dynamicExtract source offset width =>
    have hsource := hinputs source (by simp [OpKind.inputs])
    have hoffset := hinputs offset (by simp [OpKind.inputs])
    exact (requireValueFull_asks h hsource).bind (full source) fun b hb => requireValueFull_asks hb hoffset
  | dynamicInsert source offset replacement =>
    have hsource := hinputs source (by simp [OpKind.inputs])
    have hoffset := hinputs offset (by simp [OpKind.inputs])
    have hreplacement := hinputs replacement (by simp [OpKind.inputs])
    exact (requireValueFull_asks h hsource).bind (full source) fun b hb =>
      (requireValueFull_asks hb hoffset).bind (full offset) fun c hc => requireValueFull_asks hc hreplacement
  | cast kind source target => exact requireValue_asks h (hinputs source List.mem_cons_self) d
  | register register =>
    have hd := hinputs register.d (by simp [OpKind.inputs])
    have hclock := hinputs register.clock (by simp [OpKind.inputs])
    have henable (e : Enable) (he : e ∈ register.enable) : Marked o.reachableValues e.value :=
      hinputs e.value (by
        simp only [OpKind.inputs, List.mem_cons, List.mem_append, Option.mem_toList]
        exact .inl (.inr (.inr (Option.mem_map_of_mem _ he))))
    have hresets (r : Reset) (hr : r ∈ register.resets) :
        Marked o.reachableValues r.value ∧ Marked o.reachableValues r.resetValue := by
      constructor <;> apply hinputs <;>
        simp only [OpKind.inputs, List.mem_cons, List.mem_append, List.mem_flatMap]
      · exact .inr ⟨r, hr, .inl rfl⟩
      · exact .inr ⟨r, hr, .inr (.inl rfl)⟩
    refine (requireValue_asks h hd d).bind (met register.d d) fun b hb => ?_
    refine (requireValueFull_asks hb hclock).bind (full register.clock) fun c hc => ?_
    refine (requireEnable_asks hc henable).bind ?_ fun e he => requireResets_asks he hresets d
    exact fun b c hgrows hfull e he => (hfull e he).mono hgrows.value
  | latch latch =>
    have hd := hinputs latch.d (by simp [OpKind.inputs])
    have henable := hinputs latch.enable.value (by simp [OpKind.inputs])
    have hresets (r : Reset) (hr : r ∈ latch.resets) :
        Marked o.reachableValues r.value ∧ Marked o.reachableValues r.resetValue := by
      constructor <;> apply hinputs <;> simp only [OpKind.inputs, List.mem_cons, List.mem_flatMap]
      · exact .inr (.inr ⟨r, hr, .inl rfl⟩)
      · exact .inr (.inr ⟨r, hr, .inr (.inl rfl)⟩)
    exact (requireValue_asks h hd d).bind (met latch.d d) fun b hb =>
      (requireValueFull_asks hb henable).bind (full latch.enable.value) fun c hc => requireResets_asks hc hresets d
where
  checked {message : String} (x y : Nat) :
      Settles (checkedAdd message x y) (fun z => z = x + y) fun _ => True := by
    unfold checkedAdd
    split_ifs
    · rfl
    · exact trivial

/-! The loops. -/

variable {drivers : SignalDrivers} {roots : List Nat}

/-- The rules hold but for what is pending. -/
structure Pending (m : WordModule) (o : NetlistObservability) (roots : List Nat) (a : DemandAnalysis) : Prop
    extends Demanding m o a where
  root : ∀ v ∈ roots, Full m a.value v
  value : ∀ v, 0 < a.value v → v ∈ a.pendingValues ∨ ValueMet m a.value a.signal (a.value v) v
  driver : ∀ g, 0 < a.signal g → g ∈ a.pendingSignals ∨ DriversMet m a.value (a.signal g) g

/-- What holds before a step that only adds demands holds after it, except for what is popped. -/
theorem Pending.grow {b c : DemandAnalysis} (h : Pending m o roots a) (hb : Demanding m o c) (hgrows : Grows m b c)
    (hvalue : b.value = a.value) (hsignal : b.signal = a.signal)
    (hvalues : ∀ v ∈ a.pendingValues, v ∈ b.pendingValues ∨ ValueMet m c.value c.signal (a.value v) v)
    (hsignals : ∀ g ∈ a.pendingSignals, g ∈ b.pendingSignals ∨ DriversMet m c.value (a.signal g) g) :
    Pending m o roots c := by
  have hv (v : Nat) : a.value v ≤ c.value v := by rw [← hvalue]; exact hgrows.value v
  have hs (g : Nat) : a.signal g ≤ c.signal g := by rw [← hsignal]; exact hgrows.signal g
  refine { hb with root := fun v hroot => (h.root v hroot).mono hv, value := fun v hpos => ?_, driver := fun g hpos => ?_ }
  · rcases hgrows.valueKept v with he | hmem
    · rw [hvalue] at he
      rw [he] at hpos ⊢
      rcases h.value v hpos with hpending | hmet
      · exact (hvalues v hpending).imp_left (hgrows.valuePending v)
      · exact .inr (hmet.mono hv hs)
    · exact .inl hmem
  · rcases hgrows.signalKept g with he | hmem
    · rw [hsignal] at he
      rw [he] at hpos ⊢
      rcases h.driver g hpos with hpending | hmet
      · exact (hsignals g hpending).imp_left (hgrows.signalPending g)
      · exact .inr (hmet.mono hv)
    · exact .inl hmem

variable {observedValues : List Nat} (ho : Observable m observedValues o)
include ho

theorem propagateValue_asks (h : Demanding m o a) (hv : Marked o.reachableValues v) :
    Asks m o a (propagateValue m a v) fun b => ValueMet m b.value b.signal (a.value v) v := by
  unfold propagateValue
  apply Settles.bind (orInvariant_settles _ _)
  intro stored hstored
  obtain ⟨kind, ty⟩ := stored
  cases kind with
  | constant bits =>
    refine Asks.pure h fun stored hvalue => ?_
    rw [hstored] at hvalue
    cases hvalue
    exact trivial
  | signal reference =>
    apply Settles.bind (propagateOperation_asks.checked _ _)
    intro bound hbound
    rw [hbound]
    apply Settles.mono (requireSignal_asks h (ho.signal v reference ty hv hstored) _)
    intro b ⟨hb, hgrows, hmet⟩
    refine ⟨hb, hgrows, fun stored hvalue => ?_⟩
    rw [hstored] at hvalue
    cases hvalue
    exact hmet
  | operation operation =>
    apply Settles.bind (orInvariant_settles _ _)
    intro produced hproduced
    apply Settles.mono (propagateOperation_asks h (ho.operand v operation ty produced hv hstored hproduced) _)
    intro b ⟨hb, hgrows, hmet⟩
    refine ⟨hb, hgrows, fun stored hvalue => ?_⟩
    rw [hstored] at hvalue
    cases hvalue
    exact ⟨produced, hproduced, hmet⟩

omit ho in
theorem requireDriver_asks (h : Demanding m o a) {index : Nat} {connect : Connect}
    (hconnect : m.connects[index]? = some connect) (hv : Marked o.reachableValues connect.value) (d : Nat) :
    Asks m o a (requireDriver m d a index) fun b => DriverMet m b.value d connect := by
  unfold requireDriver
  rw [hconnect]
  apply Settles.bind (orInvariant_settles _ _)
  intro stored hstored
  cases hstored
  apply Settles.bind (orInvariant_settles _ _)
  intro width hwidth
  obtain ⟨ty, hty, rfl⟩ := Option.map_eq_some_iff.mp hwidth
  apply Settles.mono (requireValue_asks h hv _)
  intro b ⟨hb, hgrows, ty', hty', hle⟩
  rw [hty] at hty'
  cases hty'
  exact ⟨hb, hgrows, ty, hty, hle⟩

omit ho in
theorem requireDrivers_asks {indices : List Nat} (h : Demanding m o a)
    (hknown : ∀ index ∈ indices, ∃ connect, m.connects[index]? = some connect ∧
      Marked o.reachableValues connect.value) (d : Nat) :
    Asks m o a (indices.foldlM (requireDriver m d) a) fun b =>
      ∀ index ∈ indices, ∀ connect, m.connects[index]? = some connect → DriverMet m b.value d connect := by
  induction indices generalizing a with
  | nil => exact Asks.pure h fun _ hindex => absurd hindex List.not_mem_nil
  | cons index indices ih =>
    obtain ⟨connect, hconnect, hreached⟩ := hknown index List.mem_cons_self
    rw [List.foldlM_cons]
    have hone := requireDriver_asks h hconnect hreached d
    have hall := hone.bind (fun _ _ hgrows hmet => hmet.mono hgrows.value) fun b hb =>
      ih hb fun i hi => hknown i (List.mem_cons_of_mem _ hi)
    apply Settles.mono hall
    intro b ⟨hb, hgrows, hmet, hrest⟩
    refine ⟨hb, hgrows, fun i hi stored hstored => ?_⟩
    rcases List.mem_cons.mp hi with rfl | hi
    · rw [hconnect] at hstored
      cases hstored
      exact hmet
    · exact hrest i hi stored hstored

theorem propagateSignal_asks (hrows : drivers.rows.entries = connectEntries m) (h : Demanding m o a)
    (hg : Marked o.observedSignals g) :
    Asks m o a (propagateSignal m drivers a g) fun b => DriversMet m b.value (a.signal g) g := by
  unfold propagateSignal
  apply Settles.bind (orInvariant_settles _ _)
  intro indices hindices
  have hrow : indices = drivers.rows.row g := by
    unfold PackedRows.get at hindices
    split_ifs at hindices
    exact (Option.some.inj hindices).symm
  rw [hrow]
  have hknown (index : Nat) (hindex : index ∈ drivers.rows.row g) : ∃ connect,
      m.connects[index]? = some connect ∧ Marked o.reachableValues connect.value := by
    obtain ⟨connect, hconnect, htarget⟩ := known_row hrows hindex
    exact ⟨connect, hconnect, ho.driver connect (List.mem_of_getElem? hconnect) (htarget ▸ hg)⟩
  apply Settles.mono (requireDrivers_asks h hknown (a.signal g))
  intro b ⟨hb, hgrows, hmet⟩
  refine ⟨hb, hgrows, fun connect hmem htarget => ?_⟩
  obtain ⟨index, hindex⟩ := List.mem_iff_getElem?.mp hmem
  exact hmet index (htarget ▸ row_of_connect hrows hindex) connect hindex

/-- Popping the values keeps the rules, and leaves less to do. -/
theorem drainValues_settles {fuel : Nat} (h : Pending m o roots a) (hfuel : a.remaining m ≤ fuel) :
    Settles (drainValues m fuel a) (fun b => Pending m o roots b ∧ b.pendingValues = [] ∧
      b.remaining m ≤ a.remaining m ∧ (a.pendingValues ≠ [] → b.remaining m < a.remaining m)) fun _ => True := by
  induction fuel generalizing a with
  | zero =>
    have hnone : a.pendingValues.length = 0 := by
      unfold DemandAnalysis.remaining at hfuel
      omega
    have hnil := List.eq_nil_of_length_eq_zero hnone
    exact ⟨h, hnil, le_rfl, fun hne => absurd hnil hne⟩
  | succ fuel ih =>
    rw [drainValues]
    split
    next hnil => exact ⟨h, hnil, le_rfl, fun hne => absurd hnil hne⟩
    next v rest hpending =>
      have hless : ({ a with pendingValues := rest } : DemandAnalysis).remaining m < a.remaining m := by
        simp only [DemandAnalysis.remaining, hpending, List.length_cons]
        omega
      have hpositive := h.valuesDemanded v (hpending ▸ List.mem_cons_self)
      have hpopped : Demanding m o { a with pendingValues := rest } := { h.toDemanding with
        valuesDemanded := fun w hw => h.valuesDemanded w (hpending ▸ List.mem_cons_of_mem _ hw) }
      apply Settles.bind (propagateValue_asks ho hpopped (h.reached v hpositive))
      intro b ⟨hb, hgrows, hmet⟩
      have hkept : Pending m o roots b := by
        refine h.grow hb hgrows rfl rfl (fun w hw => ?_) fun g hg => .inl hg
        rw [hpending] at hw
        rcases List.mem_cons.mp hw with rfl | hw
        · exact .inr hmet
        · exact .inl hw
      have hlower := hgrows.remaining
      apply Settles.mono (ih hkept (by omega))
      exact fun c ⟨hc, hempty, hle, _⟩ => ⟨hc, hempty, by omega, fun _ => by omega⟩

theorem drainSignals_settles (hrows : drivers.rows.entries = connectEntries m) {fuel : Nat}
    (h : Pending m o roots a) (hfuel : a.remaining m ≤ fuel) :
    Settles (drainSignals m drivers fuel a) (fun b => Pending m o roots b ∧ b.pendingSignals = [] ∧
      b.remaining m ≤ a.remaining m ∧ (a.pendingSignals ≠ [] → b.remaining m < a.remaining m)) fun _ => True := by
  induction fuel generalizing a with
  | zero =>
    have hnone : a.pendingSignals.length = 0 := by
      unfold DemandAnalysis.remaining at hfuel
      omega
    have hnil := List.eq_nil_of_length_eq_zero hnone
    exact ⟨h, hnil, le_rfl, fun hne => absurd hnil hne⟩
  | succ fuel ih =>
    rw [drainSignals]
    split
    next hnil => exact ⟨h, hnil, le_rfl, fun hne => absurd hnil hne⟩
    next g rest hpending =>
      have hless : ({ a with pendingSignals := rest } : DemandAnalysis).remaining m < a.remaining m := by
        simp only [DemandAnalysis.remaining, hpending, List.length_cons]
        omega
      have hpositive := h.signalsDemanded g (hpending ▸ List.mem_cons_self)
      have hpopped : Demanding m o { a with pendingSignals := rest } := { h.toDemanding with
        signalsDemanded := fun w hw => h.signalsDemanded w (hpending ▸ List.mem_cons_of_mem _ hw) }
      apply Settles.bind (propagateSignal_asks ho hrows hpopped (h.observed g hpositive))
      intro b ⟨hb, hgrows, hmet⟩
      have hkept : Pending m o roots b := by
        refine h.grow hb hgrows rfl rfl (fun v hv => .inl hv) fun w hw => ?_
        rw [hpending] at hw
        rcases List.mem_cons.mp hw with rfl | hw
        · exact .inr hmet
        · exact .inl hw
      have hlower := hgrows.remaining
      apply Settles.mono (ih hkept (by omega))
      exact fun c ⟨hc, hempty, hle, _⟩ => ⟨hc, hempty, by omega, fun _ => by omega⟩

omit ho in
theorem drainValues_nil (fuel : Nat) (h : a.pendingValues = []) : drainValues m fuel a = .ok a := by
  cases fuel with
  | zero => rfl
  | succ fuel =>
    rw [drainValues, h]
    rfl

/-- The rounds end with nothing pending. -/
theorem propagate_settles (hrows : drivers.rows.entries = connectEntries m) {fuel : Nat}
    (h : Pending m o roots a) (hfuel : a.remaining m ≤ fuel) :
    Settles (propagate m drivers fuel a) (fun b => Pending m o roots b ∧ b.pendingValues = [] ∧
      b.pendingSignals = []) fun _ => True := by
  induction fuel generalizing a with
  | zero =>
    have hnone : a.pendingValues.length + a.pendingSignals.length = 0 := by
      unfold DemandAnalysis.remaining at hfuel
      omega
    exact ⟨h, List.eq_nil_of_length_eq_zero (by omega), List.eq_nil_of_length_eq_zero (by omega)⟩
  | succ fuel ih =>
    rw [propagate]
    split_ifs with hnone
    · exact ⟨h, hnone.1, hnone.2⟩
    · have hround : Settles (drainValues m (a.remaining m) a) (fun b => Pending m o roots b ∧
          (b.remaining m < a.remaining m ∨ b = a ∧ a.pendingSignals ≠ [])) fun _ => True := by
        by_cases hnil : a.pendingValues = []
        · rw [drainValues_nil _ hnil]
          exact ⟨h, .inr ⟨rfl, fun he => hnone ⟨hnil, he⟩⟩⟩
        · apply Settles.mono (drainValues_settles ho h le_rfl)
          exact fun b ⟨hb, _, _, hless⟩ => ⟨hb, .inl (hless hnil)⟩
      apply Settles.bind hround
      intro b ⟨hb, hless⟩
      apply Settles.bind (drainSignals_settles ho hrows hb le_rfl)
      intro c ⟨hc, _, hle, hlower⟩
      apply ih hc
      rcases hless with hless | ⟨rfl, hne⟩
      · omega
      · have := hlower hne
        omega

omit ho in
theorem requireRoots_asks {roots : List Nat} (h : Demanding m o a)
    (hroots : ∀ v ∈ roots, Marked o.reachableValues v) :
    Asks m o a (roots.foldlM (requireValueFull m) a) fun b => ∀ v ∈ roots, Full m b.value v := by
  induction roots generalizing a with
  | nil => exact Asks.pure h fun _ hv => absurd hv List.not_mem_nil
  | cons v roots ih =>
    rw [List.foldlM_cons]
    have hone := requireValueFull_asks h (hroots v List.mem_cons_self)
    have hall := hone.bind (fun _ _ hgrows hfull => hfull.mono hgrows.value) fun b hb =>
      ih hb fun w hw => hroots w (List.mem_cons_of_mem _ hw)
    apply Settles.mono hall
    intro b ⟨hb, hgrows, hfull, hrest⟩
    refine ⟨hb, hgrows, fun w hw => ?_⟩
    rcases List.mem_cons.mp hw with rfl | hw
    · exact hfull
    · exact hrest w hw

omit ho in
theorem new_value (v : Nat) : (DemandAnalysis.new m).value v = 0 := by
  simp only [DemandAnalysis.value, DemandAnalysis.new, List.getD_eq_getElem?_getD, List.getElem?_replicate]
  split_ifs <;> rfl

omit ho in
theorem new_signal (g : Nat) : (DemandAnalysis.new m).signal g = 0 := by
  simp only [DemandAnalysis.signal, DemandAnalysis.new, List.getD_eq_getElem?_getD, List.getElem?_replicate]
  split_ifs <;> rfl

omit ho in
theorem new_demanding : Demanding m o (DemandAnalysis.new m) where
  values := List.length_replicate
  signals := List.length_replicate
  reached v hv := absurd hv (by rw [new_value]; exact lt_irrefl 0)
  observed g hg := absurd hg (by rw [new_signal]; exact lt_irrefl 0)
  valuesDemanded _ hv := absurd hv List.not_mem_nil
  signalsDemanded _ hg := absurd hg List.not_mem_nil

omit ho in
theorem build_settles : Settles (SignalDrivers.build m) (fun drivers => drivers.rows.entries = connectEntries m)
    fun _ => True := by
  unfold SignalDrivers.build
  have hentries : Settles (m.connects.zipIdx.mapM fun entry =>
      if entry.2 ≤ Mapped.U32_MAX then .ok (entry.1.target.signal, entry.2)
      else .error (.capacity "connect index exceeds 32-bit driver-table capacity"))
      (List.Forall₂ (fun entry pair => pair = (entry.1.target.signal, entry.2)) m.connects.zipIdx)
        fun (_ : SynthError) => True := by
    apply Settles.mapM
    intro entry _
    split_ifs
    · rfl
    · exact trivial
  apply Settles.bind hentries
  intro entries hall
  apply Settles.bind (netlistObservability_settles.packs _ _)
  intro rows hrows
  have hmap : entries = connectEntries m := by
    rw [connectEntries]
    exact (List.forall₂_eq_eq_eq ▸ (List.forall₂_map_left_iff.mpr (hall.imp fun _ _ h => h.symm)) :
      m.connects.zipIdx.map _ = entries).symm
  exact hrows.trans hmap

/-- The answer of the analysis is closed under the rules. -/
theorem propagated_settles (hrows : drivers.rows.entries = connectEntries m) :
    Settles (o.rootValues.foldlM (requireValueFull m) (DemandAnalysis.new m) >>= fun a =>
      propagate m drivers (a.remaining m) a) (fun b => Demanded m b.value b.signal o) fun _ => True := by
  apply Settles.bind (requireRoots_asks new_demanding ho.root)
  intro a ⟨ha, hgrows, hroot⟩
  have hpending : Pending m o o.rootValues a := by
    refine { ha with root := hroot, value := fun v hpos => ?_, driver := fun g hpos => ?_ }
    · rcases hgrows.valueKept v with he | hmem
      · rw [he, new_value] at hpos
        exact absurd hpos (lt_irrefl 0)
      · exact .inl hmem
    · rcases hgrows.signalKept g with he | hmem
      · rw [he, new_signal] at hpos
        exact absurd hpos (lt_irrefl 0)
      · exact .inl hmem
  apply Settles.mono (propagate_settles ho hrows hpending le_rfl)
  intro b ⟨hb, hvalues, hsignals⟩
  refine ⟨hb.root, fun v hpos => ?_, fun g hpos => ?_, hb.reached, hb.observed⟩
  · exact (hb.value v hpos).resolve_left (by rw [hvalues]; exact List.not_mem_nil)
  · exact (hb.driver g hpos).resolve_left (by rw [hsignals]; exact List.not_mem_nil)

omit ho in
theorem analyze_settles (m : WordModule) (observedValues : List Nat) :
    Settles (ObservableBits.analyzeWithValues m observedValues) (fun bits =>
      (∀ connect ∈ m.connects, connect.target.dynamic = none) ∧ ∃ o S,
        netlistObservabilityWithValues m observedValues = .ok o ∧ Observable m observedValues o ∧
          Demanded m bits.requiredPrefix S o) fun _ => True := by
  unfold ObservableBits.analyzeWithValues
  split_ifs with hdynamic
  · exact trivial
  · apply Settles.bind build_settles
    intro drivers hrows
    unfold DemandAnalysis.run
    apply Settles.bind (netlistObservability_settles m observedValues).self
    intro o ⟨hok, ho⟩
    rw [← bind_assoc]
    apply Settles.bind (propagated_settles ho hrows)
    intro b hb
    refine ⟨fun connect hconnect => ?_, o, b.signal, hok, ho, hb⟩
    rw [List.any_eq_true] at hdynamic
    cases hd : connect.target.dynamic with
    | none => rfl
    | some dynamic => exact absurd ⟨connect, hconnect, by rw [hd]; rfl⟩ hdynamic

end Opto.Planning
