import Opto.Library.Words
import Opto.Planning.DemandClosed
import Opto.Word.Simulation

/-!
# Demanded bits suffice

Two states that agree on the demanded bits agree on them after every event, and on all that
is observed; so what happens to the other bits is never seen.
-/

namespace Opto.Planning

open Word
open Bits (truth)

variable {m : WordModule} {b : Behaviour} {P S : Nat → Nat} {o : NetlistObservability} {observedValues : List Nat}
  {s t : State b} {v d : Nat}

/-! States that agree on what is demanded. -/

/-- Agreement on the demanded bits, the observed boundary, the observed memories and the clock
levels of demanded registers. -/
structure Agree (m : WordModule) (P S : Nat → Nat) (o : NetlistObservability) (s t : State b) : Prop where
  value : ∀ v i : Nat, i < P v → s.value v i = t.value v i
  signal : ∀ g i : Nat, i < S g → s.signal g i = t.signal g i
  boundary : ∀ g ∈ rootBoundarySignals m, ∀ i, s.signal g i = t.signal g i
  contents : ∀ k : Nat, Marked o.observedMemories k → s.contents k = t.contents k
  clock : ∀ v : Nat, 0 < P v → s.clock v = t.clock v

theorem valueBits_eq {ty : WordType} (h : m.valueTy v = some ty) : m.valueBits v = ty.width := by
  rw [WordModule.valueBits, h]
  rfl

theorem signalBits_eq {g : Nat} {ty : WordType} (h : m.signalTy g = some ty) : m.signalBits g = ty.width := by
  rw [WordModule.signalBits, h]
  rfl

@[simp] theorem length_word (s : State b) (v : Nat) : (s.word m v).length = m.valueBits v := by
  rw [State.word, List.length_map, List.length_range]

@[simp] theorem length_signalWord (s : State b) (g : Nat) : (s.signalWord m g).length = m.signalBits g := by
  rw [State.signalWord, List.length_map, List.length_range]

/-- Bit functions that agree below a position give words that do. -/
theorem sameLow_range {f g : Nat → Bool} (n : Nat) (h : ∀ i < min d n, f i = g i) :
    SameLow d ((List.range n).map f) ((List.range n).map g) := by
  refine ⟨by rw [List.length_map, List.length_map], fun i hi => ?_⟩
  rw [List.getElem?_map, List.getElem?_map]
  by_cases hlt : i < n
  · rw [List.getElem?_range hlt, Option.map_some, Option.map_some, h i (lt_min hi hlt)]
  · rw [List.getElem?_eq_none (by rw [List.length_range]; omega)]
    rfl

namespace Agree

theorem met (h : Agree m P S o s t) (hv : Met m P v d) : SameLow d (s.word m v) (t.word m v) := by
  obtain ⟨ty, hty, hle⟩ := hv
  apply sameLow_range
  intro i hi
  rw [valueBits_eq hty] at hi
  exact h.value v i (hi.trans_le hle)

theorem full (h : Agree m P S o s t) (hv : Full m P v) : s.word m v = t.word m v := by
  obtain ⟨ty, hty, hle⟩ := hv
  have hmet : Met m P v ty.width := ⟨ty, hty, by rw [min_self]; exact hle⟩
  apply (h.met hmet).eq
  rw [length_word, valueBits_eq hty]

/-- A control that is fully demanded is active in both states or in none. -/
theorem enable {e : Enable} (h : Agree m P S o s t) (he : Full m P e.value) :
    e.isActive (s.word m) = e.isActive (t.word m) := by rw [Enable.isActive, Enable.isActive, h.full he]

theorem reset {r : Reset} (h : Agree m P S o s t) (hr : Full m P r.value) :
    r.isActive (s.word m) = r.isActive (t.word m) := by rw [Reset.isActive, Reset.isActive, h.full hr]

theorem signalWord (h : Agree m P S o s t) {g : Nat} (hg : SignalMet m S g d) :
    SameLow d (s.signalWord m g) (t.signalWord m g) := by
  obtain ⟨ty, hty, hle⟩ := hg
  apply sameLow_range
  intro i hi
  rw [signalBits_eq hty] at hi
  exact h.signal g i (hi.trans_le hle)

theorem parts (h : Agree m P S o s t) {parts : List Nat} (hparts : PartsMet m P d parts) :
    SameLow d (parts.flatMap (s.word m)) (parts.flatMap (t.word m)) := by
  induction parts generalizing d with
  | nil => exact .refl []
  | cons part parts ih =>
    rw [List.flatMap_cons, List.flatMap_cons]
    rcases hparts with rfl | ⟨ty, hty, hle, hrest⟩
    · refine ⟨?_, fun i hi => absurd hi (Nat.not_lt_zero i)⟩
      simp only [List.length_append, List.length_flatMap, length_word]
    · apply (h.met ⟨ty, hty, hle⟩).append
      rw [length_word, valueBits_eq hty]
      exact ih hrest

/-- The same reset of a list applies in both states. -/
theorem find (h : Agree m P S o s t) {resets : List Reset} (hresets : ResetsMet m P resets d) (p : Reset → Bool) :
    (resets.find? fun r => r.isActive (s.word m) && p r) = resets.find? fun r => r.isActive (t.word m) && p r := by
  induction resets with
  | nil => rfl
  | cons r resets ih =>
    have hrest := ih fun r' hr' => hresets r' (List.mem_cons_of_mem _ hr')
    rw [List.find?_cons, List.find?_cons, h.reset (hresets r List.mem_cons_self).1, hrest]

end Agree

/-! Operators. -/

/-- Sums, differences, products and bitwise operations keep an agreement of low bits. -/
theorem sameLow_binary {op : BinaryOp} (hop : keepsLowBits op = true) (leftTy rightTy ty : WordType)
    {x x' y y' : Bits} (hx : SameLow d x x') (hy : SameLow d y y') :
    SameLow d (op.denote leftTy rightTy ty x y) (op.denote leftTy rightTy ty x' y') := by
  have hleft := hx.number_modEq (ty.signed && leftTy.signed)
  have hright := hy.number_modEq (ty.signed && rightTy.signed)
  have hbits (f : Bool → Bool → Bool) : SameLow d
      (BinaryOp.denote.bitwise leftTy rightTy ty x y f) (BinaryOp.denote.bitwise leftTy rightTy ty x' y' f) :=
    (hx.resize _ _).zipWith (hy.resize _ _) f
  cases op with
  | add => exact SameLow.digits (hleft.add hright) ty.width
  | sub => exact SameLow.digits (hleft.sub hright) ty.width
  | mul => exact SameLow.digits (hleft.mul hright) ty.width
  | bitAnd => exact hbits and
  | bitOr => exact hbits or
  | bitXor => exact hbits xor
  | _ => cases hop

theorem Agree.registerNext (h : Agree m P S o s t) {register : RegisterOp} (hd : Met m P register.d d)
    (hclock : Full m P register.clock) (henable : ∀ e ∈ register.enable, Full m P e.value)
    (hresets : ResetsMet m P register.resets d) (seen : Bool) {held held' : Bits} (hheld : SameLow d held held') :
    SameLow d (register.next (s.word m) seen held) (register.next (t.word m) seen held') := by
  have hall : (register.enable.all fun e => e.isActive (s.word m)) = register.enable.all fun e => e.isActive (t.word m) := by
    cases he : register.enable with
    | none => rfl
    | some e => exact h.enable (henable e he)
  unfold RegisterOp.next
  simp only [h.full hclock, h.find hresets, hall]
  split
  next reset hfind => exact h.met (hresets reset (List.mem_of_find?_eq_some hfind)).2
  next =>
    split_ifs
    · exact h.met hd
    · exact hheld

theorem Agree.latchNext (h : Agree m P S o s t) {latch : LatchOp} (hd : Met m P latch.d d)
    (henable : Full m P latch.enable.value) (hresets : ResetsMet m P latch.resets d) {held held' : Bits}
    (hheld : SameLow d held held') : SameLow d (latch.next (s.word m) held) (latch.next (t.word m) held') := by
  have hfind := h.find hresets fun _ => true
  simp only [Bool.and_true] at hfind
  unfold LatchOp.next
  simp only [hfind, h.enable henable]
  split
  next reset hfound => exact h.met (hresets reset (List.mem_of_find?_eq_some hfound)).2
  next =>
    split_ifs
    · exact h.met hd
    · exact hheld

/-- What an operation yields agrees as far as its rule asks its operands to. -/
theorem Agree.operate (h : Agree m P S o s t) (ty : WordType) {kind : OpKind} (hkind : OperationMet m P d kind)
    (hclock : s.clock v = t.clock v) (hheld : SameLow d (s.word m v) (t.word m v)) :
    SameLow d (s.operate m v ty kind) (t.operate m v ty kind) := by
  cases kind with
  | unary op arg =>
    cases op with
    | bitNot => exact (h.met hkind).map (!·)
    | logicalNot => simp only [State.operate, OpKind.denote, h.full hkind]; exact .refl _
    | reductionAnd => simp only [State.operate, OpKind.denote, h.full hkind]; exact .refl _
    | reductionOr => simp only [State.operate, OpKind.denote, h.full hkind]; exact .refl _
    | reductionXor => simp only [State.operate, OpKind.denote, h.full hkind]; exact .refl _
  | binary op left right =>
    simp only [State.operate, OpKind.denote]
    cases hleftTy : m.valueTy left with
    | none => exact .refl _
    | some leftTy =>
      cases hrightTy : m.valueTy right with
      | none => exact .refl _
      | some rightTy =>
        simp only [OperationMet] at hkind
        split_ifs at hkind with hop
        · exact sameLow_binary hop leftTy rightTy ty (h.met hkind.1) (h.met hkind.2)
        · rw [h.full hkind.1, h.full hkind.2]
          exact .refl _
  | mux cond thenValue elseValue =>
    simp only [State.operate, OpKind.denote, h.full hkind.1, Option.getD_some]
    split_ifs
    · exact h.met hkind.2.1
    · exact h.met hkind.2.2
  | triState data enable =>
    simp only [State.operate, h.enable hkind.2]
    split_ifs
    · exact h.met hkind.1
    · exact .refl _
  | concat parts => exact h.parts hkind
  | extract source lsb width => exact ((h.met hkind).drop).take width
  | dynamicExtract source offset width =>
    simp only [State.operate, OpKind.denote, h.full hkind.1, h.full hkind.2]
    exact .refl _
  | dynamicInsert source offset replacement =>
    simp only [State.operate, OpKind.denote, h.full hkind.1, h.full hkind.2.1, h.full hkind.2.2]
    exact .refl _
  | cast kind source target => exact (h.met hkind).resize _ _
  | register register =>
    simp only [State.operate, hclock]
    exact h.registerNext hkind.1 hkind.2.1 hkind.2.2.1 hkind.2.2.2 _ hheld
  | latch latch => exact h.latchNext hkind.1 hkind.2.1 hkind.2.2 hheld

/-- A value computed anew agrees on its demanded bits. -/
theorem Agree.compute (h : Agree m P S o s t) (hd : Demanded m P S o) (hv : 0 < P v) :
    SameLow (P v) (s.compute m v) (t.compute m v) := by
  have hrule := hd.value v hv
  unfold State.compute
  cases hstored : m.values[v]? with
  | none => exact .refl _
  | some stored =>
    have hmet := hrule stored hstored
    obtain ⟨kind, ty⟩ := stored
    cases kind with
    | constant bits => exact .refl _
    | signal reference =>
      have hread := (h.signalWord hmet).drop.take reference.width
      -- the reference reads no more than its width
      refine ⟨hread.length, fun i hi => ?_⟩
      by_cases hlt : i < reference.width
      · exact hread.bits i (lt_min hi hlt)
      · dsimp only
        rw [List.getElem?_take, List.getElem?_take, if_neg hlt, if_neg hlt]
    | operation operation =>
      obtain ⟨produced, hproduced, hkind⟩ := hmet
      simp only [hproduced]
      apply h.operate ty hkind (h.clock v hv)
      apply sameLow_range
      exact fun i hi => h.value v i (hi.trans_le (min_le_left _ _))

/-! Signals. -/

theorem kind_met (hd : Demanded m P S o) (hv : 0 < P v) {kind : OpKind} (hkind : m.kindOf v = some kind) :
    OperationMet m P (P v) kind := by
  rw [WordModule.kindOf, Option.bind_eq_bind, Option.bind_eq_some_iff] at hkind
  obtain ⟨operation, hproducer, hkind⟩ := hkind
  obtain ⟨ty, hstored⟩ := WordModule.producer_eq_some.mp hproducer
  obtain ⟨stored, hoperation, hmet⟩ := hd.value v hv _ hstored
  rw [hoperation] at hkind
  exact Option.some.inj hkind ▸ hmet

theorem Agree.released (h : Agree m P S o s t) (hd : Demanded m P S o) (hv : 0 < P v) :
    s.released m v = t.released m v := by
  unfold State.released
  cases hkind : m.kindOf v with
  | none => rfl
  | some kind =>
    cases kind with
    | triState data enable =>
      simp only [h.enable (kind_met hd hv hkind).2]
    | _ => rfl

theorem Agree.level (h : Agree m P S o s t) (hd : Demanded m P S o) (hv : 0 < P v) :
    s.level m v = t.level m v := by
  unfold State.level
  cases hkind : m.kindOf v with
  | none => rfl
  | some kind =>
    cases kind with
    | register register => simp only [h.full (kind_met hd hv hkind).2.1]
    | _ => rfl

/-- A connection gives the same to a bit whose sources are demanded. -/
theorem Agree.contributions (h : Agree m P S o s t) (hd : Demanded m P S o) {connect : Connect} {i : Nat}
    (hsources : ∀ offset ∈ targetOffsets m connect i, offset < P connect.value) :
    s.contributions m connect i = t.contributions m connect i := by
  apply List.map_congr_left
  intro offset hoffset
  have hlt := hsources offset hoffset
  rw [h.released hd (Nat.zero_lt_of_lt hlt), h.value _ _ hlt]

/-- The offsets that drive a demanded bit of a signal are demanded of the connected value. -/
theorem offset_demanded (hd : Demanded m P S o) {connect : Connect} (hmem : connect ∈ m.connects) {i : Nat}
    (hi : i < S connect.target.signal) : ∀ offset ∈ targetOffsets m connect i, offset < P connect.value := by
  intro offset hoffset
  obtain ⟨ty, hty, hle⟩ := hd.driver _ (Nat.zero_lt_of_lt hi) connect hmem rfl
  rw [targetOffsets, List.mem_filter, List.mem_range, valueBits_eq hty, decide_eq_true_eq] at hoffset
  obtain ⟨hrange, hwidth, hbit⟩ := hoffset
  refine lt_of_lt_of_le ?_ hle
  cases hr : connect.target.range with
  | none =>
    rw [hr, targetBit, Option.some.injEq] at hbit
    dsimp only [sourceDemand]
    omega
  | some range =>
    rw [hr, Option.elim_some, BitRange.width] at hrange
    rw [hr, targetBit] at hbit
    dsimp only [sourceDemand]
    split_ifs at hbit ⊢ with hascending hlsb hmsb hmsb
    · rw [Option.some.injEq] at hbit
      omega
    · omega
    · -- a reversed range ends at its `msb`, so the bit lies above it
      rw [Option.some.injEq] at hbit
      omega

theorem Agree.readWords (h : Agree m P S o s t) (hd : Demanded m P S o) (ho : Observable m observedValues o)
    {port : MemoryReadPort} (hport : port ∈ m.memoryReadPorts) (hk : Marked o.observedMemories port.memory) :
    port.values.map (s.word m) = port.values.map (t.word m) :=
  List.map_congr_left fun v hv => h.full (hd.root v (ho.reads port hport hk v hv))

theorem Agree.writeWords (h : Agree m P S o s t) (hd : Demanded m P S o) (ho : Observable m observedValues o)
    {port : MemoryWritePort} (hport : port ∈ m.memoryWritePorts) (hk : Marked o.observedMemories port.memory) :
    port.values.map (s.word m) = port.values.map (t.word m) :=
  List.map_congr_left fun v hv => h.full (hd.root v (ho.writes port hport hk v hv))

/-- A bit has the same sources when the connected bits are demanded and the signal is observed. -/
theorem Agree.resolved (h : Agree m P S o s t) (hd : Demanded m P S o) (ho : Observable m observedValues o)
    {g i : Nat} (hg : Marked o.observedSignals g)
    (hsources : ∀ connect ∈ m.connects, connect.target.signal = g → ∀ offset ∈ targetOffsets m connect i,
      offset < P connect.value) (external : List (Option Bool)) :
    s.resolved m external g i = t.resolved m external g i := by
  have hconnects : ((m.connects.filter fun connect => connect.target.signal = g).flatMap (s.contributions m · i)) =
      (m.connects.filter fun connect => connect.target.signal = g).flatMap (t.contributions m · i) := by
    rw [List.flatMap_def, List.flatMap_def]
    congr 1
    apply List.map_congr_left
    intro connect hmem
    rw [List.mem_filter, decide_eq_true_eq] at hmem
    exact h.contributions hd (hsources connect hmem.1 hmem.2)
  have hreads : ((m.memoryReadPorts.filter fun port => port.data = g).map fun port =>
      (b.readData port (port.values.map (s.word m)) (s.contents port.memory))[i]?) =
      (m.memoryReadPorts.filter fun port => port.data = g).map fun port =>
        (b.readData port (port.values.map (t.word m)) (t.contents port.memory))[i]? := by
    apply List.map_congr_left
    intro port hmem
    rw [List.mem_filter, decide_eq_true_eq] at hmem
    have hk := ho.read port hmem.1 (hmem.2 ▸ hg)
    rw [h.readWords hd ho hmem.1 hk, h.contents port.memory hk]
  rw [State.resolved, State.resolved, State.sources, State.sources, hconnects, hreads]

/-! Events. -/

/-- Every event keeps the agreement. -/
theorem Agree.step (h : Agree m P S o s t) (hd : Demanded m P S o) (ho : Observable m observedValues o)
    (event : Event) : Agree m P S o (s.step m event) (t.step m event) := by
  constructor
  · intro v i hi
    simp only [State.step]
    split_ifs
    · exact (h.compute hd (Nat.zero_lt_of_lt hi)).getD hi false
    · exact h.value v i hi
  · intro g i hi
    simp only [State.step]
    split_ifs
    · apply h.resolved hd ho (hd.observed g (Nat.zero_lt_of_lt hi))
      rintro connect hmem rfl
      exact offset_demanded hd hmem hi
    · exact h.signal g i hi
  · intro g hg i
    simp only [State.step]
    split_ifs
    · apply h.resolved hd ho (ho.boundary g (preserved_boundary m hg))
      rintro connect hmem rfl offset hoffset
      obtain ⟨ty, hty, hle⟩ := hd.root _ (ho.rooted connect hmem hg)
      rw [targetOffsets, List.mem_filter, decide_eq_true_eq, valueBits_eq hty] at hoffset
      exact hoffset.2.1.trans_le hle
    · exact h.boundary g hg i
  · intro k hk
    simp only [State.step]
    split_ifs
    · have hreads : s.readOperands m k = t.readOperands m k := List.map_congr_left fun port hport => by
        rw [List.mem_filter, decide_eq_true_eq] at hport
        rw [h.readWords hd ho hport.1 (hport.2 ▸ hk)]
      have hwrites : s.writeOperands m k = t.writeOperands m k := List.map_congr_left fun port hport => by
        rw [List.mem_filter, decide_eq_true_eq] at hport
        rw [h.writeWords hd ho hport.1 (hport.2 ▸ hk)]
      rw [State.accessed, State.accessed, hreads, hwrites, h.contents k hk]
    · exact h.contents k hk
  · intro v hv
    simp only [State.step]
    split_ifs
    · exact h.level hd hv
    · exact h.clock v hv

/-- All that is observed is demanded. -/
theorem Agree.observe (h : Agree m P S o s t) (hd : Demanded m P S o) (ho : Observable m observedValues o) :
    s.observe m o.observedMemories observedValues = t.observe m o.observedMemories observedValues := by
  have hroot (v : Nat) (hv : v ∈ o.rootValues) : s.word m v = t.word m v := h.full (hd.root v hv)
  unfold State.observe
  congr 1
  · apply List.map_congr_left
    intro port hport
    have hg : port.signal ∈ rootBoundarySignals m := List.mem_append_left _ (List.mem_map_of_mem hport)
    exact List.map_congr_left fun i _ => h.boundary port.signal hg i
  · apply List.map_congr_left
    intro inst hinst
    apply List.map_congr_left
    intro connection hconnection
    apply hroot
    exact ho.instances _ (List.mem_map_of_mem (List.mem_flatMap.mpr ⟨inst, hinst, hconnection⟩))
  · congr 1
    · apply List.map_congr_left
      intro port hport
      rw [List.mem_filter, decide_eq_true_eq] at hport
      exact h.readWords hd ho hport.1 hport.2
    · apply List.map_congr_left
      intro port hport
      rw [List.mem_filter, decide_eq_true_eq] at hport
      exact h.writeWords hd ho hport.1 hport.2
  · exact List.map_congr_left fun v hv => hroot v (ho.observed v hv)

/-! Runs. -/

/-- Bits of values that no demand reaches are flipped. -/
def ObservableBits.flip (bits : ObservableBits) (flips : Nat → Nat → Bool) (s : State b) : State b :=
  { s with value := fun v i => s.value v i ^^ (decide (bits.requiredPrefix v ≤ i) && flips v i) }

theorem flip_value (bits : ObservableBits) (flips : Nat → Nat → Bool) (s : State b) {v i : Nat}
    (hi : i < bits.requiredPrefix v) : (bits.flip flips s).value v i = s.value v i := by
  have hbelow : decide (bits.requiredPrefix v ≤ i) = false := decide_eq_false (not_le.mpr hi)
  simp only [ObservableBits.flip, hbelow, Bool.false_and, Bool.xor_false]

theorem Agree.flip {bits : ObservableBits} (h : Agree m bits.requiredPrefix S o s t) (flips flips' : Nat → Nat → Bool) :
    Agree m bits.requiredPrefix S o (bits.flip flips s) (bits.flip flips' t) :=
  { h with value := fun v i hi => by rw [flip_value bits flips s hi, flip_value bits flips' t hi, h.value v i hi] }

/-- The memories that observability finds. -/
def observedMemories (m : WordModule) (observedValues : List Nat) : List Bool :=
  match netlistObservabilityWithValues m observedValues with
  | .ok o => o.observedMemories
  | .error _ => []

/-- Runs under the same environment agree and are observed alike. -/
theorem run_agrees {bits : ObservableBits} (hd : Demanded m bits.requiredPrefix S o)
    (ho : Observable m observedValues o) (s : State b) (environment : List Observation → Event)
    (flips flips' : Nat → Nat → Nat → Bool) (n : Nat) :
    let left := run m s o.observedMemories observedValues environment (fun k => bits.flip (flips k)) n
    let right := run m s o.observedMemories observedValues environment (fun k => bits.flip (flips' k)) n
    left.1 = right.1 ∧ Agree m bits.requiredPrefix S o left.2 right.2 := by
  induction n with
  | zero =>
    have hstart : Agree m bits.requiredPrefix S o s s :=
      ⟨fun _ _ _ => rfl, fun _ _ _ => rfl, fun _ _ _ => rfl, fun _ _ => rfl, fun _ _ => rfl⟩
    have hflipped := hstart.flip (flips 0) (flips' 0)
    refine ⟨?_, hflipped⟩
    simp only [run, hflipped.observe hd ho]
  | succ n ih =>
    obtain ⟨hseen, hagree⟩ := ih
    simp only [run]
    have hstep := fun event => (hagree.step hd ho event).flip (flips (n + 1)) (flips' (n + 1))
    rw [hseen]
    exact ⟨by rw [(hstep _).observe hd ho], hstep _⟩

/-- Flipping bits that are not demanded, at any times of a run, changes nothing that is observed. -/
theorem flips_unobserved {bits : ObservableBits} (h : ObservableBits.analyzeWithValues m observedValues = .ok bits)
    (s : State b) (environment : List Observation → Event) (flips : Nat → Nat → Nat → Bool) (n : Nat) :
    (run m s (observedMemories m observedValues) observedValues environment (fun k => bits.flip (flips k)) n).1 =
      (run m s (observedMemories m observedValues) observedValues environment (fun _ s => s) n).1 := by
  obtain ⟨-, o, S, hok, ho, hd⟩ := (analyze_settles m observedValues).ok h
  have hsame : (fun (_ : Nat) (s : State b) => s) = fun _ => bits.flip fun _ _ => false := by
    funext _ s
    simp only [ObservableBits.flip, Bool.and_false, Bool.xor_false]
  rw [observedMemories, hok, hsame]
  exact (run_agrees hd ho s environment flips (fun _ _ _ => false) n).1

theorem four_positive : 0 < 4 := by decide

/-- The low bit of a sum is registered and put out. -/
def lowBitModule : WordModule :=
  { WordModule.empty with
    ports := [⟨0, .input, 0, ⟨4, true, .twoState, four_positive⟩⟩, ⟨0, .output, 1, ⟨1, true, .twoState, Nat.one_pos⟩⟩]
    signals := [⟨none, .port 0, ⟨4, true, .twoState, four_positive⟩, .singleDriver, none⟩,
      ⟨none, .port 1, ⟨1, true, .twoState, Nat.one_pos⟩, .singleDriver, none⟩]
    values := [⟨.signal ⟨0, 0, 4⟩, ⟨4, true, .twoState, four_positive⟩⟩,
      ⟨.constant [.one], ⟨1, true, .twoState, Nat.one_pos⟩⟩, ⟨.operation 0, ⟨4, true, .twoState, four_positive⟩⟩,
      ⟨.operation 1, ⟨4, true, .twoState, four_positive⟩⟩, ⟨.operation 2, ⟨1, true, .twoState, Nat.one_pos⟩⟩]
    operations := [⟨.binary .add 0 1, 2⟩, ⟨.register ⟨2, 1, .pos, none, []⟩, 3⟩, ⟨.extract 3 0 1, 4⟩]
    connects := [⟨⟨1, none, none⟩, 4⟩] }

example : lowBitModule.validate = true := by decide

/-- Bits that are undefined or in dispute are zero, and memories hold nothing. -/
def zeroBehaviour : Behaviour where
  Contents := Unit
  undefined := false
  resolve _ sources := sources.head?.join.getD false
  access _ _ _ contents := contents
  readData _ _ _ := []

theorem lowBit_flips_unobserved :
    (run lowBitModule (b := zeroBehaviour) ⟨fun _ _ => true, fun _ _ => true, fun _ => (), fun _ => false⟩
      (observedMemories lowBitModule [4]) [4] (fun _ => ⟨fun _ => true, fun _ => true, fun _ => true, fun _ _ => []⟩)
      (fun _ => ObservableBits.flip ⟨[1, 1, 1, 1, 1]⟩ fun _ _ => true) 3).1 =
    (run lowBitModule (b := zeroBehaviour) ⟨fun _ _ => true, fun _ _ => true, fun _ => (), fun _ => false⟩
      (observedMemories lowBitModule [4]) [4] (fun _ => ⟨fun _ => true, fun _ => true, fun _ => true, fun _ _ => []⟩)
      (fun _ s => s) 3).1 := by
  have hbits : ObservableBits.analyzeWithValues lowBitModule [4] = .ok ⟨[1, 1, 1, 1, 1]⟩ := by decide
  exact flips_unobserved hbits _ _ (fun _ _ _ => true) 3

end Opto.Planning
