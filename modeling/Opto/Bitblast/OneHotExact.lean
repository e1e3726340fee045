import Opto.Bitblast.BarrelExact

/-!
# The one-hot lowering is exact

The offset selects at most one of the enumerated taps. The decoder splits the taps by the
bits of the offset that are not fixed, and a tap's bit says that the offset agrees with it
on all of them. Taps and offset agree on the remaining bits, so the bit says that they are
equal.
-/

namespace Opto.Bitblast

open Word Growing Planning

variable {σ ε β : Type} [BitBackend σ ε β] {W : Meaning σ ε β} {s : σ}

/-! Taps. -/

/-- A number that an offset of some width may have, by what is known of its bits. -/
structure Admissible (constants : Nat → Option Bool) (width alignment : Nat) (v : Nat) : Prop where
  bounded : v < 2 ^ width
  aligned : 2 ^ alignment ∣ v
  agrees : ∀ index < width, ∀ b, constants index = some b → v.testBit index = b

theorem Admissible.offset {offset : Operand β} {n alignment : Nat} (h : Holds W s offset n)
    (haligned : 2 ^ alignment ∣ n) :
    Admissible (offsetBitConstant s offset) offset.ty.width alignment n where
  bounded := h.1
  aligned := haligned
  agrees _ _ _ hb := offsetBitConstant_reads h hb

theorem testBit_aligned {v alignment index : Nat} (h : 2 ^ alignment ∣ v) (hindex : index < alignment) :
    v.testBit index = false := by
  obtain ⟨k, rfl⟩ := h
  rw [Nat.testBit_two_pow_mul]
  simp [hindex]

/-- Admissible numbers are equal when they agree on the bits that are not fixed. -/
theorem Admissible.eq {constants : Nat → Option Bool} {width alignment u v : Nat}
    (hu : Admissible constants width alignment u) (hv : Admissible constants width alignment v)
    (h : ∀ index < width, alignment ≤ index → constants index = none →
      u.testBit index = v.testBit index) : u = v := by
  apply Nat.eq_of_testBit_eq
  intro index
  by_cases hwidth : index < width
  · by_cases hlow : index < alignment
    · rw [testBit_aligned hu.aligned hlow, testBit_aligned hv.aligned hlow]
    · cases hfixed : constants index with
      | none => exact h index hwidth (Nat.not_lt.mp hlow) hfixed
      | some b => rw [hu.agrees index hwidth b hfixed, hv.agrees index hwidth b hfixed]
  · have hpow : 2 ^ width ≤ 2 ^ index := Nat.pow_le_pow_right (by decide) (Nat.not_lt.mp hwidth)
    rw [Nat.testBit_lt_two_pow (Nat.lt_of_lt_of_le hu.bounded hpow),
      Nat.testBit_lt_two_pow (Nat.lt_of_lt_of_le hv.bounded hpow)]

theorem tapBitSet_eq {tap : Nat} (h : tap < 2 ^ 128) (index : Nat) :
    tapBitSet index tap = tap.testBit index := by
  rw [tapBitSet]
  by_cases hindex : index < 128
  · simp [hindex]
  · have hhigh : tap.testBit index = false := Nat.testBit_lt_two_pow
      (Nat.lt_of_lt_of_le h (Nat.pow_le_pow_right (by decide) (by omega)))
    simp [hhigh]

theorem tapAgrees_iff {constants : Nat → Option Bool} {width tap : Nat} (h : tap < 2 ^ 128) :
    tapAgrees ((List.range width).map constants) tap = true ↔
      ∀ index < width, ∀ b, constants index = some b → tap.testBit index = b := by
  have hset := tapBitSet_eq h
  simp only [tapBitSet] at hset
  simp only [tapAgrees, List.all_eq_true, hset]
  constructor
  · intro hall index hindex b hb
    have hmem : (constants index, index) ∈ ((List.range width).map constants).zipIdx := by
      rw [List.mk_mem_zipIdx_iff_getElem?, List.getElem?_map, List.getElem?_range hindex]
      rfl
    have hagree := hall _ hmem
    rw [hb] at hagree
    exact (of_decide_eq_true hagree).symm
  · intro hall ⟨constant, index⟩ hmem
    rw [List.mk_mem_zipIdx_iff_getElem?, List.getElem?_map] at hmem
    obtain ⟨i, hi, hconstant⟩ := Option.map_eq_some_iff.mp hmem
    obtain ⟨hlt, rfl⟩ := List.getElem?_eq_some_iff.mp hi
    rw [List.length_range] at hlt
    rw [List.getElem_range] at hconstant
    cases constant with
    | none => rfl
    | some b => simp [hall index hlt b hconstant]

/-- The taps of an offset with these fixed bits. -/
def tapsOf (constants : Nat → Option Bool) (width maxOffset alignment : Nat) : List Nat :=
  (List.range' 0 (maxOffset / 2 ^ min alignment 127 + 1) (2 ^ min alignment 127)).filter
    (tapAgrees ((List.range width).map constants))

section Taps

variable {constants : Nat → Option Bool} {width maxOffset alignment : Nat}

theorem tapsOf_nodup : (tapsOf constants width maxOffset alignment).Nodup :=
  (List.nodup_range' _ (Nat.two_pow_pos _)).filter _

theorem mem_tapsOf (hmax : maxOffset < 2 ^ 128) {tap : Nat} :
    tap ∈ tapsOf constants width maxOffset alignment ↔ tap ≤ maxOffset ∧
      2 ^ min alignment 127 ∣ tap ∧
      ∀ index < width, ∀ b, constants index = some b → tap.testBit index = b := by
  have hpos := Nat.two_pow_pos (min alignment 127)
  rw [tapsOf, List.mem_filter, List.mem_range', ← and_assoc]
  simp only [Nat.zero_add]
  have hmultiple : (∃ k < maxOffset / 2 ^ min alignment 127 + 1, tap = 2 ^ min alignment 127 * k) ↔
      tap ≤ maxOffset ∧ 2 ^ min alignment 127 ∣ tap := by
    constructor
    · rintro ⟨k, hk, rfl⟩
      have hle := Nat.mul_le_mul_left (2 ^ min alignment 127) (Nat.le_of_lt_succ hk)
      exact ⟨Nat.le_trans hle (Nat.mul_div_le _ _), k, rfl⟩
    · rintro ⟨hle, k, rfl⟩
      refine ⟨k, Nat.lt_succ_of_le ((Nat.le_div_iff_mul_le hpos).mpr ?_), rfl⟩
      rwa [Nat.mul_comm]
  rw [hmultiple]
  apply and_congr_right
  intro ⟨hle, _⟩
  exact tapAgrees_iff (Nat.lt_of_le_of_lt hle hmax)

end Taps

theorem dynamicExtractTaps_emits {offset : Operand β} {maxOffset : Nat} (alignment : Nat)
    (hmax : maxOffset < ONE_HOT_EXTRACT_MAX_OFFSET) :
    W.Emits s (dynamicExtractTaps offset maxOffset alignment) fun taps t => t = s ∧
      taps = some (tapsOf (offsetBitConstant s offset) offset.ty.width maxOffset alignment) := by
  rw [dynamicExtractTaps]
  apply Emits.get
  intro _
  rw [if_neg (Nat.not_le.mpr hmax), offset.sized]
  exact Emits.pure ⟨rfl, rfl⟩

/-! The decoder. -/

/-- The tap and the offset agree on some bits. -/
def Agree (n : Nat) (bits : List Nat) (tap : Nat) : Prop :=
  ∀ index ∈ bits, tapBitSet index tap = n.testBit index

instance (n : Nat) (bits : List Nat) (tap : Nat) : Decidable (Agree n bits tap) :=
  inferInstanceAs (Decidable (∀ index ∈ bits, _))

theorem agree_append {n index tap : Nat} {bits : List Nat} :
    Agree n (bits ++ [index]) tap ↔ Agree n bits tap ∧ tapBitSet index tap = n.testBit index := by
  simp only [Agree, List.mem_append, List.mem_singleton, or_imp, forall_and, forall_eq]

variable (W) in
/-- What a group's bit says when the bits of the offset are decoded. -/
def Decodes (s : σ) (n : Nat) (bits : List Nat) (tap : Nat) : Option β → Prop
  | none => bits = []
  | some select => W.Reads s select (decide (Agree n bits tap))

theorem Decodes.mono {t : σ} {n tap : Nat} {bits : List Nat} {select : Option β}
    (h : Decodes W s n bits tap select) (hgrows : W.Grows s t) : Decodes W t n bits tap select := by
  cases select with
  | none => exact h
  | some select => exact W.mono hgrows h

variable (W) in
structure Grouped (s : σ) (taps : List Nat) (n : Nat) (bits : List Nat) (group : TapGroup β) :
    Prop where
  nonempty : group.1 ≠ []
  nodup : group.1.Nodup
  stored : ∀ tap ∈ group.1, taps[tap.1]? = some tap.2
  together : ∀ a ∈ group.1, ∀ b ∈ group.1, ∀ index ∈ bits, tapBitSet index a.2 = tapBitSet index b.2
  decodes : ∀ tap ∈ group.1, Decodes W s n bits tap.2 group.2

theorem Grouped.mono {t : σ} {taps : List Nat} {n : Nat} {bits : List Nat} {group : TapGroup β}
    (h : Grouped W s taps n bits group) (hgrows : W.Grows s t) : Grouped W t taps n bits group :=
  { h with decodes := fun tap htap => (h.decodes tap htap).mono hgrows }

section Decoder

variable {taps : List Nat} {n index : Nat} {bits : List Nat} {group : TapGroup β}

theorem Grouped.child {t : σ} {select : β} (h : Grouped W s taps n bits group) (expected : Bool)
    (hchild : (group.1.filter fun tap => tapBitSet index tap.2 = expected) ≠ [])
    (hselect : ∀ tap ∈ group.1, tapBitSet index tap.2 = expected →
      W.Reads t select (decide (Agree n (bits ++ [index]) tap.2))) :
    Grouped W t taps n (bits ++ [index])
      (group.1.filter fun tap => tapBitSet index tap.2 = expected, some select) := by
  have hmem : ∀ tap ∈ group.1.filter fun tap => tapBitSet index tap.2 = expected,
      tap ∈ group.1 ∧ tapBitSet index tap.2 = expected := by
    intro tap htap
    rw [List.mem_filter, decide_eq_true_eq] at htap
    exact htap
  constructor
  · exact hchild
  · exact h.nodup.filter _
  · exact fun tap htap => h.stored tap (hmem tap htap).1
  · intro a ha b hb i hi
    rw [List.mem_append, List.mem_singleton] at hi
    rcases hi with hi | rfl
    · exact h.together a (hmem a ha).1 b (hmem b hb).1 i hi
    · rw [(hmem a ha).2, (hmem b hb).2]
  · exact fun tap htap => hselect tap (hmem tap htap).1 (hmem tap htap).2

variable (W) in
/-- The children keep the taps of a group whose bit is one of these. -/
def Splits (t : σ) (taps : List Nat) (n index : Nat) (bits : List Nat) (group : TapGroup β)
    (next : List (TapGroup β)) (expected : List Bool) (r : List (TapGroup β)) : Prop :=
  ∃ children, r = next ++ children ∧
    (∀ child ∈ children, Grouped W t taps n (bits ++ [index]) child) ∧
    ∀ tap ∈ group.1, tapBitSet index tap.2 ∈ expected → ∃ child ∈ children, tap ∈ child.1

theorem selectorLiteral_emits {bit : β} {inverse : Option β} (expected : Bool)
    (hbit : W.Reads s bit (n.testBit index))
    (hinverse : ∀ x, inverse = some x → W.Reads s x (!n.testBit index))
    (hmissing : inverse = none → expected = true) :
    W.Emits s (selectorLiteral bit inverse expected) fun x t =>
      W.Reads t x (decide (expected = n.testBit index)) := by
  cases expected with
  | true =>
    have hsame : decide (true = n.testBit index) = n.testBit index := by simp
    rw [hsame]
    exact Emits.pure hbit
  | false =>
    cases inverse with
    | some x =>
      have hnot : decide (false = n.testBit index) = !n.testBit index := by
        cases n.testBit index <;> rfl
      rw [hnot]
      exact Emits.pure (hinverse x rfl)
    | none => exact absurd (hmissing rfl) (by decide)

theorem extendSelect_emits {literal : β} {expected : Bool} (hgroup : Grouped W s taps n bits group)
    (hread : W.Reads s literal (decide (expected = n.testBit index))) :
    W.Emits s (extendSelect group.2 literal) fun x t => ∀ tap ∈ group.1,
      tapBitSet index tap.2 = expected → W.Reads t x (decide (Agree n (bits ++ [index]) tap.2)) := by
  obtain ⟨tap, htap⟩ := List.exists_mem_of_ne_nil _ hgroup.nonempty
  have hsame : ∀ other ∈ group.1, Agree n bits other.2 ↔ Agree n bits tap.2 := by
    intro other hother
    have htogether := hgroup.together other hother tap htap
    simp only [Agree]
    exact forall₂_congr fun i hi => by rw [htogether i hi]
  have hdecodes := hgroup.decodes tap htap
  cases hshared : group.2 with
  | some shared =>
    rw [hshared] at hdecodes
    apply (W.and_emits hdecodes hread).mono
    intro x u _ hx other hother hset
    simpa [agree_append, hsame other hother, hset] using hx
  | none =>
    rw [hshared] at hdecodes
    refine Emits.pure fun other _ hset => ?_
    have hnil : bits = [] := hdecodes
    subst hset hnil
    simpa [agree_append, Agree] using hread

theorem splitHalf_emits {bit : β} {inverse : Option β} {next : List (TapGroup β)} (expected : Bool)
    (hgroup : Grouped W s taps n bits group) (hbit : W.Reads s bit (n.testBit index))
    (hinverse : ∀ x, inverse = some x → W.Reads s x (!n.testBit index))
    (hmissing : inverse = none → ∀ tap ∈ group.1, tapBitSet index tap.2 = true) :
    W.Emits s (splitHalf index bit inverse group next expected) fun r t =>
      Splits W t taps n index bits group next [expected] r := by
  have hkept : ∀ tap ∈ group.1, tapBitSet index tap.2 ∈ [expected] →
      tap ∈ group.1.filter fun tap => tapBitSet index tap.2 = expected := by
    intro tap htap hin
    rw [List.mem_filter, decide_eq_true_eq]
    exact ⟨htap, List.mem_singleton.mp hin⟩
  rw [splitHalf]
  split_ifs with hempty
  · rw [List.isEmpty_iff] at hempty
    refine Emits.pure ⟨[], (List.append_nil _).symm, by simp, fun tap htap hin => ?_⟩
    have hnone := hkept tap htap hin
    rw [hempty] at hnone
    contradiction
  · rw [List.isEmpty_iff] at hempty
    have hliteral := selectorLiteral_emits expected hbit hinverse fun hnone => by
      obtain ⟨tap, htap⟩ := List.exists_mem_of_ne_nil _ hempty
      rw [List.mem_filter, decide_eq_true_eq] at htap
      exact htap.2.symm.trans (hmissing hnone tap htap.1)
    apply Emits.bind hliteral
    intro literal t hgrows hread
    apply Emits.bind (extendSelect_emits (hgroup.mono hgrows) hread)
    intro select u _ hselect
    refine Emits.pure ⟨[_], rfl, ?_, fun tap htap hin =>
      ⟨_, List.mem_singleton_self _, hkept tap htap hin⟩⟩
    intro child hchild
    rw [List.mem_singleton.mp hchild]
    exact hgroup.child expected hempty hselect

theorem splitGroup_emits {bit : β} {inverse : Option β} {next : List (TapGroup β)}
    (hgroup : Grouped W s taps n bits group) (hbit : W.Reads s bit (n.testBit index))
    (hinverse : ∀ x, inverse = some x → W.Reads s x (!n.testBit index))
    (hmissing : inverse = none → ∀ tap ∈ group.1, tapBitSet index tap.2 = true) :
    W.Emits s (splitGroup index bit inverse next group) fun r t =>
      Splits W t taps n index bits group next [false, true] r := by
  rw [splitGroup, List.foldlM_cons]
  apply Emits.bind (splitHalf_emits false hgroup hbit hinverse hmissing)
  intro cleared t hgrows ⟨clear, hcleared, hclear, hclearMem⟩
  subst hcleared
  rw [List.foldlM_cons]
  apply Emits.bind (splitHalf_emits true (hgroup.mono hgrows) (W.mono hgrows hbit)
    (fun x hx => W.mono hgrows (hinverse x hx)) hmissing)
  intro both u hlater ⟨set, hboth, hset, hsetMem⟩
  subst hboth
  refine Emits.pure ⟨clear ++ set, List.append_assoc .., fun child hchild => ?_,
    fun tap htap _ => ?_⟩
  · rcases List.mem_append.mp hchild with hchild | hchild
    · exact (hclear child hchild).mono hlater
    · exact hset child hchild
  · cases hbit : tapBitSet index tap.2 with
    | false =>
      obtain ⟨child, hchild, hin⟩ := hclearMem tap htap (by simp [hbit])
      exact ⟨child, List.mem_append_left _ hchild, hin⟩
    | true =>
      obtain ⟨child, hchild, hin⟩ := hsetMem tap htap (by simp [hbit])
      exact ⟨child, List.mem_append_right _ hchild, hin⟩

variable (W) in
/-- The groups share the taps out. -/
structure Decoded (s : σ) (taps : List Nat) (n : Nat) (bits : List Nat) (groups : List (TapGroup β)) :
    Prop where
  grouped : ∀ group ∈ groups, Grouped W s taps n bits group
  covered : ∀ (position tap : Nat), taps[position]? = some tap →
    ∃ group ∈ groups, (position, tap) ∈ group.1

theorem Decoded.start (hnonempty : taps ≠ []) :
    Decoded W s taps n [] [(taps.zipIdx.map Prod.swap, none)] := by
  have hstored : ∀ tap : Nat × Nat, tap ∈ taps.zipIdx.map Prod.swap ↔ taps[tap.1]? = some tap.2 := by
    intro ⟨position, tap⟩
    rw [← List.mk_mem_zipIdx_iff_getElem?, List.mem_map]
    constructor
    · intro ⟨⟨_, _⟩, hmem, heq⟩
      cases heq
      exact hmem
    · exact fun hmem => ⟨_, hmem, rfl⟩
  constructor
  · intro group hgroup
    rw [List.mem_singleton.mp hgroup]
    constructor
    · simpa using hnonempty
    · have hpositions : (taps.zipIdx.map Prod.snd).Nodup := by
        rw [List.zipIdx_map_snd]
        exact List.nodup_range'
      exact (List.Nodup.of_map _ hpositions).map Prod.swap_injective
    · exact fun tap htap => (hstored tap).mp htap
    · exact fun _ _ _ _ _ hindex => absurd hindex List.not_mem_nil
    · exact fun _ _ => rfl
  · exact fun position tap htap => ⟨_, List.mem_singleton_self _, (hstored (position, tap)).mpr htap⟩

theorem inverseLiteral_emits {groups : List (TapGroup β)} {bit : β}
    (hbit : W.Reads s bit (n.testBit index)) :
    W.Emits s (inverseLiteral groups index bit) fun inverse t =>
      (∀ x, inverse = some x → W.Reads t x (!n.testBit index)) ∧
      (inverse = none → ∀ group ∈ groups, ∀ tap ∈ group.1, tapBitSet index tap.2 = true) := by
  rw [inverseLiteral]
  split_ifs with hany
  · apply Emits.map (W.not_emits hbit)
    intro x t _ hx
    exact ⟨fun y hy => Option.some.inj hy ▸ hx, fun hnone => absurd hnone (by simp)⟩
  · refine Emits.pure ⟨fun x hx => absurd hx (by simp), fun _ group hgroup tap htap => ?_⟩
    simp only [List.any_eq_true, not_exists, not_and, Bool.not_eq_true, Bool.not_eq_false'] at hany
    exact hany group hgroup tap htap

theorem decodeBit_emits {offset : Operand β} {groups : List (TapGroup β)}
    (hoffset : Holds W s offset n) (hindex : index < offset.ty.width)
    (hgroups : Decoded W s taps n bits groups) :
    W.Emits s (decodeBit offset groups index) fun r t => Decoded W t taps n (bits ++ [index]) r := by
  rw [decodeBit]
  apply Emits.bind (bit_emits hoffset hindex)
  intro bit t hgrows hbit
  rw [digit_testBit] at hbit
  apply Emits.bind (inverseLiteral_emits hbit)
  intro inverse u hgrows' ⟨hread, hmissing⟩
  have hfrom := W.trans hgrows hgrows'
  have hloop := Emits.foldlM (W := W.toGrowing) (s := u) (f := splitGroup index bit inverse)
    (l := groups) (b := []) (fun done r v => (∀ child ∈ r, Grouped W v taps n (bits ++ [index]) child) ∧
      ∀ group ∈ done, ∀ tap ∈ group.1, ∃ child ∈ r, tap ∈ child.1) ⟨by simp, by simp⟩ ?_
  · apply hloop.mono
    intro r v _ ⟨hgrouped, hcovered⟩
    refine ⟨hgrouped, fun position tap htap => ?_⟩
    obtain ⟨group, hgroup, hin⟩ := hgroups.covered position tap htap
    exact hcovered group hgroup _ hin
  · intro done group rest hsplit r v hlater ⟨hgrouped, hcovered⟩
    have hmem : group ∈ groups := hsplit ▸ List.mem_append_cons_self
    apply (splitGroup_emits ((hgroups.grouped group hmem).mono (W.trans hfrom hlater))
      (W.mono (W.trans hgrows' hlater) hbit) (fun x hx => W.mono hlater (hread x hx))
      fun hnone => hmissing hnone group hmem).mono
    intro r' w hw ⟨children, hr', hchildren, hsplits⟩
    subst hr'
    refine ⟨fun child hchild => ?_, fun other hother tap htap => ?_⟩
    · rcases List.mem_append.mp hchild with hchild | hchild
      · exact (hgrouped child hchild).mono hw
      · exact hchildren child hchild
    · rcases List.mem_append.mp hother with hother | hother
      · obtain ⟨child, hchild, hin⟩ := hcovered other hother tap htap
        exact ⟨child, List.mem_append_left _ hchild, hin⟩
      · rw [List.mem_singleton] at hother
        subst hother
        obtain ⟨child, hchild, hin⟩ := hsplits tap htap (by cases tapBitSet index tap.2 <;> simp)
        exact ⟨child, List.mem_append_right _ hchild, hin⟩

theorem decodeBits_emits {offset : Operand β} {indices : List Nat} (hoffset : Holds W s offset n)
    (hindices : ∀ index ∈ indices, index < offset.ty.width) (hnonempty : taps ≠ []) :
    W.Emits s (indices.foldlM (decodeBit offset) [(taps.zipIdx.map Prod.swap, none)]) fun r t =>
      Decoded W t taps n indices r := by
  apply Emits.foldlM (fun done r t => Decoded W t taps n done r) (Decoded.start hnonempty)
  intro done index rest hsplit groups t hgrows hgroups
  have hmem : index ∈ indices := hsplit ▸ List.mem_append_cons_self
  exact decodeBit_emits (hoffset.mono hgrows) (hindices index hmem) hgroups

/-- When the bits tell the taps apart, each group is down to one tap. -/
theorem Grouped.single (h : Grouped W s taps n bits group) (htaps : taps.Nodup)
    (hdistinct : ∀ a ∈ taps, ∀ b ∈ taps, (∀ index ∈ bits, tapBitSet index a = tapBitSet index b) →
      a = b) : ∃ position tap, group.1 = [(position, tap)] := by
  have hmem : ∀ tap ∈ group.1, tap.2 ∈ taps :=
    fun tap htap => List.mem_of_getElem? (h.stored tap htap)
  have hsame : ∀ a ∈ group.1, ∀ b ∈ group.1, a = b := by
    intro a ha b hb
    have htap := hdistinct _ (hmem a ha) _ (hmem b hb) (h.together a ha b hb)
    have hposition : a.1 = b.1 := by
      have hstored := h.stored a ha
      obtain ⟨hlt, _⟩ := List.getElem?_eq_some_iff.mp hstored
      apply (List.getElem?_inj hlt htaps).mp
      rw [hstored, h.stored b hb, htap]
    exact Prod.ext hposition htap
  cases hgroup : group.1 with
  | nil => exact absurd hgroup h.nonempty
  | cons tap rest =>
    cases rest with
    | nil => exact ⟨tap.1, tap.2, rfl⟩
    | cons other rest =>
      have hnodup := h.nodup
      rw [hgroup] at hnodup hsame
      have heq := hsame tap List.mem_cons_self other (List.mem_cons_of_mem _ List.mem_cons_self)
      rw [heq] at hnodup
      simp at hnodup

theorem storeSelects_emits {groups : List (TapGroup β)} (hdecoded : Decoded W s taps n bits groups)
    (hbits : bits ≠ []) (hsingle : ∀ group ∈ groups, ∃ position tap, group.1 = [(position, tap)]) :
    W.Emits s (groups.foldlM storeSelect (List.replicate taps.length none)) fun selects t =>
      selects.length = taps.length ∧ ∀ (position tap : Nat), taps[position]? = some tap →
        ∃ select, selects[position]? = some (some select) ∧
          W.Reads t select (decide (Agree n bits tap)) := by
  have hloop := Emits.foldlM (W := W.toGrowing) (s := s) (f := storeSelect) (l := groups)
    (b := List.replicate taps.length none) (fun done selects t => selects.length = taps.length ∧
      (∀ (position tap : Nat) select, taps[position]? = some tap →
        selects[position]? = some (some select) → W.Reads t select (decide (Agree n bits tap))) ∧
      ∀ group ∈ done, ∀ tap ∈ group.1, ∃ select, selects[tap.1]? = some (some select))
    ⟨List.length_replicate .., fun position tap select _ hselect => by
      simp [List.getElem?_replicate] at hselect, by simp⟩ ?_
  · apply hloop.mono
    intro selects t _ ⟨hlength, hreads, hstored⟩
    refine ⟨hlength, fun position tap htap => ?_⟩
    obtain ⟨group, hgroup, hin⟩ := hdecoded.covered position tap htap
    obtain ⟨select, hselect⟩ := hstored group hgroup _ hin
    exact ⟨select, hselect, hreads position tap select htap hselect⟩
  · intro done group rest hsplit selects t hgrows ⟨hlength, hreads, hstored⟩
    have hmem : group ∈ groups := hsplit ▸ List.mem_append_cons_self
    have hgroup := (hdecoded.grouped group hmem).mono hgrows
    obtain ⟨position, tap, hgroupTaps⟩ := hsingle group hmem
    obtain ⟨groupTaps, select⟩ := group
    simp only at hgroupTaps
    subst hgroupTaps
    have htap := hgroup.stored (position, tap) (List.mem_singleton_self _)
    have hposition : position < taps.length := (List.getElem?_eq_some_iff.mp htap).1
    have hdecodes := hgroup.decodes (position, tap) (List.mem_singleton_self _)
    cases select with
    | none => exact absurd hdecodes hbits
    | some select =>
      simp only [storeSelect, hlength, hposition, if_true]
      refine Emits.pure ⟨by rw [List.length_set, hlength], fun i other x hother hx => ?_,
        fun other hother p hp => ?_⟩
      · rw [List.getElem?_set] at hx
        split_ifs at hx with hi
        · subst hi
          rw [htap, Option.some.injEq] at hother
          rw [Option.some.injEq, Option.some.injEq] at hx
          subst hother hx
          exact hdecodes
        · exact hreads i other x hother hx
      · rw [List.getElem?_set, hlength]
        split_ifs with hp₁
        · exact ⟨select, rfl⟩
        · rcases List.mem_append.mp hother with hother | hother
          · exact hstored other hother p hp
          · rw [List.mem_singleton.mp hother, List.mem_singleton] at hp
            exact absurd (congrArg Prod.fst hp.symm) hp₁

end Decoder

/-! The selects and the gated words. -/

/-- The taps that one lowering enumerates for an offset. -/
structure Enumerated (constants : Nat → Option Bool) (width alignment : Nat) (taps : List Nat) :
    Prop where
  nodup : taps.Nodup
  small : ∀ tap ∈ taps, tap < 2 ^ 128
  admissible : ∀ tap ∈ taps, Admissible constants width alignment tap

/-- The bits of the offset that tell taps apart, the highest first. -/
def freeBits (constants : Nat → Option Bool) (width alignment : Nat) : List Nat :=
  ((List.range width).drop alignment).reverse.filter fun index => (constants index).isNone

theorem mem_freeBits {constants : Nat → Option Bool} {width alignment index : Nat} :
    index ∈ freeBits constants width alignment ↔
      (alignment ≤ index ∧ index < width) ∧ constants index = none := by
  rw [freeBits, List.mem_filter, List.mem_reverse, Option.isNone_iff_eq_none, List.range_eq_range',
    List.drop_range', List.mem_range'_1]
  apply and_congr_left
  intro _
  omega

section Gated

variable {constants : Nat → Option Bool} {width alignment n : Nat} {taps : List Nat}

theorem Enumerated.eq (h : Enumerated constants width alignment taps) {u v : Nat} (hu : u ∈ taps)
    (hv : Admissible constants width alignment v)
    (hagree : ∀ index ∈ freeBits constants width alignment, tapBitSet index u = v.testBit index) :
    u = v := by
  apply (h.admissible u hu).eq hv
  intro index hwidth hlow hfree
  rw [← tapBitSet_eq (h.small u hu)]
  exact hagree index (mem_freeBits.mpr ⟨⟨hlow, hwidth⟩, hfree⟩)

theorem Enumerated.distinct (h : Enumerated constants width alignment taps) :
    ∀ a ∈ taps, ∀ b ∈ taps, (∀ index ∈ freeBits constants width alignment,
      tapBitSet index a = tapBitSet index b) → a = b := by
  intro a ha b hb hagree
  apply h.eq ha (h.admissible b hb)
  intro index hindex
  rw [hagree index hindex, tapBitSet_eq (h.small b hb)]

theorem Enumerated.agree_iff (h : Enumerated constants width alignment taps)
    (hn : Admissible constants width alignment n) {tap : Nat} (htap : tap ∈ taps) :
    Agree n (freeBits constants width alignment) tap ↔ tap = n := by
  constructor
  · exact h.eq htap hn
  · intro heq index _
    rw [heq, tapBitSet_eq (heq ▸ h.small tap htap)]

theorem Enumerated.freeBits_ne_nil (h : Enumerated constants width alignment taps)
    (hmany : 2 ≤ taps.length) : freeBits constants width alignment ≠ [] := by
  intro hnil
  match taps with
  | [] => simp at hmany
  | [_] => simp at hmany
  | a :: b :: rest =>
    have heq := h.distinct a List.mem_cons_self b (List.mem_cons_of_mem _ List.mem_cons_self)
      (by simp [hnil])
    have hnodup := h.nodup
    rw [heq] at hnodup
    simp at hnodup

theorem sharedOneHotSelects_emits {offset : Operand β} (hoffset : Holds W s offset n)
    (haligned : 2 ^ alignment ∣ n)
    (htaps : Enumerated (offsetBitConstant s offset) offset.ty.width alignment taps)
    (hmany : 2 ≤ taps.length) :
    W.Emits s (sharedOneHotSelects offset taps alignment) fun selects t =>
      selects.length = taps.length ∧ ∀ (i : Nat) select, selects[i]? = some select →
        ∀ tap, taps[i]? = some tap → W.Reads t select (decide (tap = n)) := by
  have hnonempty : taps ≠ [] := fun hnil => by simp [hnil] at hmany
  have hfree := htaps.freeBits_ne_nil hmany
  rw [sharedOneHotSelects]
  apply Emits.get
  intro _
  rw [offset.sized]
  change W.Emits s (if (freeBits (offsetBitConstant s offset) offset.ty.width alignment).isEmpty then _
    else _) _
  rw [if_neg (by rwa [List.isEmpty_iff])]
  apply Emits.bind (decodeBits_emits hoffset (fun index hindex => (mem_freeBits.mp hindex).1.2) hnonempty)
  intro groups t hgrows hdecoded
  apply Emits.bind (storeSelects_emits hdecoded hfree fun group hgroup =>
    (hdecoded.grouped group hgroup).single htaps.nodup htaps.distinct)
  intro selects u hlater ⟨hlength, hselects⟩
  rw [← hlength]
  apply Emits.mapM (P := fun i select t => ∀ tap, taps[i]? = some tap →
    W.Reads t select (decide (tap = n)))
  · exact fun i select t u hgrows hread tap htap => W.mono hgrows (hread tap htap)
  · intro i select hselect v hv
    have hi : i < taps.length := hlength ▸ (List.getElem?_eq_some_iff.mp hselect).1
    obtain ⟨x, hx, hread⟩ := hselects i taps[i] (List.getElem?_eq_getElem hi)
    rw [hselect, Option.some.injEq] at hx
    subst hx
    refine Emits.pure fun tap htap => ?_
    rw [List.getElem?_eq_getElem hi, Option.some.injEq] at htap
    subst htap
    rw [decide_eq_decide.mpr (htaps.agree_iff (.offset hoffset haligned) (List.getElem_mem hi))] at hread
    exact W.mono hv hread

/-- A disjunction by what each bit stands for. -/
theorem readsOr_of_reads {γ : Type} {f : γ → Bool} {xs : List β} {ls : List γ}
    (hlength : xs.length = ls.length)
    (h : ∀ (i : Nat) x l, xs[i]? = some x → ls[i]? = some l → W.Reads s x (f l)) :
    ReadsOr W s xs (ls.any f) := by
  induction xs generalizing ls with
  | nil =>
    rw [List.length_nil] at hlength
    rw [List.eq_nil_of_length_eq_zero hlength.symm]
    exact rfl
  | cons x xs ih =>
    cases ls with
    | nil => simp at hlength
    | cons l ls =>
      have hrest := ih (Nat.succ.inj hlength) fun i y k hy hk => h (i + 1) y k hy hk
      exact ⟨f l, ls.any f, h 0 x l rfl rfl, hrest, List.any_cons⟩

theorem any_tap (taps : List Nat) (n : Nat) (f : Nat → Bool) :
    (taps.any fun tap => decide (tap = n) && f tap) = (decide (n ∈ taps) && f n) := by
  rw [Bool.eq_iff_iff]
  simp only [List.any_eq_true, Bool.and_eq_true, decide_eq_true_eq]
  constructor
  · rintro ⟨tap, hmem, rfl, hbit⟩
    exact ⟨hmem, hbit⟩
  · exact fun ⟨hmem, hbit⟩ => ⟨n, hmem, rfl, hbit⟩

theorem tapBit_eq {tap resultBit : Nat} (h : tap + resultBit ≤ Mapped.U32_MAX) :
    tapBit tap resultBit = (pure (tap + resultBit) : BlastM σ ε Nat) := if_pos h

/-- One tap needs no decoder. -/
theorem oneHotSingle_returns {value offset : Operand β} {x tap resultWidth : Nat}
    (hvalue : Holds W s value x) (hsource : value.ty.width ≤ Mapped.U32_MAX)
    (hfit : tap + resultWidth ≤ value.ty.width) :
    Returns W s (oneHotDynamicExtractBits value offset [tap] alignment resultWidth) resultWidth
      ((x : Int) / 2 ^ tap) := by
  rw [oneHotDynamicExtractBits]
  apply mapM_range_carries
  intro index hindex t hgrows
  rw [tapBit_eq (by omega), pure_bind, digit_shift]
  exact bit_emits (hvalue.mono hgrows) (by omega)

theorem oneHotMany_returns {value offset : Operand β} {x resultWidth : Nat}
    (hvalue : Holds W s value x) (hoffset : Holds W s offset n) (haligned : 2 ^ alignment ∣ n)
    (hsource : value.ty.width ≤ Mapped.U32_MAX)
    (hfit : ∀ tap ∈ taps, tap + resultWidth ≤ value.ty.width)
    (htaps : Enumerated (offsetBitConstant s offset) offset.ty.width alignment taps)
    (hmany : 2 ≤ taps.length) :
    Returns W s (oneHotDynamicExtractBits value offset taps alignment resultWidth) resultWidth
      (if n ∈ taps then (x : Int) / 2 ^ n else 0) := by
  unfold oneHotDynamicExtractBits
  split
  · simp at hmany
  apply Emits.bind (sharedOneHotSelects_emits hoffset haligned htaps hmany)
  rintro selects t hgrows ⟨hlength, hselects⟩
  apply mapM_range_carries
  intro index hindex u hlater
  apply Emits.bind (Q := fun ys v => ys.length = (selects.zip taps).length ∧
    ∀ (i : Nat) y, ys[i]? = some y → ∀ tap, taps[i]? = some tap →
      W.Reads v y (decide (tap = n) && digit x (tap + index)))
  · apply Emits.mapM (P := fun i y t => ∀ tap, taps[i]? = some tap →
      W.Reads t y (decide (tap = n) && digit x (tap + index)))
    · exact fun i y t u hgrows hread tap htap => W.mono hgrows (hread tap htap)
    · rintro i ⟨select, tap⟩ hi v hv
      obtain ⟨hselect, htap⟩ := List.getElem?_zip_eq_some.mp hi
      have hin := hfit tap (List.mem_of_getElem? htap)
      have hfrom := W.trans hlater hv
      simp only
      rw [tapBit_eq (by omega), pure_bind]
      apply Emits.bind (bit_emits (hvalue.mono (W.trans hgrows hfrom)) (show tap + index < _ by omega))
      intro data w hw hdata
      have hread := W.mono (W.trans hfrom hw) (hselects i select hselect tap htap)
      apply (W.and_emits hread hdata).mono
      intro y _ _ hy other hother
      rw [htap, Option.some.injEq] at hother
      exact hother ▸ hy
  rintro ys v _ ⟨hsize, hys⟩
  rw [List.length_zip, hlength, Nat.min_self] at hsize
  have hor := readsOr_of_reads (f := fun tap => decide (tap = n) && digit x (tap + index)) hsize
    fun i y tap hy htap => hys i y hy tap htap
  have hvalid : ¬ys.isEmpty := by
    rw [List.isEmpty_iff_length_eq_zero]
    omega
  rw [any_tap taps n fun tap => digit x (tap + index)] at hor
  rw [reduceBalanced, reduceValues, if_neg hvalid]
  apply (reduceLoop_emits _ hor (by omega) (Nat.le_refl _)).mono
  intro y w _ hy
  by_cases hmem : n ∈ taps
  · simpa [hmem, digit_shift] using hy
  · simpa [hmem, digit_small] using hy

end Gated

end Opto.Bitblast
