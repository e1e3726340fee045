import Opto.Bitblast.DivisionLoops
import Opto.Bitblast.DynamicExtract

/-!
# The barrel is exact

Each stage of the barrel moves the candidates by the offset's bit, and the first candidate
that is left has moved by all of them. Offsets past the word are found by a comparison.
-/

namespace Opto.Bitblast

open Word Growing Planning

variable {σ ε β : Type} [BitBackend σ ε β] {W : Meaning σ ε β} {s : σ}

/-! Comparison. -/

theorem less_succ (a b : Int) (n : Nat) : decide (a % 2 ^ (n + 1) < b % 2 ^ (n + 1)) =
    if digit a n ^^ digit b n then !digit a n else decide (a % 2 ^ n < b % 2 ^ n) := by
  have hpow : (0 : Int) < 2 ^ n := by positivity
  have ha := Int.emod_nonneg a hpow.ne'
  have hb := Int.emod_nonneg b hpow.ne'
  have ha' := Int.emod_lt_of_pos a hpow
  have hb' := Int.emod_lt_of_pos b hpow
  rw [emod_succ, emod_succ]
  cases digit a n <;> cases digit b n <;> simp <;> omega

theorem unsignedLess_emits {left right : List β} {a b : Int} (ha : W.Carries s left a)
    (hb : W.Carries s right b) (hlength : left.length = right.length) (hpos : 0 < left.length) :
    W.Emits s (unsignedLess left right) fun x t =>
      W.Reads t x (decide (a % 2 ^ left.length < b % 2 ^ left.length)) := by
  have hread : ∀ i l r, (left.zip right)[i]? = some (l, r) →
      W.Reads s l (digit a i) ∧ W.Reads s r (digit b i) := by
    intro i l r hi
    obtain ⟨hl, hr⟩ := List.getElem?_zip_eq_some.mp hi
    exact ⟨ha.read hl, hb.read hr⟩
  have hsize : (left.zip right).length = left.length := by
    rw [List.length_zip, ← hlength, Nat.min_self]
  rw [← hsize] at hpos ⊢
  rw [unsignedLess]
  match hzip : left.zip right with
  | [] => simp [hzip] at hpos
  | (l, r) :: bits =>
    obtain ⟨hl, hr⟩ := hread 0 l r (by rw [hzip]; rfl)
    apply Emits.bind (W.not_emits hl)
    intro notLeft t hnot hreadNot
    apply Emits.bind (W.and_emits hreadNot (W.mono hnot hr))
    intro less u hand hless
    have hstart : W.Reads u less (decide (a % 2 ^ [(l, r)].length < b % 2 ^ [(l, r)].length)) := by
      rw [List.length_singleton, less_succ]
      cases hda : digit a 0 <;> cases hdb : digit b 0 <;>
        simpa [hda, hdb, Int.emod_one] using hless
    have hgrows := W.trans hnot hand
    apply Emits.foldlM_append (fun done less t =>
      W.Reads t less (decide (a % 2 ^ done.length < b % 2 ^ done.length))) hstart
    intro before (l, r) rest hsplit less v hlater hless
    obtain ⟨hl, hr⟩ := hread before.length l r (by
      rw [hzip, ← List.singleton_append, ← hsplit]
      simp)
    have hfrom := W.trans hgrows hlater
    apply Emits.bind (W.xor_emits (W.mono hfrom hl) (W.mono hfrom hr))
    intro differs w hw hdiffers
    apply Emits.bind (W.not_emits (W.mono (W.trans hfrom hw) hl))
    intro notLeft w' hw' hnotLeft
    apply (W.mux_emits (W.mono hw' hdiffers) hnotLeft (W.mono (W.trans hw hw') hless)).mono
    intro x t _ hx
    rw [List.length_append, List.length_singleton, less_succ]
    exact hx

theorem zeroOutOfRangeExtract_emits {result : List β} {offset : Operand β} {n : Nat} {z : Int}
    (maximum : Nat) (required : Bool) (hresult : W.Carries s result z) (hoffset : Holds W s offset n)
    (hmaximum : maximum < 2 ^ 32) (hfits : required = true → maximum < 2 ^ offset.ty.width) :
    Returns W s (zeroOutOfRangeExtract result offset maximum required) result.length
      (if required = true ∧ maximum < n then 0 else z) := by
  rw [zeroOutOfRangeExtract]
  cases required with
  | false =>
    simp only [Bool.not_false, if_true, Bool.false_eq_true, false_and, if_false]
    exact Emits.pure ⟨rfl, hresult⟩
  | true =>
    simp only [Bool.not_true, Bool.false_eq_true, if_false, true_and]
    have hpos : 0 < offset.bits.length := by
      rw [offset.sized]
      exact offset.ty.positive
    have hbits : Returns W s ((List.range offset.bits.length).mapM fun index =>
        constant (index < 32 && maximum.testBit index)) offset.bits.length (maximum : Nat) := by
      apply mapM_range_carries
      intro index _ t _
      apply (W.constant_emits t _).mono
      intro x u _ hx
      have hbit : (decide (index < 32) && maximum.testBit index) = digit (maximum : Nat) index := by
        rw [digit_testBit]
        by_cases hindex : index < 32
        · simp [hindex]
        · have hhigh : maximum.testBit index = false := Nat.testBit_lt_two_pow
            (Nat.lt_of_lt_of_le hmaximum (Nat.pow_le_pow_right (by decide) (by omega)))
          simp [hhigh]
      rwa [← hbit]
    apply Emits.bind hbits
    intro maximumBits t hgrows ⟨hlength, hcarries⟩
    have hless := unsignedLess_emits hcarries (hoffset.2.mono hgrows) hlength (hlength ▸ hpos)
    apply Emits.bind hless
    intro outOfRange u hgrows' hout
    apply Emits.bind (W.not_emits hout)
    intro inRange v hgrows'' hin
    have hcompare : decide ((maximum : Int) % 2 ^ maximumBits.length < n % 2 ^ maximumBits.length) =
        decide (maximum < n) := by
      rw [hlength, offset.sized]
      have hn := hoffset.1
      have hmax := hfits rfl
      norm_cast
      rw [Nat.mod_eq_of_lt hn, Nat.mod_eq_of_lt hmax]
    rw [hcompare] at hin
    have hfrom := W.trans hgrows (W.trans hgrows' hgrows'')
    apply mapM_carries
    intro i x hx w hw
    have hread := W.mono (W.trans hfrom hw) (hresult.read hx)
    apply Emits.bind (W.constant_emits w false)
    intro zero w' hgrows₁ hzero
    apply (W.mux_emits (W.mono (W.trans hw hgrows₁) hin) (W.mono hgrows₁ hread) hzero).mono
    intro y t' _ hy
    by_cases hlt : maximum < n
    · simpa [hlt, digit_small] using hy
    · simpa [hlt] using hy

/-- The check is left out when no offset can leave the word. -/
theorem rangeGuard_returns {result : List β} {offset : Operand β} {n maximum : Nat} {z : Int}
    (available : Nat) (hresult : W.Carries s result z) (hoffset : Holds W s offset n) (havailable : available < 2 ^ 32)
    (hmaximum : maximum < 2 ^ offset.ty.width) (hn : n ≤ maximum) :
    Returns W s (zeroOutOfRangeExtract result offset available (decide (available < maximum)))
      result.length (if available < n then 0 else z) := by
  have hzero := zeroOutOfRangeExtract_emits available (decide (available < maximum)) hresult hoffset
    havailable fun hneeded => by
      have := of_decide_eq_true hneeded
      omega
  have hcondition : (decide (available < maximum) = true ∧ available < n) ↔ available < n := by
    rw [decide_eq_true_eq]
    omega
  simp only [hcondition] at hzero
  exact hzero

/-! Stages. -/

theorem offsetBitConstant_reads {offset : Operand β} {n index : Nat} {b : Bool}
    (h : Holds W s offset n) (hb : offsetBitConstant s offset index = some b) :
    n.testBit index = b := by
  obtain ⟨x, hx, hknown⟩ := Option.bind_eq_some_iff.mp hb
  rw [← digit_testBit]
  exact W.constant_reads (h.2.read hx) hknown

/-- The stages of some bits of the offset. -/
def stagesOf (constants : Nat → Option Bool) (selectionMax : Nat) (bits : List Nat) :
    List BarrelStage :=
  (bits.filter (2 ^ · ≤ selectionMax)).map fun stage => ⟨stage, 2 ^ stage, constants stage⟩

theorem barrelStages_emits {offset : Operand β} (selectionMax : Nat)
    (hwidth : offset.ty.width ≤ 64) :
    W.Emits s (barrelStages offset selectionMax) fun stages t => t = s ∧
      stages = stagesOf (offsetBitConstant s offset) selectionMax (List.range offset.ty.width) := by
  rw [barrelStages]
  apply Emits.get
  intro hgood
  rw [offset.sized]
  apply Emits.foldlM (fun done stages t => t = s ∧
    stages = stagesOf (offsetBitConstant s offset) selectionMax done) ⟨rfl, rfl⟩
  intro done stage rest hsplit stages t _ ⟨ht, hstages⟩
  have hstage : stage < 64 := by
    have hmem : stage ∈ List.range offset.ty.width := hsplit ▸ List.mem_append_cons_self
    have := List.mem_range.mp hmem
    omega
  rw [if_neg (by omega)]
  split_ifs with hlarge
  · exact Emits.pure ⟨ht, by simp [stagesOf, hstages, hlarge]⟩
  · have hsmall := not_lt.mp hlarge
    exact Emits.pure ⟨ht, by simp [stagesOf, hstages, hsmall]⟩

/-- How far the stages move the candidates for an offset. -/
def selected (n : Nat) : List BarrelStage → Nat
  | [] => 0
  | stage :: rest => (if n.testBit stage.stage then stage.shift else 0) + selected n rest

theorem selected_append (n : Nat) (front back : List BarrelStage) :
    selected n (front ++ back) = selected n front + selected n back := by
  induction front with
  | nil => simp [selected]
  | cons stage front ih => simp only [List.cons_append, selected, ih, Nat.add_assoc]

section Selected

variable (n selectionMax : Nat) (constants : Nat → Option Bool)

theorem selected_range_succ (width : Nat) :
    selected n (stagesOf constants selectionMax (List.range (width + 1))) =
      selected n (stagesOf constants selectionMax (List.range width)) +
        if 2 ^ width ≤ selectionMax ∧ n.testBit width then 2 ^ width else 0 := by
  rw [List.range_succ, stagesOf, List.filter_append, List.map_append, selected_append]
  by_cases hstage : 2 ^ width ≤ selectionMax <;> simp [stagesOf, selected, hstage]

theorem mod_pow_succ (width : Nat) :
    n % 2 ^ (width + 1) = n % 2 ^ width + if n.testBit width then 2 ^ width else 0 := by
  rw [Nat.mod_pow_succ, Nat.testBit_eq_decide_div_mod_eq]
  by_cases hbit : n / 2 ^ width % 2 = 1
  · simp [hbit]
  · simp [Nat.mod_two_ne_one.mp hbit]

theorem selected_le (width : Nat) :
    selected n (stagesOf constants selectionMax (List.range width)) ≤ n % 2 ^ width := by
  induction width with
  | zero => simp [stagesOf, selected]
  | succ width ih =>
    rw [selected_range_succ, mod_pow_succ]
    by_cases hbit : n.testBit width
    · by_cases hstage : 2 ^ width ≤ selectionMax <;> simp [hbit, hstage] <;> omega
    · simpa [hbit] using ih

variable {n selectionMax}

/-- The stages miss no bit of an offset that may be selected. -/
theorem selected_eq (hn : n ≤ selectionMax) (width : Nat) :
    selected n (stagesOf constants selectionMax (List.range width)) = n % 2 ^ width := by
  induction width with
  | zero => simp [stagesOf, selected, Nat.mod_one]
  | succ width ih =>
    rw [selected_range_succ, mod_pow_succ, ih]
    by_cases hbit : n.testBit width
    · have hle := Nat.le_trans (Nat.ge_two_pow_of_testBit hbit) hn
      simp [hle, hbit]
    · simp [hbit]

end Selected

/-- The candidates that stay are enough for the stages that follow. -/
theorem selected_lt {n : Nat} {stages : List BarrelStage}
    (hconstant : ∀ stage ∈ stages, ∀ b, stage.constant = some b → n.testBit stage.stage = b)
    (hbound : selected n stages < 2 ^ 64 - 1) : selected n stages < (neededPrefix stages).2 := by
  induction stages with
  | nil => simp [selected, neededPrefix]
  | cons stage rest ih =>
    rw [selected] at hbound ⊢
    have hrest := ih (fun st hst => hconstant st (List.mem_cons_of_mem _ hst)) (by omega)
    simp only [neededPrefix]
    split_ifs with hbit hfalse hfalse
    · have hclear := hconstant stage List.mem_cons_self false hfalse
      rw [hclear] at hbit
      contradiction
    · rw [if_pos hbit] at hbound
      omega
    · omega
    · omega

/-! Candidates. -/

variable (W) in
/-- The candidates read as the values of a function of their positions. -/
def Shows (s : σ) (candidates : List β) (v : Nat → Bool) : Prop :=
  ∀ (i : Nat) (c : β), candidates[i]? = some c → W.Reads s c (v i)

theorem Shows.mono {t : σ} {candidates : List β} {v : Nat → Bool} (h : Shows W s candidates v)
    (hgrows : W.Grows s t) : Shows W t candidates v := fun i c hc => W.mono hgrows (h i c hc)

/-- Positions below the limit take what lies a shift further. -/
def moved (control : Bool) (shift limit : Nat) (v : Nat → Bool) (i : Nat) : Bool :=
  if control = true ∧ i < limit then v (i + shift) else v i

/-- The loop writes in place, but it reads nothing that it has written. -/
theorem shiftLoop_emits {f : List β → Nat → BlastM σ ε (List β)} {control : Bool}
    {shift limit : Nat} {v : Nat → Bool} {candidates : List β} (hshow : Shows W s candidates v)
    (hlimit : limit ≤ candidates.length - shift) (hshift : 0 < shift)
    (hf : ∀ t, W.Grows s t → ∀ cs index far near a b, cs[index + shift]? = some far →
      cs[index]? = some near → W.Reads t far a → W.Reads t near b →
        W.Emits t (f cs index) fun cs' u =>
          ∃ y, cs' = cs.set index y ∧ W.Reads u y (if control then a else b)) :
    W.Emits s ((List.range limit).foldlM f candidates) fun cs t =>
      cs.length = candidates.length ∧ Shows W t cs (moved control shift limit v) := by
  have hloop := Emits.foldlM (W := W.toGrowing) (s := s) (f := f) (l := List.range limit)
    (b := candidates) (fun done cs t => cs.length = candidates.length ∧
      Shows W t cs (moved control shift done.length v))
    ⟨rfl, fun i c hc => by simpa [moved] using hshow i c hc⟩
  rw [List.length_range] at hloop
  apply hloop
  intro done index rest hsplit cs t hgrows ⟨hlength, hcs⟩
  have hsize := congrArg List.length hsplit
  rw [List.length_append, List.length_cons, List.length_range] at hsize
  have hindex : index = done.length := by
    have hat := congrArg (·[done.length]?) hsplit
    simpa [List.getElem?_range (show done.length < limit by omega)] using hat
  subst hindex
  have hnear := List.getElem?_eq_getElem (show done.length < cs.length by omega)
  have hfar := List.getElem?_eq_getElem (show done.length + shift < cs.length by omega)
  have hreadNear := hcs _ _ hnear
  have hreadFar := hcs _ _ hfar
  rw [moved, if_neg (by omega)] at hreadNear hreadFar
  apply (hf t hgrows cs _ _ _ _ _ hfar hnear hreadFar hreadNear).mono
  intro cs' u hlater ⟨y, hcs', hy⟩
  refine ⟨by rw [hcs', List.length_set, hlength], fun i c hc => ?_⟩
  rw [hcs', List.getElem?_set] at hc
  rw [List.length_append, List.length_singleton]
  split_ifs at hc with hi hin
  · rw [Option.some.injEq] at hc
    subst hc hi
    cases control <;> simpa [moved] using hy
  · have hkept := W.mono hlater (hcs i c hc)
    have hsame : moved control shift (done.length + 1) v i = moved control shift done.length v i := by
      unfold moved
      have hiff : i < done.length + 1 ↔ i < done.length := by omega
      simp only [hiff]
    rwa [hsame]

omit [BitBackend σ ε β] in
theorem candidate_some {candidates : List β} {index : Nat} {c : β}
    (h : candidates[index]? = some c) : candidate candidates index = (pure c : BlastM σ ε β) := by
  rw [candidate, h]

theorem applyStage_emits {offset : Operand β} {n : Nat} {candidates : List β} {stage : BarrelStage}
    {v : Nat → Bool} (needed : Nat) (hoffset : Holds W s offset n) (hshow : Shows W s candidates v)
    (hshift : 0 < stage.shift) (hstage : stage.stage < offset.ty.width)
    (hconstant : ∀ b, stage.constant = some b → n.testBit stage.stage = b) :
    W.Emits s (applyStage offset candidates stage needed) fun cs t =>
      cs.length = candidates.length ∧ Shows W t cs (moved (n.testBit stage.stage) stage.shift
        (min needed (candidates.length - stage.shift)) v) := by
  have hlimit : min needed (candidates.length - stage.shift) ≤ candidates.length - stage.shift :=
    Nat.min_le_right _ _
  rw [applyStage]
  split
  next hfalse =>
    have hclear := hconstant false hfalse
    exact Emits.pure ⟨rfl, fun i c hc => by simpa [moved, hclear] using hshow i c hc⟩
  next htrue =>
    have hset := hconstant true htrue
    apply shiftLoop_emits hshow hlimit hshift
    intro t _ cs index far near a b hfar _ hreadFar _
    rw [candidate_some hfar, pure_bind, hset]
    exact Emits.pure ⟨far, rfl, hreadFar⟩
  next =>
    apply Emits.bind (bit_emits hoffset hstage)
    intro control t hgrows hcontrol
    apply (shiftLoop_emits (hshow.mono hgrows) hlimit hshift ?_).mono fun _ _ _ h => h
    intro u hlater cs index far near a b hfar hnear hreadFar hreadNear
    rw [candidate_some hfar, pure_bind, candidate_some hnear, pure_bind]
    apply Emits.bind (W.mux_emits (W.mono hlater hcontrol) hreadFar hreadNear)
    intro y w _ hy
    rw [digit_testBit] at hy
    exact Emits.pure ⟨y, rfl, hy⟩

/-- After all stages the first candidate is the one that lay as far as they move. -/
theorem stages_emits {offset : Operand β} {n : Nat} {stages : List BarrelStage}
    {candidates : List β} {v : Nat → Bool} (hoffset : Holds W s offset n)
    (hshow : Shows W s candidates v)
    (hshift : ∀ stage ∈ stages, 0 < stage.shift ∧ stage.stage < offset.ty.width)
    (hconstant : ∀ stage ∈ stages, ∀ b, stage.constant = some b → n.testBit stage.stage = b)
    (hlength : candidates.length < 2 ^ 64) :
    W.Emits s ((stages.zip (neededPrefix stages).1).foldlM (fun candidates (stage, needed) =>
      applyStage offset candidates stage needed) candidates) fun cs t =>
        cs.length = candidates.length ∧ ∃ v', Shows W t cs v' ∧
          (selected n stages < candidates.length → v' 0 = v (selected n stages)) := by
  induction stages generalizing s candidates v with
  | nil => exact Emits.pure ⟨rfl, v, hshow, fun _ => rfl⟩
  | cons stage rest ih =>
    obtain ⟨hpositive, hwidth⟩ := hshift stage List.mem_cons_self
    have hrest : ∀ st ∈ rest, ∀ b, st.constant = some b → n.testBit st.stage = b :=
      fun st hst => hconstant st (List.mem_cons_of_mem _ hst)
    simp only [neededPrefix, List.zip_cons_cons, List.foldlM_cons]
    apply Emits.bind (applyStage_emits _ hoffset hshow hpositive hwidth
      (hconstant stage List.mem_cons_self))
    intro cs t hgrows ⟨hsize, hcs⟩
    apply (ih (hoffset.mono hgrows) hcs (fun st hst => hshift st (List.mem_cons_of_mem _ hst)) hrest
      (by omega)).mono
    intro cs' u _ ⟨hsize', v', hshow', hfirst⟩
    refine ⟨by omega, v', hshow', fun hselected => ?_⟩
    rw [selected] at hselected ⊢
    rw [hfirst (by omega), moved]
    have hneeded := selected_lt hrest (by omega)
    by_cases hbit : n.testBit stage.stage
    · rw [if_pos hbit] at hselected ⊢
      rw [if_pos ⟨hbit, by omega⟩, Nat.add_comm]
    · rw [if_neg hbit, if_neg (by simp [hbit]), Nat.zero_add]

theorem neededPrefix_pos (stages : List BarrelStage) : 0 < (neededPrefix stages).2 := by
  induction stages with
  | nil => simp [neededPrefix]
  | cons stage rest ih =>
    simp only [neededPrefix]
    split_ifs <;> omega

theorem stagesOf_mem {constants : Nat → Option Bool} {selectionMax width : Nat}
    {stage : BarrelStage} (h : stage ∈ stagesOf constants selectionMax (List.range width)) :
    stage.shift = 2 ^ stage.stage ∧ stage.stage < width ∧ stage.constant = constants stage.stage := by
  obtain ⟨index, hindex, rfl⟩ := List.mem_map.mp h
  exact ⟨rfl, List.mem_range.mp (List.mem_filter.mp hindex).1, rfl⟩

/-! The whole barrel. -/

theorem barrelBit_emits {value offset : Operand β} {x n : Nat} (selectionMax resultBit : Nat)
    {constants : Nat → Option Bool} (hvalue : Holds W s value x) (hoffset : Holds W s offset n)
    (hconstant : ∀ index b, constants index = some b → n.testBit index = b)
    (hwidth : value.ty.width < 2 ^ 64 - 1) (hresult : resultBit < value.ty.width) :
    W.Emits s (barrelBit value offset
        (stagesOf constants selectionMax (List.range offset.ty.width)) resultBit) fun b t =>
      ∃ a, W.Reads t b a ∧
        (resultBit + selected n (stagesOf constants selectionMax (List.range offset.ty.width)) <
          value.ty.width → a = digit x (resultBit +
            selected n (stagesOf constants selectionMax (List.range offset.ty.width)))) := by
  have hstage : ∀ stage ∈ stagesOf constants selectionMax (List.range offset.ty.width),
      0 < stage.shift ∧ stage.stage < offset.ty.width := by
    intro stage hstage
    obtain ⟨hshift, hindex, _⟩ := stagesOf_mem hstage
    exact ⟨hshift ▸ Nat.two_pow_pos _, hindex⟩
  have hagrees : ∀ stage ∈ stagesOf constants selectionMax (List.range offset.ty.width),
      ∀ b, stage.constant = some b → n.testBit stage.stage = b := by
    intro stage hstage b hb
    obtain ⟨_, _, hknown⟩ := stagesOf_mem hstage
    exact hconstant _ _ (hknown ▸ hb)
  generalize stagesOf constants selectionMax (List.range offset.ty.width) = stages at *
  have hexposed := neededPrefix_pos stages
  have hshow : Shows W s ((value.bits.drop resultBit).take (neededPrefix stages).2)
      fun i => digit x (resultBit + i) := by
    intro i c hc
    rw [List.getElem?_take] at hc
    split_ifs at hc
    rw [List.getElem?_drop] at hc
    exact hvalue.2.read hc
  have hlength : ((value.bits.drop resultBit).take (neededPrefix stages).2).length =
      min (neededPrefix stages).2 (value.ty.width - resultBit) := by
    rw [List.length_take, List.length_drop, value.sized]
  rw [barrelBit]
  apply Emits.bind (stages_emits hoffset hshow hstage hagrees (by omega))
  intro cs t _ ⟨hsize, v, hcs, hfirst⟩
  cases cs with
  | nil =>
    rw [List.length_nil] at hsize
    omega
  | cons first cs =>
    refine Emits.pure ⟨v 0, hcs 0 first rfl, fun hbound => ?_⟩
    have hneeded := selected_lt hagrees (by omega)
    exact hfirst (by omega)

/-- Bits that read as something carry a number. -/
theorem exists_carries {xs : List β} (h : ∀ (i : Nat) x, xs[i]? = some x → ∃ a, W.Reads s x a) :
    ∃ z, W.Carries s xs z := by
  induction xs with
  | nil => exact ⟨0, trivial⟩
  | cons x xs ih =>
    obtain ⟨z, hz⟩ := ih fun i y hy => h (i + 1) y hy
    obtain ⟨a, ha⟩ := h 0 x rfl
    exact ⟨(a.toNat : Int) + 2 * z, by rwa [odd_cast_add], by rwa [half_cast_add]⟩

/-- The barrel returns the bits that lie as far as its stages move, unless the range check
clears them. -/
theorem barrel_returns {operator : SemanticOperator} {extract : DynamicExtractOperator}
    {value offset : Operand β} {x n moves : Nat} (hextract : operator.dynamicExtract = some extract)
    (hvalue : Holds W s value x) (hoffset : Holds W s offset n)
    (hwidth : operator.implementationWidth ≤ value.ty.width) (hsource : value.ty.width < 2 ^ 32)
    (hmaximum : extract.maximumOffset < 2 ^ offset.ty.width) (hn : n ≤ extract.maximumOffset)
    (hstages : offset.ty.width ≤ 64)
    (hmoves : selected n (stagesOf (offsetBitConstant s offset) extract.selectionMax
      (List.range offset.ty.width)) = moves) :
    Returns W s (lowerDynamicExtractArchitecture operator false value offset)
      operator.implementationWidth
      (if n ≤ value.ty.width - operator.implementationWidth then (x : Int) / 2 ^ moves else 0) := by
  have hle : moves ≤ n := by
    have hselected := selected_le n extract.selectionMax (offsetBitConstant s offset) offset.ty.width
    rw [hmoves] at hselected
    exact Nat.le_trans hselected (Nat.mod_le _ _)
  unfold lowerDynamicExtractArchitecture
  simp only [hextract, value.sized, Nat.not_lt.mpr hwidth, if_false, Bool.false_eq_true]
  apply Emits.bind (barrelStages_emits extract.selectionMax hstages)
  rintro stages t hgrows ⟨rfl, rfl⟩
  have hbits : W.Emits t ((List.range operator.implementationWidth).mapM (barrelBit value offset
      (stagesOf (offsetBitConstant t offset) extract.selectionMax (List.range offset.ty.width))))
      fun r u => r.length = operator.implementationWidth ∧ ∀ (i : Nat) b, r[i]? = some b →
        ∃ a, W.Reads u b a ∧ (i + moves < value.ty.width → a = digit x (i + moves)) := by
    have hall := Emits.mapM (W := W.toGrowing) (s := t) (l := List.range operator.implementationWidth)
      (P := fun i b u => ∃ a, W.Reads u b a ∧ (i + moves < value.ty.width → a = digit x (i + moves)))
      (fun _ _ _ _ hgrows ⟨a, ha, hdigit⟩ => ⟨a, W.mono hgrows ha, hdigit⟩)
      (f := barrelBit value offset (stagesOf (offsetBitConstant t offset) extract.selectionMax
        (List.range offset.ty.width))) fun i index hindex u hlater => by
      obtain ⟨hi, rfl⟩ := List.getElem?_eq_some_iff.mp hindex
      rw [List.length_range] at hi
      rw [List.getElem_range]
      have hbit := barrelBit_emits extract.selectionMax i (hvalue.mono hlater) (hoffset.mono hlater)
        (fun _ _ hb => offsetBitConstant_reads hoffset hb) (by omega) (by omega)
      rwa [hmoves] at hbit
    rwa [List.length_range] at hall
  apply Emits.bind hbits
  intro result u hlater ⟨hlength, hread⟩
  by_cases hin : n ≤ value.ty.width - operator.implementationWidth
  · have hcarries : W.Carries u result ((x : Int) / 2 ^ moves) := by
      apply carries_iff.mpr
      intro i b hb
      have hi : i < operator.implementationWidth := hlength ▸ (List.getElem?_eq_some_iff.mp hb).1
      obtain ⟨a, ha, hdigit⟩ := hread i b hb
      rwa [digit_shift, Nat.add_comm moves, ← hdigit (by omega)]
    have hkept := rangeGuard_returns (value.ty.width - operator.implementationWidth) hcarries
      (hoffset.mono hlater) (by omega) hmaximum hn
    rw [if_pos hin]
    rwa [hlength, if_neg (Nat.not_lt.mpr hin)] at hkept
  · obtain ⟨z, hz⟩ := exists_carries fun i b hb => (hread i b hb).imp fun _ h => h.1
    have hcleared := rangeGuard_returns (value.ty.width - operator.implementationWidth) hz
      (hoffset.mono hlater) (by omega) hmaximum hn
    rw [if_neg hin]
    rwa [hlength, if_pos (Nat.not_le.mp hin)] at hcleared

end Opto.Bitblast
