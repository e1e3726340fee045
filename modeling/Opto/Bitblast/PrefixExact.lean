import Opto.Bitblast.PrefixAdders
import Mathlib.Tactic.IntervalCases

/-!
# Prefix adders are exact

A network holds a sequence of generate and propagate pairs; its stages act on the sequence
as the stages of a scan do. A scanned network holds the carries of the addition.
-/

namespace Opto.Bitblast

open Word Growing Scan

variable {σ ε β : Type} [BitBackend σ ε β]

/-- What a run of positions does to a carry. -/
@[ext] structure Carry where
  generate : Bool
  propagate : Bool
deriving DecidableEq

namespace Carry

def act (x : Carry) (c : Bool) : Bool := x.generate || (x.propagate && c)

instance : Mul Carry := ⟨fun x y => ⟨x.generate || (x.propagate && y.generate), x.propagate && y.propagate⟩⟩
instance : One Carry := ⟨⟨false, true⟩⟩

theorem mul_def (x y : Carry) :
    x * y = ⟨x.generate || (x.propagate && y.generate), x.propagate && y.propagate⟩ := rfl

theorem one_def : (1 : Carry) = ⟨false, true⟩ := rfl

instance : Monoid Carry where
  mul_assoc x y z := by
    ext
    · simp only [mul_def]
      cases x.generate <;> cases x.propagate <;> simp
    · simp only [mul_def, Bool.and_assoc]
  one_mul x := by ext <;> simp [mul_def, one_def]
  mul_one x := by ext <;> simp [mul_def, one_def]

theorem act_mul (x y : Carry) (c : Bool) : (x * y).act c = x.act (y.act c) := by
  simp only [act, mul_def]
  cases x.generate <;> cases x.propagate <;> simp

@[simp] theorem act_one (c : Bool) : (1 : Carry).act c = c := by simp [act, one_def]

/-- Pairs that carry as the positions of an addition do. -/
def Adds (x : Nat → Carry) (a b : Int) (n : Nat) : Prop :=
  ∀ i < n, ∀ c, (x i).act c = majority (digit a i) (digit b i) c

theorem act_segment {x : Nat → Carry} {a b : Int} {n : Nat} (h : Adds x a b n) (c : Bool) {m : Nat}
    (hm : m ≤ n) : (Scan.segment x 0 m).act c = carryInto m a b c := by
  induction m with
  | zero => simp [Scan.segment, carryInto]
  | succ m ih =>
    rw [Scan.segment, Nat.zero_add, act_mul, ih (by omega), h m (by omega), carryInto_succ]

end Carry

section

variable {W : Meaning σ ε β} {s : σ}

theorem entry_emits {xs : List β} {n : Nat} {v : Nat → Bool} (hlength : xs.length = n)
    (h : ∀ (i : Nat) (x : β), xs[i]? = some x → W.Reads s x (v i)) {index : Nat} (hindex : index < n) :
    W.Emits s (entry xs index) fun x t => W.Reads t x (v index) := by
  have hx := List.getElem?_eq_getElem (hlength.symm ▸ hindex)
  rw [entry, hx]
  exact Emits.pure (h index _ hx)

variable (W) in
/-- The network holds the first `n` pairs of `x`. -/
structure Network (s : σ) (network : PrefixNetwork β) (n : Nat) (x : Nat → Carry) : Prop where
  generates : network.generate.length = n
  propagates : network.propagate.length = n
  generate : ∀ (i : Nat) (y : β), network.generate[i]? = some y → W.Reads s y (x i).generate
  propagate : ∀ (i : Nat) (y : β), network.propagate[i]? = some y → W.Reads s y (x i).propagate

namespace Network

variable {network : PrefixNetwork β} {n : Nat} {x y : Nat → Carry}

theorem mono {t : σ} (h : Network W s network n x) (hgrows : W.Grows s t) : Network W t network n x where
  generates := h.generates
  propagates := h.propagates
  generate i y hy := W.mono hgrows (h.generate i y hy)
  propagate i y hy := W.mono hgrows (h.propagate i y hy)

theorem congr (h : Network W s network n x) (hxy : ∀ i < n, x i = y i) : Network W s network n y where
  generates := h.generates
  propagates := h.propagates
  generate i z hz := by
    have hi := (List.getElem?_eq_some_iff.mp hz).1
    rw [← hxy i (h.generates ▸ hi)]
    exact h.generate i z hz
  propagate i z hz := by
    have hi := (List.getElem?_eq_some_iff.mp hz).1
    rw [← hxy i (h.propagates ▸ hi)]
    exact h.propagate i z hz

theorem entry_generate (h : Network W s network n x) {index : Nat} (hindex : index < n) :
    W.Emits s (entry network.generate index) fun y t => W.Reads t y (x index).generate :=
  entry_emits (v := fun i => (x i).generate) h.generates h.generate hindex

theorem entry_propagate (h : Network W s network n x) {index : Nat} (hindex : index < n) :
    W.Emits s (entry network.propagate index) fun y t => W.Reads t y (x index).propagate :=
  entry_emits (v := fun i => (x i).propagate) h.propagates h.propagate hindex

theorem set_reads {xs : List β} {v w : Nat → Bool} {index : Nat} {new : β}
    (h : ∀ (i : Nat) (x : β), xs[i]? = some x → W.Reads s x (v i)) (hnew : W.Reads s new (w index))
    (hw : ∀ i, i ≠ index → w i = v i) (i : Nat) (x : β) (hx : (xs.set index new)[i]? = some x) :
    W.Reads s x (w i) := by
  by_cases hi : index = i
  · subst hi
    have hlt := (List.getElem?_eq_some_iff.mp hx).1
    rw [List.length_set] at hlt
    rw [List.getElem?_set_self hlt, Option.some.injEq] at hx
    exact hx ▸ hnew
  · rw [List.getElem?_set_ne hi] at hx
    rw [hw i fun h => hi h.symm]
    exact h i x hx

theorem set (h : Network W s network n x) {index : Nat} {c : Carry} {propagate generate : β}
    (hp : W.Reads s propagate c.propagate) (hg : W.Reads s generate c.generate) :
    Network W s ⟨network.propagate.set index propagate, network.generate.set index generate⟩ n
      fun i => if i = index then c else x i where
  generates := by rw [List.length_set, h.generates]
  propagates := by rw [List.length_set, h.propagates]
  generate := set_reads (w := fun i => (if i = index then c else x i).generate) h.generate
    (by rwa [if_pos rfl]) fun i hi => by rw [if_neg hi]
  propagate := set_reads (w := fun i => (if i = index then c else x i).propagate) h.propagate
    (by rwa [if_pos rfl]) fun i hi => by rw [if_neg hi]

theorem combine {next : PrefixNetwork β} (h : Network W s network n x) (hnext : Network W s next n y)
    {upper lower : Nat} (hupper : upper < n) (hlower : lower < n) :
    W.Emits s (combinePrefix upper lower network next) fun r t =>
      Network W t r n fun i => if i = upper then x upper * x lower else y i := by
  apply Emits.bind (h.entry_propagate hupper)
  intro upperPropagate s₁ g₁ hup
  apply Emits.bind ((h.mono g₁).entry_generate hlower)
  intro lowerGenerate s₂ g₂ hlg
  apply Emits.bind (W.and_emits (W.mono g₂ hup) hlg)
  intro propagated s₃ g₃ hpropagated
  have g₁₃ := W.trans g₂ g₃
  have g₀₃ := W.trans g₁ g₁₃
  apply Emits.bind ((h.mono g₀₃).entry_generate hupper)
  intro upperGenerate s₄ g₄ hug
  apply Emits.bind (W.or_emits hug (W.mono g₄ hpropagated))
  intro generate s₅ g₅ hgenerate
  have g₃₅ := W.trans g₄ g₅
  have g₀₅ := W.trans g₀₃ g₃₅
  apply Emits.bind ((h.mono g₀₅).entry_propagate hlower)
  intro lowerPropagate s₆ g₆ hlp
  apply Emits.bind (W.and_emits (W.mono (W.trans g₁₃ (W.trans g₃₅ g₆)) hup) hlp)
  intro propagate s₇ g₇ hpropagate
  have g₅₇ := W.trans g₆ g₇
  exact Emits.pure ((hnext.mono (W.trans g₀₅ g₅₇)).set (c := x upper * x lower) hpropagate
    (W.mono g₅₇ hgenerate))

theorem stage {chosen : Nat → Prop} [DecidablePred chosen] (h : Network W s network n x)
    {distance : Nat} {indices : List Nat} (hlt : ∀ i ∈ indices, i < n)
    (hchosen : ∀ i < n, i ∈ indices ↔ chosen i) :
    W.Emits s (combineStage distance indices network) fun r t =>
      Network W t r n (Scan.stage chosen distance x) := by
  have hloop : W.Emits s (combineStage distance indices network) fun r t =>
      Network W t r n fun i => if i ∈ indices then x i * x (i - distance) else x i := by
    apply Emits.foldlM (fun done r t =>
      Network W t r n fun i => if i ∈ done then x i * x (i - distance) else x i)
    · exact h.congr fun i _ => by simp
    · intro done index rest hsplit next t hgrows hnext
      have hindex : index < n := hlt index (by simp [← hsplit])
      apply ((h.mono hgrows).combine hnext hindex (by omega)).mono
      intro r u _ hr
      apply hr.congr
      intro i _
      by_cases hi : i = index
      · subst hi; simp
      · simp [hi]
  apply hloop.mono
  intro r t _ hr
  apply hr.congr
  intro i hi
  simp only [Scan.stage, hchosen i hi]

end Network

/-! The networks scan. -/

variable (W) in
/-- The network holds the scans of the pairs. -/
def Scanned (s : σ) (network : PrefixNetwork β) (n : Nat) (x : Nat → Carry) : Prop :=
  Network W s network n fun i => Scan.segment x 0 (i + 1)

theorem mem_stepBy {start stop step i : Nat} (hstep : 0 < step) :
    i ∈ stepBy start stop step ↔ start ≤ i ∧ i < stop ∧ step ∣ i - start := by
  rw [stepBy, List.mem_range']
  constructor
  · rintro ⟨k, hk, rfl⟩
    have hmul : step * k < stop - start := by
      have hle : k + 1 ≤ (stop - start + step - 1) / step := hk
      rw [Nat.le_div_iff_mul_le hstep, Nat.add_mul, Nat.one_mul, Nat.mul_comm] at hle
      omega
    exact ⟨by omega, by omega, k, by omega⟩
  · rintro ⟨hlo, hhi, k, hk⟩
    refine ⟨k, ?_, by omega⟩
    have hle : k + 1 ≤ (stop - start + step - 1) / step := by
      rw [Nat.le_div_iff_mul_le hstep, Nat.add_mul, Nat.one_mul, Nat.mul_comm]
      omega
    exact hle

theorem koggeStoneStages_emits {s : σ} {network : PrefixNetwork β} {count distance : Nat} {x y : Nat → Carry}
    (hpos : 0 < distance) (hcovers : Covers x y distance) (h : Network W s network count y) :
    W.Emits s (koggeStoneStages count distance network) fun r t => Scanned W t r count x := by
  rw [koggeStoneStages]
  split_ifs with hdistance
  · have hstage : W.Emits s (combineStage distance (List.range' distance (count - distance)) network)
        fun r t => Network W t r count (Scan.stage (distance ≤ ·) distance y) := by
      apply h.stage
      · intro i hi
        rw [List.mem_range'_1] at hi
        omega
      · intro i hi
        rw [List.mem_range'_1]
        omega
    apply Emits.bind hstage
    intro next t _ hnext
    exact koggeStoneStages_emits (by omega) (hcovers.stage hpos) hnext
  · apply Emits.pure
    exact h.congr fun i hi => hcovers.scan (by omega)
termination_by count - distance

theorem koggeStonePrefix_emits {network : PrefixNetwork β} {n : Nat} {x : Nat → Carry}
    (h : Network W s network n x) :
    W.Emits s (koggeStonePrefix network) fun r t => Scanned W t r n x := by
  rw [koggeStonePrefix, h.generates]
  exact koggeStoneStages_emits Nat.one_pos (covers_one x) h

theorem brentKungUp_emits {s : σ} {network : PrefixNetwork β} {count k : Nat} {x y : Nat → Carry}
    (hblocks : Blocks x y (2 ^ k)) (h : Network W s network count y) :
    W.Emits s (brentKungUp count (2 ^ k) network) fun r t =>
      ∃ top z, count ≤ 2 ^ top ∧ Blocks x z (2 ^ top) ∧ Network W t r count z := by
  have hpos : 0 < 2 ^ k := Nat.two_pow_pos k
  have hdouble : 2 * 2 ^ k = 2 ^ (k + 1) := (pow_succ' 2 k).symm
  rw [brentKungUp]
  split_ifs with hstride
  · have hstage : W.Emits s (combineStage (2 ^ k) (stepBy (2 * 2 ^ k - 1) count (2 * 2 ^ k)) network)
        fun r t => Network W t r count (Scan.stage (Aligned (2 ^ (k + 1))) (2 ^ k) y) := by
      apply h.stage
      · exact fun i hi => ((mem_stepBy (by omega)).mp hi).2.1
      · intro i hi
        rw [mem_stepBy (by omega), Aligned, ← hdouble]
        constructor
        · rintro ⟨hlo, -, hdvd⟩
          have hsum := Nat.dvd_add hdvd (dvd_refl (2 * 2 ^ k))
          have heq : i - (2 * 2 ^ k - 1) + 2 * 2 ^ k = i + 1 := by omega
          rwa [heq] at hsum
        · intro hdvd
          have hle := Nat.le_of_dvd (by omega) hdvd
          have hdiff := Nat.dvd_sub hdvd (dvd_refl (2 * 2 ^ k))
          have heq : i + 1 - 2 * 2 ^ k = i - (2 * 2 ^ k - 1) := by omega
          exact ⟨by omega, hi, heq ▸ hdiff⟩
    apply Emits.bind hstage
    intro next t _ hnext
    rw [hdouble]
    exact brentKungUp_emits hblocks.stage hnext
  · exact Emits.pure ⟨k, y, by omega, hblocks, h⟩
termination_by count - 2 ^ k

theorem brentKungDown_stage {network : PrefixNetwork β} {count k : Nat} {y : Nat → Carry}
    (h : Network W s network count y) :
    W.Emits s (combineStage (2 ^ k) (stepBy (3 * 2 ^ k - 1) count (2 * 2 ^ k)) network)
      fun r t => Network W t r count (Scan.stage (Completed (2 ^ k)) (2 ^ k) y) := by
  have hpos : 0 < 2 ^ k := Nat.two_pow_pos k
  apply h.stage
  · exact fun i hi => ((mem_stepBy (by omega)).mp hi).2.1
  · intro i hi
    have heq (_ : 3 * 2 ^ k ≤ i + 1) : i + 1 - 3 * 2 ^ k = i - (3 * 2 ^ k - 1) := by omega
    rw [mem_stepBy (by omega), Completed]
    constructor
    · rintro ⟨hlo, _, hdvd⟩
      exact ⟨by omega, by rwa [heq (by omega)]⟩
    · rintro ⟨hle, hdvd⟩
      exact ⟨by omega, hi, by rwa [← heq hle]⟩

theorem Handed.scanned {network : PrefixNetwork β} {count top : Nat} {x y : Nat → Carry}
    (hhanded : Handed x y top 1 count) (h : Network W s network count y) :
    Scanned W s network count x := h.congr fun i hi => hhanded.whole i hi (Nat.one_dvd _)

theorem brentKungDown_emits {network : PrefixNetwork β} {count k top : Nat} {x y : Nat → Carry}
    (hk : k ≤ top) (hhanded : Handed x y (2 ^ top) (2 * 2 ^ k) count)
    (h : Network W s network count y) :
    W.Emits s (brentKungDown count (2 ^ k) network) fun r t => Scanned W t r count x := by
  induction k generalizing s network y with
  | zero =>
    rw [brentKungDown, if_pos (by decide)]
    apply Emits.bind (brentKungDown_stage h)
    intro next t _ hnext
    have hzero : 2 ^ 0 / 2 = 0 := rfl
    rw [hzero, brentKungDown, if_neg (by decide)]
    exact Emits.pure (Handed.scanned (hhanded.stage hk) hnext)
  | succ k ih =>
    rw [brentKungDown, if_pos (Nat.two_pow_pos _)]
    apply Emits.bind (brentKungDown_stage h)
    intro next t _ hnext
    have hhalf : 2 ^ (k + 1) / 2 = 2 ^ k := by rw [pow_succ, Nat.mul_div_cancel _ (by decide)]
    have hstage : Handed x (Scan.stage (Completed (2 ^ (k + 1))) (2 ^ (k + 1)) y) (2 ^ top) (2 * 2 ^ k)
        count := by
      rw [← pow_succ']
      exact hhanded.stage hk
    rw [hhalf]
    exact ih (by omega) hstage hnext

/-- Of the counts up to a power of two, the multiples of its half are powers of two. -/
theorem dvd_of_half {c m top : Nat} (hc : c ≤ top) (hpos : 0 < m) (hle : m ≤ 2 ^ c)
    (hdvd : 2 ^ (c - 1) ∣ m) : m ∣ 2 ^ top := by
  have htop : 2 ^ c ∣ 2 ^ top := Nat.pow_dvd_pow 2 hc
  cases c with
  | zero =>
    have hone : m = 1 := by rw [pow_zero] at hle; omega
    rw [hone]
    exact Nat.one_dvd _
  | succ c =>
    obtain ⟨q, rfl⟩ := hdvd
    rw [Nat.add_sub_cancel, pow_succ] at *
    have hq : q ≤ 2 := Nat.le_of_mul_le_mul_left hle (Nat.two_pow_pos c)
    have hq0 : 0 < q := Nat.pos_of_mul_pos_left hpos
    apply Dvd.dvd.trans _ htop
    apply Nat.mul_dvd_mul_left
    interval_cases q <;> decide

theorem brentKungPrefix_emits {network : PrefixNetwork β} {n : Nat} {x : Nat → Carry}
    (h : Network W s network n x) :
    W.Emits s (brentKungPrefix network) fun r t => Scanned W t r n x := by
  rw [brentKungPrefix, h.generates]
  apply Emits.bind (brentKungUp_emits (k := 0) (blocks_one x) h)
  intro current t _ ⟨top, z, htop, hblocks, hcurrent⟩
  have hclog : Nat.clog 2 n ≤ top := Nat.clog_le_of_le_pow htop
  have hle : n ≤ 2 ^ Nat.clog 2 n := Nat.le_pow_clog (by decide) n
  have hhanded : Handed x z (2 ^ top) (2 ^ (Nat.clog 2 n - 1)) n :=
    hblocks.handed fun i hi => dvd_of_half hclog i.succ_pos (by omega)
  obtain hsmall | hlarge := Nat.lt_or_ge (Nat.clog 2 n) 2
  · have hone : 2 ^ (Nat.clog 2 n - 1) = 1 := by
      have hzero : Nat.clog 2 n - 1 = 0 := by omega
      rw [hzero, pow_zero]
    have hquarter : nextPowerOfTwo n / 4 = 0 := by
      have hpow : 2 ^ Nat.clog 2 n ≤ 2 ^ 1 := Nat.pow_le_pow_right (by decide) (by omega)
      rw [nextPowerOfTwo]
      omega
    rw [hone] at hhanded
    rw [hquarter, brentKungDown, if_neg (by decide)]
    exact Emits.pure (Handed.scanned hhanded hcurrent)
  · obtain ⟨k, hk⟩ := Nat.exists_eq_add_of_le' hlarge
    have hquarter : nextPowerOfTwo n / 4 = 2 ^ k := by
      rw [nextPowerOfTwo, hk, pow_add]
      exact Nat.mul_div_cancel _ (by decide)
    have hhalf : 2 ^ (Nat.clog 2 n - 1) = 2 * 2 ^ k := by
      rw [hk, ← pow_succ']
      rfl
    rw [hhalf] at hhanded
    rw [hquarter]
    exact brentKungDown_emits (by omega) hhanded hcurrent

end
end Opto.Bitblast
