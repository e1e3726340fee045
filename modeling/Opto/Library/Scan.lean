import Mathlib.Algebra.Group.Nat.Even
import Mathlib.Data.Nat.Prime.Basic
import Mathlib.Data.Nat.Log
import Mathlib.Data.List.Range
import Mathlib.Tactic.Positivity
import Mathlib.Tactic.Ring

/-!
# Parallel scans

A scan of a sequence over a monoid gives every position the product of the entries up to
it, the later factor on the left. A stage multiplies chosen positions by the position a
fixed distance below. With doubling distances at every position the entries grow to the
whole scan; so they do when a sweep over aligned blocks is followed by a sweep that hands
whole scans down.
-/

namespace Opto.Scan

variable {M : Type} [Monoid M]

/-- The product of `n` entries from `lo` on. -/
def segment (x : Nat → M) (lo : Nat) : Nat → M
  | 0 => 1
  | n + 1 => x (lo + n) * segment x lo n

@[simp] theorem segment_one (x : Nat → M) (lo : Nat) : segment x lo 1 = x lo := by
  simp [segment]

theorem segment_add (x : Nat → M) (lo m n : Nat) :
    segment x lo (m + n) = segment x (lo + m) n * segment x lo m := by
  induction n with
  | zero => simp [segment]
  | succ n ih =>
    rw [← Nat.add_assoc, segment, ih, segment, mul_assoc, Nat.add_assoc]

theorem segment_congr {x y : Nat → M} {lo n : Nat} (h : ∀ i, lo ≤ i → i < lo + n → x i = y i) :
    segment x lo n = segment y lo n := by
  induction n with
  | zero => rfl
  | succ n ih =>
    rw [segment, segment, h (lo + n) (by omega) (by omega), ih fun i hlo hhi => h i hlo (by omega)]

/-- The product of the last `n` entries up to position `i`. -/
def window (x : Nat → M) (i n : Nat) : M := segment x (i + 1 - n) n

theorem window_one (x : Nat → M) (i : Nat) : window x i 1 = x i := segment_one x i

theorem window_mul (x : Nat → M) {i m n : Nat} (hn : 0 < n) (h : m + n ≤ i + 1) :
    window x i m * window x (i - m) n = window x i (m + n) := by
  have hlo : i - m + 1 - n = i + 1 - (n + m) := by omega
  have hmid : i + 1 - m = i + 1 - (n + m) + n := by omega
  rw [window, window, window, Nat.add_comm m n, segment_add, hlo, hmid]

/-- One stage of a scan network. -/
def stage (chosen : Nat → Prop) [DecidablePred chosen] (distance : Nat) (y : Nat → M) (i : Nat) : M :=
  if chosen i then y i * y (i - distance) else y i

/-! Doubling distances. -/

/-- Every position covers the last `distance` entries, as far as there are any. -/
def Covers (x y : Nat → M) (distance : Nat) : Prop := ∀ i, y i = window x i (min distance (i + 1))

theorem covers_one (x : Nat → M) : Covers x x 1 := by
  intro i
  rw [Nat.min_eq_left (by omega), window_one]

theorem Covers.stage {x y : Nat → M} {distance : Nat} (hpos : 0 < distance) (h : Covers x y distance) :
    Covers x (stage (distance ≤ ·) distance y) (2 * distance) := by
  intro i
  rw [Scan.stage]
  split_ifs with hi
  · rw [h i, h (i - distance), Nat.min_eq_left (by omega), window_mul x (by omega) (by omega)]
    congr 1
    omega
  · rw [h i]
    congr 1
    omega

theorem Covers.scan {x y : Nat → M} {distance : Nat} (h : Covers x y distance) {i : Nat}
    (hi : i < distance) : y i = segment x 0 (i + 1) := by
  rw [h i, Nat.min_eq_right (by omega), window, Nat.sub_self]

/-! Aligned blocks. -/

/-- Every position covers the largest block that ends there, is aligned to its own size and
has at most `stride` entries. -/
def Blocks (x y : Nat → M) (stride : Nat) : Prop := ∀ i, y i = window x i (Nat.gcd stride (i + 1))

theorem blocks_one (x : Nat → M) : Blocks x x 1 := by
  intro i
  rw [Nat.gcd_one_left, window_one]

theorem gcd_double {k m : Nat} (h : ¬2 ^ (k + 1) ∣ m) :
    Nat.gcd (2 ^ (k + 1)) m = Nat.gcd (2 ^ k) m := by
  obtain ⟨j, hj, hgcd⟩ := (Nat.dvd_prime_pow Nat.prime_two).mp (Nat.gcd_dvd_left (2 ^ (k + 1)) m)
  have hle : j ≤ k := by
    by_contra hlt
    have hjk : j = k + 1 := by omega
    exact h (hjk ▸ hgcd ▸ Nat.gcd_dvd_right _ _)
  apply Nat.dvd_antisymm
  · exact Nat.dvd_gcd (hgcd ▸ Nat.pow_dvd_pow 2 hle) (Nat.gcd_dvd_right _ _)
  · exact Nat.gcd_dvd_gcd_of_dvd_left m (Nat.pow_dvd_pow 2 (by omega))

/-- Positions whose count is a multiple of `step`. -/
def Aligned (step i : Nat) : Prop := step ∣ i + 1

instance (step : Nat) : DecidablePred (Aligned step) := fun i => by unfold Aligned; infer_instance

theorem Blocks.stage {x y : Nat → M} {k : Nat} (h : Blocks x y (2 ^ k)) :
    Blocks x (stage (Aligned (2 ^ (k + 1))) (2 ^ k) y) (2 ^ (k + 1)) := by
  intro i
  rw [Scan.stage]
  split_ifs with hi
  · obtain ⟨q, hq⟩ := hi
    have hpow : 2 ^ (k + 1) = 2 ^ k + 2 ^ k := by rw [pow_succ, mul_two]
    have hpos : 0 < 2 ^ k := by positivity
    have hq0 : 0 < q := by
      by_contra hzero
      have : q = 0 := by omega
      simp [this] at hq
    have hle : 2 ^ (k + 1) ≤ i + 1 := hq ▸ Nat.le_mul_of_pos_right _ hq0
    have hupper : 2 ^ k ∣ i + 1 := (Nat.pow_dvd_pow 2 (by omega)).trans ⟨q, hq⟩
    have hlower : 2 ^ k ∣ i - 2 ^ k + 1 := by
      have hsub := Nat.dvd_sub hupper (dvd_refl (2 ^ k))
      have heq : i + 1 - 2 ^ k = i - 2 ^ k + 1 := by omega
      rwa [heq] at hsub
    rw [h i, h (i - 2 ^ k), Nat.gcd_eq_left hupper, Nat.gcd_eq_left hlower,
      Nat.gcd_eq_left ⟨q, hq⟩, window_mul x (by omega) (by omega), hpow]
  · rw [h i, gcd_double hi]

/-- Positions whose count is a multiple of `step` have the whole scan, the other ones still
their blocks. -/
structure Handed (x y : Nat → M) (top step count : Nat) : Prop where
  whole : ∀ i < count, step ∣ i + 1 → y i = segment x 0 (i + 1)
  block : ∀ i < count, ¬step ∣ i + 1 → y i = window x i (Nat.gcd top (i + 1))

theorem Blocks.handed {x y : Nat → M} {n step count : Nat} (h : Blocks x y (2 ^ n))
    (hwhole : ∀ i < count, step ∣ i + 1 → i + 1 ∣ 2 ^ n) : Handed x y (2 ^ n) step count where
  whole i hi hstep := by
    rw [h i, Nat.gcd_eq_right (hwhole i hi hstep), window, Nat.sub_self]
  block i _ _ := h i

/-- Positions that a downward stage completes: odd multiples of the stride past the first. -/
def Completed (stride i : Nat) : Prop := 3 * stride ≤ i + 1 ∧ 2 * stride ∣ i + 1 - 3 * stride

instance (stride : Nat) : DecidablePred (Completed stride) := fun i => by
  unfold Completed; infer_instance

theorem gcd_odd_multiple {k n q : Nat} (hk : k ≤ n) (hq : ¬2 ∣ q) :
    Nat.gcd (2 ^ n) (2 ^ k * q) = 2 ^ k := by
  obtain ⟨j, rfl⟩ := Nat.exists_eq_add_of_le hk
  have hcoprime : Nat.Coprime (2 ^ j) q :=
    Nat.Coprime.pow_left j ((Nat.Prime.coprime_iff_not_dvd Nat.prime_two).mpr hq)
  rw [pow_add, Nat.gcd_mul_left, hcoprime.gcd_eq_one, Nat.mul_one]

theorem completed_iff {stride i q : Nat} (hpos : 0 < stride) (hq : i + 1 = stride * q) :
    Completed stride i ↔ ¬2 ∣ q ∧ 3 ≤ q := by
  have hle : 3 * stride ≤ i + 1 ↔ 3 ≤ q := by
    rw [hq, Nat.mul_comm stride]
    exact Nat.mul_le_mul_right_iff hpos
  have hdvd : 2 * stride ∣ i + 1 - 3 * stride ↔ 2 ∣ q - 3 := by
    rw [hq, Nat.mul_comm stride, ← Nat.mul_sub_right_distrib]
    exact Nat.mul_dvd_mul_iff_right hpos
  rw [Completed, hle, hdvd]
  constructor
  · intro ⟨h3, hq3⟩
    exact ⟨by omega, h3⟩
  · intro ⟨hodd, h3⟩
    exact ⟨h3, by omega⟩

theorem Handed.stage {x y : Nat → M} {k n count : Nat} (h : Handed x y (2 ^ n) (2 * 2 ^ k) count)
    (hk : k ≤ n) : Handed x (stage (Completed (2 ^ k)) (2 ^ k) y) (2 ^ n) (2 ^ k) count := by
  have hpos : 0 < 2 ^ k := by positivity
  have hstep {i q : Nat} (hq : i + 1 = 2 ^ k * q) : 2 * 2 ^ k ∣ i + 1 ↔ 2 ∣ q := by
    rw [hq, Nat.mul_comm (2 ^ k)]
    exact Nat.mul_dvd_mul_iff_right hpos
  constructor
  · intro i hi ⟨q, hq⟩
    rw [Scan.stage]
    split_ifs with hcompleted
    · -- an odd multiple past the first: its block and the scan handed to the even one below it
      obtain ⟨hodd, h3⟩ := (completed_iff hpos hq).mp hcompleted
      have hbelow : i - 2 ^ k + 1 = 2 ^ k * (q - 1) := by
        rw [Nat.mul_sub_one, ← hq]
        have : 2 ^ k * 3 ≤ i + 1 := hq ▸ Nat.mul_le_mul_left _ h3
        omega
      have hfit : 2 ^ k * 2 ≤ i + 1 := hq ▸ Nat.mul_le_mul_left _ (by omega)
      rw [h.block i hi fun hdvd => hodd ((hstep hq).mp hdvd), hq, gcd_odd_multiple hk hodd,
        h.whole (i - 2 ^ k) (by omega) ((hstep hbelow).mpr (by omega))]
      have hlower : segment x 0 (i - 2 ^ k + 1) = window x (i - 2 ^ k) (i - 2 ^ k + 1) := by
        rw [window, Nat.sub_self]
      have hsum : 2 ^ k + (i - 2 ^ k + 1) = i + 1 := by omega
      rw [hlower, window_mul x (by omega) (by omega), hsum, window, Nat.sub_self, ← hq]
    · by_cases heven : 2 ∣ q
      · exact h.whole i hi ((hstep hq).mpr heven)
      · -- the stride itself: its block is the whole scan
        have hq1 : q = 1 := by
          have hsmall : ¬3 ≤ q := fun h3 => hcompleted ((completed_iff hpos hq).mpr ⟨heven, h3⟩)
          omega
        rw [h.block i hi fun hdvd => heven ((hstep hq).mp hdvd), hq, gcd_odd_multiple hk heven,
          hq1, Nat.mul_one, window]
        rw [hq1, Nat.mul_one] at hq
        rw [hq, Nat.sub_self]
  · intro i hi hdvd
    have hblock : ¬2 * 2 ^ k ∣ i + 1 := fun h2 => hdvd ((Dvd.intro_left 2 rfl).trans h2)
    rw [Scan.stage, if_neg, h.block i hi hblock]
    intro ⟨hle, r, hr⟩
    exact hdvd ⟨2 * r + 3, by rw [Nat.mul_add, ← Nat.mul_assoc, Nat.mul_comm _ 2]; omega⟩

end Opto.Scan
