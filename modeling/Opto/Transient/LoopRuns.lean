import Opto.Transient.MonotoneBound

/-!
# Runs of a loop

A run is given by its start value and by the bound and the step of every iteration, and
updates wrap around at the width of the type. A run within the ranges of a computed bound
never wraps around and visits its header at most as often as the bound says.
-/

namespace Opto.Transient

open Word TwosComplement

/-- The order in which a condition compares two numbers. -/
def Compares (op : BinaryOp) (x b : Int) : Prop :=
  match op with
  | .lt => x < b
  | .le => x ≤ b
  | .gt => b < x
  | .ge => b ≤ x
  | .eq => x = b
  | .ne => x ≠ b
  | _ => False

structure Run where
  start : Int
  bound : Nat → Int
  step : Nat → Int

namespace Run

variable (form : LoopForm) (op : BinaryOp) (ty : WordType) (run : Run)

/-- The induction variable when the header is visited after `n` iterations. -/
def value : Nat → Int
  | 0 => run.start
  | n + 1 => wrap ty.signed ty.width (value n + run.step n)

/-- The condition of iteration `n` holds. -/
def Continues (n : Nat) : Prop :=
  match form with
  | .preTest => Compares op (run.value ty n) (run.bound n)
  | .postTest => Compares op (run.value ty (n + 1)) (run.bound n)
  | .unconditional => True

/-- The header is visited after `n` iterations. -/
def Visits (n : Nat) : Prop := ∀ i < n, run.Continues form op ty i

/-- Iteration `n` updates the induction variable. -/
def Updates (n : Nat) : Prop :=
  match form with
  | .preTest => run.Visits form op ty (n + 1)
  | .postTest | .unconditional => run.Visits form op ty n

/-- The values that the run takes lie in the ranges. -/
structure Within (extrema : InductionExtrema) : Prop where
  typed : least ty.signed ty.width ≤ run.start ∧ run.start ≤ greatest ty.signed ty.width
  start : extrema.initialMinimum.number ≤ run.start ∧ run.start ≤ extrema.initialMaximum.number
  bound : ∀ n, run.Visits form op ty n →
    extrema.boundMinimum.number ≤ run.bound n ∧ run.bound n ≤ extrema.boundMaximum.number
  step : ∀ n, run.Updates form op ty n →
    extrema.delta.minimum.value ≤ run.step n ∧ run.step n ≤ extrema.delta.maximum.value

variable {form op ty run}

theorem visits_succ {n : Nat} :
    run.Visits form op ty (n + 1) ↔ run.Visits form op ty n ∧ run.Continues form op ty n := by
  constructor
  · exact fun h => ⟨fun i hi => h i (by omega), h n (by omega)⟩
  · rintro ⟨h, hn⟩ i hi
    obtain hlt | rfl := Nat.lt_succ_iff_lt_or_eq.mp hi
    · exact h i hlt
    · exact hn

theorem Visits.earlier {n i : Nat} (h : run.Visits form op ty n) (hi : i ≤ n) : run.Visits form op ty i :=
  fun j hj => h j (by omega)

theorem Visits.updates {n i : Nat} (h : run.Visits form op ty n) (hi : i < n) : run.Updates form op ty i := by
  cases form with
  | preTest => exact h.earlier hi
  | postTest => exact h.earlier hi.le
  | unconditional => exact h.earlier hi.le

theorem value_typed (h : least ty.signed ty.width ≤ run.start ∧ run.start ≤ greatest ty.signed ty.width)
    (n : Nat) : least ty.signed ty.width ≤ run.value ty n ∧ run.value ty n ≤ greatest ty.signed ty.width := by
  cases n with
  | zero => exact h
  | succ n => exact wrap_bounds ty.signed ty.positive _

/-- An updated value has passed the condition, unless it is the start of a loop that tests later. -/
theorem Updates.guarded {n : Nat} (h : run.Updates form op ty n) (hform : form ≠ .unconditional) :
    (form = .postTest ∧ n = 0) ∨
      ∃ i, run.Visits form op ty i ∧ Compares op (run.value ty n) (run.bound i) := by
  cases form with
  | preTest =>
    obtain ⟨hvisits, hcontinues⟩ := visits_succ.mp h
    exact .inr ⟨n, hvisits, hcontinues⟩
  | postTest =>
    cases n with
    | zero => exact .inl ⟨rfl, rfl⟩
    | succ n =>
      obtain ⟨hvisits, hcontinues⟩ := visits_succ.mp h
      exact .inr ⟨n, hvisits, hcontinues⟩
  | unconditional => exact absurd rfl hform

/-- A loop stops when its header cannot be visited forever. -/
theorem stops {n : Nat} (h : ¬run.Visits form op ty n) :
    ∃ k < n, run.Visits form op ty k ∧ ¬run.Continues form op ty k := by
  induction n with
  | zero => exact absurd (fun i hi => absurd hi (Nat.not_lt_zero i)) h
  | succ n ih =>
    by_cases hn : run.Visits form op ty n
    · exact ⟨n, Nat.lt_succ_self n, hn, fun hcontinues => h (visits_succ.mpr ⟨hn, hcontinues⟩)⟩
    · obtain ⟨k, hk, hvisits⟩ := ih hn
      exact ⟨k, by omega, hvisits⟩

section Distance

variable {distance : Int → Int} {m : Int}

/-- Every update brings the value nearer to the bound. -/
theorem distance_value (hstep : ∀ n, run.Updates form op ty n →
      distance (run.value ty (n + 1)) + m ≤ distance (run.value ty n))
    {n : Nat} (h : ∀ i < n, run.Updates form op ty i) :
    distance (run.value ty n) + n * m ≤ distance run.start := by
  induction n with
  | zero => simp [value]
  | succ n ih =>
    have hrest := ih fun i hi => h i (by omega)
    have hlast := hstep n (h n (by omega))
    rw [Nat.cast_succ, add_mul, one_mul]
    omega

/-- A distance that is positive wherever the condition holds bounds the visits. -/
theorem visits_le (hform : form ≠ .unconditional) (hm : 0 < m)
    (hstep : ∀ n, run.Updates form op ty n → distance (run.value ty (n + 1)) + m ≤ distance (run.value ty n))
    (hguard : ∀ x i, run.Visits form op ty i → Compares op x (run.bound i) → 0 < distance x)
    {iterations visits : U128} (hiterations : distance run.start ≤ m * iterations.value)
    (hvisits : visitsOf form iterations = some visits) {n : Nat} (h : run.Visits form op ty n) :
    (n : Int) + 1 ≤ visits.value := by
  have hnonneg := iterations.low_le
  have hcount {k : Nat} (hk : 0 < distance (run.value ty k)) (hupdates : ∀ i < k, run.Updates form op ty i) :
      (k : Int) < iterations.value := by
    have hdistance := distance_value hstep hupdates
    have hmul : m * k < m * iterations.value := by
      rw [mul_comm m k]
      omega
    exact lt_of_mul_lt_mul_left hmul hm.le
  cases form with
  | preTest =>
    have hvalue := MachineInt.checked_value hvisits
    simp only at hvalue
    cases n with
    | zero => omega
    | succ n =>
      obtain ⟨hbefore, hcontinues⟩ := visits_succ.mp h
      have hlt := hcount (hguard _ n hbefore hcontinues) fun i hi => hbefore.updates hi
      push_cast
      omega
  | postTest =>
    obtain rfl := Option.some.inj hvisits
    cases n with
    | zero =>
      split_ifs <;> simp
      omega
    | succ n =>
      obtain ⟨hbefore, hcontinues⟩ := visits_succ.mp h
      have hlt := hcount (hguard _ n hbefore hcontinues) fun i hi => h.updates hi
      split_ifs
      · omega
      · push_cast at hlt ⊢
        omega
  | unconditional => exact absurd rfl hform

end Distance

/-- The run stops after at most this many visits of its header, and its updates are exact. -/
structure Bounded (form : LoopForm) (op : BinaryOp) (ty : WordType) (run : Run) (visits : Int) : Prop where
  stops : ∃ n : Nat, run.Visits form op ty n ∧ ¬run.Continues form op ty n ∧ (n : Int) + 1 ≤ visits
  exact : ∀ n, run.Updates form op ty n → run.value ty (n + 1) = run.value ty n + run.step n

theorem bounded_of_distance (distance : Int → Int) {m : Int} (hform : form ≠ .unconditional) (hm : 0 < m)
    (hexact : ∀ n, run.Updates form op ty n → run.value ty (n + 1) = run.value ty n + run.step n)
    (hstep : ∀ n, run.Updates form op ty n →
      distance (run.value ty n + run.step n) + m ≤ distance (run.value ty n))
    (hguard : ∀ x i, run.Visits form op ty i → Compares op x (run.bound i) → 0 < distance x)
    {iterations visits : U128} (hiterations : distance run.start ≤ m * iterations.value)
    (hvisits : visitsOf form iterations = some visits) : run.Bounded form op ty visits.value := by
  refine ⟨?_, hexact⟩
  have hle {n : Nat} (h : run.Visits form op ty n) : (n : Int) + 1 ≤ visits.value := by
    apply visits_le hform hm (fun i hi => ?_) hguard hiterations hvisits h
    rw [hexact i hi]
    exact hstep i hi
  have hlong : ¬run.Visits form op ty visits.value.toNat := by
    intro h
    have := hle h
    omega
  obtain ⟨n, -, hn, hstops⟩ := stops hlong
  exact ⟨n, hn, hstops, hle hn⟩

section Directions

variable {extrema : InductionExtrema} {low high : NumericValue} {iterations visits : U128}
  (hbounds : numericTypeBounds ty = some (low, high)) (hrun : run.Within form op ty extrema)
  (hvisits : visitsOf form iterations = some visits)

include hbounds hrun hvisits

theorem bounded_increasing (hop : op = .lt ∨ op = .le) (hdelta : 0 < extrema.delta.minimum.value)
    (h : increasingIterations form op extrema low high = some iterations) :
    run.Bounded form op ty visits.value := by
  obtain ⟨safe, hsafe, hrest⟩ := Option.bind_eq_some_iff.mp h
  split_ifs at hrest with hchecked
  rw [hchecked] at hsafe
  obtain ⟨distance, hdistance, hslowest⟩ := Option.bind_eq_some_iff.mp hrest
  obtain ⟨slowest, hminimum, hceil⟩ := Option.bind_eq_some_iff.mp hslowest
  obtain ⟨hfirst, hupdates⟩ := increasing_safe hsafe
  obtain ⟨hlow, hhigh⟩ := numericTypeBounds_spec hbounds
  have hform : form ≠ .unconditional := by
    rintro rfl
    cases hvisits
  have hguard (x : Int) (i : Nat) (hi : run.Visits form op ty i) (hx : Compares op x (run.bound i)) :
      x < extrema.boundMaximum.number + (op == .le).toNat := by
    have hbound := (hrun.bound i hi).2
    obtain rfl | rfl := hop
    · have hlt : x < run.bound i := hx
      rw [show (BinaryOp.lt == BinaryOp.le) = false from rfl, Bool.toNat_false, Nat.cast_zero, add_zero]
      exact hlt.trans_le hbound
    · have hle : x ≤ run.bound i := hx
      simpa [Int.lt_add_one_iff] using hle.trans hbound
  have hexact (n : Nat) (hn : run.Updates form op ty n) :
      run.value ty (n + 1) = run.value ty n + run.step n := by
    have htyped := value_typed hrun.typed n
    have hstep := hrun.step n hn
    apply wrap_eq ty.positive (by omega)
    obtain ⟨hpost, rfl⟩ | ⟨i, hi, hcompares⟩ := hn.guarded hform
    · have hinitial := hfirst hpost
      have hstart := hrun.start.2
      simp only [value]
      omega
    · have hguarded := hupdates _ (by omega) (hguard _ i hi hcompares)
      omega
  apply bounded_of_distance (fun x => extrema.boundMaximum.number - x + (op == .le).toNat) hform hdelta hexact _ _ _ hvisits
  · intro n hn
    have hstep := hrun.step n hn
    omega
  · intro x i hi hx
    have := hguard x i hi hx
    omega
  · have hstart := hrun.start.1
    have hfar := NumericValue.increasingDistance_spec hdistance
    have hdivided := ceilDiv_spec hceil
    rw [MachineInt.checked_value hminimum] at hdivided
    omega

theorem bounded_decreasing (hop : op = .gt ∨ op = .ge) (hdelta : extrema.delta.maximum.value < 0)
    (h : decreasingIterations form op extrema low high = some iterations) :
    run.Bounded form op ty visits.value := by
  obtain ⟨safe, hsafe, hrest⟩ := Option.bind_eq_some_iff.mp h
  split_ifs at hrest with hchecked
  rw [hchecked] at hsafe
  obtain ⟨distance, hdistance, hceil⟩ := Option.bind_eq_some_iff.mp hrest
  obtain ⟨hfirst, hupdates⟩ := decreasing_safe hsafe
  obtain ⟨hlow, hhigh⟩ := numericTypeBounds_spec hbounds
  have hform : form ≠ .unconditional := by
    rintro rfl
    cases hvisits
  have hguard (x : Int) (i : Nat) (hi : run.Visits form op ty i) (hx : Compares op x (run.bound i)) :
      extrema.boundMinimum.number < x + (op == .ge).toNat := by
    have hbound := (hrun.bound i hi).1
    obtain rfl | rfl := hop
    · have hlt : run.bound i < x := hx
      rw [show (BinaryOp.gt == BinaryOp.ge) = false from rfl, Bool.toNat_false, Nat.cast_zero, add_zero]
      exact hbound.trans_lt hlt
    · have hle : run.bound i ≤ x := hx
      simpa [Int.lt_add_one_iff] using hbound.trans hle
  have hexact (n : Nat) (hn : run.Updates form op ty n) :
      run.value ty (n + 1) = run.value ty n + run.step n := by
    have htyped := value_typed hrun.typed n
    have hstep := hrun.step n hn
    apply wrap_eq ty.positive _ (by omega)
    obtain ⟨hpost, rfl⟩ | ⟨i, hi, hcompares⟩ := hn.guarded hform
    · have hinitial := hfirst hpost
      have hstart := hrun.start.1
      simp only [value]
      omega
    · have hguarded := hupdates _ (by omega) (hguard _ i hi hcompares)
      omega
  have hpositive : 0 < -extrema.delta.maximum.value := by omega
  apply bounded_of_distance (fun x => x - extrema.boundMinimum.number + (op == .ge).toNat) hform hpositive hexact _ _ _ hvisits
  · intro n hn
    have hstep := hrun.step n hn
    omega
  · intro x i hi hx
    have := hguard x i hi hx
    omega
  · have hstart := hrun.start.2
    have hfar := NumericValue.increasingDistance_spec hdistance
    have hdivided := ceilDiv_spec hceil
    have habs : extrema.delta.maximum.unsignedAbs.value = -extrema.delta.maximum.value := by
      simp only [MachineInt.unsignedAbs]
      omega
    rw [habs] at hdivided
    omega

end Directions

/-- The computed number bounds the visits of every run within the ranges, and none of its
updates wraps around. -/
theorem headerVisits_bounded {form : LoopForm} {op : BinaryOp} {ty : WordType} {extrema : InductionExtrema}
    {visits : U128} (h : monotoneHeaderVisits form op ty extrema = some visits) {run : Run}
    (hrun : run.Within form op ty extrema) : run.Bounded form op ty visits.value := by
  obtain ⟨⟨low, high⟩, hbounds, hrest⟩ := Option.bind_eq_some_iff.mp h
  obtain ⟨iterations, hiterations, hvisits⟩ := Option.bind_eq_some_iff.mp hrest
  rw [monotoneIterations] at hiterations
  split_ifs at hiterations with hincreasing hdecreasing
  · exact bounded_increasing hbounds hrun hvisits hincreasing.2 hincreasing.1 hiterations
  · exact bounded_decreasing hbounds hrun hvisits hdecreasing.2 hdecreasing.1 hiterations

theorem minusOne_low : -(2 ^ 127) ≤ (-1 : Int) := by decide

theorem minusOne_high : (-1 : Int) ≤ 2 ^ 127 - 1 := by decide

/-- Counting down from ten by one to three while the value is at least minus ten. -/
def countdown : InductionExtrema :=
  ⟨.signed ⟨10, by decide, by decide⟩, .signed ⟨10, by decide, by decide⟩, .signed ⟨-10, by decide, by decide⟩,
    .signed ⟨-10, by decide, by decide⟩, ⟨⟨-3, by decide, by decide⟩, ⟨-1, minusOne_low, minusOne_high⟩⟩⟩

theorem countdown_bounded : (Run.mk 10 (fun _ => -10) fun _ => -2).Bounded .preTest .ge
    ⟨32, true, .fourState, by decide⟩ 22 := by
  have hvisits : monotoneHeaderVisits .preTest .ge ⟨32, true, .fourState, by decide⟩ countdown =
      some ⟨22, by decide, by decide⟩ := by decide
  have hbound : (-10 : Int) ≤ -10 ∧ (-10 : Int) ≤ -10 := by decide
  have hstep : (-3 : Int) ≤ -2 ∧ (-2 : Int) ≤ -1 := by decide
  exact headerVisits_bounded hvisits ⟨by decide, by decide, fun _ _ => hbound, fun _ _ => hstep⟩

end Run
end Opto.Transient
