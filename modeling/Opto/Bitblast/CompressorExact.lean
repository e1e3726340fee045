import Opto.Bitblast.Compressor
import Opto.Bitblast.ConstantAdders

/-!
# Column compression is exact

A row carries an integer as a vector does, with zeros for its missing bits; a list of rows
and a list of columns carry the sum of what they hold. Every step of a schedule keeps the
sum modulo the width, and what it leaves is bounded by heights that are known beforehand.
-/

namespace Opto.Bitblast

open Word Growing

variable {σ ε β : Type} [BitBackend σ ε β] {W : Meaning σ ε β} {s : σ}

/-! Rows. -/

variable (W) in
/-- A column's bit, with a missing bit for zero. -/
def SlotReads (s : σ) : Option β → Bool → Prop
  | some x, a => W.Reads s x a
  | none, a => a = false

theorem SlotReads.mono {t : σ} {bit : Option β} {a : Bool} (h : SlotReads W s bit a)
    (hgrows : W.Grows s t) : SlotReads W t bit a := by
  cases bit with
  | none => exact h
  | some x => exact W.mono hgrows h

variable (W) in
def RowCarries (s : σ) : BitRow β → Int → Prop
  | [], _ => True
  | bit :: row, z => SlotReads W s bit (odd z) ∧ RowCarries s row (z / 2)

theorem RowCarries.mono {t : σ} {row : BitRow β} {z : Int} (h : RowCarries W s row z)
    (hgrows : W.Grows s t) : RowCarries W t row z := by
  induction row generalizing z with
  | nil => exact trivial
  | cons bit row ih => exact ⟨h.1.mono hgrows, ih h.2⟩

theorem rowCarries_iff {row : BitRow β} {z : Int} :
    RowCarries W s row z ↔ ∀ (i : Nat) (bit : Option β), row[i]? = some bit →
      SlotReads W s bit (digit z i) := by
  induction row generalizing z with
  | nil => simp [RowCarries]
  | cons bit row ih =>
    rw [RowCarries, ih]
    constructor
    · intro ⟨hbit, hrow⟩ i b hb
      cases i with
      | zero =>
        rw [List.getElem?_cons_zero, Option.some.injEq] at hb
        rwa [← hb, digit_zero]
      | succ i =>
        rw [digit_succ]
        exact hrow i b hb
    · intro h
      refine ⟨by simpa using h 0 bit rfl, fun i b hb => ?_⟩
      rw [← digit_succ]
      exact h (i + 1) b hb

theorem RowCarries.congr {row : BitRow β} {a b : Int} (h : RowCarries W s row a)
    (hab : a ≡ b [ZMOD 2 ^ row.length]) : RowCarries W s row b := by
  apply rowCarries_iff.mpr
  intro i bit hbit
  rw [← digit_congr hab (List.getElem?_eq_some_iff.mp hbit).1]
  exact rowCarries_iff.mp h i bit hbit

theorem RowCarries.take {row : BitRow β} {z : Int} (h : RowCarries W s row z) (n : Nat) :
    RowCarries W s (row.take n) z := by
  apply rowCarries_iff.mpr
  intro i bit hbit
  rw [List.getElem?_take] at hbit
  split_ifs at hbit
  exact rowCarries_iff.mp h i bit hbit

/-- A missing bit in front doubles. -/
theorem RowCarries.shift {row : BitRow β} {z : Int} (h : RowCarries W s row z) :
    RowCarries W s (none :: row) (2 * z) := by
  constructor
  · have hodd : odd (2 * z) = false := by
      rw [odd_eq_iff]
      simp
    exact hodd
  · rwa [Int.mul_ediv_cancel_left _ (by decide)]

theorem rowCarries_none (n : Nat) : RowCarries W s (List.replicate n none) 0 := by
  induction n with
  | zero => exact trivial
  | succ n ih => exact ⟨rfl, ih⟩

/-- Missing bits read as zeros. -/
theorem RowCarries.fill {row : BitRow β} {z : Int} (h : RowCarries W s row z) {zero : β}
    (hzero : W.Reads s zero false) : W.Carries s (row.map (·.getD zero)) z := by
  induction row generalizing z with
  | nil => exact trivial
  | cons bit row ih =>
    obtain ⟨hbit, hrow⟩ := h
    refine ⟨?_, ih hrow⟩
    cases bit with
    | none =>
      have hodd : odd z = false := hbit
      rw [hodd]
      exact hzero
    | some x => exact hbit

theorem carries_row {xs : List β} {z : Int} (h : W.Carries s xs z) :
    RowCarries W s (xs.map some) z := by
  induction xs generalizing z with
  | nil => exact trivial
  | cons x xs ih => exact ⟨h.1, ih h.2⟩

variable (W) in
/-- Rows of the same width that carry the summands of `z`. -/
def RowsCarry (s : σ) (width : Nat) : List (BitRow β) → Int → Prop
  | [], z => z ≡ 0 [ZMOD 2 ^ width]
  | row :: rows, z => ∃ y, row.length = width ∧ RowCarries W s row y ∧ RowsCarry s width rows (z - y)

theorem RowsCarry.mono {t : σ} {width : Nat} {rows : List (BitRow β)} {z : Int}
    (h : RowsCarry W s width rows z) (hgrows : W.Grows s t) : RowsCarry W t width rows z := by
  induction rows generalizing z with
  | nil => exact h
  | cons row rows ih =>
    obtain ⟨y, hwidth, hrow, hrows⟩ := h
    exact ⟨y, hwidth, hrow.mono hgrows, ih hrows⟩

theorem RowsCarry.congr {width : Nat} {rows : List (BitRow β)} {a b : Int}
    (h : RowsCarry W s width rows a) (hab : a ≡ b [ZMOD 2 ^ width]) : RowsCarry W s width rows b := by
  induction rows generalizing a b with
  | nil => exact hab.symm.trans h
  | cons row rows ih =>
    obtain ⟨y, hwidth, hrow, hrows⟩ := h
    exact ⟨y, hwidth, hrow, ih hrows (hab.sub_right y)⟩

theorem rowsCarry_append {width : Nat} {rows rows' : List (BitRow β)} {a b : Int}
    (h : RowsCarry W s width rows a) (h' : RowsCarry W s width rows' b) :
    RowsCarry W s width (rows ++ rows') (a + b) := by
  induction rows generalizing a with
  | nil =>
    have hb : b ≡ a + b [ZMOD 2 ^ width] := by simpa using (Int.ModEq.add_right b h).symm
    exact h'.congr hb
  | cons row rows ih =>
    obtain ⟨y, hwidth, hrow, hrows⟩ := h
    refine ⟨y, hwidth, hrow, ?_⟩
    have hrest := ih hrows
    rwa [add_sub_right_comm]

theorem rowsCarry_single {width : Nat} {row : BitRow β} {z : Int} (hwidth : row.length = width)
    (h : RowCarries W s row z) : RowsCarry W s width [row] z :=
  ⟨z, hwidth, h, by rw [sub_self]; exact Int.ModEq.refl 0⟩

/-! Row compression. -/

theorem compressColumn_emits {left right third : Option β} {a b c : Bool}
    (hl : SlotReads W s left a) (hr : SlotReads W s right b) (ht : SlotReads W s third c) :
    W.Emits s (compressColumn left right third) fun r t =>
      SlotReads W t r.1 ((a ^^ b) ^^ c) ∧ SlotReads W t r.2 (majority a b c) := by
  have half {x y : β} {a b : Bool} (hx : W.Reads s x a) (hy : W.Reads s y b) :
      W.Emits s (do
        let added ← halfAdder x y
        return ((some added.1, some added.2) : Option β × Option β)) fun r t =>
          SlotReads W t r.1 (a ^^ b) ∧ SlotReads W t r.2 (a && b) := by
    apply Emits.bind (halfAdder_emits hx hy)
    exact fun r t _ hreads => Emits.pure hreads
  cases left with
  | none =>
    cases hl
    cases right with
    | none =>
      cases hr
      cases third with
      | none => cases ht; exact Emits.pure ⟨rfl, rfl⟩
      | some z => exact Emits.pure ⟨by simpa [SlotReads] using ht, by simp [SlotReads, majority]⟩
    | some y =>
      cases third with
      | none =>
        cases ht
        exact Emits.pure ⟨by simpa [SlotReads] using hr, by simp [SlotReads, majority]⟩
      | some z => exact (half hr ht).mono fun r t _ h => by simpa [majority] using h
  | some x =>
    cases right with
    | none =>
      cases hr
      cases third with
      | none =>
        cases ht
        exact Emits.pure ⟨by simpa [SlotReads] using hl, by simp [SlotReads, majority]⟩
      | some z => exact (half hl ht).mono fun r t _ h => by simpa [majority] using h
    | some y =>
      cases third with
      | none =>
        cases ht
        exact (half hl hr).mono fun r t _ h => by simpa [majority] using h
      | some z =>
        apply Emits.bind (fullAdder_emits hl hr ht)
        exact fun r t _ hreads => Emits.pure hreads

/-- The columns of three rows hold the digits of their sum and, doubled, of their carries. -/
theorem sum_digits (n : Nat) (a b c : Int) : ∃ sum carry : Int,
    (∀ i < n, digit sum i = ((digit a i ^^ digit b i) ^^ digit c i)) ∧
    (∀ i < n, digit carry i = majority (digit a i) (digit b i) (digit c i)) ∧
    a + b + c ≡ sum + 2 * carry [ZMOD 2 ^ n] := by
  induction n generalizing a b c with
  | zero => exact ⟨0, 0, fun i hi => by omega, fun i hi => by omega, by simp [Int.modEq_one]⟩
  | succ n ih =>
    obtain ⟨sum, carry, hsum, hcarry, hmod⟩ := ih (a / 2) (b / 2) (c / 2)
    refine ⟨((odd a ^^ odd b) ^^ odd c).toNat + 2 * sum, (majority (odd a) (odd b) (odd c)).toNat + 2 * carry,
      ?_, ?_, ?_⟩
    · intro i hi
      cases i with
      | zero => simp
      | succ i => rw [digit_succ, half_cast_add, hsum i (by omega), digit_succ, digit_succ, digit_succ]
    · intro i hi
      cases i with
      | zero => simp
      | succ i => rw [digit_succ, half_cast_add, hcarry i (by omega), digit_succ, digit_succ, digit_succ]
    · have htotal : a + b + c = ((odd a ^^ odd b) ^^ odd c).toNat +
          2 * (majority (odd a) (odd b) (odd c)).toNat + 2 * (a / 2 + b / 2 + c / 2) := by
        have hadder := majority_toNat (odd a) (odd b) (odd c)
        have ha := odd_toNat a
        have hb := odd_toNat b
        have hc := odd_toNat c
        omega
      have hdouble := (hmod.mul_left' (c := 2)).add_left
        ((((odd a ^^ odd b) ^^ odd c).toNat : Int) + 2 * (majority (odd a) (odd b) (odd c)).toNat)
      rw [← pow_succ', ← htotal] at hdouble
      apply hdouble.trans
      exact congrArg (· % _) (by ring)

theorem compressRowTriplet_emits {left right third : BitRow β} {a b c : Int} {width : Nat}
    (hl : RowCarries W s left a) (hr : RowCarries W s right b) (ht : RowCarries W s third c)
    (hleft : left.length = width) (hright : right.length = width) (hthird : third.length = width) :
    W.Emits s (compressRowTriplet left right third width) fun r t =>
      r.length = 2 ∧ RowsCarry W t width r (a + b + c) := by
  obtain ⟨sum, carry, hsum, hcarry, hmod⟩ := sum_digits width a b c
  have hcolumns : W.Emits s ((List.range width).mapM (compressAt left right third)) fun r t =>
      r.length = (List.range width).length ∧
        ∀ (i : Nat) (column : Option β × Option β), r[i]? = some column →
          SlotReads W t column.1 (digit sum i) ∧ SlotReads W t column.2 (digit carry i) := by
    apply Emits.mapM
    · exact fun _ _ _ _ hgrows h => ⟨h.1.mono hgrows, h.2.mono hgrows⟩
    · intro i column hcolumn t hgrows
      obtain ⟨hi, rfl⟩ := List.getElem?_eq_some_iff.mp hcolumn
      rw [List.length_range] at hi
      have hreadLeft := rowCarries_iff.mp (hl.mono hgrows) i _ (List.getElem?_eq_getElem (hleft ▸ hi))
      have hreadRight := rowCarries_iff.mp (hr.mono hgrows) i _ (List.getElem?_eq_getElem (hright ▸ hi))
      have hreadThird := rowCarries_iff.mp (ht.mono hgrows) i _ (List.getElem?_eq_getElem (hthird ▸ hi))
      rw [List.getElem_range, compressAt, List.getElem?_eq_getElem (hleft ▸ hi),
        List.getElem?_eq_getElem (hright ▸ hi), List.getElem?_eq_getElem (hthird ▸ hi)]
      rw [hsum i hi, hcarry i hi]
      exact compressColumn_emits hreadLeft hreadRight hreadThird
  apply Emits.bind hcolumns
  intro columns t _ ⟨hlength, hreads⟩
  rw [List.length_range] at hlength
  have hsums : RowCarries W t (columns.map Prod.fst) sum := by
    apply rowCarries_iff.mpr
    intro i bit hbit
    rw [List.getElem?_map, Option.map_eq_some_iff] at hbit
    obtain ⟨column, hcolumn, rfl⟩ := hbit
    exact (hreads i column hcolumn).1
  have hcarries : RowCarries W t (columns.map Prod.snd) carry := by
    apply rowCarries_iff.mpr
    intro i bit hbit
    rw [List.getElem?_map, Option.map_eq_some_iff] at hbit
    obtain ⟨column, hcolumn, rfl⟩ := hbit
    exact (hreads i column hcolumn).2
  refine Emits.pure ⟨rfl, sum, by rw [List.length_map, hlength], hsums, 2 * carry, ?_,
    hcarries.shift.take width, ?_⟩
  · simp [hlength]
  · have hrest : a + b + c - sum - 2 * carry = (a + b + c) - (sum + 2 * carry) := by ring
    rw [hrest]
    exact (hmod.sub_right _).trans (by rw [sub_self])

/-- Three rows become two. -/
theorem compressTriple {width : Nat} {left right third : BitRow β} {rest : List (BitRow β)} {z : Int}
    (h : RowsCarry W s width (left :: right :: third :: rest) z) : ∃ y,
    (W.Emits s (compressRowTriplet left right third width) fun r t =>
      r.length = 2 ∧ RowsCarry W t width r y) ∧ RowsCarry W s width rest (z - y) := by
  obtain ⟨a, hleft, ha, b, hright, hb, c, hthird, hc, hrest⟩ := h
  refine ⟨a + b + c, compressRowTriplet_emits ha hb hc hleft hright hthird, ?_⟩
  have heq : z - (a + b + c) = z - a - b - c := by ring
  rwa [heq]

theorem reduceRowsSerial_emits {width : Nat} {rows : List (BitRow β)} {z : Int}
    (h : RowsCarry W s width rows z) :
    W.Emits s (reduceRowsSerial rows width) fun r t => r.length ≤ 2 ∧ RowsCarry W t width r z := by
  rcases rows with _ | ⟨left, _ | ⟨right, remainder⟩⟩
  · exact Emits.pure ⟨by simp, h⟩
  · exact Emits.pure ⟨by simp, h⟩
  · obtain ⟨a, hleft, ha, b, hright, hb, hrest⟩ := h
    have hpair : RowsCarry W s width [left, right] (a + b) :=
      rowsCarry_append (rowsCarry_single hleft ha) (rowsCarry_single hright hb)
    have hstart : [left, right].length = 2 ∧ ∃ y, RowsCarry W s width [left, right] y ∧
        RowsCarry W s width (remainder.drop ([] : List (BitRow β)).length) (z - y) :=
      ⟨rfl, a + b, hpair, by simpa [sub_sub] using hrest⟩
    refine (Emits.foldlM (W := W.toGrowing) (fun done r t => r.length = 2 ∧ ∃ y, RowsCarry W t width r y ∧
      RowsCarry W t width (remainder.drop done.length) (z - y)) hstart ?_).mono ?_
    rotate_left
    · rintro r t _ ⟨hlength, y, hr, hdone⟩
      rw [List.drop_length] at hdone
      exact ⟨hlength.le, hr.congr (by simpa using (hdone.add_right y).symm)⟩
    · rintro done row rest hsplit r t _ ⟨hlength, y, hr, hdrop⟩
      have hremaining : remainder.drop done.length = row :: rest := by
        rw [← hsplit, List.drop_left]
      have hnext : remainder.drop (done ++ [row]).length = rest := by
        have happend : done ++ row :: rest = (done ++ [row]) ++ rest := List.append_cons ..
        rw [← hsplit, happend, List.drop_left]
      rw [hremaining] at hdrop
      obtain ⟨left, right, rfl⟩ := List.length_eq_two.mp hlength
      obtain ⟨c, hrow, hc, hrest⟩ := hdrop
      obtain ⟨a, hleft, ha, b, hright, hb, hzero⟩ := hr
      apply (compressRowTriplet_emits ha hb hc hleft hright hrow).mono
      rintro r u hgrows ⟨hlength, hr⟩
      refine ⟨hlength, a + b + c, hr, ?_⟩
      rw [hnext]
      apply (hrest.mono hgrows).congr
      have hy : y ≡ a + b [ZMOD 2 ^ width] := by
        have := hzero.add_right (a + b)
        simpa [sub_sub] using this
      have heq : z - (a + b + c) = z - (a + b) - c := by ring
      rw [heq]
      exact (hy.sub_left z).sub_right c

theorem compressTriplets_emits {s : σ} {width : Nat} (rows : List (BitRow β)) {z : Int}
    (h : RowsCarry W s width rows z) :
    W.Emits s (compressTriplets width rows) fun r t =>
      r.length = 2 * (rows.length / 3) + rows.length % 3 ∧ RowsCarry W t width r z := by
  match rows with
  | [] => exact Emits.pure ⟨by simp, h⟩
  | [_] => exact Emits.pure ⟨by simp, h⟩
  | [_, _] => exact Emits.pure ⟨by simp, h⟩
  | left :: right :: third :: rest =>
    obtain ⟨y, hpair, hrest⟩ := compressTriple h
    apply Emits.bind hpair
    intro pair t hgrows ⟨hlength, hpair⟩
    apply Emits.bind (compressTriplets_emits rest (hrest.mono hgrows))
    intro next u hlater ⟨hnext, hrows⟩
    refine Emits.pure ⟨?_, ?_⟩
    · simp only [List.length_append, hlength, hnext, List.length_cons]
      omega
    · have happend := rowsCarry_append (hpair.mono hlater) hrows
      rwa [add_sub_cancel] at happend

theorem reduceRowsBalanced_emits {width : Nat} (fuel : Nat) {rows : List (BitRow β)} {z : Int}
    (h : RowsCarry W s width rows z) (hfuel : rows.length < fuel) :
    W.Emits s (reduceRowsBalanced width fuel rows) fun r t =>
      r.length ≤ 2 ∧ RowsCarry W t width r z := by
  induction fuel generalizing s rows with
  | zero => omega
  | succ fuel ih =>
    rw [reduceRowsBalanced]
    split_ifs with hmany
    · apply Emits.bind (compressTriplets_emits rows h)
      intro next t _ ⟨hlength, hnext⟩
      exact ih hnext (by omega)
    · exact Emits.pure ⟨by omega, h⟩

/-! Columns. -/

variable (W) in
/-- The column has `k` ones. -/
def Counts (s : σ) : BitColumn β → Nat → Prop
  | [], k => k = 0
  | x :: column, k => ∃ a j, W.Reads s x a ∧ Counts s column j ∧ k = a.toNat + j

theorem Counts.mono {t : σ} {column : BitColumn β} {k : Nat} (h : Counts W s column k)
    (hgrows : W.Grows s t) : Counts W t column k := by
  induction column generalizing k with
  | nil => exact h
  | cons x column ih =>
    obtain ⟨a, j, hx, hcolumn, hk⟩ := h
    exact ⟨a, j, W.mono hgrows hx, ih hcolumn, hk⟩

theorem counts_append {column column' : BitColumn β} {k k' : Nat} (h : Counts W s column k)
    (h' : Counts W s column' k') : Counts W s (column ++ column') (k + k') := by
  induction column generalizing k with
  | nil =>
    cases h
    rwa [Nat.zero_add]
  | cons x column ih =>
    obtain ⟨a, j, hx, hcolumn, rfl⟩ := h
    exact ⟨a, j + k', hx, ih hcolumn, by omega⟩

variable (W) in
/-- The ones of the columns, doubled from column to column, make up `z`. -/
def ColumnsCarry (s : σ) : List (BitColumn β) → Int → Prop
  | [], _ => True
  | column :: columns, z => ∃ (k : Nat) (y : Int), Counts W s column k ∧ ColumnsCarry s columns y ∧
      z = k + 2 * y

theorem ColumnsCarry.mono {t : σ} {columns : List (BitColumn β)} {z : Int}
    (h : ColumnsCarry W s columns z) (hgrows : W.Grows s t) : ColumnsCarry W t columns z := by
  induction columns generalizing z with
  | nil => exact trivial
  | cons column columns ih =>
    obtain ⟨k, y, hk, hy, hz⟩ := h
    exact ⟨k, y, hk.mono hgrows, ih hy, hz⟩

/-- The adders of a column keep its ones, those of the carries counted twice. -/
theorem reduceColumn_emits (full half : Nat) (column : BitColumn β) {k : Nat}
    (h : Counts W s column k) (hfit : full * 3 + half * 2 ≤ column.length) :
    W.Emits s (reduceColumn full half column) fun r t =>
      r.1.length = column.length - full * 2 - half ∧ r.2.length = full + half ∧
        ∃ j l, Counts W t r.1 j ∧ Counts W t r.2 l ∧ k = j + 2 * l := by
  induction full generalizing s column k with
  | succ full ih =>
    match column with
    | left :: right :: third :: rest =>
      obtain ⟨a, _, hl, ⟨b, _, hr, ⟨c, j, ht, hrest, rfl⟩, rfl⟩, rfl⟩ := h
      apply Emits.bind (fullAdder_emits hl hr ht)
      intro r t hgrows ⟨hsum, hcarry⟩
      apply Emits.bind (ih rest (hrest.mono hgrows) (by simp at hfit; omega))
      intro r' u hlater ⟨hlength, hcarries, j', l, hj, hl, hk⟩
      have hadder := majority_toNat a b c
      refine Emits.pure ⟨?_, ?_, _, _, ⟨_, j', W.mono hlater hsum, hj, rfl⟩,
        ⟨_, l, W.mono hlater hcarry, hl, rfl⟩, by omega⟩
      · simp at hfit hlength ⊢; omega
      · simp [hcarries]; omega
    | [] => simp at hfit
    | [_] => simp at hfit; omega
    | [_, _] => simp at hfit; omega
  | zero =>
    induction half generalizing s column k with
    | succ half ih =>
      match column with
      | left :: right :: rest =>
        obtain ⟨a, _, hl, ⟨b, j, hr, hrest, rfl⟩, rfl⟩ := h
        apply Emits.bind (halfAdder_emits hl hr)
        intro r t hgrows ⟨hsum, hcarry⟩
        apply Emits.bind (ih rest (hrest.mono hgrows) (by simp at hfit; omega))
        intro r' u hlater ⟨hlength, hcarries, j', l, hj, hl, hk⟩
        have hadder : (a ^^ b).toNat + 2 * (a && b).toNat = a.toNat + b.toNat := by
          cases a <;> cases b <;> rfl
        refine Emits.pure ⟨?_, ?_, _, _, ⟨_, j', W.mono hlater hsum, hj, rfl⟩,
          ⟨_, l, W.mono hlater hcarry, hl, rfl⟩, by omega⟩
        · simp at hfit hlength ⊢; omega
        · simp [hcarries]
      | [] => simp at hfit
      | [_] => simp at hfit; omega
    | zero =>
      have hreturn : reduceColumn 0 0 column = (pure (column, []) : BlastM σ ε _) := by
        match column with
        | [] => rfl
        | [_] => rfl
        | [_, _] => rfl
        | _ :: _ :: _ :: _ => rfl
      rw [hreturn]
      exact Emits.pure ⟨rfl, rfl, k, 0, h, rfl, by omega⟩

/-- The heights that a pass leaves. -/
def passHeights (plan : Nat → Nat → Nat × Nat) : Nat → List Nat → List Nat
  | _, [] => []
  | incoming, height :: heights =>
    let adders := plan incoming height
    (incoming + (height - adders.1 * 2 - adders.2)) :: passHeights plan (adders.1 + adders.2) heights

/-- The adders of a plan find their inputs. -/
def Fits (plan : Nat → Nat → Nat × Nat) : Prop :=
  ∀ incoming height, (plan incoming height).1 * 3 + (plan incoming height).2 * 2 ≤ height

theorem reducePass_emits {plan : Nat → Nat → Nat × Nat} (hfits : Fits plan)
    (columns : List (BitColumn β)) {incoming : BitColumn β} {j : Nat} {z : Int}
    (hincoming : Counts W s incoming j) (h : ColumnsCarry W s columns z) :
    W.Emits s (reducePass plan incoming columns) fun r t =>
      r.1.map List.length = passHeights plan incoming.length (columns.map List.length) ∧
        ColumnsCarry W t r.1 (z + j) := by
  induction columns generalizing s incoming j z with
  | nil => exact Emits.pure ⟨rfl, trivial⟩
  | cons column columns ih =>
    obtain ⟨k, y, hk, hy, rfl⟩ := h
    apply Emits.bind (reduceColumn_emits _ _ column hk (hfits _ _))
    intro r t hgrows ⟨hsums, hcarries, j', l, hj', hl, hkl⟩
    apply Emits.bind (ih hl (hy.mono hgrows))
    intro next u hlater ⟨hheights, hnext⟩
    have hcount := counts_append (hincoming.mono (W.trans hgrows hlater)) (hj'.mono hlater)
    refine Emits.pure ⟨?_, _, _, hcount, hnext, ?_⟩
    · simp only [List.map_cons, List.length_append, hsums, hheights, hcarries, passHeights]
    · push_cast [hkl]
      ring

theorem fits_wallacePlan : Fits wallacePlan := by
  intro incoming height
  simp only [wallacePlan]
  omega

theorem fits_daddaPlan (target : Nat) : Fits (daddaPlan target) := by
  intro incoming height
  simp only [daddaPlan]
  omega

/-- A full adder takes one bit out of the columns. -/
theorem sum_passHeights_wallace (incoming : Nat) (heights : List Nat) :
    (passHeights wallacePlan incoming heights).sum + (heights.map (· / 3)).sum ≤
      incoming + heights.sum := by
  induction heights generalizing incoming with
  | nil => simp [passHeights]
  | cons height heights ih =>
    have hrest := ih (height / 3)
    simp only [passHeights, wallacePlan, List.sum_cons, List.map_cons, Nat.add_zero]
    omega

theorem sum_thirds_pos {heights : List Nat} (h : ∃ height ∈ heights, 2 < height) :
    0 < (heights.map (· / 3)).sum := by
  obtain ⟨height, hmem, htall⟩ := h
  have hle := List.single_le_sum (fun _ _ => Nat.zero_le _) (height / 3)
    (List.mem_map_of_mem (f := (· / 3)) hmem)
  omega

/-- One pass reaches the next target: the carries into a column are at most half of it. -/
theorem passHeights_dadda {target incoming : Nat} {heights : List Nat} (hincoming : incoming ≤ target / 2)
    (hheights : ∀ height ∈ heights, height ≤ target * 3 / 2) :
    ∀ height ∈ passHeights (daddaPlan target) incoming heights, height ≤ target := by
  induction heights generalizing incoming with
  | nil => exact fun _ h => by cases h
  | cons height heights ih =>
    have hheight := hheights height List.mem_cons_self
    simp only [passHeights, daddaPlan, List.mem_cons, forall_eq_or_imp]
    constructor
    · omega
    · apply ih
      · omega
      · exact fun other hother => hheights other (List.mem_cons_of_mem height hother)

/-- Columns of at most two bits are two rows. -/
theorem columns_rows {columns : List (BitColumn β)} {z : Int} (h : ColumnsCarry W s columns z)
    (hshort : ∀ column ∈ columns, column.length ≤ 2) : ∃ a b,
    RowCarries W s (columns.map (·[0]?)) a ∧ RowCarries W s (columns.map (·[1]?)) b ∧
      z ≡ a + b [ZMOD 2 ^ columns.length] := by
  induction columns generalizing z with
  | nil => exact ⟨0, 0, trivial, trivial, by simp [Int.modEq_one]⟩
  | cons column columns ih =>
    obtain ⟨k, y, hk, hy, rfl⟩ := h
    obtain ⟨a, b, ha, hb, hab⟩ := ih hy fun column h => hshort column (List.mem_cons_of_mem _ h)
    have hcolumn := hshort column List.mem_cons_self
    have hdouble : 2 * y ≡ 2 * (a + b) [ZMOD 2 ^ (columns.length + 1)] := by
      rw [pow_succ']
      exact hab.mul_left' (c := 2)
    have hcons {p q : Bool} (hk : k = p.toNat + q.toNat) (hp : SlotReads W s column[0]? p)
        (hq : SlotReads W s column[1]? q) : ∃ a b,
        RowCarries W s ((column :: columns).map (·[0]?)) a ∧
          RowCarries W s ((column :: columns).map (·[1]?)) b ∧
          (k : Int) + 2 * y ≡ a + b [ZMOD 2 ^ (columns.length + 1)] := by
      refine ⟨p.toNat + 2 * a, q.toNat + 2 * b, ⟨?_, ?_⟩, ⟨?_, ?_⟩, ?_⟩
      · rwa [odd_cast_add]
      · rwa [half_cast_add]
      · rwa [odd_cast_add]
      · rwa [half_cast_add]
      · apply (hdouble.add_left (k : Int)).trans
        apply congrArg (· % _)
        rw [hk]
        push_cast
        ring
    match column, hk with
    | [], hk => exact hcons (p := false) (q := false) hk rfl rfl
    | [x], ⟨p, j, hx, hj, hk⟩ =>
      cases hj
      exact hcons (q := false) hk hx rfl
    | [x, y], ⟨p, _, hx, ⟨q, j, hy, hj, hq⟩, hk⟩ =>
      cases hj
      exact hcons (by omega) hx hy

theorem columnsToRows_emits {columns : List (BitColumn β)} {z : Int} (h : ColumnsCarry W s columns z)
    (hshort : ∀ column ∈ columns, column.length ≤ 2) :
    W.Emits s (columnsToRows columns) fun r t => r.length ≤ 2 ∧ RowsCarry W t columns.length r z := by
  obtain ⟨a, b, ha, hb, hab⟩ := columns_rows h hshort
  have hany : ¬columns.any (2 < ·.length) := by
    simpa using hshort
  rw [columnsToRows, if_neg hany]
  have hpair := rowsCarry_append (rowsCarry_single (columns.length_map _) ha)
    (rowsCarry_single (columns.length_map _) hb)
  exact Emits.pure ⟨by simp, hpair.congr hab.symm⟩

theorem length_passHeights (plan : Nat → Nat → Nat × Nat) (incoming : Nat) (heights : List Nat) :
    (passHeights plan incoming heights).length = heights.length := by
  induction heights generalizing incoming with
  | nil => rfl
  | cons height heights ih => simp [passHeights, ih]

/-- A pass over all columns. -/
theorem pass_emits {plan : Nat → Nat → Nat × Nat} (hfits : Fits plan) {columns : List (BitColumn β)}
    {z : Int} (h : ColumnsCarry W s columns z) :
    W.Emits s (reducePass plan [] columns) fun r t =>
      r.1.length = columns.length ∧
      r.1.map List.length = passHeights plan 0 (columns.map List.length) ∧
        ColumnsCarry W t r.1 z := by
  have hnothing : Counts W s [] 0 := rfl
  apply (reducePass_emits hfits columns hnothing h).mono
  intro r t _ ⟨hheights, hcarry⟩
  have hlength := congrArg List.length hheights
  rw [length_passHeights, List.length_map, List.length_map] at hlength
  refine ⟨hlength, hheights, ?_⟩
  simpa using hcarry

theorem reduceColumnsWallace_emits (fuel : Nat) {columns : List (BitColumn β)} {z : Int}
    (h : ColumnsCarry W s columns z) (hfuel : totalBits columns < fuel) :
    W.Emits s (reduceColumnsWallace fuel columns) fun r t =>
      r.length ≤ 2 ∧ RowsCarry W t columns.length r z := by
  induction fuel generalizing s columns with
  | zero => omega
  | succ fuel ih =>
    rw [reduceColumnsWallace]
    split_ifs with htall
    · apply Emits.bind (pass_emits fits_wallacePlan h)
      intro r t _ ⟨hlength, hheights, hcarry⟩
      rw [← hlength]
      apply ih hcarry
      have htall : ∃ height ∈ columns.map List.length, 2 < height := by simpa using htall
      have hsum := sum_passHeights_wallace 0 (columns.map List.length)
      have hpos := sum_thirds_pos htall
      rw [totalBits] at hfuel ⊢
      rw [hheights]
      omega
    · exact columnsToRows_emits h (by simpa using htall)

theorem reduceToTarget_emits {target : Nat} (fuel : Nat) {columns : List (BitColumn β)} {z : Int}
    (h : ColumnsCarry W s columns z) (hheights : ∀ column ∈ columns, column.length ≤ target * 3 / 2) :
    W.Emits s (reduceToTarget target (fuel + 1) columns) fun r t =>
      r.length = columns.length ∧ (∀ column ∈ r, column.length ≤ target) ∧ ColumnsCarry W t r z := by
  apply Emits.bind (pass_emits (fits_daddaPlan target) h)
  intro r t _ ⟨hlength, hr, hcarry⟩
  have hreached : ∀ column ∈ r.1, column.length ≤ target := by
    intro column hcolumn
    have hbounded := passHeights_dadda (show 0 ≤ target / 2 by omega)
      (show ∀ height ∈ columns.map List.length, height ≤ target * 3 / 2 by simpa using hheights)
    apply hbounded
    rw [← hr]
    exact List.mem_map_of_mem hcolumn
  have hall : r.1.all (·.length ≤ target) := by simpa using hreached
  simp only [hall, if_true]
  exact Emits.pure ⟨hlength, hreached, hcarry⟩

theorem daddaTargets_ne_nil (maximum target : Nat) : daddaTargets maximum target ≠ [] := by
  rw [daddaTargets]
  split_ifs <;> simp

theorem maximum_le_getLast {maximum target : Nat} (h : 2 ≤ target) :
    maximum ≤ (daddaTargets maximum target).getLast (daddaTargets_ne_nil _ _) := by
  induction target using daddaTargets.induct maximum with
  | case1 target hlt ih =>
    have hlist : daddaTargets maximum target = target :: daddaTargets maximum (target * 3 / 2) := by
      rw [daddaTargets, if_pos hlt]
    simp only [hlist]
    rw [List.getLast_cons (daddaTargets_ne_nil _ _)]
    exact ih (by omega)
  | case2 target hlt =>
    have hlist : daddaTargets maximum target = [target] := by rw [daddaTargets, if_neg hlt]
    simp only [hlist, List.getLast_singleton]
    omega

/-- The targets are reached from the last down to the first. -/
theorem daddaTargets_emits {maximum target : Nat} (htarget : 2 ≤ target)
    {columns : List (BitColumn β)} {z : Int} (h : ColumnsCarry W s columns z)
    (hheights : ∀ column ∈ columns, column.length ≤ maximum) :
    W.Emits s (((daddaTargets maximum target).reverse.drop 1).foldlM
      (fun columns target => reduceToTarget target (totalBits columns + 1) columns) columns)
      fun r t => r.length = columns.length ∧ (∀ column ∈ r, column.length ≤ target) ∧
        ColumnsCarry W t r z := by
  induction target using daddaTargets.induct maximum with
  | case1 target hlt ih =>
    have hlist : (daddaTargets maximum target).reverse.drop 1 =
        (daddaTargets maximum (target * 3 / 2)).reverse.drop 1 ++ [target] := by
      rw [daddaTargets, if_pos hlt, List.reverse_cons, List.drop_append_of_le_length]
      have := List.length_pos_iff.mpr (daddaTargets_ne_nil maximum (target * 3 / 2))
      rw [List.length_reverse]
      exact this
    rw [hlist, List.foldlM_append]
    apply Emits.bind (ih (by omega))
    intro r t _ ⟨hlength, hreached, hcarry⟩
    rw [List.foldlM_cons]
    simp only [List.foldlM_nil, bind_pure]
    apply (reduceToTarget_emits _ hcarry hreached).mono
    exact fun r' u _ ⟨hlength', hreached', hcarry'⟩ => ⟨hlength'.trans hlength, hreached', hcarry'⟩
  | case2 target hlt =>
    have hlist : (daddaTargets maximum target).reverse.drop 1 = [] := by
      rw [daddaTargets, if_neg hlt]
      rfl
    rw [hlist]
    exact Emits.pure ⟨rfl, fun column hcolumn => (hheights column hcolumn).trans (by omega), h⟩

end Opto.Bitblast
