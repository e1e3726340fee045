import Opto.Bitblast.Backend

/-!
# Bit vectors

An operand is a lowered value with its type. Its bits beyond the stored ones are copies of
the sign or zeros, so resizing it to any width leaves the integer that it stands for.
-/

namespace Opto.Bitblast

open Word Growing TwosComplement

variable {σ ε β γ : Type} [BitBackend σ ε β]

structure Operand (β : Type) where
  bits : List β
  ty : WordType
  sized : bits.length = ty.width

def panicAt {α : Type} (message : String) : BlastM σ ε α := throw (.panic message)

def invariantError {α : Type} (message : String) : BlastM σ ε α := throw (.invariant message)

def bit (value : Operand β) (index : Nat) : BlastM σ ε β :=
  match value.bits[index]? with
  | some bit => pure bit
  | none => panicAt "index out of bounds"

def resizedBit (value : Operand β) (index : Nat) (signExtend : Bool) : BlastM σ ε β :=
  if index < value.bits.length then bit value index
  else if signExtend && value.ty.signed then bit value (value.bits.length - 1)
  else constant false

def resizedBits (value : Operand β) (width : Nat) (signExtend : Bool) : BlastM σ ε (List β) :=
  (List.range width).mapM fun index => resizedBit value index signExtend

section

variable {W : Meaning σ ε β} {s : σ}

variable (W) in
/-- Running `m` returns the low `width` bits of `z`. -/
abbrev Returns (s : σ) (m : BlastM σ ε (List β)) (width : Nat) (z : Int) : Prop :=
  W.Emits s m fun r t => r.length = width ∧ W.Carries t r z

/-- One bit after the other for a vector that carries an integer. -/
theorem mapM_carries {f : γ → BlastM σ ε β} {l : List γ} {z : Int}
    (hf : ∀ (i : Nat) (x : γ), l[i]? = some x → ∀ t, W.Grows s t →
      W.Emits t (f x) fun y u => W.Reads u y (digit z i)) :
    Returns W s (l.mapM f) l.length z := by
  apply (Emits.mapM (P := fun i y t => W.Reads t y (digit z i)) (fun _ _ _ _ => W.mono) hf).mono
  exact fun ys t _ ⟨hlength, hys⟩ => ⟨hlength, carries_iff.mpr hys⟩

theorem mapM_range_carries {f : Nat → BlastM σ ε β} {n : Nat} {z : Int}
    (hf : ∀ i < n, ∀ t, W.Grows s t → W.Emits t (f i) fun y u => W.Reads u y (digit z i)) :
    Returns W s ((List.range n).mapM f) n z := by
  have hall := mapM_carries (W := W) (s := s) (f := f) (l := List.range n) (z := z) fun i x hx => by
    obtain ⟨hi, rfl⟩ := List.getElem?_eq_some_iff.mp hx
    rw [List.length_range] at hi
    rw [List.getElem_range]
    exact hf i hi
  rwa [List.length_range] at hall

variable (W) in
/-- The operand holds the word `x`. -/
def Holds (s : σ) (value : Operand β) (x : Nat) : Prop :=
  x < 2 ^ value.ty.width ∧ W.Carries s value.bits x

theorem Holds.mono {t : σ} {value : Operand β} {x : Nat} (h : Holds W s value x)
    (hgrows : W.Grows s t) : Holds W t value x := ⟨h.1, h.2.mono hgrows⟩

/-- The integer that an operand holding `x` stands for, when the sign bit of a signed type
may count. -/
def Operand.reading (value : Operand β) (signExtend : Bool) (x : Nat) : Int :=
  read (signExtend && value.ty.signed) value.ty.width x

theorem bit_emits {value : Operand β} {x : Nat} (h : Holds W s value x) {index : Nat}
    (hindex : index < value.ty.width) :
    W.Emits s (bit value index) fun b t => W.Reads t b (digit x index) := by
  have hlt : index < value.bits.length := by rw [value.sized]; exact hindex
  have hbit := List.getElem?_eq_getElem hlt
  rw [bit, hbit]
  exact Emits.pure (h.2.read hbit)

theorem digit_reading (value : Operand β) (signExtend : Bool) (x : Nat) {index : Nat}
    (hindex : index < value.ty.width) : digit (value.reading signExtend x) index = digit x index :=
  digit_congr (read_modEq _ _ x) hindex

/-- Past the word, a signed reading repeats the sign. -/
theorem digit_signed {width index x : Nat} (hx : x < 2 ^ width) (hwidth : 0 < width)
    (hindex : width ≤ index) : digit (read true width x) index = digit x (width - 1) := by
  have hpow : (2 : Int) ^ width ≤ 2 ^ index := pow_le_pow_right₀ (by decide) hindex
  have hhalf : (2 : Int) ^ width = 2 * 2 ^ (width - 1) := by
    rw [← pow_succ', Nat.sub_add_cancel hwidth]
  have hcast : ((2 ^ width : Nat) : Int) = 2 ^ width := by simp
  by_cases hneg : 2 ^ width ≤ 2 * x
  · rw [read_negative hneg, digit_negative (by omega) (by omega)]
    rw [← digit_congr (a := x - 2 ^ width) (n := width) (Int.modEq_iff_dvd.mpr ⟨1, by ring⟩) (by omega)]
    exact (digit_negative (by omega) (by omega)).symm
  · rw [read_nonneg _ (by omega), digit_small (by omega) (by omega)]
    exact (digit_small (by omega) (by omega)).symm

theorem resizedBit_emits {value : Operand β} {x : Nat} (h : Holds W s value x) (index : Nat)
    (signExtend : Bool) : W.Emits s (resizedBit value index signExtend) fun b t =>
      W.Reads t b (digit (value.reading signExtend x) index) := by
  have hpositive := value.ty.positive
  rw [resizedBit, value.sized]
  split_ifs with hindex hsign
  · apply (bit_emits h hindex).mono
    intro b t _ hb
    rwa [digit_reading value signExtend x hindex]
  · apply (bit_emits h (show value.ty.width - 1 < value.ty.width by omega)).mono
    intro b t _ hb
    rwa [Operand.reading, hsign, digit_signed h.1 hpositive (by omega)]
  · apply (W.constant_emits s false).mono
    intro b t _ hb
    have hx : (x : Int) < 2 ^ index := by
      have hpow : 2 ^ value.ty.width ≤ 2 ^ index := Nat.pow_le_pow_right (by decide) (by omega)
      exact_mod_cast Nat.lt_of_lt_of_le h.1 hpow
    rw [Operand.reading, Bool.eq_false_iff.mpr hsign, read_unsigned, digit_small (by omega) hx]
    exact hb

theorem resizedBits_emits {value : Operand β} {x : Nat} (h : Holds W s value x) (width : Nat)
    (signExtend : Bool) : Returns W s (resizedBits value width signExtend) width (value.reading signExtend x) :=
  mapM_range_carries fun index _ _ hgrows => resizedBit_emits (h.mono hgrows) index signExtend

end
end Opto.Bitblast
