import Mathlib.Algebra.GroupWithZero.Nat
import Mathlib.Data.Finset.Card
import Mathlib.Data.Fintype.Card
import Mathlib.Logic.Function.Iterate

/-!
# Linear probing

An open-addressed table places a key at the first slot, from the key's home on, that is free
or holds the key already. Slots are only ever filled, so a key that was placed is found again.
-/

namespace Opto.Probing

variable {κ : Type} [DecidableEq κ] {n : Nat} [NeZero n]

/-- The first slot that is free or holds the key. -/
def probe (occupant : Fin n → Option κ) (key : κ) : Nat → Fin n → Option (Fin n)
  | 0, _ => none
  | fuel + 1, slot =>
    match occupant slot with
    | none => some slot
    | some held => if held = key then some slot else probe occupant key fuel (slot + 1)

variable {occupant : Fin n → Option κ} {key other : κ} {fuel : Nat} {slot found free : Fin n}

theorem probe_found (h : probe occupant key fuel slot = some found) :
    occupant found = none ∨ occupant found = some key := by
  induction fuel generalizing slot with
  | zero => cases h
  | succ fuel ih =>
    rw [probe] at h
    cases hslot : occupant slot with
    | none =>
      rw [hslot] at h
      cases h
      exact .inl hslot
    | some held =>
      simp only [hslot] at h
      split_ifs at h with heq
      · cases h
        exact .inr (heq ▸ hslot)
      · exact ih h

/-! A free slot stops the search. -/

theorem probe_stops (d : Nat) (hfree : occupant ((· + 1)^[d] slot) = none) (hfuel : d < fuel) :
    ∃ found, probe occupant key fuel slot = some found := by
  induction d generalizing slot fuel with
  | zero =>
    obtain ⟨fuel, rfl⟩ := Nat.exists_eq_succ_of_ne_zero (Nat.ne_zero_of_lt hfuel)
    have hfree : occupant slot = none := hfree
    exact ⟨slot, by rw [probe, hfree]⟩
  | succ d ih =>
    obtain ⟨fuel, rfl⟩ := Nat.exists_eq_succ_of_ne_zero (Nat.ne_zero_of_lt hfuel)
    rw [probe]
    cases occupant slot with
    | none => exact ⟨slot, rfl⟩
    | some held =>
      dsimp only
      split_ifs
      · exact ⟨slot, rfl⟩
      · exact ih hfree (by omega)

theorem iterate_succ_val (d : Nat) (slot : Fin n) : ((· + 1)^[d] slot).val = (slot.val + d) % n := by
  induction d generalizing slot with
  | zero => exact (Nat.mod_eq_of_lt slot.isLt).symm
  | succ d ih =>
    rw [Function.iterate_succ_apply, ih, Fin.val_add, Nat.mod_add_mod, Fin.val_one', Nat.add_assoc,
      Nat.add_left_comm, Nat.mod_add_mod, Nat.add_left_comm, Nat.add_comm 1 d]

theorem exists_iterate (slot free : Fin n) : ∃ d < n, (· + 1)^[d] slot = free := by
  have hslot := slot.isLt
  have hfree := free.isLt
  by_cases hle : slot.val ≤ free.val
  · refine ⟨free.val - slot.val, by omega, Fin.ext ?_⟩
    rw [iterate_succ_val, Nat.add_sub_cancel' hle, Nat.mod_eq_of_lt hfree]
  · refine ⟨free.val + n - slot.val, by omega, Fin.ext ?_⟩
    rw [iterate_succ_val, Nat.add_sub_cancel' (by omega), Nat.add_mod_right, Nat.mod_eq_of_lt hfree]

/-- As many probes as slots find a place while a slot is free. -/
theorem probe_total (hfree : occupant free = none) (key : κ) (slot : Fin n) :
    ∃ found, probe occupant key n slot = some found := by
  obtain ⟨d, hd, rfl⟩ := exists_iterate slot free
  exact probe_stops d hfree hd

omit [DecidableEq κ] [NeZero n] in
/-- A list shorter than the table that has every filled slot leaves a free one. -/
theorem exists_free {touched : List (Fin n)} (hlength : touched.length < n)
    (h : ∀ slot, occupant slot ≠ none → slot ∈ touched) : ∃ free, occupant free = none := by
  have hcard : touched.toFinset.card < (Finset.univ : Finset (Fin n)).card := by
    rw [Finset.card_univ, Fintype.card_fin]
    exact Nat.lt_of_le_of_lt touched.toFinset_card_le hlength
  obtain ⟨free, -, hfree⟩ := Finset.exists_mem_notMem_of_card_lt_card hcard
  refine ⟨free, ?_⟩
  by_contra hne
  exact hfree (List.mem_toFinset.mpr (h free hne))

/-! Filling a free slot. -/

theorem probe_fill_other (h : probe occupant key fuel slot = some found) (hfree : occupant free = none)
    (hne : found ≠ free) :
    probe (Function.update occupant free (some other)) key fuel slot = some found := by
  induction fuel generalizing slot with
  | zero => cases h
  | succ fuel ih =>
    rw [probe] at h ⊢
    by_cases hslot : slot = free
    · subst hslot
      rw [hfree] at h
      cases h
      exact absurd rfl hne
    · rw [Function.update_of_ne hslot]
      cases hheld : occupant slot with
      | none => rw [hheld] at h; exact h
      | some held =>
        simp only [hheld] at h ⊢
        split_ifs at h ⊢ with heq
        · exact h
        · exact ih h

theorem probe_filled (h : probe occupant key fuel slot = some free) (hfree : occupant free = none) :
    probe (Function.update occupant free (some key)) key fuel slot = some free := by
  induction fuel generalizing slot with
  | zero => cases h
  | succ fuel ih =>
    rw [probe] at h ⊢
    by_cases hslot : slot = free
    · subst hslot
      rw [Function.update_self]
      exact if_pos rfl
    · rw [Function.update_of_ne hslot]
      cases hheld : occupant slot with
      | none =>
        rw [hheld] at h
        exact absurd (Option.some.inj h) hslot
      | some held =>
        simp only [hheld] at h ⊢
        split_ifs at h ⊢ with heq
        · exact h
        · exact ih h

/-! Tables whose keys are where a search ends. -/

def Placed (occupant : Fin n → Option κ) (home : κ → Fin n) : Prop :=
  ∀ slot key, occupant slot = some key → probe occupant key n (home key) = some slot

variable {home : κ → Fin n}

theorem placed_empty (home : κ → Fin n) : Placed (fun _ => none) home := nofun

/-- A search that ends at a free slot proves the key absent. -/
theorem Placed.absent (h : Placed occupant home) (hprobe : probe occupant key n (home key) = some found)
    (hfree : occupant found = none) (slot : Fin n) : occupant slot ≠ some key := by
  intro hslot
  have hsame := hprobe.symm.trans (h slot key hslot)
  cases hsame
  rw [hfree] at hslot
  cases hslot

theorem Placed.fill (h : Placed occupant home) (hprobe : probe occupant key n (home key) = some free)
    (hfree : occupant free = none) : Placed (Function.update occupant free (some key)) home := by
  intro slot held hheld
  by_cases hslot : slot = free
  · subst hslot
    rw [Function.update_self, Option.some.injEq] at hheld
    subst hheld
    exact probe_filled hprobe hfree
  · rw [Function.update_of_ne hslot] at hheld
    exact probe_fill_other (h slot held hheld) hfree hslot

end Opto.Probing
