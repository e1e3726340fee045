import Mathlib.Data.List.Nodup
import Mathlib.Data.List.Forall2

/-!
# Numbering the rows of a table

Rows get the numbers 0, 1, ... in the order in which they are listed, and a second
table keeps the number of every row that has one.
-/

namespace Opto

/-- `number` inverts `order`. -/
def Numbering (number : List (Option Nat)) (order : List Nat) : Prop :=
  ∀ i k : Nat, number[i]?.join = some k ↔ order[k]? = some i

namespace Numbering

variable {number : List (Option Nat)} {order : List Nat} {i j k : Nat}

theorem start (size : Nat) : Numbering (List.replicate size none) [] := by
  intro i k
  rw [List.getElem?_replicate]
  split_ifs <;> simp

/-- The next number goes to a row that has none. -/
theorem push (h : Numbering number order) (hi : i < number.length) (hfresh : i ∉ order) :
    Numbering (number.set i (some order.length)) (order ++ [i]) := by
  intro j k
  by_cases hji : j = i
  · subst hji
    rw [List.getElem?_set_self hi, Option.join_some, Option.some_inj]
    constructor
    · rintro rfl
      rw [List.getElem?_append_right (Nat.le_refl _), Nat.sub_self]
      rfl
    · intro hk
      by_cases hlt : k < order.length
      · rw [List.getElem?_append_left hlt] at hk
        exact absurd (List.mem_of_getElem? hk) hfresh
      · have := (List.getElem?_eq_some_iff.mp hk).1
        rw [List.length_append, List.length_singleton] at this
        omega
  · rw [List.getElem?_set_ne (Ne.symm hji), h j k]
    constructor
    · intro hk
      rwa [List.getElem?_append_left (List.getElem?_eq_some_iff.mp hk).1]
    · intro hk
      by_cases hlt : k < order.length
      · rwa [List.getElem?_append_left hlt] at hk
      · rw [List.getElem?_append_right (Nat.le_of_not_lt hlt)] at hk
        exact absurd (List.mem_singleton.mp (List.mem_of_getElem? hk)) hji

theorem mem_iff (h : Numbering number order) : i ∈ order ↔ ∃ k, number[i]?.join = some k := by
  simp only [List.mem_iff_getElem?, h i]

theorem number_iff (h : Numbering number order) :
    (∃ i : Nat, number[i]?.join = some k) ↔ k < order.length := by
  constructor
  · rintro ⟨i, hi⟩
    exact (List.getElem?_eq_some_iff.mp ((h i k).mp hi)).1
  · intro hk
    exact ⟨order[k], (h _ k).mpr (List.getElem?_eq_getElem hk)⟩

theorem injective (h : Numbering number order) (hi : number[i]?.join = some k)
    (hj : number[j]?.join = some k) : i = j := by
  rw [h] at hi hj
  exact Option.some_inj.mp (hi.symm.trans hj)

theorem nodup (h : Numbering number order) : order.Nodup := by
  rw [List.nodup_iff_getElem?_ne_getElem?]
  intro a b hab hb heq
  obtain ⟨i, hi⟩ : ∃ i, order[b]? = some i := ⟨_, List.getElem?_eq_getElem hb⟩
  have ha := (h i a).mpr (heq.trans hi)
  have := (h i b).mpr hi
  rw [ha, Option.some_inj] at this
  omega

/-- What is said about a row's number, told of the listed rows one after another. -/
theorem row_of {β : Type} {R : Nat → β → Prop} {rows : List β} (h : Numbering number order)
    (hrows : List.Forall₂ R order rows) (hi : number[i]?.join = some k) :
    ∃ row, rows[k]? = some row ∧ R i row := by
  rw [h] at hi
  obtain ⟨hk, rfl⟩ := List.getElem?_eq_some_iff.mp hi
  have hlt : k < rows.length := hrows.length_eq ▸ hk
  exact ⟨rows[k], List.getElem?_eq_getElem hlt, hrows.get hk hlt⟩

end Numbering

end Opto
