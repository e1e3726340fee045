import Mathlib.Data.List.Basic

/-!
# Lists in pages of one size

A list is kept in pages that are full but for the last one. A position is a page and a
position in it.
-/

namespace Opto.Pages

variable {α : Type} {size : Nat}

def divCeil (a b : Nat) : Nat := (a + b - 1) / b

/-- A page is there when it starts before the end. -/
theorem lt_divCeil (hsize : 0 < size) {k n : Nat} : k < divCeil n size ↔ k * size < n := by
  rw [divCeil, ← Nat.succ_le_iff, Nat.le_div_iff_mul_le hsize, Nat.succ_mul]
  omega

def page (size : Nat) (xs : List α) (k : Nat) : List α := (xs.drop (k * size)).take size

theorem getElem?_page (xs : List α) (k j : Nat) :
    (page size xs k)[j]? = if j < size then xs[k * size + j]? else none := by
  rw [page, List.getElem?_take, List.getElem?_drop]

theorem length_page (xs : List α) (k : Nat) : (page size xs k).length = min (xs.length - k * size) size := by
  rw [page, List.length_take, List.length_drop, Nat.min_comm]

theorem getElem?_page_mod (hsize : 0 < size) (xs : List α) (i : Nat) :
    (page size xs (i / size))[i % size]? = xs[i]? := by
  rw [getElem?_page, if_pos (Nat.mod_lt i hsize), Nat.div_add_mod']

/-- Writing one position changes one page. -/
theorem page_set (hsize : 0 < size) (xs : List α) (i : Nat) (x : α) (k : Nat) :
    page size (xs.set i x) k = if k = i / size then (page size xs k).set (i % size) x else page size xs k := by
  have hi := Nat.div_add_mod' i size
  have hmod := Nat.mod_lt i hsize
  apply List.ext_getElem?
  intro j
  by_cases hk : k = i / size
  · subst hk
    rw [if_pos rfl, getElem?_page, List.getElem?_set, List.getElem?_set, getElem?_page, length_page]
    generalize i / size * size = start at *
    generalize i % size = offset at *
    by_cases hj : j < size
    · rw [if_pos hj, if_pos hj]
      by_cases hij : offset = j
      · rw [if_pos (by omega), if_pos hij]
        by_cases hlt : i < xs.length
        · rw [if_pos hlt, if_pos (by omega)]
        · rw [if_neg hlt, if_neg (by omega)]
      · rw [if_neg (by omega), if_neg hij]
    · rw [if_neg hj, if_neg (by omega), if_neg hj]
  · rw [if_neg hk, getElem?_page, getElem?_page]
    split_ifs with hj
    · rw [List.getElem?_set_ne]
      intro heq
      apply hk
      rw [heq, Nat.mul_comm, Nat.mul_add_div hsize, Nat.div_eq_of_lt hj, Nat.add_zero]
    · rfl

end Opto.Pages

/-! Holders are lists of references to cells. The strong count of a reference is the number of
positions that hold it, so a reference whose count is one is held at one position of one
holder, and whoever is there may write the cell in place. -/

namespace Opto.Sharing

variable {α κ : Type}

/-- No other position of the list has the property. -/
def OnlyAt (p : α → Prop) (xs : List α) (k : Nat) : Prop := ∀ (j : Nat) y, xs[j]? = some y → p y → j = k

theorem onlyAt_iff {p : α → Prop} {xs : List α} {k : Nat} {x : α} (hk : xs[k]? = some x) :
    OnlyAt p xs k ↔ (∀ y ∈ xs.take k, ¬p y) ∧ ∀ y ∈ xs.drop (k + 1), ¬p y := by
  have hlt := (List.getElem?_eq_some_iff.mp hk).1
  constructor
  · intro h
    constructor
    · intro y hy hp
      obtain ⟨j, hj⟩ := List.mem_iff_getElem?.mp hy
      rw [List.getElem?_take] at hj
      split_ifs at hj with hlt'
      have := h j y hj hp
      omega
    · intro y hy hp
      obtain ⟨j, hj⟩ := List.mem_iff_getElem?.mp hy
      rw [List.getElem?_drop] at hj
      have := h _ y hj hp
      omega
  · intro ⟨hbefore, hafter⟩ j y hj hp
    by_contra hne
    rcases Nat.lt_or_gt_of_ne hne with hlt' | hgt
    · refine hbefore y (List.mem_of_getElem? (i := j) ?_) hp
      rw [List.getElem?_take, if_pos hlt', hj]
    · refine hafter y (List.mem_of_getElem? (i := j - (k + 1)) ?_) hp
      rw [List.getElem?_drop, Nat.add_sub_cancel' hgt, hj]

theorem split_at {xs : List α} {k : Nat} {x : α} (hk : xs[k]? = some x) :
    xs = xs.take k ++ x :: xs.drop (k + 1) := by
  obtain ⟨hlt, rfl⟩ := List.getElem?_eq_some_iff.mp hk
  rw [← List.drop_eq_getElem_cons hlt, List.take_append_drop]

variable [DecidableEq κ] {holders : List (List κ)} {refs : List κ} {i k : Nat} {a : κ}

/-- The number of positions that hold the reference. -/
def strongCount (holders : List (List κ)) (a : κ) : Nat := holders.flatten.count a

theorem count_eq_one_iff (hk : refs[k]? = some a) : refs.count a = 1 ↔ OnlyAt (· = a) refs k := by
  have hcount : refs.count a = (refs.take k).count a + ((refs.drop (k + 1)).count a + 1) := by
    conv_lhs => rw [split_at hk]
    rw [List.count_append, List.count_cons_self]
  have hnot (xs : List κ) : (∀ y ∈ xs, ¬y = a) ↔ xs.count a = 0 := by
    rw [List.count_eq_zero]
    exact ⟨fun h hmem => h a hmem rfl, fun h y hy he => h (he ▸ hy)⟩
  rw [onlyAt_iff hk, hnot, hnot, hcount]
  omega

/-- A reference whose count is one is held at one position only. -/
theorem strongCount_eq_one_iff (hi : holders[i]? = some refs) (hk : refs[k]? = some a) :
    strongCount holders a = 1 ↔ OnlyAt (a ∈ ·) holders i ∧ OnlyAt (· = a) refs k := by
  have hcount : strongCount holders a =
      (holders.take i).flatten.count a + (refs.count a + (holders.drop (i + 1)).flatten.count a) := by
    rw [strongCount]
    conv_lhs => rw [split_at hi]
    rw [List.flatten_append, List.count_append, List.flatten_cons, List.count_append]
  have hnot (xs : List (List κ)) : (∀ refs ∈ xs, a ∉ refs) ↔ xs.flatten.count a = 0 := by
    rw [List.count_eq_zero, List.mem_flatten]
    exact ⟨fun h ⟨refs, hrefs, ha⟩ => h refs hrefs ha, fun h refs hrefs ha => h ⟨refs, hrefs, ha⟩⟩
  have hpos : 0 < refs.count a := List.count_pos_iff.mpr (List.mem_of_getElem? hk)
  rw [onlyAt_iff hi, hnot, hnot, ← count_eq_one_iff hk, hcount]
  omega

end Opto.Sharing
