import Mathlib.Data.List.Sort
import Mathlib.Data.List.Forall2

/-!
# Strictly ascending lists of bounded length

A binary search in a strictly ascending list finds an entry, or the place where
it belongs. A bounded insertion puts a new entry there, shifts the larger ones
and drops the last when the list was full, so a list filled by it keeps the
smallest entries it was offered. An insertion only compares entries: a relation
that preserves their order carries one list of insertions over to another.
-/

namespace Opto.Ranked

variable {κ : Type} [LinearOrder κ]

/-- `ok` is the place of `x`; `error` is the place where it would be inserted. -/
def binarySearch (xs : List κ) (x : κ) : Except Nat Nat :=
  if x ∈ xs then .ok (xs.idxOf x) else .error (xs.takeWhile (· < x)).length

def insertAt (xs : List κ) (i : Nat) (x : κ) : List κ := xs.take i ++ x :: xs.drop i

def insert (cap : Nat) (xs : List κ) (x : κ) : List κ :=
  match binarySearch xs x with
  | .ok _ => xs
  | .error i => if i = cap then xs else (insertAt xs i x).take (min (xs.length + 1) cap)

def insertAll (cap : Nat) (xs candidates : List κ) : List κ := candidates.foldl (insert cap) xs

variable {cap : Nat} {xs ys : List κ} {x y : κ}

theorem binarySearch_of_mem (h : x ∈ xs) : binarySearch xs x = .ok (xs.idxOf x) := if_pos h

theorem binarySearch_of_not_mem (h : x ∉ xs) :
    binarySearch xs x = .error (xs.takeWhile (· < x)).length := if_neg h

theorem insertAt_place (xs : List κ) (x : κ) :
    insertAt xs (xs.takeWhile (· < x)).length x =
      xs.takeWhile (· < x) ++ x :: xs.dropWhile (· < x) := by
  have hsplit := List.takeWhile_append_dropWhile (p := fun y => decide (y < x)) (l := xs)
  have htake : (xs.takeWhile (· < x) ++ xs.dropWhile (· < x)).take (xs.takeWhile (· < x)).length =
      xs.takeWhile (· < x) := List.take_left' rfl
  have hdrop : (xs.takeWhile (· < x) ++ xs.dropWhile (· < x)).drop (xs.takeWhile (· < x)).length =
      xs.dropWhile (· < x) := List.drop_left' rfl
  rw [hsplit] at htake hdrop
  rw [insertAt, htake, hdrop]

omit [LinearOrder κ] in
theorem mem_insertAt {i : Nat} : y ∈ insertAt xs i x ↔ y = x ∨ y ∈ xs := by
  rw [insertAt, List.mem_append, List.mem_cons]
  conv_rhs => rw [← List.take_append_drop i xs, List.mem_append]
  tauto

omit [LinearOrder κ] in
theorem length_insertAt (i : Nat) : (insertAt xs i x).length = xs.length + 1 := by
  simp only [insertAt, List.length_append, List.length_take, List.length_cons, List.length_drop]
  omega

theorem lt_of_mem_dropWhile (hs : xs.Pairwise (· < ·)) (hx : x ∉ xs)
    (hy : y ∈ xs.dropWhile (· < x)) : x < y := by
  induction xs with
  | nil => cases hy
  | cons z xs ih =>
    obtain ⟨hz, hs⟩ := List.pairwise_cons.mp hs
    have hne : x ≠ z := fun h => hx (by simp [h])
    by_cases hlt : z < x
    · rw [List.dropWhile_cons_of_pos (by simpa using hlt)] at hy
      exact ih hs (fun h => hx (by simp [h])) hy
    · rw [List.dropWhile_cons_of_neg (by simpa using hlt)] at hy
      have hxz : x < z := lt_of_le_of_ne (not_lt.mp hlt) hne
      rcases List.mem_cons.mp hy with rfl | hy
      · exact hxz
      · exact hxz.trans (hz y hy)

theorem ascending_insertAt (hs : xs.Pairwise (· < ·)) (hx : x ∉ xs) :
    (insertAt xs (xs.takeWhile (· < x)).length x).Pairwise (· < ·) := by
  rw [insertAt_place]
  have hbelow : ∀ y ∈ xs.takeWhile (· < x), y < x := fun y hy => by
    simpa using List.all_eq_true.mp (List.all_takeWhile (p := fun y => decide (y < x))) y hy
  have habove : ∀ y ∈ xs.dropWhile (· < x), x < y := fun y hy => lt_of_mem_dropWhile hs hx hy
  refine List.pairwise_append.mpr ⟨?_, List.pairwise_cons.mpr ⟨habove, ?_⟩, ?_⟩
  · exact hs.sublist (List.takeWhile_prefix _).sublist
  · exact hs.sublist (List.dropWhile_suffix _).sublist
  · intro a ha b hb
    rcases List.mem_cons.mp hb with rfl | hb
    · exact hbelow a ha
    · exact (hbelow a ha).trans (habove b hb)

theorem mem_of_mem_insert (h : y ∈ insert cap xs x) : y = x ∨ y ∈ xs := by
  by_cases hx : x ∈ xs
  · rw [insert, binarySearch_of_mem hx] at h
    exact .inr h
  · simp only [insert, binarySearch_of_not_mem hx] at h
    split_ifs at h with hc
    · exact .inr h
    · exact mem_insertAt.mp (List.mem_of_mem_take h)

theorem ascending_insert (hs : xs.Pairwise (· < ·)) :
    (insert cap xs x).Pairwise (· < ·) := by
  by_cases hx : x ∈ xs
  · rwa [insert, binarySearch_of_mem hx]
  · simp only [insert, binarySearch_of_not_mem hx]
    split_ifs
    · exact hs
    · exact (ascending_insertAt hs hx).sublist (List.take_sublist _ _)

theorem length_insert_le (h : xs.length ≤ cap) : (insert cap xs x).length ≤ cap := by
  by_cases hx : x ∈ xs
  · rwa [insert, binarySearch_of_mem hx]
  · simp only [insert, binarySearch_of_not_mem hx]
    split_ifs
    · exact h
    · rw [List.length_take]; omega

theorem mem_of_mem_insertAll {candidates : List κ} (h : y ∈ insertAll cap xs candidates) :
    y ∈ candidates ∨ y ∈ xs := by
  induction candidates generalizing xs with
  | nil => exact .inr h
  | cons c candidates ih =>
    rcases ih h with h | h
    · exact .inl (List.mem_cons_of_mem _ h)
    · rcases mem_of_mem_insert h with rfl | h
      · exact .inl List.mem_cons_self
      · exact .inr h

end Opto.Ranked
