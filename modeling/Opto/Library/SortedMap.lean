import Mathlib.Algebra.BigOperators.Group.Finset.Basic
import Mathlib.Algebra.GroupWithZero.Nat
import Opto.Library.Lists
import Opto.Library.Ranked

/-!
# Maps as sorted lists

Entries in ascending order of their keys. A binary search finds the entry of a key or the
place where a new one belongs.
-/

namespace Opto.SortedMap

variable {κ ν : Type} [LinearOrder κ] {m : List (κ × ν)} {k r : κ} {v : ν} {i : Nat}

def search (m : List (κ × ν)) (k : κ) : Except Nat Nat := Ranked.binarySearch (m.map Prod.fst) k

def Ascending (m : List (κ × ν)) : Prop := (m.map Prod.fst).Pairwise (· < ·)

theorem Ascending.nodup (hs : Ascending m) : (m.map Prod.fst).Nodup := hs.imp ne_of_lt

theorem search_ok (hs : Ascending m) (h : search m k = .ok i) : ∃ v, m[i]? = some (k, v) ∧ m.lookup k = some v := by
  rw [search, Ranked.binarySearch] at h
  split_ifs at h with hmem
  cases h
  have hlt := List.idxOf_lt_length_iff.mpr hmem
  have hkey : (m.map Prod.fst)[(m.map Prod.fst).idxOf k]? = some k := by
    rw [List.getElem?_eq_getElem hlt, List.getElem_idxOf]
  rw [List.getElem?_map] at hkey
  obtain ⟨⟨k', v⟩, hentry, hk⟩ := Option.map_eq_some_iff.mp hkey
  obtain rfl : k' = k := hk
  exact ⟨v, hentry, lookup_of_mem hs.nodup (List.mem_of_getElem? hentry)⟩

theorem search_error (h : search m k = .error i) : k ∉ m.map Prod.fst ∧ m.lookup k = none := by
  rw [search, Ranked.binarySearch] at h
  split_ifs at h with hmem
  refine ⟨hmem, List.lookup_eq_none_iff.mpr fun entry hentry => ?_⟩
  rw [bne_iff_ne]
  exact fun he => hmem (List.mem_map.mpr ⟨entry, hentry, he.symm⟩)

theorem lookup_mid {front : List (κ × ν)} (hnew : k ∉ front.map Prod.fst) (back : List (κ × ν)) (v : ν) (r : κ) :
    (front ++ (k, v) :: back).lookup r = if r = k then some v else (front ++ back).lookup r := by
  rw [List.lookup_append, List.lookup_append, lookup_cons]
  split_ifs with hr
  · have hnone : front.lookup r = none := by
      rw [List.lookup_eq_none_iff]
      intro entry hentry
      rw [bne_iff_ne, hr]
      exact fun he => hnew (List.mem_map.mpr ⟨entry, hentry, he.symm⟩)
    rw [hnone, Option.none_or]
  · rfl

theorem lookup_set (hs : Ascending m) (hi : m[i]? = some (k, v)) (v' : ν) (r : κ) :
    (m.set i (k, v')).lookup r = if r = k then some v' else m.lookup r := by
  obtain ⟨hlt, hentry⟩ := List.getElem?_eq_some_iff.mp hi
  have hsplit : m = m.take i ++ (k, v) :: m.drop (i + 1) := by
    rw [← hentry, ← List.drop_eq_getElem_cons hlt, List.take_append_drop]
  have hnew : k ∉ (m.take i).map Prod.fst := by
    have hnodup := hs.nodup
    rw [hsplit, List.map_append, List.map_cons] at hnodup
    exact fun hmem => List.disjoint_of_nodup_append hnodup hmem List.mem_cons_self
  have hm := lookup_mid hnew (m.drop (i + 1)) v r
  rw [← hsplit] at hm
  rw [List.set_eq_take_append_cons_drop, if_pos hlt, lookup_mid hnew, hm]
  split_ifs <;> rfl

theorem ascending_set (hs : Ascending m) (hi : m[i]? = some (k, v)) (v' : ν) : Ascending (m.set i (k, v')) := by
  have hkeys : (m.set i (k, v')).map Prod.fst = m.map Prod.fst := by
    rw [List.map_set]
    apply List.ext_getElem?
    intro j
    rw [List.getElem?_set]
    split_ifs with hij hlt
    · rw [← hij, List.getElem?_map, hi]
      rfl
    · rw [← hij, List.getElem?_eq_none (not_lt.mp hlt)]
    · rfl
  rw [Ascending, hkeys]
  exact hs

omit [LinearOrder κ] in
theorem map_insertAt (m : List (κ × ν)) (i : Nat) (entry : κ × ν) :
    (Ranked.insertAt m i entry).map Prod.fst = Ranked.insertAt (m.map Prod.fst) i entry.1 := by
  rw [Ranked.insertAt, Ranked.insertAt, List.map_append, List.map_cons, List.map_take, List.map_drop]

theorem lookup_insertAt (h : search m k = .error i) (v : ν) (r : κ) :
    (Ranked.insertAt m i (k, v)).lookup r = if r = k then some v else m.lookup r := by
  have hnew := (search_error h).1
  rw [Ranked.insertAt, lookup_mid, List.take_append_drop]
  exact fun hmem => hnew (List.map_subset _ (List.take_subset i m) hmem)

theorem ascending_insertAt (hs : Ascending m) (h : search m k = .error i) (v : ν) :
    Ascending (Ranked.insertAt m i (k, v)) := by
  have hnew := (search_error h).1
  rw [search, Ranked.binarySearch_of_not_mem hnew] at h
  cases h
  rw [Ascending, map_insertAt]
  exact Ranked.ascending_insertAt hs hnew

/-! Sums over the keys below a bound. -/

/-- A sum with entries in place of defaults has what the entries add and lacks what they replace. -/
theorem sum_lookup {m : List (Nat × ν)} (hs : (m.map Prod.fst).Nodup) (f : Nat → Nat) (g : ν → Nat) (n : Nat) :
    ∑ r ∈ Finset.range n, ((m.lookup r).map g).getD (f r) +
      ((m.filter fun entry => entry.1 < n).map fun entry => f entry.1).sum =
    ∑ r ∈ Finset.range n, f r + ((m.filter fun entry => entry.1 < n).map fun entry => g entry.2).sum := by
  induction m with
  | nil => rfl
  | cons entry m ih =>
    obtain ⟨k, v⟩ := entry
    rw [List.map_cons, List.nodup_cons] at hs
    have hrest := ih hs.2
    have hnone : m.lookup k = none := by
      rw [List.lookup_eq_none_iff]
      intro entry hentry
      rw [bne_iff_ne]
      exact fun he => hs.1 (List.mem_map.mpr ⟨entry, hentry, he.symm⟩)
    have hcons (r : Nat) : (((k, v) :: m).lookup r).map g =
        if r = k then some (g v) else (m.lookup r).map g := by
      rw [lookup_cons]
      split_ifs <;> rfl
    simp only [hcons]
    by_cases hk : k < n
    · have hmem := Finset.mem_range.mpr hk
      have hothers : ∑ r ∈ (Finset.range n).erase k, (if r = k then some (g v) else (m.lookup r).map g).getD (f r) =
          ∑ r ∈ (Finset.range n).erase k, ((m.lookup r).map g).getD (f r) := by
        apply Finset.sum_congr rfl
        intro r hr
        rw [if_neg (Finset.ne_of_mem_erase hr)]
      rw [← Finset.add_sum_erase _ _ hmem, hnone] at hrest
      rw [← Finset.add_sum_erase _ _ hmem, if_pos rfl, hothers, List.filter_cons_of_pos (by simpa using hk),
        List.map_cons, List.map_cons, List.sum_cons, List.sum_cons]
      simp only [Option.map_none, Option.getD_none, Option.getD_some] at hrest ⊢
      omega
    · have hsame : ∑ r ∈ Finset.range n, (if r = k then some (g v) else (m.lookup r).map g).getD (f r) =
          ∑ r ∈ Finset.range n, ((m.lookup r).map g).getD (f r) := by
        apply Finset.sum_congr rfl
        intro r hr
        have hr := Finset.mem_range.mp hr
        rw [if_neg (by omega)]
      rw [hsame, List.filter_cons_of_neg (by simpa using hk)]
      exact hrest

end Opto.SortedMap
