import Mathlib.Data.List.Perm.Basic
import Mathlib.Data.List.Nodup

/-!
# Hash tables of positions

A hash table keeps values with the hash they were inserted under. A search with a hash finds
any value that was inserted under it and passes the test, and no value that does not pass. A
table that grows asks for the hashes of its values again, so its caller must know them. A
table that holds the positions of a list, each under its hash, is an index of the list.
-/

namespace Opto

class HashTable (τ : Type) (α : outParam Type) where
  empty : τ
  find : τ → UInt64 → (α → Bool) → Option α
  /-- The hasher is asked again for what the table holds; where it has no answer there is no table. -/
  insertUnique : τ → UInt64 → α → (α → Option UInt64) → Option τ
  removeEntry : τ → UInt64 → (α → Bool) → Option (α × τ)
  contents : τ → List (UInt64 × α)
  contents_empty : contents empty = []
  find_mem {t h p a} : find t h p = some a → p a = true ∧ ∃ h', (h', a) ∈ contents t
  find_some {t h p a} : (h, a) ∈ contents t → p a = true → (find t h p).isSome
  insert_some {t hasher} (h a) : (∀ e ∈ contents t, hasher e.2 = some e.1) →
    ∃ u, insertUnique t h a hasher = some u ∧ (contents u).Perm ((h, a) :: contents t)
  remove_mem {t h p a u} : removeEntry t h p = some (a, u) →
    p a = true ∧ ∃ h', (contents t).Perm ((h', a) :: contents u)
  remove_some {t h p a} : (h, a) ∈ contents t → p a = true → (removeEntry t h p).isSome

/-- The first entry that passes, and the entries without it. -/
def pluck {α : Type} (p : α → Bool) : List α → Option (α × List α)
  | [] => none
  | x :: xs => if p x then some (x, xs) else (pluck p xs).map fun (y, ys) => (y, x :: ys)

theorem pluck_perm {α : Type} {p : α → Bool} {xs ys : List α} {y : α} (h : pluck p xs = some (y, ys)) :
    p y = true ∧ xs.Perm (y :: ys) := by
  induction xs generalizing ys with
  | nil => cases h
  | cons x xs ih =>
    rw [pluck] at h
    split_ifs at h with hp
    · cases h
      exact ⟨hp, List.Perm.refl _⟩
    · obtain ⟨⟨z, zs⟩, hz, heq⟩ := Option.map_eq_some_iff.mp h
      cases heq
      obtain ⟨hy, hperm⟩ := ih hz
      exact ⟨hy, (hperm.cons x).trans (List.Perm.swap y x zs)⟩

theorem pluck_some {α : Type} {p : α → Bool} {xs : List α} {x : α} (hx : x ∈ xs) (hp : p x = true) :
    (pluck p xs).isSome := by
  induction xs with
  | nil => cases hx
  | cons y xs ih =>
    rw [pluck]
    split_ifs with hy
    · rfl
    · rw [Option.isSome_map]
      rcases List.mem_cons.mp hx with rfl | hx
      · exact absurd hp hy
      · exact ih hx

/-- The values with their hashes, the last one first. -/
instance {α : Type} : HashTable (List (UInt64 × α)) α where
  empty := []
  find t h p := (t.find? fun e => e.1 = h && p e.2).map Prod.snd
  insertUnique t h a _ := some ((h, a) :: t)
  removeEntry t h p := (pluck (fun e => e.1 = h && p e.2) t).map fun (e, rest) => (e.2, rest)
  contents t := t
  contents_empty := rfl
  find_mem h := by
    obtain ⟨e, he, rfl⟩ := Option.map_eq_some_iff.mp h
    have hp := List.find?_some he
    rw [Bool.and_eq_true] at hp
    exact ⟨hp.2, e.1, List.mem_of_find?_eq_some he⟩
  find_some hmem hp := by
    rw [Option.isSome_map, List.find?_isSome]
    exact ⟨_, hmem, by simpa using hp⟩
  insert_some h a _ := ⟨_, rfl, List.Perm.refl _⟩
  remove_mem h := by
    obtain ⟨⟨e, rest⟩, he, heq⟩ := Option.map_eq_some_iff.mp h
    cases heq
    obtain ⟨hp, hperm⟩ := pluck_perm he
    rw [Bool.and_eq_true] at hp
    exact ⟨hp.2, e.1, hperm⟩
  remove_some hmem hp := by
    rw [Option.isSome_map]
    exact pluck_some hmem (by simpa using hp)

namespace HashTable

variable {τ : Type} [HashTable τ Nat] {t : τ} {hashes : List UInt64} {first : Nat} {h : UInt64}

/-- The table holds the positions of the list, counted from the first one, under their hashes. -/
def Indexes (t : τ) (hashes : List UInt64) (first : Nat) : Prop :=
  (contents t).Perm (hashes.zipIdx first)

theorem indexes_empty (first : Nat) : Indexes (empty : τ) [] first := by
  rw [Indexes, contents_empty]
  exact List.Perm.refl _

namespace Indexes

theorem mem_iff (ht : Indexes t hashes first) {i : Nat} :
    (h, i) ∈ contents t ↔ first ≤ i ∧ hashes[i - first]? = some h := by
  rw [List.Perm.mem_iff ht, List.mk_mem_zipIdx_iff_le_and_getElem?_sub]

theorem find_mem (ht : Indexes t hashes first) {p : Nat → Bool} {i : Nat} (hi : find t h p = some i) :
    p i = true ∧ first ≤ i ∧ i - first < hashes.length := by
  obtain ⟨hp, h', hmem⟩ := HashTable.find_mem hi
  obtain ⟨hle, hsome⟩ := ht.mem_iff.mp hmem
  exact ⟨hp, hle, (List.getElem?_eq_some_iff.mp hsome).1⟩

theorem find_some (ht : Indexes t hashes first) {p : Nat → Bool} {i : Nat} (hi : hashes[i]? = some h)
    (hp : p (first + i) = true) : (find t h p).isSome := by
  apply HashTable.find_some (ht.mem_iff.mpr ⟨Nat.le_add_right _ _, _⟩) hp
  rwa [Nat.add_sub_cancel_left]

/-- The next position is added under its hash. -/
theorem insert (ht : Indexes t hashes first) (h : UInt64) {hasher : Nat → Option UInt64}
    (hhasher : ∀ i h', hashes[i]? = some h' → hasher (first + i) = some h') :
    ∃ u, insertUnique t h (first + hashes.length) hasher = some u ∧ Indexes u (hashes ++ [h]) first := by
  have hknown : ∀ e ∈ contents t, hasher e.2 = some e.1 := by
    intro ⟨h', i⟩ hmem
    obtain ⟨hle, hsome⟩ := ht.mem_iff.mp hmem
    have hfound := hhasher _ _ hsome
    rwa [Nat.add_sub_cancel' hle] at hfound
  obtain ⟨u, hu, hperm⟩ := insert_some h (first + hashes.length) hknown
  refine ⟨u, hu, hperm.trans ?_⟩
  rw [List.zipIdx_append]
  exact (ht.cons _).trans (List.perm_append_singleton _ _).symm

/-- The last position is found under its hash and taken out. -/
theorem remove (ht : Indexes t (hashes ++ [h]) first) :
    ∃ u, removeEntry t h (· == first + hashes.length) = some (first + hashes.length, u) ∧
      Indexes u hashes first := by
  have hlast : (h, first + hashes.length) ∈ contents t :=
    ht.mem_iff.mpr ⟨Nat.le_add_right _ _, by rw [Nat.add_sub_cancel_left]; exact List.getElem?_concat_length⟩
  obtain ⟨⟨i, u⟩, hremoved⟩ := Option.isSome_iff_exists.mp
    (remove_some (p := (· == first + hashes.length)) hlast (beq_self_eq_true _))
  obtain ⟨hi, h', hperm⟩ := remove_mem hremoved
  obtain rfl := beq_iff_eq.mp hi
  refine ⟨u, hremoved, ?_⟩
  have hsame : h' = h := by
    have hmem := ht.mem_iff.mp (hperm.mem_iff.mpr List.mem_cons_self)
    rw [Nat.add_sub_cancel_left, List.getElem?_concat_length] at hmem
    exact (Option.some.inj hmem.2).symm
  subst hsame
  have hsplit := hperm.symm.trans ht
  rw [List.zipIdx_append] at hsplit
  exact (hsplit.trans (List.perm_append_singleton _ _)).cons_inv

end Indexes

end HashTable

end Opto
