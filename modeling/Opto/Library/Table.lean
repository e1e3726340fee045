import Mathlib.Data.List.Induction
import Mathlib.Data.Nat.Basic
import Mathlib.Order.Basic

/-!
# Tables filled row by row

A table lists one value for every entry of a list, each value computed from the
values of the entries before it. Appending entries never changes the rows that
are already there, and a row that looks up only earlier rows may as well look
them up in the finished table.
-/

namespace Opto.Table

variable {ν β : Type*} (row : List β → ν → β)

def extend (done : List β) (x : ν) : List β := done ++ [row done x]

def build (xs : List ν) : List β := xs.foldl (extend row) []

@[simp] theorem build_nil : build row [] = [] := rfl

@[simp] theorem build_concat (xs : List ν) (x : ν) :
    build row (xs ++ [x]) = build row xs ++ [row (build row xs) x] := by
  simp [build, extend]

@[simp] theorem length_build (xs : List ν) : (build row xs).length = xs.length := by
  induction xs using List.reverseRecOn with
  | nil => rfl
  | append_singleton xs x ih => simp [ih]

theorem build_extends (xs ys : List ν) : build row xs <+: build row (xs ++ ys) := by
  induction ys using List.reverseRecOn with
  | nil => simp
  | append_singleton ys y ih =>
    rw [← List.append_assoc, build_concat]
    exact ih.trans (List.prefix_append _ _)

theorem getElem?_build_append {xs : List ν} (ys : List ν) {i : ℕ} (h : i < xs.length) :
    (build row (xs ++ ys))[i]? = (build row xs)[i]? := by
  obtain ⟨tail, htail⟩ := build_extends row xs ys
  rw [← htail, List.getElem?_append_left (by simpa using h)]

theorem getElem?_build_extends {xs ys : List ν} (hp : xs <+: ys) {i : ℕ} (h : i < xs.length) :
    (build row ys)[i]? = (build row xs)[i]? := by
  obtain ⟨zs, rfl⟩ := hp
  exact getElem?_build_append row zs h

theorem getElem?_build_take (xs : List ν) {i j : ℕ} (hij : j < i) (hi : i ≤ xs.length) :
    (build row (xs.take i))[j]? = (build row xs)[j]? :=
  (getElem?_build_extends row (List.take_prefix i xs) (by simp; omega)).symm

theorem getElem?_build {xs : List ν} {i : ℕ} {x : ν} (h : xs[i]? = some x) :
    (build row xs)[i]? = some (row (build row (xs.take i)) x) := by
  obtain ⟨hi, rfl⟩ := List.getElem?_eq_some_iff.mp h
  have hsplit : xs = xs.take i ++ [xs[i]] ++ xs.drop (i + 1) := by simp
  have hlen : i < (xs.take i ++ [xs[i]]).length := by simp; omega
  conv_lhs => rw [hsplit]
  rw [getElem?_build_append row _ hlen, build_concat]
  simp [Nat.min_eq_left (Nat.le_of_lt hi)]

end Opto.Table
