import Opto.Library.Outcome
import Opto.Library.Pages
import Opto.Mapped.Names

/-!
# Packed rows

Rows of any lengths lie one after the other; a row is what lies between two offsets. A
builder appends rows and fails before it changes anything.
-/

namespace Opto.Rows

open Mapped (U32_MAX U64_MAX)

variable {α : Type}

inductive Failure where
  | capacity
  | panic (message : String)
deriving DecidableEq

structure PackedRows (α : Type) where
  offsets : List Nat
  values : List α

namespace PackedRows

def rowRange (p : PackedRows α) (row : Nat) : Option (Nat × Nat) := do
  let start ← p.offsets[row]?
  let stop ← p.offsets[row + 1]?
  return (start, stop)

def get (p : PackedRows α) (row : Nat) : Option (List α) := do
  let (start, stop) ← p.rowRange row
  if start ≤ stop ∧ stop ≤ p.values.length then some ((p.values.drop start).take (stop - start)) else none

def rowCount (p : PackedRows α) : Nat := p.offsets.length - 1

end PackedRows

/-- Where a call reserves memory. -/
inductive Site where
  | pageTable
  | replacements
  | current (pageIndex part : Nat)
  | row (pageIndex row part : Nat)
deriving DecidableEq

def tryReserve (alloc : Site → Bool) (site : Site) : Except Failure Unit :=
  if alloc site then .ok () else .error .capacity

theorem tryReserve_settles (alloc : Site → Bool) (site : Site) {other : Prop} :
    Settles (tryReserve alloc site) (fun _ => True)
      (fun e => e = .capacity ∧ ((∃ site, alloc site = false) ∨ other)) := by
  rw [tryReserve]
  split_ifs with hsite
  · trivial
  · exact ⟨rfl, .inl ⟨site, Bool.eq_false_iff.mpr hsite⟩⟩

/-- The builder's storage is that of the rows it finishes with. -/
def tryWithCapacity (alloc : Site → Bool) (pageIndex rowCapacity valueCapacity : Nat) :
    Except Failure (PackedRows α) :=
  if U32_MAX < rowCapacity ∨ U32_MAX < valueCapacity then .error .capacity
  else do
    tryReserve alloc (.current pageIndex 0)
    tryReserve alloc (.current pageIndex 1)
    return ⟨[0], []⟩

def PackedRows.tryPushRow (p : PackedRows α) (alloc : Site → Bool) (pageIndex : Nat) (row : List α) :
    Except Failure (PackedRows α) :=
  if U32_MAX < p.offsets.length then .error .capacity
  else if U64_MAX < p.values.length + row.length ∨ U32_MAX < p.values.length + row.length then .error .capacity
  else do
    tryReserve alloc (.row pageIndex p.rowCount 0)
    tryReserve alloc (.row pageIndex p.rowCount 1)
    return ⟨p.offsets ++ [p.values.length + row.length], p.values ++ row⟩

/-! What is packed. -/

/-- The number of values before each row and after the last one. -/
def offsetsFrom (start : Nat) : List (List α) → List Nat
  | [] => [start]
  | row :: rows => start :: offsetsFrom (start + row.length) rows

theorem length_offsetsFrom (start : Nat) (rows : List (List α)) :
    (offsetsFrom start rows).length = rows.length + 1 := by
  induction rows generalizing start with
  | nil => rfl
  | cons row rows ih => rw [offsetsFrom, List.length_cons, ih, List.length_cons]

theorem getElem?_offsetsFrom (start : Nat) (rows : List (List α)) {i : Nat} (hi : i ≤ rows.length) :
    (offsetsFrom start rows)[i]? = some (start + (rows.take i).flatten.length) := by
  induction rows generalizing start i with
  | nil =>
    obtain rfl : i = 0 := Nat.le_zero.mp hi
    rfl
  | cons row rows ih =>
    cases i with
    | zero => rfl
    | succ i =>
      rw [offsetsFrom, List.getElem?_cons_succ, ih _ (Nat.le_of_succ_le_succ hi), List.take_succ_cons,
        List.flatten_cons, List.length_append, Nat.add_assoc]

theorem offsetsFrom_append (start : Nat) (rows : List (List α)) (row : List α) :
    offsetsFrom start (rows ++ [row]) = offsetsFrom start rows ++ [start + rows.flatten.length + row.length] := by
  induction rows generalizing start with
  | nil => rfl
  | cons first rows ih =>
    simp only [List.cons_append, offsetsFrom, ih, List.flatten_cons, List.length_append, Nat.add_assoc]

/-- The packed rows are these. -/
structure Packs (p : PackedRows α) (rows : List (List α)) : Prop where
  offsets : p.offsets = offsetsFrom 0 rows
  values : p.values = rows.flatten

namespace Packs

variable {p : PackedRows α} {rows : List (List α)}

theorem empty : Packs (⟨[0], []⟩ : PackedRows α) [] := ⟨rfl, rfl⟩

theorem rowCount (h : Packs p rows) : p.rowCount = rows.length := by
  rw [PackedRows.rowCount, h.offsets, length_offsetsFrom, Nat.add_sub_cancel]

theorem rowRange (h : Packs p rows) {i : Nat} (hi : i < rows.length) :
    p.rowRange i = some ((rows.take i).flatten.length, (rows.take (i + 1)).flatten.length) := by
  rw [PackedRows.rowRange, h.offsets, getElem?_offsetsFrom 0 rows (Nat.le_of_lt hi), getElem?_offsetsFrom 0 rows hi,
    Nat.zero_add, Nat.zero_add]
  rfl

theorem get (h : Packs p rows) (i : Nat) : p.get i = rows[i]? := by
  by_cases hi : i < rows.length
  · have hsplit : rows.flatten = (rows.take i).flatten ++ (rows[i] ++ (rows.drop (i + 1)).flatten) := by
      conv_lhs => rw [← List.take_append_drop i rows, List.drop_eq_getElem_cons hi]
      rw [List.flatten_append, List.flatten_cons]
    have hnext : (rows.take (i + 1)).flatten.length = (rows.take i).flatten.length + rows[i].length := by
      rw [List.take_succ_eq_append_getElem hi, List.flatten_append, List.length_append, List.flatten_singleton]
    rw [PackedRows.get, h.rowRange hi, List.getElem?_eq_getElem hi, h.values, hnext]
    have hle : (rows.take i).flatten.length + rows[i].length ≤ rows.flatten.length := by
      rw [hsplit]
      simp only [List.length_append]
      omega
    simp only [Option.bind_eq_bind, Option.bind_some]
    rw [if_pos ⟨Nat.le_add_right _ _, hle⟩, Nat.add_sub_cancel_left, hsplit, List.drop_left, List.take_left]
  · have hout : p.offsets[i + 1]? = none := by
      rw [h.offsets, List.getElem?_eq_none_iff, length_offsetsFrom]
      omega
    rw [PackedRows.get, PackedRows.rowRange, hout, List.getElem?_eq_none (Nat.not_lt.mp hi)]
    cases p.offsets[i]? <;> rfl

/-- Pushing a row fails only for want of memory or of room. -/
theorem tryPushRow (h : Packs p rows) (alloc : Site → Bool) (pageIndex : Nat) (row : List α) :
    Settles (p.tryPushRow alloc pageIndex row)
      (fun q => Packs q (rows ++ [row]) ∧ (rows ++ [row]).flatten.length ≤ U32_MAX)
      (fun e => e = .capacity ∧ ((∃ site, alloc site = false) ∨ U32_MAX < rows.length + 1 ∨
        U32_MAX < (rows ++ [row]).flatten.length)) := by
  have hlength : p.offsets.length = rows.length + 1 := by rw [h.offsets, length_offsetsFrom]
  have htotal : (rows ++ [row]).flatten.length = p.values.length + row.length := by
    rw [List.flatten_append, List.length_append, List.flatten_singleton, h.values]
  have hwide : U32_MAX < U64_MAX := by decide
  rw [PackedRows.tryPushRow]
  split_ifs with hrows hvalues
  · exact ⟨rfl, .inr (.inl (hlength ▸ hrows))⟩
  · exact ⟨rfl, .inr (.inr (by omega))⟩
  · apply Settles.bind (tryReserve_settles _ _)
    intro _ _
    apply Settles.bind (tryReserve_settles _ _)
    intro _ _
    refine ⟨⟨?_, ?_⟩, by omega⟩
    · rw [offsetsFrom_append, h.offsets, h.values, Nat.zero_add]
    · rw [h.values, List.flatten_append, List.flatten_singleton]

end Packs

end Opto.Rows
