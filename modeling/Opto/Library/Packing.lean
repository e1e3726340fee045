import Mathlib.Data.List.Induction
import Mathlib.Data.List.Nodup

/-!
# Packing a table in place

Rows are read from front to back and the ones to keep are written back to the
front. No row is overwritten before it is read, so what stands at the front in the
end are the kept rows in their order.
-/

namespace Opto

variable {α : Type}

/-- Up to `read` the rows of `orig` are done with; `packed` is what was kept of them. -/
structure Packing (orig rows : List α) (read : Nat) (packed : List α) : Prop where
  length : rows.length = orig.length
  front : packed <+: rows
  back : rows.drop read = orig.drop read
  le : packed.length ≤ read

theorem take_set_succ {rows : List α} {i : Nat} (h : i < rows.length) (x : α) :
    (rows.set i x).take (i + 1) = rows.take i ++ [x] := by
  rw [List.take_add_one, List.getElem?_set_self h, List.take_set_of_le (Nat.le_refl i)]
  rfl

namespace Packing

variable {orig rows packed : List α} {read : Nat} {x : α}

theorem start (orig : List α) : Packing orig orig 0 [] :=
  ⟨rfl, List.nil_prefix, rfl, Nat.le_refl _⟩

theorem row (h : Packing orig rows read packed) {i : Nat} (hi : read ≤ i) : rows[i]? = orig[i]? := by
  have hback := congrArg (fun l => l[i - read]?) h.back
  simpa only [List.getElem?_drop, Nat.add_sub_cancel' hi] using hback

theorem skip (h : Packing orig rows read packed) {read' : Nat} (hread : read ≤ read') :
    Packing orig rows read' packed where
  length := h.length
  front := h.front
  back := by
    have hback := congrArg (List.drop (read' - read)) h.back
    rwa [List.drop_drop, List.drop_drop, Nat.add_sub_cancel' hread] at hback
  le := Nat.le_trans h.le hread

theorem keep (h : Packing orig rows read packed) (hread : read < orig.length) (x : α) :
    Packing orig (rows.set packed.length x) (read + 1) (packed ++ [x]) where
  length := by rw [List.length_set, h.length]
  front := by
    obtain ⟨rest, rfl⟩ := h.front
    cases rest with
    | nil =>
      have hlen := h.length
      have hle := h.le
      rw [List.append_nil] at hlen
      omega
    | cons y rest =>
      rw [List.set_append_right _ _ (Nat.le_refl _), Nat.sub_self, List.set_cons_zero]
      exact ⟨rest, by rw [List.append_assoc]; rfl⟩
  back := by
    rw [List.drop_set_of_lt (Nat.lt_succ_of_le h.le)]
    exact (h.skip (Nat.le_succ read)).back
  le := by
    rw [List.length_append]
    exact Nat.add_le_add_right h.le 1

theorem take (h : Packing orig rows read packed) : rows.take packed.length = packed :=
  (List.prefix_iff_eq_take.mp h.front).symm

theorem lt (h : Packing orig rows read packed) (hread : read < orig.length) :
    packed.length < rows.length := by
  rw [h.length]
  exact Nat.lt_of_le_of_lt h.le hread

end Packing

/-! Where the kept rows stand. -/

/-- The positions of the flags that are set. -/
def positions (flags : List Bool) : List Nat :=
  (List.range flags.length).filter fun i => flags[i]? = some true

variable {flags : List Bool} {i : Nat}

theorem mem_positions : i ∈ positions flags ↔ flags[i]? = some true := by
  rw [positions, List.mem_filter, List.mem_range, decide_eq_true_eq]
  constructor
  · exact fun h => h.2
  · exact fun h => ⟨(List.getElem?_eq_some_iff.mp h).1, h⟩

theorem positions_nodup (flags : List Bool) : (positions flags).Nodup := List.nodup_range.filter _

theorem positions_concat (flags : List Bool) (flag : Bool) :
    positions (flags ++ [flag]) = positions flags ++ if flag then [flags.length] else [] := by
  have hold : (List.range flags.length).filter (fun i => (flags ++ [flag])[i]? = some true) =
      positions flags := by
    apply List.filter_congr
    intro i hi
    rw [List.getElem?_append_left (List.mem_range.mp hi)]
  rw [positions, List.length_append, List.length_singleton, List.range_succ, List.filter_append,
    hold]
  cases flag <;> simp

theorem positions_take_succ {k : Nat} {flag : Bool} (h : flags[k]? = some flag) :
    positions (flags.take (k + 1)) = positions (flags.take k) ++ if flag then [k] else [] := by
  have hk : k < flags.length := (List.getElem?_eq_some_iff.mp h).1
  rw [List.take_add_one, h, Option.toList_some, positions_concat, List.length_take,
    Nat.min_eq_left (Nat.le_of_lt hk)]

theorem length_positions (flags : List Bool) : (positions flags).length = flags.count true := by
  induction flags using List.reverseRecOn with
  | nil => rfl
  | append_singleton flags flag ih =>
    rw [positions_concat, List.length_append, ih, List.count_append]
    cases flag <;> rfl

theorem positions_prefix (flags rest : List Bool) :
    positions flags <+: positions (flags ++ rest) := by
  induction rest using List.reverseRecOn with
  | nil => simp
  | append_singleton rest flag ih =>
    rw [← List.append_assoc, positions_concat]
    exact ih.trans (List.prefix_append _ _)

end Opto
