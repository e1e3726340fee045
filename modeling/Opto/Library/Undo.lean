import Opto.Library.Lists

/-!
# Undo logs

A table changes by appending rows and by overwriting rows. Saving every old row
before it is first overwritten is enough to get the old table back: truncate it
to its old length and write the saved rows over it.
-/

namespace Opto

variable {α : Type}

/-- The first row saved under an index stays. -/
def saveOnce (saved : List (Nat × α)) (i : Nat) (row : α) : List (Nat × α) :=
  match saved.lookup i with
  | some _ => saved
  | none => (i, row) :: saved

def assign (rows : List α) (i : Nat) (row : α) : Option (List α) :=
  if i < rows.length then some (rows.set i row) else none

def restore (rows : List α) (length : Nat) (saved : List (Nat × α)) : Option (List α) :=
  saved.foldlM (fun rows entry => assign rows entry.1 entry.2) (rows.take length)

theorem lookup_saveOnce_self (saved : List (Nat × α)) (i : Nat) (row : α) :
    ((saveOnce saved i row).lookup i).isSome := by
  rw [saveOnce]
  cases h : saved.lookup i with
  | some old => rw [h]; rfl
  | none => rw [lookup_cons, if_pos rfl]; rfl

theorem isSome_lookup_saveOnce {saved : List (Nat × α)} {i j : Nat} (h : (saved.lookup j).isSome)
    (row : α) : ((saveOnce saved i row).lookup j).isSome := by
  rw [saveOnce]
  cases saved.lookup i with
  | some old => exact h
  | none =>
    rw [lookup_cons]
    split_ifs
    · rfl
    · exact h

theorem mem_of_lookup {κ : Type} [DecidableEq κ] {saved : List (κ × α)} {i : κ} {row : α}
    (h : saved.lookup i = some row) : (i, row) ∈ saved := by
  induction saved with
  | nil => cases h
  | cons entry saved ih =>
    obtain ⟨k, r⟩ := entry
    rw [lookup_cons] at h
    split_ifs at h with hk
    · cases h
      rw [hk]
      exact List.mem_cons_self
    · exact List.mem_cons_of_mem _ (ih h)

/-- The saved rows and the unsaved rest of `rows` make up `old`. -/
structure Undoes (old rows : List α) (saved : List (Nat × α)) : Prop where
  length : old.length ≤ rows.length
  known : ∀ entry ∈ saved, old[entry.1]? = some entry.2
  kept : ∀ i < old.length, saved.lookup i = none → rows[i]? = old[i]?

namespace Undoes

variable {old rows : List α} {saved : List (Nat × α)}

theorem refl (old : List α) : Undoes old old [] :=
  ⟨Nat.le_refl _, nofun, fun _ _ _ => rfl⟩

theorem push (h : Undoes old rows saved) (row : α) : Undoes old (rows ++ [row]) saved where
  length := by rw [List.length_append]; exact h.length.trans (Nat.le_add_right _ _)
  known := h.known
  kept i hi hnone := by
    rw [List.getElem?_append_left (hi.trans_le h.length)]
    exact h.kept i hi hnone

theorem save (h : Undoes old rows saved) {i : Nat} {row : α} (hi : i < old.length)
    (hrow : rows[i]? = some row) : Undoes old rows (saveOnce saved i row) := by
  rw [saveOnce]
  cases hs : saved.lookup i with
  | some _ => exact h
  | none =>
    refine ⟨h.length, fun entry hentry => ?_, fun j hj hnone => ?_⟩
    · rcases List.mem_cons.mp hentry with rfl | hentry
      · exact (h.kept i hi hs).symm.trans hrow
      · exact h.known entry hentry
    · rw [lookup_cons] at hnone
      split_ifs at hnone
      exact h.kept j hj hnone

theorem modify (h : Undoes old rows saved) {i : Nat}
    (hi : i < old.length → (saved.lookup i).isSome) (f : α → α) :
    Undoes old (rows.modify i f) saved where
  length := by rw [List.length_modify]; exact h.length
  known := h.known
  kept j hj hnone := by
    have hne : i ≠ j := by
      rintro rfl
      have := hi hj
      rw [hnone] at this
      cases this
    rw [List.getElem?_modify_ne _ _ hne]
    exact h.kept j hj hnone

/-- Writing the saved rows over a table of the old length. -/
theorem writeBack (h : Undoes old rows saved) (hlen : rows.length = old.length) :
    saved.foldlM (fun rows entry => assign rows entry.1 entry.2) rows = some old := by
  induction saved generalizing rows with
  | nil =>
    have hsame : rows = old := by
      apply List.ext_getElem? fun i => ?_
      rcases Nat.lt_or_ge i old.length with hi | hi
      · exact h.kept i hi rfl
      · rw [List.getElem?_eq_none hi, List.getElem?_eq_none (hlen.trans_le hi)]
    rw [hsame]
    rfl
  | cons entry saved ih =>
    obtain ⟨k, row⟩ := entry
    have hrow : old[k]? = some row := h.known _ List.mem_cons_self
    have hk : k < rows.length := hlen ▸ (List.getElem?_eq_some_iff.mp hrow).1
    rw [List.foldlM_cons, assign, if_pos hk]
    have hrest : Undoes old (rows.set k row) saved := by
      refine ⟨by rw [List.length_set, hlen], fun e he => h.known e (List.mem_cons_of_mem _ he), ?_⟩
      intro i hi hnone
      by_cases he : k = i
      · subst he
        rw [List.getElem?_set_self hk, hrow]
      · rw [List.getElem?_set_ne he]
        apply h.kept i hi
        rw [lookup_cons, if_neg (Ne.symm he)]
        exact hnone
    exact ih hrest (by rw [List.length_set, hlen])

theorem restore (h : Undoes old rows saved) : Opto.restore rows old.length saved = some old := by
  have htake : Undoes old (rows.take old.length) saved := by
    refine ⟨by rw [List.length_take, Nat.min_eq_left h.length], h.known, fun i hi hnone => ?_⟩
    rw [List.getElem?_take_of_lt hi]
    exact h.kept i hi hnone
  exact htake.writeBack (by rw [List.length_take, Nat.min_eq_left h.length])

end Undoes

end Opto
