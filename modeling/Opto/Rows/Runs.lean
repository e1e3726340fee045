import Mathlib.Data.List.Induction
import Opto.Rows.Compact

/-!
# Histories of row arenas

A family of arenas is built, forked, edited, compacted and dropped in any order, with
reservations that fail anywhere. Every arena reads as a plain list of rows that shares nothing.
-/

namespace Opto.Rows

open Mapped (U32_MAX)

variable {α : Type}

inductive Op (α : Type) where
  | tryFromRows (alloc : Site → Bool) (rows : List (List α))
  | tryEmpty (alloc : Site → Bool) (rowCount : Nat)
  | drop (i : Nat)
  | forkShared (i : Nat)
  | compact (alloc : Site → Bool) (i : Nat)
  | push (i row : Nat) (value : α)
  | retain (i row : Nat) (predicate : List α → α → Bool)
  | rowMut (i row : Nat) (edit : List α → List α)
  | replace (i row : Nat) (values : List α)
  | tryReserveRows (alloc : Site → Bool) (i rowCount : Nat)
  | pushEmpty (alloc : Site → Bool) (i : Nat)
  | resizeEmpty (alloc : Site → Bool) (i rowCount : Nat)
  | truncateEmpty (i rowCount : Nat)
  | popEmpty (i : Nat)

/-! Row arenas. -/

/-- The arenas of a family. A dropped one leaves its place. -/
abbrev World (α : Type) := List (Option (RowArena α))

namespace World

/-- The state that a call leaves, and whether it did what it was called for. -/
def edit (w : World α) (i : Nat) (m : ArenaM α Unit) : World α × Except Failure Bool :=
  match w[i]? with
  | some (some a) =>
    match m.run a with
    | .ok _ a' => (w.set i (some a'), .ok true)
    | .error e a' => (w.set i (some a'), .error e)
  | _ => (w, .ok false)

def create (w : World α) (r : Except Failure (RowArena α)) : World α × Except Failure Bool :=
  match r with
  | .ok a => (w ++ [some a], .ok true)
  | .error e => (w, .error e)

def fork (w : World α) (i : Nat) : World α × Except Failure Bool :=
  match w[i]? with
  | some (some a) =>
    match a.forkShared with
    | some f => (w ++ [some f], .ok true)
    | none => (w, .ok false)
  | _ => (w, .ok false)

def step (w : World α) : Op α → World α × Except Failure Bool
  | .tryFromRows alloc rows => w.create (Rows.tryFromRows alloc rows)
  | .tryEmpty alloc rowCount => w.create (Rows.tryEmpty alloc rowCount)
  | .drop i => (w.set i none, .ok true)
  | .forkShared i => w.fork i
  | .compact alloc i => w.edit i (Rows.compact alloc)
  | .push i row value => w.edit i (Rows.push row value)
  | .retain i row predicate => w.edit i (Rows.retain row predicate)
  | .rowMut i row change => w.edit i (Rows.rowMut row change)
  | .replace i row values => w.edit i (Rows.replace row values)
  | .tryReserveRows alloc i rowCount => w.edit i (Rows.tryReserveRows alloc rowCount)
  | .pushEmpty alloc i => w.edit i (Rows.pushEmpty alloc)
  | .resizeEmpty alloc i rowCount => w.edit i (Rows.resizeEmpty alloc rowCount)
  | .truncateEmpty i rowCount => w.edit i (Rows.truncateEmpty rowCount)
  | .popEmpty i => w.edit i Rows.popEmpty

def read (w : World α) (i row : Nat) : Except Failure (Option (List α)) :=
  match w[i]? with
  | some (some a) => a.get row
  | _ => .ok none

end World

/-! Plain rows. -/

abbrev Plain (α : Type) := List (Option (List (List α)))

namespace Plain

def edit (s : Plain α) (i : Nat) (change : List (List α) → Option (List (List α))) : Option (Plain α) :=
  match s[i]? with
  | some (some rows) => (change rows).map fun rows => s.set i (some rows)
  | _ => some s

def editRow (s : Plain α) (i row : Nat) (change : List α → List α) : Option (Plain α) :=
  s.edit i fun rows => if row < rows.length then some (rows.modify row change) else none

/-- The rows after an operation, or nothing where plain rows do not have it either. -/
def step (s : Plain α) : Op α → Option (Plain α)
  | .tryFromRows _ rows => some (s ++ [some rows])
  | .tryEmpty _ rowCount => some (s ++ [some (List.replicate rowCount [])])
  | .drop i => some (s.set i none)
  | .forkShared i => some (s ++ [s[i]?.join])
  | .compact _ i => s.edit i some
  | .push i row value => s.editRow i row (· ++ [value])
  | .retain i row predicate => s.editRow i row (retained predicate [])
  | .rowMut i row change => s.editRow i row change
  | .replace i row values => s.editRow i row fun _ => values
  | .tryReserveRows _ i _ => s.edit i some
  | .pushEmpty _ i => s.edit i fun rows => some (rows ++ [[]])
  | .resizeEmpty _ i rowCount => s.edit i fun rows =>
    if rows.length ≤ rowCount then some (rows ++ List.replicate (rowCount - rows.length) []) else none
  | .truncateEmpty i rowCount => s.edit i fun rows =>
    if rowCount ≤ rows.length ∧ (rows.drop rowCount).all List.isEmpty then some (rows.take rowCount) else none
  | .popEmpty i => s.edit i fun rows =>
    match rows.getLast? with
    | some [] => some rows.dropLast
    | _ => none

def read (s : Plain α) (i row : Nat) : Option (List α) := s[i]?.join.bind fun rows => rows[row]?

end Plain

/-- Both families after a history; an operation that is refused is not carried out on the plain one. -/
def run (ops : List (Op α)) : World α × Plain α :=
  ops.foldl (fun (w, s) op => ((w.step op).1, match (w.step op).2 with
    | .ok true => (s.step op).getD s
    | _ => s)) ([], [])

/-! Refinement. -/

def Agrees (w : World α) (s : Plain α) : Prop :=
  ∀ i : Nat, Option.Rel (Option.Rel ArenaHolds) w[i]? s[i]?

/-- When an operation may be refused for want of memory or of room. -/
def Op.Refusable (s : Plain α) : Op α → Prop
  | .tryFromRows alloc rows => (∃ site, alloc site = false) ∨ U32_MAX < rows.length ∨ Overfull rows
  | .tryEmpty alloc rowCount => (∃ site, alloc site = false) ∨ U32_MAX < rowCount
  | .compact alloc i => (∃ site, alloc site = false) ∨ ∃ rows, s[i]? = some (some rows) ∧ Overfull rows
  | .tryReserveRows alloc _ rowCount => (∃ site, alloc site = false) ∨ U32_MAX < rowCount
  | .pushEmpty alloc i => (∃ site, alloc site = false) ∨ ∃ rows, s[i]? = some (some rows) ∧ U32_MAX < rows.length + 1
  | .resizeEmpty alloc _ rowCount => (∃ site, alloc site = false) ∨ U32_MAX < rowCount
  | _ => False

/-- The arena that an operation is called on. -/
def Op.target : Op α → Option Nat
  | .tryFromRows _ _ | .tryEmpty _ _ => none
  | .drop i | .forkShared i | .compact _ i | .push i _ _ | .retain i _ _ | .rowMut i _ _ | .replace i _ _
  | .tryReserveRows _ i _ | .pushEmpty _ i | .resizeEmpty _ i _ | .truncateEmpty i _ | .popEmpty i => some i

/-- There is no such arena, or it cannot be forked yet. -/
def Op.Declined (w : World α) (op : Op α) : Prop :=
  ∃ i, op.target = some i ∧ (w[i]?.join = none ∨
    op = .forkShared i ∧ ∃ a, w[i]? = some (some a) ∧ ¬ AllPacked a.pages)

def Matches (w : World α) (s : Plain α) (op : Op α) : Prop :=
  match (w.step op).2 with
  | .ok true => ∃ s', s.step op = some s' ∧ Agrees (w.step op).1 s'
  | .ok false => (w.step op).1 = w ∧ op.Declined w
  | .error .capacity => (w.step op).1 = w ∧ op.Refusable s
  | .error (.panic _) => (w.step op).1 = w ∧ s.step op = none

section

variable {w : World α} {s : Plain α}

theorem Agrees.length (h : Agrees w s) : w.length = s.length := by
  apply Nat.le_antisymm <;> apply Nat.le_of_not_lt <;> intro hlt
  · have hrel := h s.length
    rw [List.getElem?_eq_getElem hlt, List.getElem?_eq_none (Nat.le_refl _)] at hrel
    cases hrel
  · have hrel := h w.length
    rw [List.getElem?_eq_getElem hlt, List.getElem?_eq_none (Nat.le_refl _)] at hrel
    cases hrel

theorem Agrees.append (h : Agrees w s) {a : Option (RowArena α)} {rows : Option (List (List α))}
    (hnew : Option.Rel ArenaHolds a rows) : Agrees (w ++ [a]) (s ++ [rows]) := by
  have hlength := h.length
  intro i
  rw [List.getElem?_append, List.getElem?_append, hlength]
  split_ifs with hi
  · exact h i
  · cases i - s.length with
    | zero => exact .some hnew
    | succ n => exact .none

theorem Agrees.set (h : Agrees w s) (i : Nat) {a : Option (RowArena α)} {rows : Option (List (List α))}
    (hnew : Option.Rel ArenaHolds a rows) : Agrees (w.set i a) (s.set i rows) := by
  have hlength := h.length
  intro j
  rw [List.getElem?_set, List.getElem?_set, hlength]
  split_ifs with hij hlt
  · exact .some hnew
  · exact .none
  · exact h j

theorem Agrees.present (h : Agrees w s) {i : Nat} {a : RowArena α} (hi : w[i]? = some (some a)) :
    ∃ rows, s[i]? = some (some rows) ∧ ArenaHolds a rows := by
  have hrel := h i
  rw [hi] at hrel
  cases hs : s[i]? with
  | none =>
    rw [hs] at hrel
    cases hrel
  | some rows =>
    rw [hs] at hrel
    cases rows with
    | none =>
      cases hrel with
      | some hrel => cases hrel
    | some rows =>
      cases hrel with
      | some hrel =>
        cases hrel with
        | some hholds => exact ⟨rows, rfl, hholds⟩

theorem Agrees.absent (h : Agrees w s) {i : Nat} (hi : w[i]?.join = none) : s[i]?.join = none := by
  have hrel := h i
  cases hw : w[i]? with
  | none =>
    rw [hw] at hrel
    cases hs : s[i]? with
    | none => rfl
    | some rows =>
      rw [hs] at hrel
      cases hrel
  | some a =>
    rw [hw] at hrel hi
    obtain rfl : a = none := hi
    cases hs : s[i]? with
    | none => rfl
    | some rows =>
      rw [hs] at hrel
      cases hrel with
      | some hrel =>
        cases hrel
        rfl

theorem Agrees.read (h : Agrees w s) (i row : Nat) : w.read i row = .ok (s.read i row) := by
  rw [World.read, Plain.read]
  by_cases hi : w[i]?.join = none
  · rw [h.absent hi]
    cases hw : w[i]? with
    | none => rfl
    | some a =>
      rw [hw] at hi
      obtain rfl : a = none := hi
      rfl
  · obtain ⟨a, ha⟩ := Option.ne_none_iff_exists'.mp hi
    have hw := Option.join_eq_some_iff.mp ha
    obtain ⟨rows, hs, hholds⟩ := h.present hw
    rw [hw, hs]
    exact hholds.get row

/-- A call on one arena. -/
theorem edit_matches (h : Agrees w s) {op : Op α} {i : Nat} {m : ArenaM α Unit}
    (change : List (List α) → Option (List (List α))) (htarget : op.target = some i)
    (hw : w.step op = w.edit i m) (hs : s.step op = s.edit i change)
    (hm : ∀ a rows, w[i]? = some (some a) → s[i]? = some (some rows) → ArenaHolds a rows → Outcome a m
      (fun _ a' => ∃ rows', change rows = some rows' ∧ ArenaHolds a' rows')
      (fun e a' => a' = a ∧ (e = .capacity ∧ op.Refusable s ∨ (∃ message, e = .panic message) ∧ change rows = none))) :
    Matches w s op := by
  rw [Matches, hw, hs, World.edit, Plain.edit]
  by_cases hi : w[i]?.join = none
  · have hmissing : (match w[i]? with
        | some (some a) => match m.run a with
          | .ok _ a' => (w.set i (some a'), .ok true)
          | .error e a' => (w.set i (some a'), .error e)
        | _ => (w, .ok false) : World α × Except Failure Bool) = (w, .ok false) := by
      cases hwi : w[i]? with
      | none => rfl
      | some a =>
        rw [hwi] at hi
        obtain rfl : a = none := hi
        rfl
    rw [hmissing]
    exact ⟨rfl, i, htarget, .inl hi⟩
  · obtain ⟨a, ha⟩ := Option.ne_none_iff_exists'.mp hi
    have hwi := Option.join_eq_some_iff.mp ha
    obtain ⟨rows, hsi, hholds⟩ := h.present hwi
    have houtcome := hm a rows hwi hsi hholds
    rw [Outcome] at houtcome
    have hlt := (List.getElem?_eq_some_iff.mp hwi).1
    have hback : w.set i (some a) = w := by
      have hentry := (List.getElem?_eq_some_iff.mp hwi).2
      rw [← hentry, List.set_getElem_self]
    rw [hwi, hsi]
    simp only
    cases hrun : m.run a with
    | ok _ a' =>
      rw [hrun] at houtcome
      obtain ⟨rows', hchange, ha'⟩ := houtcome
      simp only [hchange]
      exact ⟨_, rfl, h.set i (.some ha')⟩
    | error e a' =>
      rw [hrun] at houtcome
      obtain ⟨rfl, ⟨rfl, hrefusable⟩ | ⟨⟨message, rfl⟩, hchange⟩⟩ := houtcome
      · exact ⟨hback, hrefusable⟩
      · simp only [hchange]
        exact ⟨hback, rfl⟩

theorem editRow_matches (h : Agrees w s) {op : Op α} {i row : Nat} {m : ArenaM α Unit}
    {change : List α → List α} (htarget : op.target = some i) (hw : w.step op = w.edit i m)
    (hs : s.step op = s.editRow i row change)
    (hm : ∀ a rows, ArenaHolds a rows → Outcome a m
      (fun _ a' => row < rows.length ∧ ArenaHolds a' (rows.modify row change))
      (fun e a' => a' = a ∧ rows.length ≤ row ∧ ∃ message, e = .panic message)) :
    Matches w s op := by
  apply edit_matches h _ htarget hw hs
  intro a rows _ _ hholds
  apply (hm a rows hholds).mono
  · intro _ a' ⟨hrow, ha'⟩
    exact ⟨_, if_pos hrow, ha'⟩
  · intro e a' ⟨ha, hrow, he⟩
    exact ⟨ha, .inr ⟨he, if_neg (Nat.not_lt.mpr hrow)⟩⟩

theorem create_matches (h : Agrees w s) {op : Op α} {r : Except Failure (RowArena α)} {rows : List (List α)}
    (hw : w.step op = w.create r) (hs : s.step op = some (s ++ [some rows]))
    (hr : Settles r (fun a => ArenaHolds a rows) (fun e => e = .capacity ∧ op.Refusable s)) : Matches w s op := by
  rw [Matches, hw, hs]
  cases r with
  | ok a => exact ⟨_, rfl, h.append (.some hr)⟩
  | error e =>
    obtain ⟨rfl, hrefusable⟩ := hr
    exact ⟨rfl, hrefusable⟩

theorem emptyArena_holds : ArenaHolds (⟨[], 0⟩ : RowArena α) [] := by
  have hnone : 0 = Pages.divCeil 0 ROWS_PER_PAGE := by decide
  refine ⟨rfl, Nat.zero_le _, hnone, fun k page hk => ?_⟩
  cases hk

theorem tryEmpty_settles (alloc : Site → Bool) (rowCount : Nat) :
    Settles (tryEmpty alloc rowCount : Except Failure (RowArena α))
      (fun a => ArenaHolds a (List.replicate rowCount []))
      (fun e => e = .capacity ∧ ((∃ site, alloc site = false) ∨ U32_MAX < rowCount)) := by
  have houtcome := resizeEmpty_outcome (emptyArena_holds (α := α)) alloc rowCount
  rw [Outcome] at houtcome
  rw [tryEmpty]
  cases hrun : (resizeEmpty alloc rowCount).run (⟨[], 0⟩ : RowArena α) with
  | ok _ a =>
    rw [hrun] at houtcome
    exact houtcome.2
  | error e a =>
    rw [hrun] at houtcome
    obtain ⟨_, hcapacity | ⟨hless, _⟩⟩ := houtcome
    · exact hcapacity
    · exact (Nat.not_lt_zero _ hless).elim

theorem fork_matches (h : Agrees w s) (i : Nat) : Matches w s (.forkShared i) := by
  rw [Matches, World.step, Plain.step, World.fork]
  by_cases hi : w[i]?.join = none
  · have hmissing : (match w[i]? with
        | some (some a) => match a.forkShared with
          | some f => (w ++ [some f], .ok true)
          | none => (w, .ok false)
        | _ => (w, .ok false) : World α × Except Failure Bool) = (w, .ok false) := by
      cases hwi : w[i]? with
      | none => rfl
      | some a =>
        rw [hwi] at hi
        obtain rfl : a = none := hi
        rfl
    rw [hmissing]
    exact ⟨rfl, i, rfl, .inl hi⟩
  · obtain ⟨a, ha⟩ := Option.ne_none_iff_exists'.mp hi
    have hwi := Option.join_eq_some_iff.mp ha
    obtain ⟨rows, hsi, hholds⟩ := h.present hwi
    rw [hwi, hsi]
    cases hfork : a.forkShared with
    | some f =>
      obtain ⟨rfl, _⟩ := (forkShared_iff a f).mp hfork
      simp only [hfork]
      exact ⟨_, rfl, h.append (.some hholds)⟩
    | none =>
      simp only [hfork]
      refine ⟨trivial, i, rfl, .inr ⟨rfl, a, hwi, fun hall => ?_⟩⟩
      rw [(forkShared_iff a a).mpr ⟨rfl, hall⟩] at hfork
      cases hfork

theorem step_matches (h : Agrees w s) (op : Op α) : Matches w s op := by
  cases op with
  | tryFromRows alloc rows => exact create_matches h rfl rfl ((tryFromRows_settles alloc rows).mono fun _ ha => ha.1)
  | tryEmpty alloc rowCount => exact create_matches h rfl rfl (tryEmpty_settles alloc rowCount)
  | drop i => exact ⟨_, rfl, h.set i .none⟩
  | forkShared i => exact fork_matches h i
  | compact alloc i =>
    apply edit_matches h some rfl rfl rfl
    intro a rows _ hs hholds
    apply (compact_outcome hholds alloc).mono
    · exact fun _ a' ha' => ⟨rows, rfl, ha'.1⟩
    · rintro e a' ⟨ha, he, hsite | hover⟩
      · exact ⟨ha, .inl ⟨he, .inl hsite⟩⟩
      · exact ⟨ha, .inl ⟨he, .inr ⟨rows, hs, hover⟩⟩⟩
  | push i row value =>
    apply editRow_matches h rfl rfl rfl
    intro a rows hholds
    exact rowMut_outcome hholds row _
  | retain i row predicate =>
    apply editRow_matches h rfl rfl rfl
    intro a rows hholds
    exact rowMut_outcome hholds row _
  | rowMut i row change =>
    apply editRow_matches h rfl rfl rfl
    intro a rows hholds
    exact rowMut_outcome hholds row change
  | replace i row values =>
    apply editRow_matches h rfl rfl rfl
    intro a rows hholds
    apply (replace_outcome hholds row values).mono
    · intro _ a' ⟨hrow, ha'⟩
      have hsame : rows.modify row (fun _ => values) = rows.set row values := by
        rw [List.modify_eq_set]
      rw [hsame]
      exact ⟨hrow, ha'⟩
    · exact fun _ _ he => he
  | tryReserveRows alloc i rowCount =>
    apply edit_matches h some rfl rfl rfl
    intro a rows _ _ hholds
    apply (tryReserveRows_outcome alloc rowCount).mono
    · rintro _ a' ⟨rfl, _⟩
      exact ⟨rows, rfl, hholds⟩
    · exact fun e a' ⟨ha, he, hwhy⟩ => ⟨ha, .inl ⟨he, hwhy⟩⟩
  | pushEmpty alloc i =>
    apply edit_matches h (fun rows => some (rows ++ [[]])) rfl rfl rfl
    intro a rows _ hs hholds
    apply (pushEmpty_outcome hholds alloc).mono
    · exact fun _ a' ha' => ⟨_, rfl, ha'⟩
    · rintro e a' ⟨ha, he, hsite | hlarge⟩
      · exact ⟨ha, .inl ⟨he, .inl hsite⟩⟩
      · exact ⟨ha, .inl ⟨he, .inr ⟨rows, hs, hlarge⟩⟩⟩
  | resizeEmpty alloc i rowCount =>
    apply edit_matches h _ rfl rfl rfl
    intro a rows _ _ hholds
    apply (resizeEmpty_outcome hholds alloc rowCount).mono
    · exact fun _ a' ⟨hgrows, ha'⟩ => ⟨_, if_pos hgrows, ha'⟩
    · rintro e a' ⟨ha, hcapacity | ⟨hless, he⟩⟩
      · exact ⟨ha, .inl hcapacity⟩
      · exact ⟨ha, .inr ⟨he, if_neg (Nat.not_le.mpr hless)⟩⟩
  | truncateEmpty i rowCount =>
    apply edit_matches h _ rfl rfl rfl
    intro a rows _ _ hholds
    apply (truncateEmpty_outcome hholds rowCount).mono
    · exact fun _ a' ⟨hle, hempty, ha'⟩ => ⟨_, if_pos ⟨hle, hempty⟩, ha'⟩
    · exact fun e a' ⟨ha, hnot, he⟩ => ⟨ha, .inr ⟨he, if_neg hnot⟩⟩
  | popEmpty i =>
    apply edit_matches h _ rfl rfl rfl
    intro a rows _ _ hholds
    apply (popEmpty_outcome hholds).mono
    · intro _ a' ⟨hlast, ha'⟩
      refine ⟨rows.dropLast, ?_, ha'⟩
      simp only [hlast]
    · intro e a' ⟨ha, hnot, he⟩
      refine ⟨ha, .inr ⟨he, ?_⟩⟩
      rcases hlast : rows.getLast? with _ | _ | _
      · rfl
      · exact (hnot hlast).elim
      · rfl

theorem run_agrees (ops : List (Op α)) : Agrees (run ops).1 (run ops).2 := by
  induction ops using List.reverseRecOn with
  | nil => exact fun i => .none
  | append_singleton ops op ih =>
    rw [run, List.foldl_append]
    change Agrees ((run ops).1.step op).1 (match ((run ops).1.step op).2 with
      | .ok true => ((run ops).2.step op).getD (run ops).2
      | _ => (run ops).2)
    have hmatches := step_matches ih op
    rw [Matches] at hmatches
    rcases hstep : ((run ops).1.step op).2 with (_ | _) | _ | _
    · rw [hstep] at hmatches
      simp only [hmatches.1]
      exact ih
    · rw [hstep] at hmatches
      simp only [hmatches.1]
      exact ih
    · rw [hstep] at hmatches
      simp only [hmatches.1]
      exact ih
    · rw [hstep] at hmatches
      obtain ⟨s', hs', hagrees⟩ := hmatches
      simp only [hs']
      exact hagrees

end

/-- After every history each arena reads as its plain rows, its pages count the values of those
rows, and the next operation does what it does to the plain rows, or it changes nothing: it was
refused for want of memory or of room, the plain rows do not have it either, or it was a fork of
an arena that still has dirty pages. -/
theorem row_arenas_refine (ops : List (Op α)) :
    (∀ i row, (run ops).1.read i row = .ok ((run ops).2.read i row)) ∧
    (∀ (i : Nat) a, (run ops).1[i]? = some (some a) → ∃ rows, (run ops).2[i]? = some (some rows) ∧
      a.rowCount = rows.length ∧ ∀ (k : Nat) page, a.pages[k]? = some page →
        match page with
        | .packed p => p.values.length = ((Pages.page ROWS_PER_PAGE rows k).map List.length).sum
        | .dirty d => d.valueCount = if U32_MAX < ((Pages.page ROWS_PER_PAGE rows k).map List.length).sum then
            .error .capacity else .ok ((Pages.page ROWS_PER_PAGE rows k).map List.length).sum) ∧
    ∀ op, match ((run ops).1.step op).2 with
      | .ok true => ∃ s', (run ops).2.step op = some s' ∧
          ∀ i row, ((run ops).1.step op).1.read i row = .ok (s'.read i row)
      | .ok false => ((run ops).1.step op).1 = (run ops).1 ∧ op.Declined (run ops).1
      | .error .capacity => ((run ops).1.step op).1 = (run ops).1 ∧ op.Refusable (run ops).2
      | .error (.panic _) => ((run ops).1.step op).1 = (run ops).1 ∧ (run ops).2.step op = none := by
  have hagrees := run_agrees ops
  refine ⟨hagrees.read, fun i a hi => ?_, fun op => ?_⟩
  · obtain ⟨rows, hrows, hholds⟩ := hagrees.present hi
    refine ⟨rows, hrows, hholds.rowCount, fun k page hk => ?_⟩
    have hpage := (hholds.pages k page hk).2
    rw [← List.length_flatten]
    cases page with
    | packed p => exact congrArg List.length hpage.1.values
    | dirty d => exact hpage.valueCount
  · have hmatches := step_matches hagrees op
    rw [Matches] at hmatches
    rcases hstep : ((run ops).1.step op).2 with (_ | _) | _ | _
    · rw [hstep] at hmatches
      exact hmatches
    · rw [hstep] at hmatches
      exact hmatches
    · rw [hstep] at hmatches
      exact hmatches
    · rw [hstep] at hmatches
      obtain ⟨s', hs', hnext⟩ := hmatches
      exact ⟨s', hs', hnext.read⟩

end Opto.Rows
