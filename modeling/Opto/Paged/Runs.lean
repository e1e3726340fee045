import Mathlib.Data.List.Induction
import Opto.Paged.Calls

/-!
# Histories of paged vectors

A family of vectors is forked, edited and dropped in any order, with reservations that fail
anywhere. Every vector reads as a plain vector that shares nothing and has seen the same
successful edits.
-/

namespace Opto.Paged

open Mapped (U32_MAX)

variable {α : Type}

inductive Op (α : Type) where
  | create (default : α)
  | forkShared (i : Nat)
  | drop (i : Nat)
  | trySet (alloc : Site → Bool) (i index : Nat) (value : α)
  | tryResize (alloc : Site → Bool) (i len : Nat)
  | truncate (i len : Nat)

/-! Paged vectors. -/

/-- The state that a call leaves and what it returns. -/
def call {β : Type} (w : World α) (m : PagedM α β) (answer : β → Option α) : World α × Except Failure (Option α) :=
  match m.run w with
  | .ok b w' => (w', .ok (answer b))
  | .error e w' => (w', .error e)

/-- A call on a vector of the family; without the vector there is no such call. -/
def World.edit {β : Type} (w : World α) (i : Nat) (m : PagedM α β) (answer : β → Option α) :
    World α × Except Failure (Option α) :=
  match w.forks[i]? with
  | some (some _) => call w m answer
  | _ => (w, .ok none)

def World.step (w : World α) : Op α → World α × Except Failure (Option α)
  | .create default => ({ w with forks := w.forks ++ [some ⟨[], 0, default⟩] }, .ok none)
  | .forkShared i =>
    match w.forks[i]? with
    | some (some f) => ({ w with forks := w.forks ++ [some f] }, .ok none)
    | _ => (w, .ok none)
  | .drop i => ({ w with forks := w.forks.set i none }, .ok none)
  | .trySet alloc i index value => w.edit i (Paged.trySet alloc i index value) id
  | .tryResize alloc i len => w.edit i (Paged.tryResize alloc i len) fun _ => none
  | .truncate i len => w.edit i (Paged.truncate i len) fun _ => none

def World.read (w : World α) (i index : Nat) : Option α := w.forks[i]?.join.bind fun f => w.get f index

/-! Plain vectors. -/

abbrev Plain (α : Type) := List (Option (PlainVec α))

def Plain.edit (s : Plain α) (i : Nat) (change : PlainVec α → PlainVec α × Option α) : Plain α × Option α :=
  match s[i]? with
  | some (some p) => (s.set i (some (change p).1), (change p).2)
  | _ => (s, none)

def Plain.step (s : Plain α) : Op α → Plain α × Option α
  | .create default => (s ++ [some ⟨[], default⟩], none)
  | .forkShared i =>
    match s[i]? with
    | some (some p) => (s ++ [some p], none)
    | _ => (s, none)
  | .drop i => (s.set i none, none)
  | .trySet _ i index value => s.edit i fun p => (p.set index value, p.values[index]?)
  | .tryResize _ i len => s.edit i fun p => (p.resize len, none)
  | .truncate i len => s.edit i fun p => (p.truncate len, none)

def Plain.read (s : Plain α) (i index : Nat) : Option α := s[i]?.join.bind fun p => p.values[index]?

/-- Both families after a history; an operation that fails is not carried out on the plain ones. -/
def run (ops : List (Op α)) : World α × Plain α :=
  ops.foldl (fun (w, s) op => ((w.step op).1, match (w.step op).2 with
    | .ok _ => (s.step op).1
    | .error _ => s)) (⟨[], []⟩, [])

/-! Refinement. -/

/-- When an operation may fail: a reservation fails, or the length does not fit. -/
def Op.Refusable : Op α → Prop
  | .trySet alloc _ index _ => (∃ site, alloc site = false) ∨ U32_MAX < index + 1
  | .tryResize alloc _ len => (∃ site, alloc site = false) ∨ U32_MAX < len
  | _ => False

/-- The outcome is that of the plain vectors, or a failure that changes nothing. -/
def Matches (w : World α) (r : World α × Except Failure (Option α)) (s' : Plain α × Option α) (refusable : Prop) :
    Prop :=
  match r.2 with
  | .ok answer => answer = s'.2 ∧ Agrees r.1 s'.1
  | .error e => e = .capacity ∧ r.1 = w ∧ refusable

section

variable {w : World α} {s : Plain α}

theorem Agrees.read (h : Agrees w s) (i index : Nat) : w.read i index = s.read i index := by
  rw [World.read, Plain.read]
  cases hi : w.forks[i]? with
  | none =>
    have hlength := h.length
    have hnone : s[i]? = none := by
      rw [List.getElem?_eq_none_iff] at hi ⊢
      omega
    rw [hnone]
    rfl
  | some f =>
    cases f with
    | none =>
      rw [h.dropped i hi]
      rfl
    | some f =>
      obtain ⟨p, hs, hshows⟩ := h.shows i f hi
      rw [hs]
      exact hshows.get index

/-- Another vector is added. -/
theorem Agrees.append (h : Agrees w s) {f : PagedCowVec α} {p : PlainVec α} (hshows : Shows w.heap f p) :
    Agrees { w with forks := w.forks ++ [some f] } (s ++ [some p]) := by
  have hlength := h.length
  refine ⟨by rw [List.length_append, List.length_append, hlength, List.length_singleton, List.length_singleton],
    fun i g hi => ?_, fun i hi => ?_⟩
  · by_cases hin : i < w.forks.length
    · rw [List.getElem?_append_left hin] at hi
      rw [List.getElem?_append_left (hlength ▸ hin)]
      exact h.shows i g hi
    · rw [List.getElem?_append_right (Nat.not_lt.mp hin)] at hi
      rw [List.getElem?_append_right (hlength ▸ Nat.not_lt.mp hin), ← hlength]
      cases hzero : i - w.forks.length with
      | zero =>
        rw [hzero] at hi
        cases hi
        exact ⟨p, rfl, hshows⟩
      | succ n =>
        rw [hzero] at hi
        cases hi
  · by_cases hin : i < w.forks.length
    · rw [List.getElem?_append_left hin] at hi
      rw [List.getElem?_append_left (hlength ▸ hin)]
      exact h.dropped i hi
    · rw [List.getElem?_append_right (Nat.not_lt.mp hin)] at hi
      cases hzero : i - w.forks.length with
      | zero => rw [hzero] at hi; cases hi
      | succ n => rw [hzero] at hi; cases hi

theorem Agrees.drop (h : Agrees w s) (i : Nat) : Agrees { w with forks := w.forks.set i none } (s.set i none) := by
  have hlength := h.length
  refine ⟨by rw [List.length_set, List.length_set, hlength], fun j g hj => ?_, fun j hj => ?_⟩
  · rw [List.getElem?_set] at hj
    rw [List.getElem?_set]
    by_cases hij : i = j
    · rw [if_pos hij] at hj
      split_ifs at hj
      cases hj
    · rw [if_neg hij] at hj ⊢
      exact h.shows j g hj
  · rw [List.getElem?_set] at hj
    rw [List.getElem?_set]
    split_ifs at hj with hij hlt
    · rw [if_pos hij, if_pos (hlength ▸ hlt)]
    · rw [if_neg hij]
      exact h.dropped j hj

theorem edit_matches (h : Agrees w s) {β : Type} (i : Nat) {m : PagedM α β} {answer : β → Option α}
    {change : PlainVec α → PlainVec α × Option α} {refusable : Prop}
    (hm : ∀ f p, w.forks[i]? = some (some f) → s[i]? = some (some p) → Shows w.heap f p → Outcome w m
      (fun b w' => answer b = (change p).2 ∧ Agrees w' (s.set i (some (change p).1)))
      (fun e w' => e = .capacity ∧ w' = w ∧ refusable)) :
    Matches w (w.edit i m answer) (s.edit i change) refusable := by
  rw [World.edit, Plain.edit]
  cases hi : w.forks[i]? with
  | none =>
    have hlength := h.length
    have hs : s[i]? = none := by
      rw [List.getElem?_eq_none_iff] at hi ⊢
      omega
    rw [hs]
    exact ⟨rfl, h⟩
  | some f =>
    cases f with
    | none =>
      rw [h.dropped i hi]
      exact ⟨rfl, h⟩
    | some f =>
      obtain ⟨p, hs, hshows⟩ := h.shows i f hi
      have houtcome := hm f p hi hs hshows
      rw [Outcome] at houtcome
      simp only [hs, call]
      cases hrun : m.run w with
      | ok b w' => rw [hrun] at houtcome; exact houtcome
      | error e w' => rw [hrun] at houtcome; exact houtcome

theorem step_matches (h : Agrees w s) (op : Op α) : Matches w (w.step op) (s.step op) op.Refusable := by
  cases op with
  | create default =>
    have hpages : ([] : List Nat).length = Pages.divCeil ([] : List α).length VALUES_PER_PAGE := by
      rw [List.length_nil, List.length_nil]
      decide
    refine ⟨rfl, h.append ⟨rfl, Nat.zero_le _, rfl, hpages, fun k address hk => ?_⟩⟩
    cases hk
  | forkShared i =>
    simp only [World.step, Plain.step]
    cases hi : w.forks[i]? with
    | none =>
      have hlength := h.length
      have hs : s[i]? = none := by
        rw [List.getElem?_eq_none_iff] at hi ⊢
        omega
      rw [hs]
      exact ⟨rfl, h⟩
    | some f =>
      cases f with
      | none =>
        rw [h.dropped i hi]
        exact ⟨rfl, h⟩
      | some f =>
        obtain ⟨p, hs, hshows⟩ := h.shows i f hi
        rw [hs]
        exact ⟨rfl, h.append hshows⟩
  | drop i => exact ⟨rfl, h.drop i⟩
  | trySet alloc i index value =>
    apply edit_matches h i
    intro f p hi hs hshows
    exact trySet_outcome h hi hs hshows alloc index value
  | tryResize alloc i len =>
    apply edit_matches h i
    intro f p hi hs hshows
    apply (tryResize_outcome h hi hshows alloc len).mono
    · exact fun _ _ ⟨hagrees, _⟩ => ⟨rfl, hagrees⟩
    · exact fun _ _ he => he
  | truncate i len =>
    apply edit_matches h i
    intro f p hi hs hshows
    apply (truncate_outcome h hi hshows len).mono
    · exact fun _ _ hagrees => ⟨rfl, hagrees⟩
    · exact fun _ _ he => he

theorem run_agrees (ops : List (Op α)) : Agrees (run ops).1 (run ops).2 := by
  induction ops using List.reverseRecOn with
  | nil => exact ⟨rfl, fun i f hi => (by cases hi), fun i hi => (by cases hi)⟩
  | append_singleton ops op ih =>
    rw [run, List.foldl_append]
    have hmatches := step_matches ih op
    change Agrees ((run ops).1.step op).1 (match ((run ops).1.step op).2 with
      | .ok _ => ((run ops).2.step op).1
      | .error _ => (run ops).2)
    rw [Matches] at hmatches
    cases hstep : ((run ops).1.step op).2 with
    | ok answer =>
      rw [hstep] at hmatches
      exact hmatches.2
    | error e =>
      rw [hstep] at hmatches
      rw [hmatches.2.1]
      exact ih

end

/-- After every history each vector reads as its plain one, and the next operation does and returns
what it does there or fails, for want of memory or of room, and changes nothing. -/
theorem paged_vectors_refine (ops : List (Op α)) :
    (∀ i index, (run ops).1.read i index = (run ops).2.read i index) ∧
    ∀ op, match ((run ops).1.step op).2 with
      | .ok answer => answer = ((run ops).2.step op).2 ∧
          ∀ i index, ((run ops).1.step op).1.read i index = ((run ops).2.step op).1.read i index
      | .error e => e = .capacity ∧ ((run ops).1.step op).1 = (run ops).1 ∧ op.Refusable := by
  have hagrees := run_agrees ops
  refine ⟨hagrees.read, fun op => ?_⟩
  have hmatches := step_matches hagrees op
  rw [Matches] at hmatches
  cases hstep : ((run ops).1.step op).2 with
  | ok answer =>
    rw [hstep] at hmatches
    exact ⟨hmatches.1, hmatches.2.read⟩
  | error e =>
    rw [hstep] at hmatches
    exact hmatches

end Opto.Paged
