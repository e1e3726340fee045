import Opto.Library.Outcome
import Opto.Library.PostOrder

/-!
# Walks that remember what is finished

A visit of the top entry of a stack either finishes its node or pushes the node again below
what it depends on. Dependencies rank lower, so a node that waits to be left has only lower
ones above it, and no node is entered twice.
-/

namespace Opto

variable {ε σ ν : Type}

/-- The stack has `(x, false)` for a node to enter and `(x, true)` for one to leave. -/
def traverse (exhausted : ε) (visit : ν → Bool → EStateM ε σ (List (ν × Bool))) :
    Nat → List (ν × Bool) → EStateM ε σ Unit
  | _, [] => pure ()
  | 0, _ :: _ => throw exhausted
  | fuel + 1, (x, expanded) :: pending => do
    let pushed ← visit x expanded
    traverse exhausted visit fuel (pushed ++ pending)

/-! Counting what has a property. -/

open Classical in
noncomputable def countOf (nodes : List ν) (p : ν → Prop) : Nat := nodes.countP fun x => decide (p x)

variable {nodes : List ν} {p q : ν → Prop}

theorem countOf_le_length (nodes : List ν) (p : ν → Prop) : countOf nodes p ≤ nodes.length :=
  List.countP_le_length

theorem countOf_mono (h : ∀ x, p x → q x) : countOf nodes p ≤ countOf nodes q := by
  apply List.countP_mono_left
  intro x _ hx
  simp only [decide_eq_true_eq] at hx ⊢
  exact h x hx

theorem countOf_lt (h : ∀ x, p x → q x) {x : ν} (hx : x ∈ nodes) (hp : ¬p x) (hq : q x) :
    countOf nodes p < countOf nodes q := by
  induction nodes with
  | nil => cases hx
  | cons y nodes ih =>
    have hrest : countOf nodes p ≤ countOf nodes q := countOf_mono h
    rw [countOf, countOf, List.countP_cons, List.countP_cons]
    rw [countOf, countOf] at hrest ih
    rcases List.mem_cons.mp hx with rfl | hx
    · rw [if_neg (by simpa using hp), if_pos (by simpa using hq)]
      omega
    · have hlt := ih hx
      by_cases hy : p y
      · rw [if_pos (by simpa using hy), if_pos (by simpa using h y hy)]
        omega
      · rw [if_neg (by simpa using hy)]
        omega

section

variable {deps : ν → List ν} {rank : ν → Nat} {done : σ → ν → Prop}

/-- What waits to be left ranks above everything that was pushed later. -/
def Stacked (rank : ν → Nat) (pending : List (ν × Bool)) : Prop :=
  pending.Pairwise fun a b => b.2 = true → rank a.1 < rank b.1

theorem Stacked.enter (hrank : ∀ x, ∀ d ∈ deps x, rank d < rank x) {x : ν}
    {pending : List (ν × Bool)} (h : Stacked rank ((x, false) :: pending)) :
    Stacked rank ((deps x).map (·, false) ++ (x, true) :: pending) := by
  obtain ⟨hx, hpending⟩ := List.pairwise_cons.mp h
  apply List.pairwise_append.mpr
  refine ⟨?_, List.pairwise_cons.mpr ⟨hx, hpending⟩, ?_⟩
  · apply List.pairwise_map.mpr
    exact List.pairwise_iff_forall_sublist.mpr fun _ hfalse => by cases hfalse
  · intro entry hentry later hlater hexpanded
    obtain ⟨d, hd, rfl⟩ := List.mem_map.mp hentry
    rcases List.mem_cons.mp hlater with rfl | hlater
    · exact hrank x d hd
    · exact Nat.lt_trans (hrank x d hd) (hx later hlater hexpanded)

/-- The stack of a walk that has finished what the state says is done. -/
structure Walking (deps : ν → List ν) (rank : ν → Nat) (nodes : List ν) (done : ν → Prop)
    (pending : List (ν × Bool)) : Prop where
  waits : Waits deps done pending
  stacked : Stacked rank pending
  nodes : ∀ entry ∈ pending, entry.1 ∈ nodes

/-- The nodes that may still be entered, each with room for what it pushes, and the stack. -/
noncomputable def walkCost (width : Nat) (nodes : List ν) (done : ν → Prop) (pending : List (ν × Bool)) : Nat :=
  (width + 2) * countOf nodes (fun x => ¬done x ∧ (x, true) ∉ pending) + pending.length

/-- A visit finishes its node, or pushes it back below its dependencies. -/
def Visited (deps : ν → List ν) (x : ν) (expanded : Bool) (before after : ν → Prop)
    (pushed : List (ν × Bool)) : Prop :=
  (∀ y, before y → after y) ∧
    (pushed = [] ∧ after x ∨
      expanded = false ∧ ¬before x ∧ pushed = (deps x).map (·, false) ++ [(x, true)])

variable {width : Nat} {x : ν} {expanded : Bool} {pending pushed : List (ν × Bool)} {before after : ν → Prop}

theorem Walking.visit (hrank : ∀ x, ∀ d ∈ deps x, rank d < rank x)
    (hnodes : ∀ x ∈ nodes, ∀ d ∈ deps x, d ∈ nodes) (h : Walking deps rank nodes before ((x, expanded) :: pending))
    (hvisit : Visited deps x expanded before after pushed) :
    Walking deps rank nodes after (pushed ++ pending) := by
  obtain ⟨hmono, ⟨rfl, hx⟩ | ⟨rfl, -, rfl⟩⟩ := hvisit
  · have hwaits : Waits deps after pending := by
      cases expanded with
      | false => exact (h.waits.mono hmono).skip hx
      | true => exact h.waits.leave.mono fun y hy => hy.elim (fun he => he ▸ hx) (hmono y)
    exact ⟨hwaits, (List.pairwise_cons.mp h.stacked).2, fun entry he => h.nodes entry (List.mem_cons_of_mem _ he)⟩
  · rw [List.append_assoc, List.singleton_append]
    refine ⟨h.waits.enter.mono hmono, h.stacked.enter hrank, fun entry he => ?_⟩
    have hx : x ∈ nodes := h.nodes _ List.mem_cons_self
    rcases List.mem_append.mp he with he | he
    · obtain ⟨d, hd, rfl⟩ := List.mem_map.mp he
      exact hnodes x hx d hd
    · rcases List.mem_cons.mp he with rfl | he
      · exact hx
      · exact h.nodes entry (List.mem_cons_of_mem _ he)

theorem Walking.cost_lt (hwidth : ∀ x, (deps x).length ≤ width)
    (h : Walking deps rank nodes before ((x, expanded) :: pending))
    (hvisit : Visited deps x expanded before after pushed) :
    walkCost width nodes after (pushed ++ pending) <
      walkCost width nodes before ((x, expanded) :: pending) := by
  obtain ⟨hmono, ⟨rfl, hx⟩ | ⟨rfl, hopen, rfl⟩⟩ := hvisit
  · have hle : countOf nodes (fun y => ¬after y ∧ (y, true) ∉ pending) ≤
        countOf nodes fun y => ¬before y ∧ (y, true) ∉ (x, expanded) :: pending := by
      apply countOf_mono
      intro y ⟨hafter, hy⟩
      refine ⟨fun hbefore => hafter (hmono y hbefore), fun hmem => ?_⟩
      rcases List.mem_cons.mp hmem with he | hmem
      · cases he
        exact hafter hx
      · exact hy hmem
    have hmul := Nat.mul_le_mul_left (width + 2) hle
    simp only [walkCost, List.nil_append, List.length_cons]
    omega
  · have hfresh : (x, true) ∉ (x, false) :: pending := by
      intro hmem
      rcases List.mem_cons.mp hmem with he | hmem
      · cases he
      · exact Nat.lt_irrefl _ ((List.pairwise_cons.mp h.stacked).1 (x, true) hmem rfl)
    have hlt : countOf nodes (fun y => ¬after y ∧
          (y, true) ∉ ((deps x).map (·, false) ++ [(x, true)]) ++ pending) <
        countOf nodes fun y => ¬before y ∧ (y, true) ∉ (x, false) :: pending := by
      refine countOf_lt ?_ (h.nodes _ List.mem_cons_self) (fun hx => hx.2 (by simp)) ⟨hopen, hfresh⟩
      intro y ⟨hafter, hy⟩
      refine ⟨fun hbefore => hafter (hmono y hbefore), fun hmem => hy ?_⟩
      rcases List.mem_cons.mp hmem with he | hmem
      · cases he
      · exact List.mem_append_right _ hmem
    have hmul := Nat.mul_le_mul_left (width + 2) (Nat.succ_le_of_lt hlt)
    have hdeps := hwidth x
    rw [Nat.mul_succ] at hmul
    simp only [walkCost, List.length_append, List.length_map, List.length_cons, List.length_nil]
    omega

variable {exhausted : ε} {visit : ν → Bool → EStateM ε σ (List (ν × Bool))} {invariant : σ → Prop}
  {E : ε → σ → Prop}

theorem traverse_pending (hrank : ∀ x, ∀ d ∈ deps x, rank d < rank x)
    (hnodes : ∀ x ∈ nodes, ∀ d ∈ deps x, d ∈ nodes) (hwidth : ∀ x, (deps x).length ≤ width)
    (hvisit : ∀ s, invariant s → ∀ x ∈ nodes, ∀ expanded, (expanded = true → ∀ d ∈ deps x, done s d) →
      Outcome s (visit x expanded) (fun pushed t => invariant t ∧ Visited deps x expanded (done s) (done t) pushed) E)
    {fuel : Nat} {s : σ} (hs : invariant s) (h : Walking deps rank nodes (done s) pending)
    (hfuel : walkCost width nodes (done s) pending ≤ fuel) :
    Outcome s (traverse exhausted visit fuel pending) (fun _ t => invariant t ∧ (∀ y, done s y → done t y) ∧
      ∀ entry ∈ pending, done t entry.1) E := by
  induction fuel generalizing s pending with
  | zero =>
    cases pending with
    | nil => exact Outcome.pure ⟨hs, fun _ hy => hy, fun _ he => by cases he⟩
    | cons entry pending => simp [walkCost] at hfuel
  | succ fuel ih =>
    cases pending with
    | nil => exact Outcome.pure ⟨hs, fun _ hy => hy, fun _ he => by cases he⟩
    | cons entry pending =>
      obtain ⟨x, expanded⟩ := entry
      rw [traverse]
      refine Outcome.bind (hvisit s hs x (h.nodes _ List.mem_cons_self) expanded ?_) ?_ fun _ _ he => he
      · rintro rfl d hd
        exact h.waits.ready hd
      · intro pushed t ⟨ht, hvisited⟩
        have hcost := h.cost_lt hwidth hvisited
        apply Outcome.mono (ih ht (h.visit hrank hnodes hvisited) (by omega)) ?_ fun _ _ he => he
        intro _ u ⟨hu, hmono, hall⟩
        refine ⟨hu, fun y hy => hmono y (hvisited.1 y hy), fun entry he => ?_⟩
        rcases List.mem_cons.mp he with rfl | he
        · obtain ⟨-, ⟨-, hx⟩ | ⟨-, -, rfl⟩⟩ := hvisited
          · exact hmono x hx
          · exact hall (x, true) (by simp)
        · exact hall entry (List.mem_append_right _ he)

/-- A walk from one node finishes it. -/
theorem traverse_outcome (hrank : ∀ x, ∀ d ∈ deps x, rank d < rank x)
    (hnodes : ∀ x ∈ nodes, ∀ d ∈ deps x, d ∈ nodes) (hwidth : ∀ x, (deps x).length ≤ width)
    (hvisit : ∀ s, invariant s → ∀ x ∈ nodes, ∀ expanded, (expanded = true → ∀ d ∈ deps x, done s d) →
      Outcome s (visit x expanded) (fun pushed t => invariant t ∧ Visited deps x expanded (done s) (done t) pushed) E)
    {fuel : Nat} {s : σ} (hs : invariant s) (hx : x ∈ nodes) (hfuel : (width + 2) * nodes.length < fuel) :
    Outcome s (traverse exhausted visit fuel [(x, false)]) (fun _ t => invariant t ∧ done t x) E := by
  have hwalking : Walking deps rank nodes (done s) [(x, false)] :=
    ⟨Waits.enterOne x, List.pairwise_singleton _ _, fun entry he => by
      rw [List.mem_singleton] at he
      exact he ▸ hx⟩
  have hcost : walkCost width nodes (done s) [(x, false)] ≤ fuel := by
    have hmul := Nat.mul_le_mul_left (width + 2)
      (countOf_le_length nodes fun y => ¬done s y ∧ (y, true) ∉ [(x, false)])
    simp only [walkCost, List.length_singleton]
    omega
  apply Outcome.mono (traverse_pending hrank hnodes hwidth hvisit hs hwalking hcost) ?_ fun _ _ he => he
  exact fun _ t ⟨ht, _, hall⟩ => ⟨ht, hall (x, false) (List.mem_singleton_self _)⟩

end

end Opto
