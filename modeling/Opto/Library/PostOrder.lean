import Mathlib.Data.List.Basic

/-!
# Post-order on an explicit stack

A node is popped twice: to be entered, when its dependencies are pushed above it,
and to be left. Whatever a node that waits to be left depends on is finished
already or is above it on the stack, so a node is left after its dependencies.
-/

namespace Opto

variable {ν : Type}

/-- The stack has `(x, false)` for a node to enter and `(x, true)` for one to leave. -/
def Waits (deps : ν → List ν) (done : ν → Prop) (pending : List (ν × Bool)) : Prop :=
  ∀ above x below, pending = above ++ (x, true) :: below → ∀ d ∈ deps x,
    done d ∨ (d, false) ∈ above ∨ (d, true) ∈ above

namespace Waits

variable {deps : ν → List ν} {done : ν → Prop} {pending : List (ν × Bool)} {x : ν}

theorem enterOne (x : ν) : Waits deps done [(x, false)] := by
  intro above y below hsplit
  cases above with
  | nil => cases hsplit
  | cons entry above => simp at hsplit

/-- The node on top is finished. -/
theorem skip (h : Waits deps done ((x, false) :: pending)) (hx : done x) :
    Waits deps done pending := by
  rintro above y below rfl d hd
  rcases h ((x, false) :: above) y below rfl d hd with hdone | hfalse | htrue
  · exact .inl hdone
  · rcases List.mem_cons.mp hfalse with he | hfalse
    · cases he
      exact .inl hx
    · exact .inr (.inl hfalse)
  · rcases List.mem_cons.mp htrue with he | htrue
    · cases he
    · exact .inr (.inr htrue)

/-- The node on top is entered: its dependencies are pushed above it. -/
theorem enter (h : Waits deps done ((x, false) :: pending)) :
    Waits deps done ((deps x).map (·, false) ++ (x, true) :: pending) := by
  intro above y below hsplit d hd
  have hfalse : (y, true) ∉ (deps x).map (·, false) := by simp
  rcases List.append_eq_append_iff.mp hsplit with ⟨rest, rfl, hrest⟩ | ⟨rest, hmap, hrest⟩
  · cases rest with
    | nil =>
      cases hrest
      exact .inr (.inl (by simpa using hd))
    | cons entry rest =>
      cases hrest
      rcases h ((x, false) :: rest) y below rfl d hd with hdone | hfalse | htrue
      · exact .inl hdone
      · rcases List.mem_cons.mp hfalse with he | hfalse
        · cases he
          exact .inr (.inr (by simp))
        · exact .inr (.inl (by simp [hfalse]))
      · rcases List.mem_cons.mp htrue with he | htrue
        · cases he
        · exact .inr (.inr (by simp [htrue]))
  · cases rest with
    | nil =>
      cases hrest
      rw [List.append_nil] at hmap
      exact .inr (.inl (by simpa [← hmap] using hd))
    | cons entry rest =>
      cases hrest
      exact absurd (hmap ▸ List.mem_append_right _ List.mem_cons_self) hfalse

/-- The node on top is left. -/
theorem leave (h : Waits deps done ((x, true) :: pending)) :
    Waits deps (fun y => y = x ∨ done y) pending := by
  rintro above y below rfl d hd
  rcases h ((x, true) :: above) y below rfl d hd with hdone | hfalse | htrue
  · exact .inl (.inr hdone)
  · rcases List.mem_cons.mp hfalse with he | hfalse
    · cases he
    · exact .inr (.inl hfalse)
  · rcases List.mem_cons.mp htrue with he | htrue
    · cases he
      exact .inl (.inl rfl)
    · exact .inr (.inr htrue)

/-- A node is left after its dependencies. -/
theorem ready (h : Waits deps done ((x, true) :: pending)) {d : ν} (hd : d ∈ deps x) : done d := by
  simpa using h [] x pending rfl d hd

theorem mono (h : Waits deps done pending) {done' : ν → Prop} (hdone : ∀ y, done y → done' y) :
    Waits deps done' pending :=
  fun above y below hsplit d hd => (h above y below hsplit d hd).imp_left (hdone d)

end Waits

/-- Every entry of `order` comes after its dependencies. -/
def PostOrdered (deps : ν → List ν) (order : List ν) : Prop :=
  ∀ before x after, order = before ++ x :: after → ∀ d ∈ deps x, d ∈ before

namespace PostOrdered

variable {deps : ν → List ν} {order : List ν} {x : ν}

theorem nil : PostOrdered deps [] := fun before x after h => by simp at h

theorem concat (h : PostOrdered deps order) (hx : ∀ d ∈ deps x, d ∈ order) :
    PostOrdered deps (order ++ [x]) := by
  intro before y after hsplit d hd
  rcases List.eq_nil_or_concat' after with rfl | ⟨after, z, rfl⟩
  · obtain ⟨rfl, he⟩ := List.append_inj' hsplit rfl
    cases he
    exact hx d hd
  · rw [← List.cons_append, ← List.append_assoc] at hsplit
    obtain ⟨rfl, -⟩ := List.append_inj' hsplit rfl
    exact h before y after rfl d hd

/-- A dependency stands before the node. -/
theorem lt (h : PostOrdered deps order) {i : Nat} (hi : order[i]? = some x) {d : ν}
    (hd : d ∈ deps x) : ∃ j < i, order[j]? = some d := by
  obtain ⟨hlt, rfl⟩ := List.getElem?_eq_some_iff.mp hi
  have hsplit : order = order.take i ++ order[i] :: order.drop (i + 1) := by
    rw [← List.drop_eq_getElem_cons hlt, List.take_append_drop]
  obtain ⟨j, hj⟩ := List.mem_iff_getElem?.mp (h _ _ _ hsplit d hd)
  have hji : j < i := by
    have := (List.getElem?_eq_some_iff.mp hj).1
    rw [List.length_take] at this
    omega
  exact ⟨j, hji, by rwa [List.getElem?_take_of_lt hji] at hj⟩

end PostOrdered

end Opto
