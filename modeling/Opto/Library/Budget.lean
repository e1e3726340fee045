import Opto.Library.Outcome

/-!
# Recursion within a budget

A recursion that marks what it enters in a table goes at most as deep as there are unmarked
entries. `Within` speaks of a computation that is given this much depth: it keeps the
table's invariant, never unmarks an entry and does not fail.
-/

namespace Opto

variable {σ ε α β : Type}

/-- Started with less to enter than the budget, `m` succeeds with a result in `P`. -/
def Within (Good : σ → Prop) (size : σ → Nat) (budget : Nat) (m : StateT σ (Except ε) α)
    (P : α → Prop) : Prop :=
  ∀ s, Good s → size s < budget → Yields s m fun a t => Good t ∧ size t ≤ size s ∧ P a

namespace Within

variable {Good : σ → Prop} {size : σ → Nat} {budget : Nat} {m : StateT σ (Except ε) α} {P : α → Prop}

theorem pure {a : α} (h : P a) : Within Good size budget (Pure.pure a : StateT σ (Except ε) α) P :=
  fun _ hgood _ => Yields.pure ⟨hgood, Nat.le_refl _, h⟩

theorem mono {P' : α → Prop} (h : Within Good size budget m P) (hP : ∀ a, P a → P' a) :
    Within Good size budget m P' :=
  fun s hgood hsize => (h s hgood hsize).mono fun a _ ⟨hgood, hle, ha⟩ => ⟨hgood, hle, hP a ha⟩

theorem bind {k : α → StateT σ (Except ε) β} {Q : β → Prop} (h : Within Good size budget m P)
    (hk : ∀ a, P a → Within Good size budget (k a) Q) : Within Good size budget (m >>= k) Q := by
  intro s hgood hsize
  apply Yields.bind (h s hgood hsize)
  intro a t ⟨hgood', hle, ha⟩
  apply (hk a ha t hgood' (Nat.lt_of_le_of_lt hle hsize)).mono
  exact fun b u ⟨hgood'', hle', hb⟩ => ⟨hgood'', Nat.le_trans hle' hle, hb⟩

theorem map {f : α → β} {Q : β → Prop} (h : Within Good size budget m P) (hf : ∀ a, P a → Q (f a)) :
    Within Good size budget (f <$> m) Q := by
  rw [← bind_pure_comp]
  exact bind h fun a ha => pure (hf a ha)

/-- A loop keeps an invariant of the entries it has passed. -/
theorem foldlM_append {f : β → α → StateT σ (Except ε) β} (invariant : List α → β → Prop)
    {xs done : List α} {b : β} (h : invariant done b)
    (hstep : ∀ before x rest, before ++ x :: rest = done ++ xs → ∀ b, invariant before b →
      Within Good size budget (f b x) (invariant (before ++ [x]))) :
    Within Good size budget (xs.foldlM f b) (invariant (done ++ xs)) := by
  induction xs generalizing done b with
  | nil =>
    rw [List.append_nil]
    exact pure h
  | cons x xs ih =>
    rw [List.append_cons] at hstep ⊢
    rw [List.foldlM_cons]
    exact bind (hstep done x xs (List.append_cons ..) b h) fun c hc => ih hc hstep

theorem mapM {f : α → StateT σ (Except ε) β} {R : α → β → Prop} {xs : List α}
    (h : ∀ x ∈ xs, Within Good size budget (f x) (R x)) :
    Within Good size budget (xs.mapM f) (List.Forall₂ R xs) := by
  induction xs with
  | nil => exact pure .nil
  | cons x xs ih =>
    rw [List.mapM_cons]
    apply bind (h x List.mem_cons_self)
    intro y hy
    apply bind (ih fun z hz => h z (List.mem_cons_of_mem x hz))
    exact fun ys hys => pure (.cons hy hys)

/-! Computations that may give no answer. -/

/-- If there is an answer, it is in `P`. -/
def Answers (P : α → Prop) (answer : Option α) : Prop := ∀ a, answer = some a → P a

theorem answers_none {P : α → Prop} : Answers P none := fun _ h => by cases h

theorem answers_some {P : α → Prop} {a : α} (h : P a) : Answers P (some a) :=
  fun _ ha => Option.some.inj ha ▸ h

theorem failure : Within Good size budget (failure : OptionT (StateT σ (Except ε)) α).run (Answers P) :=
  pure answers_none

theorem answer {a : α} (h : P a) :
    Within Good size budget (Pure.pure a : OptionT (StateT σ (Except ε)) α).run (Answers P) :=
  pure (answers_some h)

theorem bindAnswer {x : OptionT (StateT σ (Except ε)) α} {k : α → OptionT (StateT σ (Except ε)) β}
    {Q : β → Prop} (h : Within Good size budget x.run (Answers P))
    (hk : ∀ a, P a → Within Good size budget (k a).run (Answers Q)) :
    Within Good size budget (x >>= k).run (Answers Q) := by
  rw [OptionT.run_bind]
  apply bind h
  intro a ha
  cases a with
  | none => exact pure answers_none
  | some a => exact hk a (ha a rfl)

/-- A loop that stops without an answer. -/
theorem foldlM_answers {f : β → α → OptionT (StateT σ (Except ε)) β} (invariant : List α → β → Prop)
    {xs done : List α} {b : β} (h : invariant done b)
    (hstep : ∀ before x rest, before ++ x :: rest = done ++ xs → ∀ b, invariant before b →
      Within Good size budget (f b x).run (Answers (invariant (before ++ [x])))) :
    Within Good size budget (xs.foldlM f b).run (Answers (invariant (done ++ xs))) := by
  induction xs generalizing done b with
  | nil =>
    rw [List.append_nil]
    exact answer h
  | cons x xs ih =>
    rw [List.append_cons] at hstep ⊢
    rw [List.foldlM_cons]
    exact bindAnswer (hstep done x xs (List.append_cons ..) b h) fun c hc => ih hc hstep

end Within
end Opto
