import Mathlib.Data.List.Forall2

/-!
# Outcomes of state-and-error computations

`Outcome s m Q E` says what running `m` from `s` establishes: `Q` on a returned
value and the state reached, `E` on an error and the state it leaves behind.
`Yields` and `Ensures` speak of computations whose errors drop the state: the
first has them succeed, the second says what an error may be.
-/

namespace Opto

variable {σ ε α β : Type}

def Outcome (s : σ) (m : EStateM ε σ α) (Q : α → σ → Prop) (E : ε → σ → Prop) : Prop :=
  match m.run s with
  | .ok a t => Q a t
  | .error e t => E e t

/-! What single steps of a run do. -/

theorem stateGet_eq (s : σ) : (EStateM.get : EStateM ε σ σ) s = .ok s s := rfl

theorem stateSet_eq (s t : σ) : (EStateM.set t : EStateM ε σ PUnit) s = .ok ⟨⟩ t := rfl

theorem stateThrow_eq (e : ε) (s : σ) : (EStateM.throw e : EStateM ε σ α) s = .error e s := rfl

namespace Outcome

variable {s : σ} {m : EStateM ε σ α} {Q Q' : α → σ → Prop} {E E' : ε → σ → Prop}

theorem pure {a : α} (h : Q a s) : Outcome s (Pure.pure a) Q E := h

theorem throw {e : ε} (h : E e s) : Outcome s (throw e : EStateM ε σ α) Q E := h

theorem mono (h : Outcome s m Q E) (hQ : ∀ a t, Q a t → Q' a t) (hE : ∀ e t, E e t → E' e t) :
    Outcome s m Q' E' := by
  unfold Outcome at *
  cases hm : m.run s with
  | ok a t => rw [hm] at h; exact hQ a t h
  | error e t => rw [hm] at h; exact hE e t h

theorem bind {k : α → EStateM ε σ β} {R : β → σ → Prop} (h : Outcome s m Q E)
    (hk : ∀ a t, Q a t → Outcome t (k a) R E') (hE : ∀ e t, E e t → E' e t) :
    Outcome s (m >>= k) R E' := by
  unfold Outcome at *
  cases hm : m s with
  | ok a t =>
    simp only [EStateM.run, hm, Bind.bind, EStateM.bind] at h hk ⊢
    exact hk a t h
  | error e t =>
    simp only [EStateM.run, hm, Bind.bind, EStateM.bind] at h ⊢
    exact hE e t h

theorem map {f : α → β} {R : β → σ → Prop} (h : Outcome s m Q E)
    (hf : ∀ a t, Q a t → R (f a) t) : Outcome s (f <$> m) R E := by
  unfold Outcome at *
  cases hm : m s with
  | ok a t =>
    simp only [EStateM.run, hm, Functor.map, EStateM.map] at h ⊢
    exact hf a t h
  | error e t =>
    simp only [EStateM.run, hm, Functor.map, EStateM.map] at h ⊢
    exact h

theorem get {k : σ → EStateM ε σ β} {R : β → σ → Prop} (h : Outcome s (k s) R E) :
    Outcome s (MonadState.get >>= k) R E := h

theorem set {t : σ} {k : PUnit → EStateM ε σ β} {R : β → σ → Prop} (h : Outcome t (k ⟨⟩) R E) :
    Outcome s (MonadStateOf.set t >>= k) R E := h

theorem modify {f : σ → σ} {k : PUnit → EStateM ε σ β} {R : β → σ → Prop} (h : Outcome (f s) (k ⟨⟩) R E) :
    Outcome s (modify f >>= k) R E := h

theorem ok (h : Outcome s m Q E) {a : α} {t : σ} (hm : m.run s = .ok a t) : Q a t := by
  simpa only [Outcome, hm] using h

theorem error (h : Outcome s m Q E) {e : ε} {t : σ} (hm : m.run s = .error e t) : E e t := by
  simpa only [Outcome, hm] using h

theorem foldlM_append {f : β → α → EStateM ε σ β} (invariant : List α → β → σ → Prop) {xs done : List α}
    {b : β} (hstep : ∀ before x rest, before ++ x :: rest = done ++ xs → ∀ b s,
      invariant before b s → Outcome s (f b x) (invariant (before ++ [x])) E) (h : invariant done b s) :
    Outcome s (xs.foldlM f b) (invariant (done ++ xs)) E := by
  induction xs generalizing s done b with
  | nil =>
    rw [List.append_nil]
    exact h
  | cons x xs ih =>
    rw [List.append_cons] at hstep ⊢
    rw [List.foldlM_cons]
    apply bind (hstep done x xs (List.append_cons ..) b s h)
    · intro b t ht
      exact ih hstep ht
    · exact fun _ _ he => he

/-- A loop keeps an invariant of the entries it has passed. -/
theorem foldlM {f : β → α → EStateM ε σ β} (invariant : List α → β → σ → Prop) {xs : List α} {b : β}
    (h : invariant [] b s) (hstep : ∀ done x rest, done ++ x :: rest = xs → ∀ b s, invariant done b s →
      Outcome s (f b x) (invariant (done ++ [x])) E) : Outcome s (xs.foldlM f b) (invariant xs) E := by
  rw [← List.nil_append xs] at hstep
  exact foldlM_append invariant hstep h

theorem forM_append {f : α → EStateM ε σ PUnit} (invariant : List α → σ → Prop) {xs done : List α}
    (hstep : ∀ before x rest, before ++ x :: rest = done ++ xs → ∀ s,
      invariant before s → Outcome s (f x) (fun _ => invariant (before ++ [x])) E) (h : invariant done s) :
    Outcome s (xs.forM f) (fun _ => invariant (done ++ xs)) E := by
  induction xs generalizing s done with
  | nil =>
    rw [List.append_nil]
    exact h
  | cons x xs ih =>
    rw [List.append_cons] at hstep ⊢
    rw [List.forM_eq_forM, List.forM_cons]
    apply bind (hstep done x xs (List.append_cons ..) s h)
    · intro _ t ht
      exact ih hstep ht
    · exact fun _ _ he => he

theorem forM {f : α → EStateM ε σ PUnit} (invariant : List α → σ → Prop) {xs : List α}
    (h : invariant [] s) (hstep : ∀ done x rest, done ++ x :: rest = xs → ∀ s, invariant done s →
      Outcome s (f x) (fun _ => invariant (done ++ [x])) E) : Outcome s (xs.forM f) (fun _ => invariant xs) E := by
  rw [← List.nil_append xs] at hstep
  exact forM_append invariant hstep h

end Outcome

/-- Running `m` from `s` succeeds and establishes `Q`. -/
def Yields (s : σ) (m : StateT σ (Except ε) α) (Q : α → σ → Prop) : Prop :=
  ∃ a t, m.run s = .ok (a, t) ∧ Q a t

namespace Yields

variable {s : σ} {m : StateT σ (Except ε) α} {Q Q' : α → σ → Prop}

theorem pure {a : α} (h : Q a s) : Yields s (Pure.pure a : StateT σ (Except ε) α) Q :=
  ⟨a, s, rfl, h⟩

theorem mono (h : Yields s m Q) (hQ : ∀ a t, Q a t → Q' a t) : Yields s m Q' := by
  obtain ⟨a, t, hm, ha⟩ := h
  exact ⟨a, t, hm, hQ a t ha⟩

theorem bind {k : α → StateT σ (Except ε) β} {R : β → σ → Prop} (h : Yields s m Q)
    (hk : ∀ a t, Q a t → Yields t (k a) R) : Yields s (m >>= k) R := by
  obtain ⟨a, t, hm, ha⟩ := h
  obtain ⟨c, u, hc, hR⟩ := hk a t ha
  refine ⟨c, u, ?_, hR⟩
  rw [StateT.run_bind, hm]
  exact hc

theorem get {k : σ → StateT σ (Except ε) β} {R : β → σ → Prop} (h : Yields s (k s) R) :
    Yields s (MonadState.get >>= k) R := by
  obtain ⟨c, u, hc, hR⟩ := h
  exact ⟨c, u, hc, hR⟩

theorem modify {f : σ → σ} {Q : PUnit → σ → Prop} (h : Q ⟨⟩ (f s)) :
    Yields s (modify f : StateT σ (Except ε) PUnit) Q := ⟨⟨⟩, f s, rfl, h⟩

end Yields

/-- A result that satisfies `Q`, or an error that satisfies `E`. -/
def Settles (r : Except ε α) (Q : α → Prop) (E : ε → Prop) : Prop :=
  match r with
  | .ok a => Q a
  | .error e => E e

namespace Settles

variable {r : Except ε α} {Q Q' : α → Prop} {E : ε → Prop}

theorem mono (h : Settles r Q E) (hQ : ∀ a, Q a → Q' a) : Settles r Q' E := by
  cases r with
  | ok a => exact hQ a h
  | error e => exact h

theorem weaken {E' : ε → Prop} (h : Settles r Q E) (hE : ∀ e, E e → E' e) : Settles r Q E' := by
  cases r with
  | ok a => exact h
  | error e => exact hE e h

theorem bind {k : α → Except ε β} {R : β → Prop} (h : Settles r Q E)
    (hk : ∀ a, Q a → Settles (k a) R E) : Settles (r >>= k) R E := by
  cases r with
  | ok a => exact hk a h
  | error e => exact h

theorem map {f : α → β} {R : β → Prop} (h : Settles r Q E) (hR : ∀ a, Q a → R (f a)) :
    Settles (f <$> r) R E := by
  cases r with
  | ok a => exact hR a h
  | error e => exact h

theorem mapError {ε' : Type} {f : ε → ε'} {E' : ε' → Prop} (h : Settles r Q E)
    (hf : ∀ e, E e → E' (f e)) : Settles (r.mapError f) Q E' := by
  cases r with
  | ok a => exact h
  | error e => exact hf e h

theorem ok (h : Settles r Q E) {a : α} (hr : r = .ok a) : Q a := by
  subst hr; exact h

theorem all {ι : Type} [Nonempty ι] {P : ι → α → Prop} (h : ∀ i, Settles r (P i) E) :
    Settles r (fun a => ∀ i, P i a) E := by
  cases r with
  | ok a => exact h
  | error e => exact h (Classical.arbitrary ι)

/-- The result itself. -/
theorem self (h : Settles r Q E) : Settles r (fun a => r = .ok a ∧ Q a) E := by
  cases r with
  | ok a => exact ⟨rfl, h⟩
  | error e => exact h

theorem and {Q' : α → Prop} (h : Settles r Q E) (h' : Settles r Q' E) :
    Settles r (fun a => Q a ∧ Q' a) E := by
  cases r with
  | ok a => exact ⟨h, h'⟩
  | error e => exact h

theorem andOk {Q' : α → Prop} (h : Settles r Q E) (h' : Settles r Q' fun _ => True) :
    Settles r (fun a => Q a ∧ Q' a) E := by
  cases r with
  | ok a => exact ⟨h, h'⟩
  | error e => exact h

theorem filterAuxM {f : α → Except ε Bool} {xs : List α} (h : ∀ x ∈ xs, Settles (f x) (fun _ => True) E)
    (kept : List α) : Settles (List.filterAuxM f xs kept) (fun _ => True) E := by
  induction xs generalizing kept with
  | nil => exact trivial
  | cons x xs ih =>
    apply bind (h x List.mem_cons_self)
    exact fun _ _ => ih (fun y hy => h y (List.mem_cons_of_mem x hy)) _

theorem filterM {f : α → Except ε Bool} {xs : List α} (h : ∀ x ∈ xs, Settles (f x) (fun _ => True) E) :
    Settles (xs.filterM f) (fun _ => True) E := by
  apply bind (filterAuxM h [])
  exact fun _ _ => trivial

theorem foldlM_append {σ : Type} {f : σ → α → Except ε σ} (invariant : List α → σ → Prop) {xs : List α}
    {done : List α} (hstep : ∀ before x rest, before ++ x :: rest = done ++ xs → ∀ s,
      invariant before s → Settles (f s x) (invariant (before ++ [x])) E)
    {s : σ} (h : invariant done s) : Settles (xs.foldlM f s) (invariant (done ++ xs)) E := by
  induction xs generalizing s done with
  | nil => rw [List.append_nil]; exact h
  | cons x xs ih =>
    rw [List.append_cons] at hstep ⊢
    rw [List.foldlM_cons]
    apply bind (hstep done x xs (List.append_cons ..) s h)
    intro t ht
    exact ih hstep ht

/-- A loop keeps an invariant of the entries it has passed. -/
theorem foldlM_split {σ : Type} {f : σ → α → Except ε σ} (invariant : List α → σ → Prop) {xs : List α}
    {s : σ} (h : invariant [] s) (hstep : ∀ done x rest, done ++ x :: rest = xs → ∀ s,
      invariant done s → Settles (f s x) (invariant (done ++ [x])) E) :
    Settles (xs.foldlM f s) (invariant xs) E := by
  rw [← List.nil_append xs] at hstep
  exact foldlM_append invariant hstep h

theorem foldlM {σ : Type} {f : σ → α → Except ε σ} (invariant : List α → σ → Prop) {xs : List α} {s : σ}
    (h : invariant [] s)
    (hstep : ∀ done x, x ∈ xs → ∀ s, invariant done s → Settles (f s x) (invariant (done ++ [x])) E) :
    Settles (xs.foldlM f s) (invariant xs) E := by
  apply foldlM_split invariant h
  rintro done x rest rfl
  exact hstep done x (List.mem_append_right _ List.mem_cons_self)

/-- A loop over indexed entries keeps an invariant of the index. -/
theorem foldlM_zipIdx {σ : Type} {f : σ → α × Nat → Except ε σ} (invariant : Nat → σ → Prop)
    {xs : List α} {s : σ} (h : invariant 0 s)
    (hstep : ∀ (k : Nat) (x : α), xs[k]? = some x → ∀ s, invariant k s →
      Settles (f s (x, k)) (invariant (k + 1)) E) :
    Settles (xs.zipIdx.foldlM f s) (invariant xs.length) E := by
  have hloop : Settles (xs.zipIdx.foldlM f s) (invariant xs.zipIdx.length) E := by
    apply foldlM_split (fun (done : List (α × Nat)) s => invariant done.length s) h
    intro done x rest hsplit s hs
    have hx : xs.zipIdx[done.length]? = some x := by
      rw [← hsplit, List.getElem?_append_right (Nat.le_refl _), Nat.sub_self]
      rfl
    rw [List.getElem?_zipIdx, Nat.zero_add] at hx
    obtain ⟨y, hy, rfl⟩ := Option.map_eq_some_iff.mp hx
    rw [List.length_append, List.length_singleton]
    exact hstep done.length y hy s hs
  rwa [List.length_zipIdx] at hloop

theorem forM {f : α → Except ε PUnit} {P : α → Prop} {xs : List α}
    (h : ∀ x ∈ xs, Settles (f x) (fun _ => P x) E) : Settles (xs.forM f) (fun _ => ∀ x ∈ xs, P x) E := by
  induction xs with
  | nil => exact fun _ hx => by cases hx
  | cons x xs ih =>
    rw [List.forM_eq_forM, List.forM_cons]
    apply bind (h x List.mem_cons_self)
    intro _ hx
    apply mono (ih fun y hy => h y (List.mem_cons_of_mem x hy))
    intro _ hxs y hy
    rcases List.mem_cons.mp hy with rfl | hy
    · exact hx
    · exact hxs y hy

theorem mapM {f : α → Except ε β} {R : α → β → Prop} {xs : List α}
    (h : ∀ x ∈ xs, Settles (f x) (R x) E) : Settles (xs.mapM f) (List.Forall₂ R xs) E := by
  induction xs with
  | nil => exact .nil
  | cons x xs ih =>
    rw [List.mapM_cons]
    apply bind (h x List.mem_cons_self)
    intro y hy
    apply bind (ih fun z hz => h z (List.mem_cons_of_mem x hz))
    exact fun ys hys => .cons hy hys

end Settles

/-- Running `m` from `s` establishes `Q` when it succeeds and `E` when it fails. -/
def Ensures (s : σ) (m : StateT σ (Except ε) α) (Q : α → σ → Prop) (E : ε → Prop) : Prop :=
  Settles (m.run s) (fun r => Q r.1 r.2) E

namespace Ensures

variable {s : σ} {m : StateT σ (Except ε) α} {Q Q' : α → σ → Prop} {E : ε → Prop}

theorem pure {a : α} (h : Q a s) : Ensures s (Pure.pure a : StateT σ (Except ε) α) Q E := h

theorem mono (h : Ensures s m Q E) (hQ : ∀ a t, Q a t → Q' a t) : Ensures s m Q' E :=
  Settles.mono h fun r => hQ r.1 r.2

theorem bind {k : α → StateT σ (Except ε) β} {R : β → σ → Prop} (h : Ensures s m Q E)
    (hk : ∀ a t, Q a t → Ensures t (k a) R E) : Ensures s (m >>= k) R E := by
  rw [Ensures, StateT.run_bind]
  exact Settles.bind h fun r => hk r.1 r.2

theorem get {k : σ → StateT σ (Except ε) α} (h : Ensures s (k s) Q E) :
    Ensures s (MonadState.get >>= k) Q E := h

theorem set {t : σ} {k : PUnit → StateT σ (Except ε) α} (h : Ensures t (k ⟨⟩) Q E) :
    Ensures s (MonadStateOf.set t >>= k) Q E := h

theorem modify {f : σ → σ} {k : PUnit → StateT σ (Except ε) α} (h : Ensures (f s) (k ⟨⟩) Q E) :
    Ensures s ((modify f : StateT σ (Except ε) PUnit) >>= k) Q E := h

/-- A loop keeps an invariant that counts the entries it has passed. -/
theorem foldlM {f : β → α → StateT σ (Except ε) β} (invariant : Nat → β → σ → Prop) {xs : List α}
    {k : Nat} (hstep : ∀ (j : Nat) (x : α), xs[j]? = some x → ∀ b s, invariant (k + j) b s →
      Ensures s (f b x) (invariant (k + j + 1)) E) {b : β} {s : σ} (h : invariant k b s) :
    Ensures s (xs.foldlM f b) (invariant (k + xs.length)) E := by
  induction xs generalizing k b s with
  | nil => exact h
  | cons x xs ih =>
    rw [List.foldlM_cons, List.length_cons, Nat.add_comm xs.length 1, ← Nat.add_assoc]
    apply bind (hstep 0 x rfl b s h)
    intro b s h
    apply ih (k := k + 1) ?_ h
    intro j y hy b s hinv
    rw [Nat.add_assoc k 1 j, Nat.add_comm 1 j, ← Nat.add_assoc] at hinv ⊢
    exact hstep (j + 1) y hy b s hinv

end Ensures
/-- What a computation of several steps returns, the last one returns after the others. -/
theorem bind_eq_ok {r : Except ε α} {k : α → Except ε β} {b : β} (h : (r >>= k) = .ok b) :
    ∃ a, r = .ok a ∧ k a = .ok b := by
  cases r with
  | ok a => exact ⟨a, rfl, h⟩
  | error e => cases h

end Opto
