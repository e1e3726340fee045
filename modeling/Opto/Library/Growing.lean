import Opto.Library.Outcome
import Opto.Library.Digits

/-!
# Bits kept in a store that only grows

References into a store stand for bits, and a store that grows leaves what they stand for
alone. `Emits` speaks of a computation that may only add to the store. A list of
references carries an integer when it reads as the low bits of its two's complement.
-/

namespace Opto

variable {σ ε β γ δ : Type}

/-- What references stand for, and the errors by which a store may refuse to grow. -/
structure Growing (σ ε β : Type) where
  Good : σ → Prop
  Grows : σ → σ → Prop
  Reads : σ → β → Bool → Prop
  Refuses : ε → Prop
  refl {s : σ} : Good s → Grows s s
  trans {r s t : σ} : Grows r s → Grows s t → Grows r t
  good {s t : σ} : Grows s t → Good t
  mono {s t : σ} {x : β} {a : Bool} : Grows s t → Reads s x a → Reads t x a
  unique {s : σ} {x : β} {a b : Bool} : Reads s x a → Reads s x b → a = b

namespace Growing

variable (W : Growing σ ε β)

/-- Running `m` from a good store only adds to it and establishes `Q`, unless the store
refuses. -/
def Emits (s : σ) (m : StateT σ (Except ε) γ) (Q : γ → σ → Prop) : Prop :=
  W.Good s → Ensures s m (fun a t => W.Grows s t ∧ Q a t) W.Refuses

variable {W} {s : σ} {m : StateT σ (Except ε) γ} {Q : γ → σ → Prop}

namespace Emits

theorem pure {a : γ} (h : Q a s) : W.Emits s (Pure.pure a) Q :=
  fun hgood => Ensures.pure ⟨W.refl hgood, h⟩

theorem mono {Q' : γ → σ → Prop} (h : W.Emits s m Q) (hQ : ∀ a t, W.Grows s t → Q a t → Q' a t) :
    W.Emits s m Q' :=
  fun hgood => (h hgood).mono fun a t ⟨hgrows, ha⟩ => ⟨hgrows, hQ a t hgrows ha⟩

theorem bind {k : γ → StateT σ (Except ε) δ} {R : δ → σ → Prop} (h : W.Emits s m Q)
    (hk : ∀ a t, W.Grows s t → Q a t → W.Emits t (k a) R) : W.Emits s (m >>= k) R := by
  intro hgood
  apply Ensures.bind (h hgood)
  intro a t ⟨hgrows, ha⟩
  apply Ensures.mono (hk a t hgrows ha (W.good hgrows))
  exact fun b u ⟨hlater, hb⟩ => ⟨W.trans hgrows hlater, hb⟩

theorem map {f : γ → δ} {R : δ → σ → Prop} (h : W.Emits s m Q)
    (hf : ∀ a t, W.Grows s t → Q a t → R (f a) t) : W.Emits s (f <$> m) R := by
  rw [← bind_pure_comp]
  exact bind h fun a t hgrows ha => pure (hf a t hgrows ha)

theorem get {k : σ → StateT σ (Except ε) γ} (h : W.Good s → W.Emits s (k s) Q) :
    W.Emits s (MonadState.get >>= k) Q := fun hgood => h hgood hgood

theorem and {Q' : γ → σ → Prop} (h : W.Emits s m Q) (h' : W.Emits s m Q') :
    W.Emits s m fun a t => Q a t ∧ Q' a t := by
  intro hgood
  apply Settles.mono (Settles.and (h hgood) (h' hgood))
  exact fun r ⟨ha, ha'⟩ => ⟨ha.1, ha.2, ha'.2⟩

/-- A result for every entry, when a growing store takes no result back. -/
theorem mapM {f : γ → StateT σ (Except ε) δ} {P : Nat → δ → σ → Prop} {l : List γ}
    (hmono : ∀ i y s t, W.Grows s t → P i y s → P i y t)
    (hf : ∀ (i : Nat) (x : γ), l[i]? = some x → ∀ t, W.Grows s t → W.Emits t (f x) (P i)) :
    W.Emits s (l.mapM f) fun ys t =>
      ys.length = l.length ∧ ∀ (i : Nat) (y : δ), ys[i]? = some y → P i y t := by
  intro hgood
  induction l generalizing s P with
  | nil => exact Ensures.pure ⟨W.refl hgood, rfl, fun i y hy => by simp at hy⟩
  | cons x l ih =>
    rw [List.mapM_cons]
    refine bind (W := W) (hf 0 x rfl s (W.refl hgood)) ?_ hgood
    intro y t hgrows hy
    have hrest : W.Emits t (l.mapM f) fun ys u =>
        ys.length = l.length ∧ ∀ (i : Nat) (y : δ), ys[i]? = some y → P (i + 1) y u := by
      apply ih
      · exact fun i => hmono (i + 1)
      · exact fun i z hz u hu => hf (i + 1) z hz u (W.trans hgrows hu)
    apply bind hrest
    intro ys u hlater ⟨hlength, hys⟩
    refine pure ⟨by rw [List.length_cons, hlength, List.length_cons], fun i z hz => ?_⟩
    cases i with
    | zero =>
      rw [List.getElem?_cons_zero, Option.some.injEq] at hz
      exact hz ▸ hmono 0 y t u hlater hy
    | succ i => exact hys i z hz

/-- A loop keeps an invariant of the entries it has passed. -/
theorem foldlM_append {f : δ → γ → StateT σ (Except ε) δ} (invariant : List γ → δ → σ → Prop)
    {xs done : List γ} {b : δ} (h : invariant done b s)
    (hstep : ∀ before x rest, before ++ x :: rest = done ++ xs → ∀ b t, W.Grows s t →
      invariant before b t → W.Emits t (f b x) (invariant (before ++ [x]))) :
    W.Emits s (xs.foldlM f b) (invariant (done ++ xs)) := by
  intro hgood
  induction xs generalizing s done b with
  | nil =>
    rw [List.append_nil]
    exact Ensures.pure ⟨W.refl hgood, h⟩
  | cons x xs ih =>
    rw [List.append_cons] at hstep ⊢
    rw [List.foldlM_cons]
    refine bind (W := W) (hstep done x xs (List.append_cons ..) b s (W.refl hgood) h) ?_ hgood
    intro c t hgrows hc
    apply ih hc
    intro before y rest hsplit d u hu
    exact hstep before y rest hsplit d u (W.trans hgrows hu)

theorem foldlM {f : δ → γ → StateT σ (Except ε) δ} (invariant : List γ → δ → σ → Prop)
    {l : List γ} {b : δ} (h : invariant [] b s)
    (hstep : ∀ done x rest, done ++ x :: rest = l → ∀ b t, W.Grows s t → invariant done b t →
      W.Emits t (f b x) (invariant (done ++ [x]))) :
    W.Emits s (l.foldlM f b) (invariant l) :=
  foldlM_append invariant h hstep

end Emits

/-! Integers carried by their low bits. -/

variable (W) in
/-- The references read as the low bits of `z`, the lowest first. -/
def Carries (s : σ) : List β → Int → Prop
  | [], _ => True
  | x :: xs, z => W.Reads s x (odd z) ∧ Carries s xs (z / 2)

@[simp] theorem carries_nil (z : Int) : W.Carries s [] z := trivial

theorem carries_cons {x : β} {xs : List β} {z : Int} :
    W.Carries s (x :: xs) z ↔ W.Reads s x (odd z) ∧ W.Carries s xs (z / 2) := Iff.rfl

theorem Carries.mono {t : σ} {xs : List β} {z : Int} (h : W.Carries s xs z) (hgrows : W.Grows s t) :
    W.Carries t xs z := by
  induction xs generalizing z with
  | nil => exact trivial
  | cons x xs ih => exact ⟨W.mono hgrows h.1, ih h.2⟩

/-- Only the low bits matter. -/
theorem Carries.congr {xs : List β} {a b : Int} (h : W.Carries s xs a)
    (hab : a ≡ b [ZMOD 2 ^ xs.length]) : W.Carries s xs b := by
  induction xs generalizing a b with
  | nil => exact trivial
  | cons x xs ih =>
    obtain ⟨hodd, hhalf⟩ := half_modEq hab
    exact ⟨hodd ▸ h.1, ih h.2 hhalf⟩

theorem carries_append {xs ys : List β} {z : Int} :
    W.Carries s (xs ++ ys) z ↔ W.Carries s xs z ∧ W.Carries s ys (z / 2 ^ xs.length) := by
  induction xs generalizing z with
  | nil => simp [Carries]
  | cons x xs ih =>
    rw [List.cons_append, carries_cons, carries_cons, ih, and_assoc, List.length_cons, shift_succ]

theorem carries_iff {xs : List β} {z : Int} :
    W.Carries s xs z ↔ ∀ i x, xs[i]? = some x → W.Reads s x (digit z i) := by
  induction xs generalizing z with
  | nil => simp
  | cons x xs ih =>
    rw [carries_cons, ih]
    constructor
    · intro ⟨hx, hxs⟩ i y hy
      cases i with
      | zero =>
        rw [List.getElem?_cons_zero, Option.some.injEq] at hy
        rwa [← hy, digit_zero]
      | succ i =>
        rw [digit_succ]
        exact hxs i y hy
    · intro h
      refine ⟨by simpa using h 0 x rfl, fun i y hy => ?_⟩
      rw [← digit_succ]
      exact h (i + 1) y hy

theorem Carries.read {xs : List β} {z : Int} (h : W.Carries s xs z) {i : Nat} {x : β}
    (hx : xs[i]? = some x) : W.Reads s x (digit z i) := carries_iff.mp h i x hx

theorem Carries.take {xs : List β} {z : Int} (h : W.Carries s xs z) (n : Nat) :
    W.Carries s (xs.take n) z := by
  apply carries_iff.mpr
  intro i x hx
  rw [List.getElem?_take] at hx
  split_ifs at hx
  exact h.read hx

theorem Carries.drop {xs : List β} {z : Int} (h : W.Carries s xs z) (n : Nat) :
    W.Carries s (xs.drop n) (z / 2 ^ n) := by
  apply carries_iff.mpr
  intro i x hx
  rw [List.getElem?_drop] at hx
  rw [digit_shift]
  exact h.read hx

end Growing
end Opto
