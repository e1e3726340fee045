import Opto.Frontend.ControlSound
import Opto.Frontend.Predicate
import Opto.Logic.GateGrowth

/-!
# What predicates mean

A literal of the arena stands for a Boolean function of the module's words when it has that
value wherever the inputs have the truth of their sources. Neither a network nor a module
that grows changes what a literal stands for.
-/

namespace Opto.Frontend

open Logic Word

namespace PhaseTable

variable {α : Type} {table : PhaseTable α} {l k : Lit} {a : α}

theorem length_resize (table : PhaseTable α) (n : Nat) : (table.resize n).length = n := List.takeD_length ..

theorem getElem?_takeD {β : Type} (xs : List β) (x : β) (n i : Nat) :
    (xs.takeD n x)[i]? = if i < n then some (xs.getD i x) else none := by
  induction n generalizing xs i with
  | zero => rfl
  | succ n ih =>
    rw [List.takeD_succ]
    cases i with
    | zero => cases xs <;> rfl
    | succ i =>
      rw [List.getElem?_cons_succ, ih]
      simp only [Nat.add_lt_add_iff_right]
      cases xs <;> rfl

theorem get_resize {n : Nat} (h : table.length ≤ n) (l : Lit) : (table.resize n).get l = table.get l := by
  rw [get, get, resize, getElem?_takeD]
  by_cases hl : l.node < table.length
  · rw [if_pos (by omega), List.getD_eq_getElem _ _ hl, List.getElem?_eq_getElem hl]
  · rw [List.getD_eq_default _ _ (Nat.le_of_not_lt hl), List.getElem?_eq_none (Nat.le_of_not_lt hl)]
    by_cases hn : l.node < n
    · rw [if_pos hn]
      cases l.isInverted <;> rfl
    · rw [if_neg hn]

theorem length_set (table : PhaseTable α) (l : Lit) (a : α) :
    (table.set l a).length = max table.length (l.node + 1) := by
  rw [set, List.length_modify]
  split_ifs with h
  · rw [length_resize]
    omega
  · omega

/-- The table with a row for the node, as it is before the entry is written. -/
theorem get_grown (table : PhaseTable α) (l k : Lit) :
    PhaseTable.get (if table.length ≤ l.node then table.resize (l.node + 1) else table) k = table.get k := by
  split_ifs with h
  · exact get_resize (by omega) k
  · rfl

theorem lt_grown (table : PhaseTable α) (l : Lit) :
    l.node < (if table.length ≤ l.node then table.resize (l.node + 1) else table).length := by
  split_ifs with h
  · rw [length_resize]
    exact Nat.lt_succ_self _
  · omega

theorem get_set_self (table : PhaseTable α) (l : Lit) (a : α) : (table.set l a).get l = some a := by
  rw [set, get, List.getElem?_modify_eq, List.getElem?_eq_getElem (lt_grown table l)]
  cases l.isInverted <;> rfl

theorem get_set_ne (h : k ≠ l) : (table.set l a).get k = table.get k := by
  rw [← get_grown table l k, set]
  generalize (if table.length ≤ l.node then table.resize (l.node + 1) else table) = grown
  rw [get, get]
  by_cases hnode : l.node = k.node
  · have hphase : k.isInverted = !l.isInverted := by
      obtain ⟨node, inverted⟩ := k
      obtain ⟨node', inverted'⟩ := l
      cases hnode
      cases inverted <;> cases inverted' <;> simp_all
    rw [hnode, List.getElem?_modify_eq, hphase]
    cases grown[k.node]? with
    | none => rfl
    | some row => cases l.isInverted <;> rfl
  · rw [List.getElem?_modify_ne _ _ hnode]

theorem get_set (table : PhaseTable α) (l k : Lit) (a : α) :
    (table.set l a).get k = if k = l then some a else table.get k := by
  split_ifs with h
  · rw [h, get_set_self]
  · exact get_set_ne h

end PhaseTable

theorem outcome_zoom {ε ε' σ τ α : Type} (view : σ → τ) {update : τ → σ → σ} {raise : ε' → ε}
    {m : EStateM ε' τ α} {s : σ} {Q : α → τ → Prop} {E : ε' → τ → Prop} {Q' : α → σ → Prop} {E' : ε → σ → Prop}
    (h : Outcome (view s) m Q E) (hQ : ∀ a t, Q a t → Q' a (update t s))
    (hE : ∀ e t, E e t → E' (raise e) (update t s)) : Outcome s (zoom view update raise m) Q' E' := by
  unfold Outcome at *
  cases hm : m.run (view s) with
  | ok a t =>
    have hrun : (zoom view update raise m).run s = .ok a (update t s) := by
      simp only [zoom, EStateM.run] at hm ⊢
      rw [hm]
    rw [hm] at h
    rw [hrun]
    exact hQ a t h
  | error e t =>
    have hrun : (zoom view update raise m).run s = .error (raise e) (update t s) := by
      simp only [zoom, EStateM.run] at hm ⊢
      rw [hm]
    rw [hm] at h
    rw [hrun]
    exact hE e t h

/-! Modules that grow. -/

section Growth

variable {m m' : WordModule} {value signal : Nat → Bits}

theorem valueTy_extends (h : m.Extends m') {v : Nat} {ty : WordType} (hty : m.valueTy v = some ty) :
    m'.valueTy v = some ty := by
  rw [← hty]
  exact (h.valueTy (WordModule.lt_of_valueTy hty)).symm

theorem getElem?_extended {α : Type} {xs ys : List α} (h : xs <+: ys) {i : Nat} {x : α} (hx : xs[i]? = some x) :
    ys[i]? = some x := by
  obtain ⟨tail, rfl⟩ := h
  exact List.getElem?_append_left (List.getElem?_eq_some_iff.mp hx).1 ▸ hx

theorem denote_extends (h : m.Extends m') {kind : OpKind} {ty : WordType} {bits : Bits}
    (hdenote : kind.denote m.valueTy value ty = some bits) : kind.denote m'.valueTy value ty = some bits := by
  cases kind with
  | binary op left right =>
    obtain ⟨leftTy, hleft, hrest⟩ := Option.bind_eq_some_iff.mp hdenote
    obtain ⟨rightTy, hright, hbits⟩ := Option.bind_eq_some_iff.mp hrest
    simp only [OpKind.denote, valueTy_extends h hleft, valueTy_extends h hright, Option.bind_eq_bind,
      Option.bind_some, hbits]
  | _ => exact hdenote

/-- Words for a larger module are words for what was there before. -/
theorem Evaluates.of_extends (h : m.Extends m') (he : Evaluates m' value signal) : Evaluates m value signal where
  width v ty hty := he.width v ty (valueTy_extends h hty)
  signalWidth s ty hty := by
    apply he.signalWidth
    obtain ⟨stored, hs, rfl⟩ := Option.map_eq_some_iff.mp hty
    rw [WordModule.signalTy, getElem?_extended h.signals hs]
    rfl
  constant v bits ty hv := he.constant v bits ty (getElem?_extended h.values hv)
  read v reference ty hv := he.read v reference ty (getElem?_extended h.values hv)
  operation o stored ty bits ho hty hdenote :=
    he.operation o stored ty bits (getElem?_extended h.operations ho) (valueTy_extends h hty)
      (denote_extends h hdenote)

end Growth

/-! Functions of a module's words. -/

/-- A one-bit value of the module. -/
def OneBit (m : WordModule) (v : Nat) : Prop := ∃ ty, m.valueTy v = some ty ∧ ty.width = 1

instance (m : WordModule) (v : Nat) : Decidable (OneBit m v) :=
  decidable_of_iff ((m.valueTy v).any (·.width = 1) = true) (by simp [OneBit, Option.any_eq_true])

theorem OneBit.mono {m m' : WordModule} (h : m.Extends m') {v : Nat} (hv : OneBit m v) : OneBit m' v := by
  obtain ⟨ty, hty, hwidth⟩ := hv
  exact ⟨ty, valueTy_extends h hty, hwidth⟩

theorem OneBit.length {m : WordModule} {value signal : Nat → Bits} {v : Nat} (hv : OneBit m v)
    (he : Evaluates m value signal) : (value v).length = 1 := by
  obtain ⟨ty, hty, hwidth⟩ := hv
  exact (he.width v ty hty).trans hwidth

/-- Every input has the truth of the value that it stands for. -/
def boundary (value : Nat → Bits) (source : Nat) : Bool := (value source).truth

/-- The literal has the function's value under all words for the module. -/
structure Means (b : LogicBuilder) (m : WordModule) (l : Lit) (f : (Nat → Bits) → (Nat → Bits) → Bool) : Prop where
  valid : Valid b l
  value : ∀ value signal, Evaluates m value signal → networkValue b.freeze (boundary value) l = f value signal

/-- The literal has the truth of the one-bit value. -/
structure Represents (b : LogicBuilder) (m : WordModule) (l : Lit) (v : Nat) : Prop where
  oneBit : OneBit m v
  means : Means b m l fun value _ => (value v).truth

section Means

variable {b t : LogicBuilder} {m m' : WordModule} {l r : Lit} {f g : (Nat → Bits) → (Nat → Bits) → Bool}

theorem networkValue_later (hb : Inv b) (h : Logic.Grows b t) (hl : Valid b l) (assigned : Nat → Bool) :
    networkValue t.freeze assigned l = networkValue b.freeze assigned l :=
  (hl.denotes.grows hb h).value assigned

theorem Means.mono (hb : Inv b) (hgrows : Logic.Grows b t) (hext : m.Extends m') (h : Means b m l f) :
    Means t m' l f where
  valid := hgrows.valid h.valid
  value value signal he := by
    rw [networkValue_later hb hgrows h.valid]
    exact h.value value signal (he.of_extends hext)

theorem Means.congr (h : Means b m l f) (hfg : ∀ value signal, Evaluates m value signal → f value signal = g value signal) :
    Means b m l g :=
  ⟨h.valid, fun value signal he => (h.value value signal he).trans (hfg value signal he)⟩

theorem Means.inverted (h : Means b m l f) : Means b m l.inverted fun value signal => !f value signal where
  valid := h.valid.inverted
  value value signal he := by rw [networkValue_inverted, h.value value signal he]

theorem means_constant (hb : Inv b) (m : WordModule) (bit : Bool) :
    Means b m (LogicBuilder.constant bit) fun _ _ => bit where
  valid := (denotes_constant hb bit).valid
  value value _ _ := (denotes_constant hb bit).value (boundary value)

theorem Represents.mono (hb : Inv b) (hgrows : Logic.Grows b t) (hext : m.Extends m') {v : Nat}
    (h : Represents b m l v) : Represents t m' l v :=
  ⟨h.oneBit.mono hext, h.means.mono hb hgrows hext⟩

/-- A literal means what it has on every boundary. -/
theorem means_of_denotes {h : (Nat → Bool) → Bool} (hl : Denotes b l h)
    (hf : ∀ value signal, Evaluates m value signal → h (boundary value) = f value signal) : Means b m l f :=
  ⟨hl.valid, fun value signal he => (hl.value (boundary value)).trans (hf value signal he)⟩

end Means

end Opto.Frontend
