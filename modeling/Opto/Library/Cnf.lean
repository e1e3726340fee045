import Mathlib.Data.List.Basic

/-!
# Clauses, models and solvers

Formulas in conjunctive normal form over numbered variables. A formula is a
definition of its variables when every choice of the free ones extends to
exactly one model; adding the clauses of a gate over a new variable keeps this.
-/

namespace Opto.Cnf

structure Literal where
  index : Nat
  isPositive : Bool
deriving DecidableEq, Repr

abbrev Clause := List Literal
abbrev Formula := List Clause
abbrev Assignment := Nat → Bool

namespace Literal

def not (l : Literal) : Literal := ⟨l.index, !l.isPositive⟩

def eval (a : Assignment) (l : Literal) : Bool := a l.index == l.isPositive

@[simp] theorem index_not (l : Literal) : l.not.index = l.index := rfl

@[simp] theorem eval_not (a : Assignment) (l : Literal) : l.not.eval a = !l.eval a := by
  cases h : a l.index <;> cases hp : l.isPositive <;> simp [eval, not, h, hp]

theorem eval_congr {a b : Assignment} {l : Literal} (h : a l.index = b l.index) :
    l.eval a = l.eval b := by rw [eval, eval, h]

@[simp] theorem eval_positive (a : Assignment) (v : Nat) : eval a ⟨v, true⟩ = a v := by
  simp [eval]

end Literal

def Holds (a : Assignment) (formula : Formula) : Prop :=
  ∀ c ∈ formula, ∃ l ∈ c, l.eval a = true

instance (a : Assignment) (formula : Formula) : Decidable (Holds a formula) := by
  unfold Holds; infer_instance

@[simp] theorem holds_nil (a : Assignment) : Holds a [] := by simp [Holds]

@[simp] theorem holds_append {a : Assignment} {f g : Formula} :
    Holds a (f ++ g) ↔ Holds a f ∧ Holds a g := by
  simp only [Holds, List.mem_append, or_imp, forall_and]

theorem holds_units {a : Assignment} {ls : List Literal} :
    Holds a (ls.map fun l => [l]) ↔ ∀ l ∈ ls, l.eval a = true := by
  simp [Holds]

/-- All variables of a formula lie below `n`. -/
def Below (n : Nat) (formula : Formula) : Prop := ∀ c ∈ formula, ∀ l ∈ c, l.index < n

theorem Below.mono {n m : Nat} {f : Formula} (h : Below n f) (hm : n ≤ m) : Below m f :=
  fun c hc l hl => Nat.lt_of_lt_of_le (h c hc l hl) hm

theorem Below.append {n : Nat} {f g : Formula} (hf : Below n f) (hg : Below n g) :
    Below n (f ++ g) := by
  intro c hc
  rcases List.mem_append.mp hc with hc | hc
  · exact hf c hc
  · exact hg c hc

theorem holds_congr {n : Nat} {f : Formula} (hf : Below n f) {a b : Assignment}
    (h : ∀ v < n, a v = b v) : Holds a f ↔ Holds b f := by
  have clause (c : Clause) (hc : c ∈ f) (l : Literal) (hl : l ∈ c) : l.eval a = l.eval b :=
    Literal.eval_congr (h _ (hf c hc l hl))
  constructor <;> intro hh c hc <;> obtain ⟨l, hl, ht⟩ := hh c hc
  · exact ⟨l, hl, by rwa [← clause c hc l hl]⟩
  · exact ⟨l, hl, by rwa [clause c hc l hl]⟩

/-! Solvers. -/

/-- What a solver that answers `true` reports: literals no two of which are opposite,
enough of them to satisfy every clause. -/
structure IsModel (model : List Literal) (formula : Formula) : Prop where
  consistent : ∀ l ∈ model, l.not ∉ model
  satisfies : ∀ c ∈ formula, ∃ l ∈ c, l ∈ model

theorem IsModel.holds {model : List Literal} {f : Formula} (h : IsModel model f) {a : Assignment}
    (ha : ∀ l ∈ model, l.eval a = true) : Holds a f := by
  intro c hc
  obtain ⟨l, hl, hm⟩ := h.satisfies c hc
  exact ⟨l, hl, ha l hm⟩

/-- Reading a literal list as a partial assignment completed by `rest`. -/
def complete (model : List Literal) (rest : Assignment) : Assignment := fun v =>
  if ⟨v, true⟩ ∈ model then true else if ⟨v, false⟩ ∈ model then false else rest v

theorem complete_of_mem {model : List Literal} {f : Formula} (h : IsModel model f)
    (rest : Assignment) {l : Literal} (hl : l ∈ model) : l.eval (complete model rest) = true := by
  obtain ⟨v, p⟩ := l
  cases p with
  | true => simp [Literal.eval, complete, hl]
  | false =>
    have hn : (⟨v, true⟩ : Literal) ∉ model := h.consistent _ hl
    simp [Literal.eval, complete, hl, hn]

/-- A solver takes a formula and assumed literals; `none` says unsatisfiable. -/
abbrev Solver (ε : Type) := Formula → List Literal → Except ε (Option (List Literal))

structure Solver.Correct {ε : Type} (solve : Solver ε) : Prop where
  answers : ∀ f as, ∃ r, solve f as = .ok r
  unsat : ∀ f as, solve f as = .ok none → ∀ a, Holds a f → ∃ l ∈ as, l.eval a = false
  sat : ∀ f as model, solve f as = .ok (some model) →
    IsModel model (f ++ as.map fun l => [l])

/-! The clauses of a gate determine its output. -/

def andClauses (l r o : Literal) : Formula := [[l.not, r.not, o], [l, o.not], [r, o.not]]

def xorClauses (l r o : Literal) : Formula :=
  [[l.not, r.not, o.not], [l.not, r, o], [l, r.not, o], [l, r, o.not]]

def muxClauses (s t e o : Literal) : Formula :=
  [[s.not, t.not, o], [s.not, t, o.not], [s, e.not, o], [s, e, o.not]]

variable {a : Assignment}

theorem holds_andClauses (l r o : Literal) :
    Holds a (andClauses l r o) ↔ o.eval a = (l.eval a && r.eval a) := by
  cases hl : l.eval a <;> cases hr : r.eval a <;> cases ho : o.eval a <;>
    simp [Holds, andClauses, hl, hr, ho]

theorem holds_xorClauses (l r o : Literal) :
    Holds a (xorClauses l r o) ↔ o.eval a = (l.eval a ^^ r.eval a) := by
  cases hl : l.eval a <;> cases hr : r.eval a <;> cases ho : o.eval a <;>
    simp [Holds, xorClauses, hl, hr, ho]

theorem holds_muxClauses (s t e o : Literal) :
    Holds a (muxClauses s t e o) ↔ o.eval a = if s.eval a then t.eval a else e.eval a := by
  cases hs : s.eval a <;> cases ht : t.eval a <;> cases he : e.eval a <;> cases ho : o.eval a <;>
    simp [Holds, muxClauses, hs, ht, he, ho]

end Opto.Cnf
