import Mathlib.Algebra.GroupWithZero.Nat
/-!
# Node identifiers and complemented edges

A literal is a node together with a phase. The source packs both into one
32-bit word, with the phase in bit zero; `code` is that word and gives the
order in which literals are compared.
-/

namespace Opto.Logic

structure LogicError where
  message : String
deriving DecidableEq, Repr

def LogicError.capacity (kind : String) : LogicError :=
  ⟨s!"logic {kind} exceeds 32-bit capacity"⟩

/-- Node identifiers are dense arena indices, checked against their 32-bit storage. -/
def NodeId.fromIndex (index : Nat) : Except LogicError Nat :=
  if index < 2 ^ 32 then .ok index else .error (.capacity "node ID")

structure Lit where
  node : Nat
  isInverted : Bool
deriving DecidableEq, Repr

namespace Lit

def FALSE : Lit := ⟨0, false⟩
def TRUE : Lit := ⟨0, true⟩

def code (l : Lit) : Nat := 2 * l.node + l.isInverted.toNat

def ofCode (c : Nat) : Lit := ⟨c / 2, c % 2 == 1⟩

/-- Nodes from 2³¹ on have an identifier but no literal. -/
def fromNode (node : Nat) : Except LogicError Lit :=
  if node * 2 < 2 ^ 32 then .ok ⟨node, false⟩ else .error (.capacity "literal")

def inverted (l : Lit) : Lit := ⟨l.node, !l.isInverted⟩
def positive (l : Lit) : Lit := ⟨l.node, false⟩

@[simp] theorem ofCode_code (l : Lit) : ofCode l.code = l := by
  obtain ⟨n, b⟩ := l
  have h : (2 * n + 1) / 2 = n := by omega
  cases b <;> simp [ofCode, code, h]

theorem code_injective {a b : Lit} (h : a.code = b.code) : a = b := by
  rw [← ofCode_code a, ← ofCode_code b, h]

@[simp] theorem node_inverted (l : Lit) : l.inverted.node = l.node := rfl
@[simp] theorem isInverted_inverted (l : Lit) : l.inverted.isInverted = !l.isInverted := rfl
@[simp] theorem node_positive (l : Lit) : l.positive.node = l.node := rfl
@[simp] theorem isInverted_positive (l : Lit) : l.positive.isInverted = false := rfl

@[simp] theorem inverted_inverted (l : Lit) : l.inverted.inverted = l := by
  simp [inverted]

@[simp] theorem positive_inverted (l : Lit) : l.inverted.positive = l.positive := rfl

theorem positive_of_not_inverted {l : Lit} (h : l.isInverted = false) : l.positive = l := by
  cases l; simp_all [positive]

theorem inverted_positive_of_inverted {l : Lit} (h : l.isInverted = true) :
    l.positive.inverted = l := by
  cases l; simp_all [positive, inverted]

theorem inverted_ne (l : Lit) : l.inverted ≠ l := by
  cases l with | mk n b => cases b <;> simp [inverted]

theorem eq_or_eq_inverted_of_node_eq {a b : Lit} (h : a.node = b.node) :
    a = b ∨ a = b.inverted := by
  obtain ⟨n, p⟩ := a
  obtain ⟨m, q⟩ := b
  cases p <;> cases q <;> simp_all [inverted]

@[simp] theorem FALSE_inverted : FALSE.inverted = TRUE := rfl
@[simp] theorem TRUE_inverted : TRUE.inverted = FALSE := rfl

theorem code_lt_iff_of_positive {a b : Lit} (ha : a.isInverted = false)
    (hb : b.isInverted = false) : a.code < b.code ↔ a.node < b.node := by
  simp [code, ha, hb]

end Lit

/-- The source compares the packed words. -/
def ordered (left right : Lit) : Lit × Lit :=
  if left.code ≤ right.code then (left, right) else (right, left)

theorem ordered_eq_or (left right : Lit) :
    ordered left right = (left, right) ∨ ordered left right = (right, left) := by
  unfold ordered; split <;> simp

theorem ordered_lt {left right : Lit} (h : left ≠ right) :
    (ordered left right).1.code < (ordered left right).2.code := by
  have hc : left.code ≠ right.code := fun hc => h (Lit.code_injective hc)
  unfold ordered; split <;> simp <;> omega

def withPhase (value : Lit) (inverted : Bool) : Lit :=
  if inverted then value.inverted else value

@[simp] theorem withPhase_node (l : Lit) (p : Bool) : (withPhase l p).node = l.node := by
  cases p <;> rfl

end Opto.Logic
