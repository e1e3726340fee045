import Mathlib.Tactic.Common
import Opto.Liberty.Function

/-!
# The syntax of Boolean expressions

A syntax tree keeps what a token list spells out: parentheses, and whether a conjunction has an
operator of its own. Binding powers say which trees are the grouping of their tokens.
-/

namespace Opto.Liberty

/-- A written operator, or operands that stand side by side and are conjoined. -/
inductive Connective
  | written (operator : Operator)
  | beside
  deriving DecidableEq, Repr

namespace Connective

def operator : Connective → Operator
  | .written operator => operator
  | .beside => .and

def tokens : Connective → List Token
  | .written operator => [operator.token]
  | .beside => []

end Connective

inductive Syntax
  | name (name : String)
  | const (value : Bool)
  | paren (inner : Syntax)
  | not (argument : Syntax)
  | prime (argument : Syntax)
  | binary (connective : Connective) (left right : Syntax)
  | cond (condition whenTrue whenFalse : Syntax)
  deriving DecidableEq, Repr

abbrev Powers := Operator → Nat × Nat

/-- Liberty's order: after inversion comes the exclusive OR, then AND, then OR. -/
def libertyPowers : Powers
  | .xor => (9, 10)
  | .and => (7, 8)
  | operator => operator.powers

namespace Syntax

def tokens : Syntax → List Token
  | name n => [.name n]
  | const value => [.const value]
  | paren inner => .leftParen :: (inner.tokens ++ [.rightParen])
  | not argument => .not :: argument.tokens
  | prime argument => argument.tokens ++ [.apostrophe]
  | binary connective left right => left.tokens ++ (connective.tokens ++ right.tokens)
  | cond condition whenTrue whenFalse =>
    condition.tokens ++ .question :: (whenTrue.tokens ++ .colon :: whenFalse.tokens)

def tree : Syntax → BooleanFunction
  | name n => .pin n
  | const value => .const value
  | paren inner => inner.tree
  | not argument | prime argument => .not argument.tree
  | binary connective left right => connective.operator.combine left.tree right.tree
  | cond condition whenTrue whenFalse => .cond condition.tree whenTrue.tree whenFalse.tree

/-- Parentheses count as nodes. -/
def nodes : Syntax → Nat
  | name _ | const _ => 1
  | paren argument | not argument | prime argument => argument.nodes + 1
  | binary _ left right => left.nodes + right.nodes + 1
  | cond condition whenTrue whenFalse => condition.nodes + whenTrue.nodes + whenFalse.nodes + 1

/-- A right operand is nested one level below its left one. -/
def nesting : Syntax → Nat
  | name _ | const _ => 0
  | paren argument | not argument => argument.nesting + 1
  | prime argument => argument.nesting
  | binary _ left right => max left.nesting (right.nesting + 1)
  | cond condition whenTrue whenFalse => max condition.nesting (max whenTrue.nesting whenFalse.nesting + 1)

def WithinLimits (s : Syntax) : Prop := s.nesting ≤ MAX_NESTING ∧ s.nodes ≤ MAX_NODES

instance (s : Syntax) : Decidable s.WithinLimits := inferInstanceAs (Decidable (_ ∧ _))

section

variable (powers : Powers)

/-- The least power that a tree's last step binds with on the left, and the power from which on a
following token belongs to its last operand. -/
def binding : Syntax → Nat × Nat
  | name _ | const _ | paren _ | prime _ => (11, 12)
  | not _ => (11, 11)
  | binary connective _ _ => powers connective.operator
  | cond _ _ _ => (1, 1)

/-- The tree is how its tokens are grouped. -/
def Grouped : Syntax → Prop
  | name _ | const _ => True
  | paren inner => inner.Grouped
  | not argument => argument.Grouped ∧ 11 ≤ (argument.binding powers).1
  | prime argument => argument.Grouped ∧ 11 < (argument.binding powers).2
  | binary connective left right =>
    left.Grouped ∧ right.Grouped ∧ (powers connective.operator).1 < (left.binding powers).2 ∧
      (powers connective.operator).2 ≤ (right.binding powers).1
  | cond condition whenTrue whenFalse =>
    condition.Grouped ∧ whenTrue.Grouped ∧ whenFalse.Grouped ∧ 1 < (condition.binding powers).2

instance decidableGrouped : ∀ s : Syntax, Decidable (s.Grouped powers)
  | name _ | const _ => isTrue trivial
  | paren inner => decidableGrouped inner
  | not argument | prime argument =>
    have := decidableGrouped argument
    inferInstanceAs (Decidable (_ ∧ _))
  | binary _ left right =>
    have := decidableGrouped left
    have := decidableGrouped right
    inferInstanceAs (Decidable (_ ∧ _ ∧ _ ∧ _))
  | cond condition whenTrue whenFalse =>
    have := decidableGrouped condition
    have := decidableGrouped whenTrue
    have := decidableGrouped whenFalse
    inferInstanceAs (Decidable (_ ∧ _ ∧ _ ∧ _))

end

def isChain (operator : Operator) : Syntax → Bool
  | binary connective _ _ => connective.operator = operator
  | _ => false

/-- No exclusive OR has a conjunction, and no conjunction an exclusive OR, as an operand without
parentheses. -/
def Unmixed : Syntax → Prop
  | name _ | const _ => True
  | paren argument | not argument | prime argument => argument.Unmixed
  | binary connective left right => left.Unmixed ∧ right.Unmixed ∧
    (connective.operator = .xor → left.isChain .and = false ∧ right.isChain .and = false) ∧
    (connective.operator = .and → left.isChain .xor = false ∧ right.isChain .xor = false)
  | cond condition whenTrue whenFalse => condition.Unmixed ∧ whenTrue.Unmixed ∧ whenFalse.Unmixed

instance decidableUnmixed : ∀ s : Syntax, Decidable s.Unmixed
  | name _ | const _ => isTrue trivial
  | paren argument | not argument | prime argument => decidableUnmixed argument
  | binary _ left right =>
    have := decidableUnmixed left
    have := decidableUnmixed right
    inferInstanceAs (Decidable (_ ∧ _ ∧ _ ∧ _))
  | cond condition whenTrue whenFalse =>
    have := decidableUnmixed condition
    have := decidableUnmixed whenTrue
    have := decidableUnmixed whenFalse
    inferInstanceAs (Decidable (_ ∧ _ ∧ _))

theorem tokens_length_pos (s : Syntax) : 0 < s.tokens.length := by
  induction s with
  | binary connective left right hleft hright =>
    simp only [tokens, List.length_append]
    omega
  | cond condition whenTrue whenFalse hcondition =>
    rw [tokens, List.length_append]
    omega
  | _ => simp [tokens]

end Syntax

/-! The powers of the tokens that may follow an expression. -/

/-- The power that a token continues an expression with. -/
def Token.power (token : Token) : Option Nat :=
  if token = .apostrophe then some 11
  else if token = .question then some 1
  else token.operator.map fun operator => operator.powers.1

/-- The tokens that follow do not continue an expression of the power. -/
def Stops (power : Nat) (tokens : List Token) : Prop :=
  ∀ token, tokens.head? = some token → ∀ k, token.power = some k → k < power

namespace Stops

variable {power power' : Nat} {tokens : List Token} {token : Token}

theorem mono (h : Stops power tokens) (hle : power ≤ power') : Stops power' tokens :=
  fun token htoken k hk => Nat.lt_of_lt_of_le (h token htoken k hk) hle

theorem nil : Stops power [] := fun _ h => by cases h

theorem cons_of_none (h : token.power = none) : Stops power (token :: tokens) := by
  intro t ht k hk
  cases ht
  rw [h] at hk
  cases hk

theorem cons_of_lt {k : Nat} (h : token.power = some k) (hlt : k < power) : Stops power (token :: tokens) := by
  intro t ht l hl
  cases ht
  rw [h] at hl
  cases hl
  exact hlt

end Stops

theorem Token.power_le (token : Token) {k : Nat} (h : token.power = some k) : k ≤ 11 := by
  cases token <;> cases h <;> decide

theorem stops_twelve (tokens : List Token) : Stops 12 tokens :=
  fun token _ _ hk => Nat.lt_succ_of_le (token.power_le hk)

theorem Operator.power_token (operator : Operator) : operator.token.power = some operator.powers.1 := by
  cases operator <;> rfl

theorem Operator.powers_le (operator : Operator) : operator.powers.1 ≤ operator.powers.2 := by
  cases operator <;> decide

theorem Operator.le_powers (operator : Operator) {power : Nat} (h : power < operator.powers.2) :
    power ≤ operator.powers.1 := by
  cases operator <;> simp only [powers] at h ⊢ <;> omega

theorem Operator.operator_token (operator : Operator) : operator.token.operator = some operator := by
  cases operator <;> rfl

namespace Syntax

variable {s : Syntax}

/-- What a tree binds on the left it also binds on the right. -/
theorem binding_le (s : Syntax) : (s.binding Operator.powers).1 ≤ (s.binding Operator.powers).2 := by
  cases s with
  | binary connective left right => exact connective.operator.powers_le
  | _ => simp [binding]

/-- A left operand is at least as tight as what takes it in. -/
theorem le_binding {power : Nat} (h : power < (s.binding Operator.powers).2) (hpower : power ≤ 11) :
    power ≤ (s.binding Operator.powers).1 := by
  cases s with
  | binary connective left right => exact connective.operator.le_powers h
  | cond condition whenTrue whenFalse => exact Nat.le_of_lt h
  | _ => exact hpower

theorem binding_pos (s : Syntax) : 1 ≤ (s.binding Operator.powers).1 := by
  cases s with
  | binary connective left right => cases h : connective.operator <;> simp [binding, h, Operator.powers]
  | _ => simp [binding]

/-- A tree begins with a token that starts an expression. -/
theorem startsExpression_head (s : Syntax) : ∃ token rest, s.tokens = token :: rest ∧ token.startsExpression = true := by
  induction s with
  | name n => exact ⟨_, _, rfl, rfl⟩
  | const value => exact ⟨_, _, rfl, rfl⟩
  | paren inner ih => exact ⟨_, _, rfl, rfl⟩
  | not argument ih => exact ⟨_, _, rfl, rfl⟩
  | prime argument ih =>
    obtain ⟨token, rest, htokens, hstarts⟩ := ih
    exact ⟨token, rest ++ [.apostrophe], by rw [tokens, htokens, List.cons_append], hstarts⟩
  | binary connective left right hleft =>
    obtain ⟨token, rest, htokens, hstarts⟩ := hleft
    exact ⟨token, _, by rw [tokens, htokens, List.cons_append], hstarts⟩
  | cond condition whenTrue whenFalse hcondition =>
    obtain ⟨token, rest, htokens, hstarts⟩ := hcondition
    exact ⟨token, _, by rw [tokens, htokens, List.cons_append], hstarts⟩

end Syntax

/-- A token that starts an expression continues one as a conjunction. -/
theorem Token.operator_of_starts {token : Token} (h : token.startsExpression = true) : token.operator = some .and := by
  cases token <;> simp_all [startsExpression, operator]

theorem Token.power_of_starts {token : Token} (h : token.startsExpression = true) : token.power = some 9 := by
  cases token <;> simp_all [startsExpression, operator, power, Operator.powers]

end Opto.Liberty
