import Opto.Liberty.Parsing

/-!
# Grouped trees and the parser

The parser reaches its loop with the tree of every grouped reading of the tokens in front of it,
and whatever it returns is the tree of one.
-/

namespace Opto.Liberty

open Syntax
open FunctionParser (nextToken nextToken_outcome)

/-- The tree and the tokens after it, if the limits allow. -/
def Read (s : FunctionParser) (depth : Nat) (c : Syntax) (rest : List Token) (function : BooleanFunction)
    (t : FunctionParser) : Prop :=
  function = c.tree ∧ t.tokens = rest ∧ t.nodes = s.nodes + c.nodes ∧ depth + c.nesting ≤ MAX_NESTING ∧
    t.nodes ≤ MAX_NODES

/-- The tree does not fit the limits. -/
def Exceeds (s : FunctionParser) (depth : Nat) (c : Syntax) : Prop :=
  ¬(depth + c.nesting ≤ MAX_NESTING ∧ s.nodes + c.nodes ≤ MAX_NODES)

/-- In front of the tree's tokens, the parser gets to the loop that follows the tree. -/
def Reads (c : Syntax) : Prop :=
  ∀ (fuel minimum depth : Nat) (s : FunctionParser) (rest : List Token)
    (Q : BooleanFunction → FunctionParser → Prop) (E : Stop → FunctionParser → Prop),
    minimum ≤ (c.binding Operator.powers).1 → 2 * (c.tokens.length + rest.length) < fuel →
    s.tokens = c.tokens ++ rest → Stops (c.binding Operator.powers).2 rest →
    (∀ e t, e.IsLimit → Exceeds s depth c → E e t) →
    (∀ k t, 2 * rest.length + 1 < k → Read s depth c rest c.tree t → Outcome t (expressionLoop k minimum depth c.tree) Q E) →
      Outcome s (expression fuel minimum depth) Q E

section Complete

variable {c inner left right condition whenTrue whenFalse : Syntax} {fuel minimum depth : Nat} {s : FunctionParser}
  {rest : List Token} {Q : BooleanFunction → FunctionParser → Prop} {E : Stop → FunctionParser → Prop}

theorem binding_le_eleven (c : Syntax) : (c.binding Operator.powers).1 ≤ 11 := by
  cases c with
  | binary connective left right => cases h : connective.operator <;> simp [binding, h, Operator.powers]
  | _ => simp [binding]

theorem expressionLoop_stops {function : BooleanFunction} {k : Nat} (hlimit : minimum ≤ 11) (hk : 0 < k)
    (hstops : Stops minimum s.tokens) (hQ : ∀ t, t.tokens = s.tokens → t.nodes = s.nodes → Q function t) :
    Outcome s (expressionLoop k minimum depth function) Q E := by
  obtain ⟨k, rfl⟩ := Nat.exists_eq_add_one_of_ne_zero hk.ne'
  apply expressionLoop_outcome (R := fun _ _ => False) hlimit
  · exact fun t htokens hnodes _ => hQ t htokens hnodes
  · intro next t read hfirst _ _ hcontinued
    have hnone : continued (expression k · (depth + 1)) minimum function next = none :=
      (continued_eq_none hlimit).mpr (hstops next.token (by rw [hfirst, List.head?_cons]))
    rw [hnone] at hcontinued
    cases hcontinued
  · exact fun _ _ h => h.elim

/-- Where what follows ends the expression, the parser returns the tree. -/
theorem Reads.nested (h : Reads c) (hminimum : minimum ≤ (c.binding Operator.powers).1)
    (hfuel : 2 * (c.tokens.length + rest.length) < fuel) (hs : s.tokens = c.tokens ++ rest)
    (hstops : Stops minimum rest) : Outcome s (expression fuel minimum depth) (Read s depth c rest)
      fun e _ => e.IsLimit ∧ Exceeds s depth c := by
  apply h fuel minimum depth s rest _ _ hminimum hfuel hs (hstops.mono (hminimum.trans c.binding_le))
  · exact fun e t he hexceeds => ⟨he, hexceeds⟩
  · intro k t hk ht
    apply expressionLoop_stops (hminimum.trans (binding_le_eleven c)) (by omega)
    · rw [ht.2.1]
      exact hstops
    · intro u htokens hnodes
      rw [Read, htokens, hnodes]
      exact ht

theorem reads_atom (token : Token) (htokens : c.tokens = [token]) (hnodes : c.nodes = 1) (hnesting : c.nesting = 0)
    (hoperand : ∀ nested next, next.token = token → operand nested next = pure c.tree) : Reads c := by
  intro fuel minimum depth s rest Q E hminimum hfuel hs hstops hexceeds hloop
  obtain ⟨fuel, rfl⟩ := Nat.exists_eq_add_one_of_ne_zero (show fuel ≠ 0 by omega)
  rw [htokens] at hs
  apply expression_outcome (R := fun function t => function = c.tree ∧ t.tokens = rest ∧ t.nodes = s.nodes)
  · exact fun e t he hdeep => hexceeds e t he (by rw [Exceeds]; omega)
  · intro hnil
    rw [hs] at hnil
    cases hnil
  · intro _ next t hfirst hcount
    rw [hs] at hfirst
    obtain ⟨htoken, htail⟩ := List.cons_eq_cons.mp hfirst
    rw [hoperand _ next htoken.symm]
    exact ⟨rfl, htail.symm, hcount⟩
  · rintro function t ⟨-, -, hcount⟩ hmany e u he
    exact hexceeds e u he (by rw [Exceeds]; omega)
  · rintro hdepth function t ⟨rfl, htail, hcount⟩ hmany u hu hunodes
    rw [htokens, List.length_singleton] at hfuel
    exact hloop fuel u (by omega) ⟨rfl, hu.trans htail, by omega, by omega, by omega⟩

theorem reads_paren (h : Reads inner) : Reads (paren inner) := by
  intro fuel minimum depth s rest Q E hminimum hfuel hs hstops hexceeds hloop
  obtain ⟨fuel, rfl⟩ := Nat.exists_eq_add_one_of_ne_zero (show fuel ≠ 0 by omega)
  simp only [Syntax.tokens, List.length_cons, List.length_append, List.length_nil] at hfuel
  simp only [Syntax.tokens, List.cons_append, List.append_assoc, List.nil_append] at hs
  simp only [Exceeds, nesting, nodes] at hexceeds
  apply expression_outcome (R := fun function t => function = inner.tree ∧ t.tokens = rest ∧
    t.nodes = s.nodes + inner.nodes ∧ depth + 1 + inner.nesting ≤ MAX_NESTING)
  · exact fun e t he hdeep => hexceeds e t he (by omega)
  · intro hnil
    rw [hs] at hnil
    cases hnil
  · intro _ next t hfirst hcount
    rw [hs] at hfirst
    obtain ⟨htoken, htail⟩ := List.cons_eq_cons.mp hfirst
    rw [operand, ← htoken]
    have hinner : Outcome t (expression fuel 0 (depth + 1)) (Read t (depth + 1) inner (.rightParen :: rest))
        fun e _ => e.IsLimit ∧ Exceeds t (depth + 1) inner := by
      apply h.nested (Nat.zero_le _) _ htail.symm (.cons_of_none rfl)
      simp only [List.length_cons]
      omega
    apply Outcome.bind hinner
    · rintro function u ⟨rfl, hu, hunodes, hnesting, -⟩
      apply Outcome.bind (expectToken_outcome hu) _ fun _ _ h => h
      rintro _ v ⟨hv, hvnodes⟩
      exact ⟨rfl, hv, by omega, hnesting⟩
    · rintro e u ⟨he, hinner⟩
      exact hexceeds e u he (by rw [Exceeds] at hinner; omega)
  · rintro function t ⟨-, -, hcount, -⟩ hmany e u he
    exact hexceeds e u he (by omega)
  · rintro hdepth function t ⟨rfl, htail, hcount, hnesting⟩ hmany u hu hunodes
    exact hloop fuel u (by omega) ⟨rfl, hu.trans htail, by simp only [nodes]; omega, by simp only [nesting]; omega,
      by omega⟩

theorem reads_not (h : Reads inner) (hinner : 11 ≤ (inner.binding Operator.powers).1) : Reads inner.not := by
  intro fuel minimum depth s rest Q E hminimum hfuel hs hstops hexceeds hloop
  obtain ⟨fuel, rfl⟩ := Nat.exists_eq_add_one_of_ne_zero (show fuel ≠ 0 by omega)
  simp only [Syntax.tokens, List.length_cons] at hfuel
  simp only [Syntax.tokens, List.cons_append] at hs
  simp only [Exceeds, nesting, nodes] at hexceeds
  apply expression_outcome (R := fun function t => function = inner.not.tree ∧ t.tokens = rest ∧
    t.nodes = s.nodes + inner.nodes ∧ depth + 1 + inner.nesting ≤ MAX_NESTING)
  · exact fun e t he hdeep => hexceeds e t he (by omega)
  · intro hnil
    rw [hs] at hnil
    cases hnil
  · intro _ next t hfirst hcount
    rw [hs] at hfirst
    obtain ⟨htoken, htail⟩ := List.cons_eq_cons.mp hfirst
    rw [operand, ← htoken]
    have hnested : Outcome t (expression fuel 11 (depth + 1)) (Read t (depth + 1) inner rest)
        fun e _ => e.IsLimit ∧ Exceeds t (depth + 1) inner := h.nested hinner (by omega) htail.symm hstops
    apply Outcome.bind hnested
    · rintro function u ⟨rfl, hu, hunodes, hnesting, -⟩
      exact ⟨rfl, hu, by omega, hnesting⟩
    · rintro e u ⟨he, hnested⟩
      exact hexceeds e u he (by rw [Exceeds] at hnested; omega)
  · rintro function t ⟨-, -, hcount, -⟩ hmany e u he
    exact hexceeds e u he (by omega)
  · rintro hdepth function t ⟨rfl, htail, hcount, hnesting⟩ hmany u hu hunodes
    exact hloop fuel u (by omega) ⟨rfl, hu.trans htail, by simp only [nodes]; omega, by simp only [nesting]; omega,
      by omega⟩

/-- The loop takes the next token in. -/
theorem expressionLoop_continues {function : BooleanFunction} {token : Token} {k p : Nat}
    {R : BooleanFunction → FunctionParser → Prop} (hs : s.tokens = token :: rest) (hpower : token.power = some p)
    (hminimum : minimum ≤ p)
    (hread : ∀ (next : SpannedToken) t, next.token = token → t.tokens = token :: rest → t.nodes = s.nodes →
      ∃ read, continued (expression k · (depth + 1)) minimum function next = some read ∧ Outcome t read R E)
    (hloop : ∀ f t, R f t → Outcome t (expressionLoop k minimum depth f) Q E) :
    Outcome s (expressionLoop (k + 1) minimum depth function) Q E := by
  apply expressionLoop_outcome (hminimum.trans (token.power_le hpower)) _ _ hloop
  · intro t _ _ hstops
    have hlt := hstops token (by rw [hs, List.head?_cons]) p hpower
    omega
  · intro next t read hfirst htokens hnodes hcontinued
    rw [hs] at hfirst htokens
    obtain ⟨read', hread', houtcome⟩ := hread next t (List.cons_eq_cons.mp hfirst).1.symm htokens hnodes
    rw [hcontinued] at hread'
    cases hread'
    exact houtcome

theorem skip_outcome {token : Token} {R : Option SpannedToken → FunctionParser → Prop} (hs : s.tokens = token :: rest)
    (hR : ∀ next t, t.tokens = rest → t.nodes = s.nodes → R next t) : Outcome s nextToken R E := by
  apply nextToken_outcome
  intro next t hnodes htokens _
  rw [hs] at htokens
  exact hR next t htokens hnodes

theorem reads_prime (h : Reads inner) (hinner : 11 < (inner.binding Operator.powers).2) : Reads inner.prime := by
  intro fuel minimum depth s rest Q E hminimum hfuel hs hstops hexceeds hloop
  simp only [Syntax.tokens, List.length_append, List.length_singleton] at hfuel
  simp only [Syntax.tokens, List.append_assoc, List.singleton_append] at hs
  simp only [Exceeds, nesting, nodes] at hexceeds
  have hbinding : 11 ≤ (inner.binding Operator.powers).1 := le_binding hinner le_rfl
  apply h fuel minimum depth s (.apostrophe :: rest) Q E (hminimum.trans hbinding)
    (by rw [List.length_cons]; omega) hs (.cons_of_lt rfl hinner)
  · exact fun e t he hinner => hexceeds e t he (by rw [Exceeds] at hinner; omega)
  · rintro k t hk ⟨_, htokens, hcount, hnesting, hlimit⟩
    rw [List.length_cons] at hk
    obtain ⟨k, rfl⟩ := Nat.exists_eq_add_one_of_ne_zero (show k ≠ 0 by omega)
    apply expressionLoop_continues (R := Read s depth inner.prime rest) htokens rfl hminimum
    · intro next u hnext hu hunodes
      refine ⟨primed inner.tree next.offset, by rw [continued, if_pos hnext], ?_⟩
      apply Outcome.bind (Q := fun _ v => v.tokens = rest ∧ v.nodes = u.nodes) (E := E) _ _ fun _ _ h => h
      · exact skip_outcome hu fun _ v hv hvnodes => ⟨hv, hvnodes⟩
      · rintro _ v ⟨hv, hvnodes⟩
        apply Outcome.bind (recordNode_outcome next.offset)
        · rintro _ w ⟨hw, hwnodes, hwlimit⟩
          exact ⟨rfl, hw.trans hv, by simp only [nodes]; omega, hnesting, by omega⟩
        · rintro e w ⟨he, hmany⟩
          exact hexceeds e w he (by omega)
    · rintro f u ⟨rfl, hu⟩
      exact hloop k u (by omega) ⟨rfl, hu⟩

theorem continued_conditional {nested : Nat → ParserM BooleanFunction} {function : BooleanFunction}
    {next : SpannedToken} (hnext : next.token = .question) (hminimum : minimum ≤ 1) :
    continued nested minimum function next = some (conditional nested function next.offset) := by
  rw [continued, if_neg (by rw [hnext]; decide), if_pos hnext, if_neg (by omega)]

theorem reads_cond (hc : Reads condition) (ht : Reads whenTrue) (hf : Reads whenFalse)
    (hcondition : 1 < (condition.binding Operator.powers).2) (hfalse : 1 ≤ (whenFalse.binding Operator.powers).1) :
    Reads (cond condition whenTrue whenFalse) := by
  intro fuel minimum depth s rest Q E hminimum hfuel hs hstops hexceeds hloop
  simp only [Syntax.tokens, List.length_append, List.length_cons] at hfuel
  simp only [Syntax.tokens, List.append_assoc, List.cons_append] at hs
  simp only [Exceeds, nesting, nodes] at hexceeds
  have hbinding : 1 ≤ (condition.binding Operator.powers).1 := le_binding hcondition (by decide)
  apply hc fuel minimum depth s _ Q E (hminimum.trans hbinding)
    (by simp only [List.length_append, List.length_cons]; omega) hs (.cons_of_lt rfl hcondition)
  · exact fun e t he hinner => hexceeds e t he (by rw [Exceeds] at hinner; omega)
  · rintro k t hk ⟨_, htokens, hcount, hnesting, hlimit⟩
    simp only [List.length_append, List.length_cons] at hk
    obtain ⟨k, rfl⟩ := Nat.exists_eq_add_one_of_ne_zero (show k ≠ 0 by omega)
    apply expressionLoop_continues (R := Read s depth (cond condition whenTrue whenFalse) rest) htokens rfl hminimum
    · intro next u hnext hu hunodes
      refine ⟨_, continued_conditional hnext hminimum, ?_⟩
      apply Outcome.bind (Q := fun _ v => v.tokens = whenTrue.tokens ++ .colon :: (whenFalse.tokens ++ rest) ∧
        v.nodes = u.nodes) (E := E) _ _ fun _ _ h => h
      · exact skip_outcome hu fun _ v hv hvnodes => ⟨hv, hvnodes⟩
      rintro _ v ⟨hv, hvnodes⟩
      have hfirst : Outcome v (expression k 0 (depth + 1))
          (Read v (depth + 1) whenTrue (.colon :: (whenFalse.tokens ++ rest)))
            fun e _ => e.IsLimit ∧ Exceeds v (depth + 1) whenTrue := by
        apply ht.nested (Nat.zero_le _) _ hv (.cons_of_none rfl)
        simp only [List.length_append, List.length_cons]
        omega
      apply Outcome.bind hfirst
      · rintro _ w ⟨rfl, hw, hwnodes, hwnesting, -⟩
        apply Outcome.bind (expectToken_outcome (E := E) hw) _ fun _ _ h => h
        rintro _ x ⟨hx, hxnodes⟩
        have hsecond : Outcome x (expression k 1 (depth + 1)) (Read x (depth + 1) whenFalse rest)
            fun e _ => e.IsLimit ∧ Exceeds x (depth + 1) whenFalse := hf.nested hfalse (by omega) hx hstops
        apply Outcome.bind hsecond
        · rintro _ y ⟨rfl, hy, hynodes, hynesting, -⟩
          apply Outcome.bind (recordNode_outcome next.offset)
          · rintro _ z ⟨hz, hznodes, hzlimit⟩
            exact ⟨rfl, hz.trans hy, by simp only [nodes]; omega, by simp only [nesting]; omega, by omega⟩
          · rintro e z ⟨he, hmany⟩
            exact hexceeds e z he (by omega)
        · rintro e y ⟨he, hsecond⟩
          exact hexceeds e y he (by rw [Exceeds] at hsecond; omega)
      · rintro e w ⟨he, hfirst⟩
        exact hexceeds e w he (by rw [Exceeds] at hfirst; omega)
    · rintro f u ⟨rfl, hu⟩
      exact hloop k u (by omega) ⟨rfl, hu⟩

theorem continued_combined {nested : Nat → ParserM BooleanFunction} {function : BooleanFunction}
    {next : SpannedToken} {operator : Operator} (hnext : next.token.operator = some operator)
    (hminimum : minimum ≤ operator.powers.1) :
    continued nested minimum function next = some (combined nested function operator next) := by
  have hprime : next.token ≠ .apostrophe := fun h => by rw [h] at hnext; cases hnext
  have hquestion : next.token ≠ .question := fun h => by rw [h] at hnext; cases hnext
  rw [continued, if_neg hprime, if_neg hquestion, hnext]
  exact if_neg (Nat.not_lt.mpr hminimum)

/-- The first token of a connective and its right operand, which the loop looks at. -/
theorem connective_head (connective : Connective) (right : Syntax) :
    ∃ token tail, connective.tokens ++ right.tokens = token :: tail ∧ token.operator = some connective.operator ∧
      token.power = some connective.operator.powers.1 ∧
        (token = connective.operator.token → connective.tokens = [token]) ∧
          (token ≠ connective.operator.token → connective.tokens = []) := by
  cases connective with
  | written operator =>
    exact ⟨_, _, rfl, operator.operator_token, operator.power_token, fun _ => rfl, fun h => absurd rfl h⟩
  | beside =>
    obtain ⟨token, tail, htokens, hstarts⟩ := startsExpression_head right
    refine ⟨token, tail, htokens, Token.operator_of_starts hstarts, Token.power_of_starts hstarts, ?_, fun _ => rfl⟩
    intro h
    rw [h] at hstarts
    cases hstarts

theorem reads_binary {connective : Connective} (hl : Reads left) (hr : Reads right)
    (hleft : connective.operator.powers.1 < (left.binding Operator.powers).2)
    (hbinding : connective.operator.powers.2 ≤ (right.binding Operator.powers).1) :
    Reads (binary connective left right) := by
  intro fuel minimum depth s rest Q E hminimum hfuel hs hstops hexceeds hloop
  obtain ⟨token, tail, hhead, hoperator, hpower, hwritten, hbeside⟩ := connective_head connective right
  have hlength : (connective.tokens ++ right.tokens).length = tail.length + 1 := by rw [hhead, List.length_cons]
  simp only [Syntax.tokens, List.length_append] at hfuel hlength
  simp only [Syntax.tokens, List.append_assoc] at hs
  rw [← List.append_assoc connective.tokens, hhead, List.cons_append] at hs
  simp only [Exceeds, nesting, nodes] at hexceeds
  have hlow : minimum ≤ connective.operator.powers.1 := hminimum
  have heleven : connective.operator.powers.1 ≤ 11 := token.power_le hpower
  apply hl fuel minimum depth s _ Q E (hlow.trans (le_binding hleft heleven))
    (by simp only [List.length_append, List.length_cons]; omega) hs (.cons_of_lt hpower hleft)
  · exact fun e t he hinner => hexceeds e t he (by rw [Exceeds] at hinner; omega)
  · rintro k t hk ⟨_, htokens, hcount, hnesting, hlimit⟩
    simp only [List.length_append, List.length_cons] at hk
    obtain ⟨k, rfl⟩ := Nat.exists_eq_add_one_of_ne_zero (show k ≠ 0 by omega)
    apply expressionLoop_continues (R := Read s depth (binary connective left right) rest) htokens hpower hlow
    · intro next u hnext hu hunodes
      refine ⟨_, continued_combined (hnext ▸ hoperator) hlow, ?_⟩
      apply Outcome.bind (Q := fun _ v => v.tokens = right.tokens ++ rest ∧ v.nodes = u.nodes) (E := E) _ _
        fun _ _ h => h
      · rw [skipOperator, hnext]
        rw [← List.cons_append, ← hhead] at hu
        split_ifs with hsame
        · rw [hwritten hsame] at hu
          apply Outcome.bind (Q := fun _ v => v.tokens = right.tokens ++ rest ∧ v.nodes = u.nodes) (E := E) _
            (fun _ _ h => .pure h) fun _ _ h => h
          exact skip_outcome hu fun _ v hv hvnodes => ⟨hv, hvnodes⟩
        · rw [hbeside hsame] at hu
          exact ⟨hu, rfl⟩
      rintro _ v ⟨hv, hvnodes⟩
      have hnested : Outcome v (expression k connective.operator.powers.2 (depth + 1)) (Read v (depth + 1) right rest)
          fun e _ => e.IsLimit ∧ Exceeds v (depth + 1) right := hr.nested hbinding (by omega) hv hstops
      apply Outcome.bind hnested
      · rintro _ w ⟨rfl, hw, hwnodes, hwnesting, -⟩
        apply Outcome.bind (recordNode_outcome next.offset)
        · rintro _ x ⟨hx, hxnodes, hxlimit⟩
          exact ⟨rfl, hx.trans hw, by simp only [nodes]; omega, by simp only [nesting]; omega, by omega⟩
        · rintro e x ⟨he, hmany⟩
          exact hexceeds e x he (by omega)
      · rintro e w ⟨he, hnested⟩
        exact hexceeds e w he (by rw [Exceeds] at hnested; omega)
    · rintro f u ⟨rfl, hu⟩
      exact hloop k u (by omega) ⟨rfl, hu⟩

/-- Every grouped tree is read. -/
theorem reads (c : Syntax) (h : c.Grouped Operator.powers) : Reads c := by
  induction c with
  | name n => exact reads_atom (.name n) rfl rfl rfl fun _ _ hnext => by rw [operand, hnext]; rfl
  | const value => exact reads_atom (.const value) rfl rfl rfl fun _ _ hnext => by rw [operand, hnext]; rfl
  | paren inner ih => exact reads_paren (ih h)
  | not argument ih => exact reads_not (ih h.1) h.2
  | prime argument ih => exact reads_prime (ih h.1) h.2
  | binary connective left right hleft hright =>
    obtain ⟨hl, hr, hlow, hhigh⟩ := h
    exact reads_binary (hleft hl) (hright hr) hlow hhigh
  | cond condition whenTrue whenFalse hcondition htrue hfalse =>
    obtain ⟨hc, ht, hf, hlow⟩ := h
    exact reads_cond (hcondition hc) (htrue ht) (hfalse hf) hlow (whenFalse.binding_pos)

end Complete

/-! Whatever is returned was read. -/

/-- From `s` the tree's tokens have been read, and the next token is not its last operand's. -/
structure Reached (s : FunctionParser) (minimum depth : Nat) (c : Syntax) (t : FunctionParser) : Prop where
  grouped : c.Grouped Operator.powers
  binding : minimum ≤ (c.binding Operator.powers).1
  tokens : s.tokens = c.tokens ++ t.tokens
  nodes : t.nodes = s.nodes + c.nodes
  nesting : depth + c.nesting ≤ MAX_NESTING
  limit : t.nodes ≤ MAX_NODES
  stops : Stops (c.binding Operator.powers).2 t.tokens

/-- A tree that nothing of the power continues. -/
def Finished (s : FunctionParser) (minimum depth : Nat) (function : BooleanFunction) (t : FunctionParser) : Prop :=
  ∃ c, Reached s minimum depth c t ∧ Stops minimum t.tokens ∧ function = c.tree

/-- A tree that was read on from a state. -/
def Longer (s t : FunctionParser) (minimum depth : Nat) (function : BooleanFunction) (u : FunctionParser) : Prop :=
  (∃ c, Reached s minimum depth c u ∧ function = c.tree) ∧ u.tokens.length < t.tokens.length

/-- A tree that the loop takes over once it is counted. -/
def Uncounted (s : FunctionParser) (minimum depth : Nat) (function : BooleanFunction) (t : FunctionParser) : Prop :=
  ∃ c : Syntax, function = c.tree ∧ c.Grouped Operator.powers ∧ minimum ≤ (c.binding Operator.powers).1 ∧
    s.tokens = c.tokens ++ t.tokens ∧ t.nodes + 1 = s.nodes + c.nodes ∧ depth + c.nesting ≤ MAX_NESTING ∧
      Stops (c.binding Operator.powers).2 t.tokens

section Sound

variable {s t : FunctionParser} {c : Syntax} {fuel minimum depth : Nat} {next : SpannedToken} {rest : List Token}
  {nested : Nat → ParserM BooleanFunction}

/-- What the calls for operands establish with fuel for the tokens. -/
def Nests (fuel : Nat) (nested : Nat → ParserM BooleanFunction) (depth : Nat) : Prop :=
  ∀ (s : FunctionParser) (minimum : Nat), minimum ≤ 11 → 2 * s.tokens.length < fuel →
    Outcome s (nested minimum) (Finished s minimum depth) fun e _ => e ≠ .fuel

theorem Uncounted.counted {function : BooleanFunction} {u : FunctionParser}
    (h : Uncounted s minimum depth function t) (hshorter : t.tokens.length < u.tokens.length) {offset : Nat} :
    Outcome t (recordNode offset) (fun _ v => Longer s u minimum depth function v) fun e _ => e ≠ .fuel := by
  obtain ⟨c, hfunction, hgrouped, hbinding, htokens, hnodes, hnesting, hstops⟩ := h
  apply (recordNode_outcome offset).mono
  · rintro _ v ⟨hv, hvnodes, hlimit⟩
    refine ⟨⟨c, ⟨hgrouped, hbinding, hv ▸ htokens, by omega, hnesting, by omega, hv ▸ hstops⟩, hfunction⟩, ?_⟩
    rwa [hv]
  · exact fun e _ ⟨he, _⟩ => he.ne_fuel

theorem operand_sound (hnested : Nests fuel nested (depth + 1)) (hminimum : minimum ≤ 11)
    (hdepth : depth ≤ MAX_NESTING) (hfuel : 2 * t.tokens.length < fuel) (hs : s.tokens = next.token :: t.tokens)
    (hnodes : t.nodes = s.nodes) :
    Outcome t (operand nested next) (Uncounted s minimum depth) fun e _ => e ≠ .fuel := by
  rw [operand]
  cases hnext : next.token with
  | name n => exact ⟨.name n, rfl, trivial, hminimum, by rw [hs, hnext]; rfl, by rw [hnodes]; rfl, hdepth,
    stops_twelve _⟩
  | const value => exact ⟨.const value, rfl, trivial, hminimum, by rw [hs, hnext]; rfl, by rw [hnodes]; rfl, hdepth,
    stops_twelve _⟩
  | not =>
    apply Outcome.bind (hnested t 11 le_rfl hfuel) _ fun _ _ h => h
    rintro _ u ⟨c, hc, hstops, rfl⟩
    refine ⟨c.not, rfl, ⟨hc.grouped, hc.binding⟩, hminimum, ?_, ?_, ?_, hstops⟩
    · rw [hs, hnext, hc.tokens, Syntax.tokens, List.cons_append]
    · rw [hc.nodes, hnodes, Syntax.nodes]
      rfl
    · have hnesting := hc.nesting
      rw [nesting]
      omega
  | leftParen =>
    apply Outcome.bind (hnested t 0 (Nat.zero_le _) hfuel) _ fun _ _ h => h
    rintro _ u ⟨c, hc, hstops, rfl⟩
    apply Outcome.bind (expectToken_inv .rightParen) _ fun _ _ h => h
    rintro _ v ⟨hu, hv⟩
    refine ⟨c.paren, rfl, hc.grouped, hminimum, ?_, ?_, ?_, stops_twelve _⟩
    · rw [hs, hnext, hc.tokens, hu, Syntax.tokens, List.cons_append, List.append_assoc]
      rfl
    · rw [hv, hc.nodes, hnodes, Syntax.nodes]
      rfl
    · have hnesting := hc.nesting
      rw [nesting]
      omega
  | _ => exact fun h => by cases h

theorem primed_sound {u : FunctionParser} (hc : Reached s minimum depth c t) (hlimit : minimum ≤ 11)
    (ht : t.tokens = .apostrophe :: rest) (hu : u.tokens = t.tokens) (hnodes : u.nodes = t.nodes) :
    Outcome u (primed c.tree next.offset) (Longer s t minimum depth) fun e _ => e ≠ .fuel := by
  have hlow : 11 < (c.binding Operator.powers).2 := hc.stops _ (by rw [ht, List.head?_cons]) 11 rfl
  apply Outcome.bind (Q := fun _ v => v.tokens = rest ∧ v.nodes = t.nodes) (E := fun e _ => e ≠ Stop.fuel) _ _ fun _ _ h => h
  · exact skip_outcome (hu.trans ht) fun _ v hv hvnodes => ⟨hv, hvnodes.trans hnodes⟩
  · rintro _ v ⟨hv, hvnodes⟩
    have hprime : Uncounted s minimum depth c.prime.tree v := by
      refine ⟨c.prime, rfl, ⟨hc.grouped, hlow⟩, hlimit, ?_, ?_, hc.nesting, stops_twelve _⟩
      · rw [hc.tokens, ht, hv, Syntax.tokens, List.append_assoc]
        rfl
      · rw [hvnodes, hc.nodes, Syntax.nodes, Nat.add_assoc]
    have hshorter : v.tokens.length < t.tokens.length := by rw [hv, ht, List.length_cons]; omega
    exact Outcome.bind (hprime.counted hshorter) (fun _ w hw => .pure hw) fun _ _ h => h

theorem conditional_sound {u : FunctionParser} (hnested : Nests fuel nested (depth + 1))
    (hc : Reached s minimum depth c t) (hfuel : 2 * t.tokens.length < fuel) (hminimum : minimum ≤ 1)
    (ht : t.tokens = .question :: rest) (hu : u.tokens = t.tokens) (hnodes : u.nodes = t.nodes) :
    Outcome u (conditional nested c.tree next.offset) (Longer s t minimum depth) fun e _ => e ≠ .fuel := by
  have hlow : 1 < (c.binding Operator.powers).2 := hc.stops _ (by rw [ht, List.head?_cons]) 1 rfl
  apply Outcome.bind (Q := fun _ v => v.tokens = rest ∧ v.nodes = t.nodes) (E := fun e _ => e ≠ Stop.fuel) _ _ fun _ _ h => h
  · exact skip_outcome (hu.trans ht) fun _ v hv hvnodes => ⟨hv, hvnodes.trans hnodes⟩
  rintro _ v ⟨hv, hvnodes⟩
  have hvlength : t.tokens.length = v.tokens.length + 1 := by rw [ht, hv, List.length_cons]
  apply Outcome.bind (hnested v 0 (Nat.zero_le _) (by omega)) _ fun _ _ h => h
  rintro _ w ⟨whenTrue, htrue, -, rfl⟩
  apply Outcome.bind (expectToken_inv .colon) _ fun _ _ h => h
  rintro _ x ⟨hw, hx⟩
  have hxlength : v.tokens.length = whenTrue.tokens.length + (x.tokens.length + 1) := by
    rw [htrue.tokens, hw, List.length_append, List.length_cons]
  apply Outcome.bind (hnested x 1 (by decide) (by omega)) _ fun _ _ h => h
  rintro _ y ⟨whenFalse, hfalse, hstops, rfl⟩
  have hylength : x.tokens.length = whenFalse.tokens.length + y.tokens.length := by
    rw [hfalse.tokens, List.length_append]
  have hcond : Uncounted s minimum depth (cond c whenTrue whenFalse).tree y := by
    refine ⟨cond c whenTrue whenFalse, rfl, ⟨hc.grouped, htrue.grouped, hfalse.grouped, hlow⟩, hminimum, ?_, ?_, ?_, hstops⟩
    · rw [hc.tokens, ht, ← hv, htrue.tokens, hw, hfalse.tokens, Syntax.tokens]
      simp only [List.append_assoc, List.cons_append]
    · rw [hfalse.nodes, hx, htrue.nodes, hvnodes, hc.nodes, Syntax.nodes]
      omega
    · have hfirst := hc.nesting
      have hsecond := htrue.nesting
      have hthird := hfalse.nesting
      rw [nesting]
      omega
  exact Outcome.bind (hcond.counted (by omega)) (fun _ z hz => .pure hz) fun _ _ h => h

/-- The connective that a token stands for. -/
theorem exists_connective {token : Token} {operator : Operator} (h : token.operator = some operator) :
    ∃ connective : Connective, connective.operator = operator ∧
      (token = operator.token → connective.tokens = [token]) ∧ (token ≠ operator.token → connective.tokens = []) := by
  by_cases htoken : token = operator.token
  · exact ⟨.written operator, rfl, fun _ => by rw [htoken]; rfl, fun hne => absurd htoken hne⟩
  · refine ⟨.beside, ?_, fun h => absurd h htoken, fun _ => rfl⟩
    cases token <;> cases h <;> first | rfl | exact absurd rfl htoken

theorem Token.power_of_operator {token : Token} {operator : Operator} (h : token.operator = some operator) :
    token.power = some operator.powers.1 := by
  cases token <;> cases h <;> rfl

theorem combined_sound {u : FunctionParser} {operator : Operator} (hnested : Nests fuel nested (depth + 1))
    (hc : Reached s minimum depth c t) (hfuel : 2 * t.tokens.length < fuel)
    (hoperator : next.token.operator = some operator) (hminimum : minimum ≤ operator.powers.1)
    (ht : t.tokens = next.token :: rest) (hu : u.tokens = t.tokens) (hnodes : u.nodes = t.nodes) :
    Outcome u (combined nested c.tree operator next) (Longer s t minimum depth) fun e _ => e ≠ .fuel := by
  obtain ⟨connective, rfl, hwritten, hbeside⟩ := exists_connective hoperator
  have hlow : connective.operator.powers.1 < (c.binding Operator.powers).2 :=
    hc.stops _ (by rw [ht, List.head?_cons]) _ (Token.power_of_operator hoperator)
  apply Outcome.bind (Q := fun _ v => t.tokens = connective.tokens ++ v.tokens ∧ v.nodes = t.nodes)
    (E := fun e _ => e ≠ Stop.fuel) _ _ fun _ _ h => h
  · rw [skipOperator]
    split_ifs with hsame
    · apply Outcome.bind (Q := fun _ v => t.tokens = connective.tokens ++ v.tokens ∧ v.nodes = t.nodes)
        (E := fun e _ => e ≠ Stop.fuel) _ (fun _ _ h => .pure h) fun _ _ h => h
      refine skip_outcome (hu.trans ht) fun _ v hv hvnodes => ⟨?_, hvnodes.trans hnodes⟩
      rw [hwritten hsame, ht, hv]
      rfl
    · rw [hbeside hsame]
      exact ⟨hu.symm, hnodes⟩
  rintro _ v ⟨hv, hvnodes⟩
  have hhigh : connective.operator.powers.2 ≤ 11 := by cases connective.operator <;> decide
  have hvlength : t.tokens.length = connective.tokens.length + v.tokens.length := by rw [hv, List.length_append]
  apply Outcome.bind (hnested v connective.operator.powers.2 hhigh (by omega)) _ fun _ _ h => h
  rintro _ w ⟨right, hright, hstops, rfl⟩
  have hwlength : v.tokens.length = right.tokens.length + w.tokens.length := by
    rw [hright.tokens, List.length_append]
  have hpos := right.tokens_length_pos
  have hbinary : Uncounted s minimum depth (binary connective c right).tree w := by
    refine ⟨binary connective c right, rfl, ⟨hc.grouped, hright.grouped, hlow, hright.binding⟩, hminimum, ?_, ?_, ?_, hstops⟩
    · rw [hc.tokens, hv, hright.tokens, Syntax.tokens]
      simp only [List.append_assoc]
    · rw [hright.nodes, hvnodes, hc.nodes, Syntax.nodes]
      omega
    · have hfirst := hc.nesting
      have hsecond := hright.nesting
      rw [nesting]
      omega
  exact Outcome.bind (hbinary.counted (by omega)) (fun _ x hx => .pure hx) fun _ _ h => h

theorem continued_eq_some {function : BooleanFunction} {read : ParserM BooleanFunction}
    (h : continued nested minimum function next = some read) :
    (next.token = .apostrophe ∧ read = primed function next.offset) ∨
      (next.token = .question ∧ minimum ≤ 1 ∧ read = conditional nested function next.offset) ∨
        ∃ operator, next.token.operator = some operator ∧ minimum ≤ operator.powers.1 ∧
          read = combined nested function operator next := by
  rw [continued] at h
  split_ifs at h with hprime hquestion hminimum
  · exact .inl ⟨hprime, (Option.some_inj.mp h).symm⟩
  · exact .inr (.inl ⟨hquestion, Nat.le_of_not_lt hminimum, (Option.some_inj.mp h).symm⟩)
  · cases hoperator : next.token.operator with
    | none => rw [hoperator] at h; cases h
    | some operator =>
      rw [hoperator] at h
      dsimp only at h
      split_ifs at h with hlow
      exact .inr (.inr ⟨operator, rfl, Nat.le_of_not_lt hlow, (Option.some_inj.mp h).symm⟩)

/-- The parser finds a tree or an error of the source. -/
theorem sound (fuel : Nat) :
    (∀ depth, Nests fuel (expression fuel · depth) depth) ∧
      ∀ (s t : FunctionParser) (minimum depth : Nat) (c : Syntax), minimum ≤ 11 → 2 * t.tokens.length + 1 < fuel →
        Reached s minimum depth c t →
          Outcome t (expressionLoop fuel minimum depth c.tree) (Finished s minimum depth) fun e _ => e ≠ .fuel := by
  induction fuel with
  | zero => exact ⟨fun _ _ _ _ h => absurd h (Nat.not_lt_zero _), fun _ _ _ _ _ _ h => absurd h (Nat.not_lt_zero _)⟩
  | succ fuel ih =>
    obtain ⟨hexpression, hloop⟩ := ih
    constructor
    · intro depth s minimum hminimum hfuel
      apply expression_outcome (R := Uncounted s minimum depth)
      · exact fun _ _ he _ => he.ne_fuel
      · exact fun _ _ h => by cases h
      · intro hdepth next t hs hnodes
        rw [hs, List.length_cons] at hfuel
        exact operand_sound (hexpression (depth + 1)) hminimum hdepth (by omega) hs hnodes
      · exact fun _ _ _ _ _ _ he => he.ne_fuel
      · rintro hdepth left t ⟨c, rfl, hgrouped, hbinding, htokens, hnodes, hnesting, hstops⟩ hlimit u hu hunodes
        have hpos := c.tokens_length_pos
        rw [htokens, List.length_append] at hfuel
        exact hloop s u minimum depth c hminimum (by rw [hu]; omega)
          ⟨hgrouped, hbinding, hu ▸ htokens, by omega, hnesting, by omega, hu ▸ hstops⟩
    · intro s t minimum depth c hminimum hfuel hc
      apply expressionLoop_outcome (R := Longer s t minimum depth) hminimum
      · intro u hu hnodes hstops
        exact ⟨c, ⟨hc.grouped, hc.binding, hu ▸ hc.tokens, hnodes ▸ hc.nodes, hc.nesting, hnodes ▸ hc.limit,
          hu ▸ hc.stops⟩, hu ▸ hstops, rfl⟩
      · intro next u read hfirst hu hnodes hcontinued
        rcases continued_eq_some hcontinued with ⟨hnext, rfl⟩ | ⟨hnext, hlow, rfl⟩ | ⟨operator, hoperator, hlow, rfl⟩
        · exact primed_sound hc hminimum (hnext ▸ hfirst) hu hnodes
        · exact conditional_sound (hexpression (depth + 1)) hc (by omega) hlow (hnext ▸ hfirst) hu hnodes
        · exact combined_sound (hexpression (depth + 1)) hc (by omega) hoperator hlow hfirst hu hnodes
      · rintro f u ⟨⟨c, hc, rfl⟩, hlength⟩
        exact hloop s u minimum depth c hminimum (by omega) hc

end Sound

/-! The whole text. -/

theorem parseAll_sound {fuel : Nat} {s : FunctionParser} (hfuel : 2 * s.tokens.length < fuel) :
    Outcome s (parseAll fuel) (fun f t => ∃ c, Reached s 0 0 c t ∧ t.tokens = [] ∧ f = c.tree)
      fun e _ => e ≠ .fuel := by
  apply Outcome.bind ((sound fuel).1 0 s 0 (Nat.zero_le _) hfuel) _ fun _ _ h => h
  rintro _ t ⟨c, hc, -, rfl⟩
  apply Outcome.bind (Q := fun next u => next.map (·.token) = t.tokens.head? ∧ u.tokens = t.tokens.tail ∧
    u.nodes = t.nodes) (E := fun e _ => e ≠ Stop.fuel) _ _ fun _ _ h => h
  · exact nextToken_outcome fun next u hnodes htokens hnext => ⟨hnext, htokens, hnodes⟩
  · rintro next u ⟨hnext, hu, hnodes⟩
    cases next with
    | some next => exact fun h => by cases h
    | none =>
      have hnil : t.tokens = [] := List.head?_eq_none_iff.mp hnext.symm
      rw [hnil, List.tail_nil] at hu
      rw [← hu] at hnil
      exact ⟨c, ⟨hc.grouped, hc.binding, hnil ▸ hc.tokens, hnodes ▸ hc.nodes, hc.nesting, hnodes ▸ hc.limit,
        hnil ▸ hc.stops⟩, hu, rfl⟩

theorem parseAll_complete {fuel : Nat} {s : FunctionParser} {c : Syntax} (hfuel : 2 * s.tokens.length < fuel)
    (hgrouped : c.Grouped Operator.powers) (hs : s.tokens = c.tokens) :
    Outcome s (parseAll fuel) (Read s 0 c []) fun e _ => e.IsLimit ∧ Exceeds s 0 c := by
  rw [hs] at hfuel
  have hread : Outcome s (expression fuel 0 0) (Read s 0 c []) fun e _ => e.IsLimit ∧ Exceeds s 0 c :=
    (reads c hgrouped).nested (Nat.zero_le _) (by simpa using hfuel) (by rw [hs, List.append_nil]) .nil
  apply Outcome.bind hread _ fun _ _ h => h
  rintro _ t ⟨rfl, htokens, ht⟩
  apply Outcome.bind (Q := fun next u => next = none ∧ u.tokens = [] ∧ u.nodes = t.nodes)
    (E := fun (e : Stop) _ => e.IsLimit ∧ Exceeds s 0 c) _ _ fun _ _ h => h
  · apply nextToken_outcome
    intro next u hnodes hu hnext
    rw [htokens] at hu hnext
    exact ⟨Option.map_eq_none_iff.mp hnext, hu, hnodes⟩
  · rintro _ u ⟨rfl, hu, hnodes⟩
    exact ⟨rfl, hu, hnodes ▸ ht⟩

namespace BooleanFunction

variable {text : List Char} {function : BooleanFunction} {c : Syntax}

theorem fuel_suffices (text : List Char) : 2 * (FunctionParser.new text).tokens.length < 2 * text.length + 2 := by
  have hlength := tokensOf_length text
  rw [FunctionParser.tokens_new]
  omega

theorem parse_ne_fuel (text : List Char) : parse text ≠ .error .fuel := by
  have hsound := parseAll_sound (fuel_suffices text)
  rw [parse]
  cases hrun : (parseAll (2 * text.length + 2)).run (.new text) with
  | ok function t => exact fun h => by cases h
  | error e t => exact fun h => hsound.error hrun (Except.error.inj h)

theorem parse_of_grouped (hgrouped : c.Grouped Operator.powers) (htokens : c.tokens = tokensOf text) :
    if c.WithinLimits then parse text = .ok c.tree else ∃ e, parse text = .error e ∧ e.IsLimit := by
  have hcomplete := parseAll_complete (fuel_suffices text) hgrouped htokens.symm
  cases hrun : (parseAll (2 * text.length + 2)).run (.new text) with
  | ok function t =>
    obtain ⟨rfl, -, hnodes, hnesting, hlimit⟩ := hcomplete.ok hrun
    have hcount : t.nodes = c.nodes := hnodes.trans (Nat.zero_add _)
    rw [Nat.zero_add] at hnesting
    rw [if_pos ⟨hnesting, hcount ▸ hlimit⟩, parse, hrun]
  | error e t =>
    obtain ⟨he, hexceeds⟩ := hcomplete.error hrun
    rw [Exceeds, Nat.zero_add] at hexceeds
    rw [if_neg fun h => hexceeds ⟨h.1, (Nat.zero_add c.nodes).symm ▸ h.2⟩]
    exact ⟨e, by rw [parse, hrun], he⟩

/-- A text is accepted with the trees of its readings within the limits. -/
theorem parse_eq_ok : parse text = .ok function ↔
    ∃ c : Syntax, c.Grouped Operator.powers ∧ c.tokens = tokensOf text ∧ c.WithinLimits ∧ c.tree = function := by
  constructor
  · intro h
    have hsound := parseAll_sound (fuel_suffices text)
    rw [parse] at h
    cases hrun : (parseAll (2 * text.length + 2)).run (.new text) with
    | error e t => rw [hrun] at h; cases h
    | ok f t =>
      rw [hrun] at h
      obtain ⟨c, hc, hnil, hf⟩ := hsound.ok hrun
      have htokens := hc.tokens
      have hnesting := hc.nesting
      have hnodes : t.nodes = c.nodes := hc.nodes.trans (Nat.zero_add _)
      rw [hnil, List.append_nil] at htokens
      rw [Nat.zero_add] at hnesting
      exact ⟨c, hc.grouped, htokens.symm, ⟨hnesting, hnodes ▸ hc.limit⟩, hf.symm.trans (Except.ok.inj h)⟩
  · rintro ⟨c, hgrouped, htokens, hlimits, rfl⟩
    have hparse := parse_of_grouped hgrouped htokens
    rwa [if_pos hlimits] at hparse

end BooleanFunction

end Opto.Liberty
