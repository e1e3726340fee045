import Mathlib.Algebra.Ring.Int.Defs
import Opto.Liberty.Syntax

/-!
# Tokens and tree determine the syntax

Two readings of the same tokens may group them differently. If they also have the same tree, they
are the same: the left operands of both have equally many names and inversions, and neither can
reach beyond the other.
-/

namespace Opto.Liberty

def Token.isLeaf : Token → Bool
  | .name _ | .const _ => true
  | _ => false

def Token.isInversion : Token → Bool
  | .not | .apostrophe => true
  | _ => false

/-- How a token changes the depth of parentheses. -/
def Token.turn : Token → Int
  | .leftParen => 1
  | .rightParen => -1
  | _ => 0

def turns (tokens : List Token) : Int := (tokens.map Token.turn).sum

theorem turns_append (first second : List Token) : turns (first ++ second) = turns first + turns second := by
  rw [turns, List.map_append, List.sum_append]
  rfl

theorem turns_cons (token : Token) (tokens : List Token) : turns (token :: tokens) = token.turn + turns tokens := rfl

namespace BooleanFunction

def leaves : BooleanFunction → Nat
  | const _ | pin _ => 1
  | not argument => argument.leaves
  | and left right | or left right | xor left right | imp left right | iff left right => left.leaves + right.leaves
  | cond condition whenTrue whenFalse => condition.leaves + whenTrue.leaves + whenFalse.leaves

def inversions : BooleanFunction → Nat
  | const _ | pin _ => 0
  | not argument => argument.inversions + 1
  | and left right | or left right | xor left right | imp left right | iff left right =>
    left.inversions + right.inversions
  | cond condition whenTrue whenFalse => condition.inversions + whenTrue.inversions + whenFalse.inversions

def isBinary : BooleanFunction → Bool
  | and _ _ | or _ _ | xor _ _ | imp _ _ | iff _ _ => true
  | _ => false

end BooleanFunction

namespace Operator

variable {operator operator' : Operator} {left right left' right' : BooleanFunction}

theorem leaves_combine : (operator.combine left right).leaves = left.leaves + right.leaves := by
  cases operator <;> rfl

theorem inversions_combine : (operator.combine left right).inversions = left.inversions + right.inversions := by
  cases operator <;> rfl

theorem combine_inj (h : operator.combine left right = operator'.combine left' right') :
    operator = operator' ∧ left = left' ∧ right = right' := by
  cases operator <;> cases operator' <;> cases h <;> exact ⟨rfl, rfl, rfl⟩

theorem combine_ne {function : BooleanFunction} (h : function.isBinary = false) :
    operator.combine left right ≠ function := by
  rintro rfl
  cases operator <;> cases h

theorem token_not_leaf (operator : Operator) : operator.token.isLeaf = false := by
  cases operator <;> rfl

theorem token_not_inversion (operator : Operator) : operator.token.isInversion = false := by
  cases operator <;> rfl

theorem token_turn (operator : Operator) : operator.token.turn = 0 := by
  cases operator <;> rfl

end Operator

namespace Connective

variable (connective : Connective)

theorem countP_leaf : connective.tokens.countP Token.isLeaf = 0 := by
  cases connective <;> simp [tokens, Operator.token_not_leaf]

theorem countP_inversion : connective.tokens.countP Token.isInversion = 0 := by
  cases connective <;> simp [tokens, Operator.token_not_inversion]

theorem turns_tokens : turns connective.tokens = 0 := by
  cases connective <;> simp [tokens, turns, Operator.token_turn]

end Connective

namespace Syntax

variable {c d left right inner : Syntax} {first second : List Token}

theorem countP_leaf (c : Syntax) : c.tokens.countP Token.isLeaf = c.tree.leaves := by
  induction c with
  | name n => rfl
  | const value => rfl
  | paren inner ih =>
    rw [tokens, List.countP_cons_of_neg Bool.false_ne_true, List.countP_append, ih]
    rfl
  | not argument ih => rwa [tokens, List.countP_cons_of_neg Bool.false_ne_true]
  | prime argument ih =>
    rw [tokens, List.countP_append, ih]
    rfl
  | binary connective left right hleft hright =>
    rw [tokens, List.countP_append, List.countP_append, hleft, hright, connective.countP_leaf, tree,
      Operator.leaves_combine, Nat.zero_add]
  | cond condition whenTrue whenFalse hcondition htrue hfalse =>
    rw [tokens, List.countP_append, List.countP_cons_of_neg Bool.false_ne_true, List.countP_append,
      List.countP_cons_of_neg Bool.false_ne_true, hcondition, htrue, hfalse, ← Nat.add_assoc]
    rfl

theorem countP_inversion (c : Syntax) : c.tokens.countP Token.isInversion = c.tree.inversions := by
  induction c with
  | name n => rfl
  | const value => rfl
  | paren inner ih =>
    rw [tokens, List.countP_cons_of_neg Bool.false_ne_true, List.countP_append, ih]
    rfl
  | not argument ih =>
    rw [tokens, List.countP_cons_of_pos rfl, ih]
    rfl
  | prime argument ih =>
    rw [tokens, List.countP_append, ih]
    rfl
  | binary connective left right hleft hright =>
    rw [tokens, List.countP_append, List.countP_append, hleft, hright, connective.countP_inversion, tree,
      Operator.inversions_combine, Nat.zero_add]
  | cond condition whenTrue whenFalse hcondition htrue hfalse =>
    rw [tokens, List.countP_append, List.countP_cons_of_neg Bool.false_ne_true, List.countP_append,
      List.countP_cons_of_neg Bool.false_ne_true, hcondition, htrue, hfalse, ← Nat.add_assoc]
    rfl

theorem leaves_pos (c : Syntax) : 0 < c.tree.leaves := by
  induction c with
  | binary connective left right hleft hright =>
    rw [tree, Operator.leaves_combine]
    omega
  | cond condition whenTrue whenFalse hcondition =>
    rw [tree, BooleanFunction.leaves]
    omega
  | name n => exact Nat.one_pos
  | const value => exact Nat.one_pos
  | paren inner ih => exact ih
  | not argument ih => exact ih
  | prime argument ih => exact ih

/-! Parentheses are balanced. -/

/-- The depth stays nonnegative and comes back to zero. -/
def Balanced (tokens : List Token) : Prop :=
  turns tokens = 0 ∧ ∀ first second, tokens = first ++ second → 0 ≤ turns first

theorem Balanced.append {tokens tokens' : List Token} (h : Balanced tokens) (h' : Balanced tokens') :
    Balanced (tokens ++ tokens') := by
  refine ⟨by rw [turns_append, h.1, h'.1, Int.add_zero], fun first second heq => ?_⟩
  rcases List.append_eq_append_iff.mp heq with ⟨middle, rfl, hsecond⟩ | ⟨middle, hfirst, -⟩
  · rw [turns_append, h.1, Int.zero_add]
    exact h'.2 _ _ hsecond
  · exact h.2 _ _ hfirst

theorem Balanced.single {token : Token} (h : token.turn = 0) : Balanced [token] := by
  refine ⟨by rw [turns_cons, h]; rfl, fun first second heq => ?_⟩
  rcases List.append_eq_singleton_iff.mp heq.symm with ⟨rfl, -⟩ | ⟨rfl, -⟩
  · exact Int.le_refl _
  · rw [turns_cons, h]
    exact Int.le_refl _

theorem Balanced.cons {token : Token} {tokens : List Token} (h : token.turn = 0) (htokens : Balanced tokens) :
    Balanced (token :: tokens) := Balanced.append (.single h) htokens

theorem Balanced.nil : Balanced [] := by
  refine ⟨rfl, fun first second heq => ?_⟩
  rw [(List.append_eq_nil_iff.mp heq.symm).1]
  exact Int.le_refl _

theorem balanced_connective (connective : Connective) : Balanced connective.tokens := by
  cases connective with
  | written operator => exact .single operator.token_turn
  | beside => exact .nil

/-- Inside parentheses the depth is positive. -/
theorem Balanced.paren_pos {tokens : List Token} (h : Balanced tokens)
    (heq : .leftParen :: (tokens ++ [.rightParen]) = first ++ second) (hfirst : first ≠ []) (hsecond : second ≠ []) :
    1 ≤ turns first := by
  obtain ⟨token, first, rfl⟩ := List.exists_cons_of_ne_nil hfirst
  obtain ⟨second, last, rfl⟩ := (List.eq_nil_or_concat second).resolve_left hsecond
  rw [List.concat_eq_append, ← List.append_assoc, List.cons_append] at heq
  obtain ⟨rfl, htail⟩ := List.cons_eq_cons.mp heq
  obtain ⟨rfl, -⟩ := List.append_inj' htail rfl
  rw [turns_cons]
  have hpos := h.2 first second rfl
  simp only [Token.turn]
  omega

theorem Balanced.paren {tokens : List Token} (h : Balanced tokens) :
    Balanced (.leftParen :: (tokens ++ [.rightParen])) := by
  constructor
  · rw [turns_cons, turns_append, h.1]
    rfl
  · intro first second heq
    rcases eq_or_ne first [] with rfl | hfirst
    · exact Int.le_refl _
    rcases eq_or_ne second [] with rfl | hsecond
    · rw [List.append_nil] at heq
      rw [← heq, turns_cons, turns_append, h.1]
      exact Int.le_refl _
    · exact Int.le_trans Int.one_nonneg (h.paren_pos heq hfirst hsecond)

theorem balanced (c : Syntax) : Balanced c.tokens := by
  induction c with
  | name n => exact .single rfl
  | const value => exact .single rfl
  | paren inner ih => exact ih.paren
  | not argument ih => exact .cons rfl ih
  | prime argument ih => exact ih.append (.single rfl)
  | binary connective left right hleft hright => exact hleft.append ((balanced_connective connective).append hright)
  | cond condition whenTrue whenFalse hcondition htrue hfalse =>
    exact hcondition.append (.cons rfl (htrue.append (.cons rfl hfalse)))

/-! What follows an operand has a name or a constant of its own. -/

/-- Tokens that may come after the last name or constant. -/
def closes : Token → Bool
  | .rightParen | .apostrophe => true
  | _ => false

/-- From every other token on, a name or a constant is still to come. -/
def Ends (tokens : List Token) : Prop :=
  ∀ first token rest, tokens = first ++ token :: rest → closes token = false →
    0 < (token :: rest).countP Token.isLeaf

theorem Ends.single {token : Token} (h : closes token = false → token.isLeaf = true) : Ends [token] := by
  intro first t rest heq ht
  obtain ⟨-, heq⟩ := (List.append_eq_singleton_iff.mp heq.symm).resolve_right fun h => by cases h.2
  obtain ⟨rfl, rfl⟩ := List.cons_eq_cons.mp heq
  rw [List.countP_cons_of_pos (h ht)]
  exact Nat.succ_pos _

theorem Ends.append {tokens tokens' : List Token} (h : Ends tokens) (h' : Ends tokens') : Ends (tokens ++ tokens') := by
  intro first token rest heq ht
  rcases List.append_eq_append_iff.mp heq with ⟨middle, rfl, hmiddle⟩ | ⟨middle, hfirst, hmiddle⟩
  · exact h' _ _ _ hmiddle ht
  · cases middle with
    | nil => exact h' [] token rest hmiddle.symm ht
    | cons t middle =>
      rw [List.cons_append] at hmiddle
      obtain ⟨rfl, rfl⟩ := List.cons_eq_cons.mp hmiddle
      have hpos := h _ _ _ hfirst ht
      rw [← List.cons_append, List.countP_append]
      omega

theorem Ends.prepend {tokens' : List Token} (tokens : List Token) (h : Ends tokens') (hpos : 0 < tokens'.countP Token.isLeaf) :
    Ends (tokens ++ tokens') := by
  intro first token rest heq ht
  rcases List.append_eq_append_iff.mp heq with ⟨middle, rfl, hmiddle⟩ | ⟨middle, hfirst, hmiddle⟩
  · exact h _ _ _ hmiddle ht
  · rw [hmiddle, List.countP_append]
    omega

theorem ends (c : Syntax) : Ends c.tokens := by
  have hpos : ∀ d : Syntax, 0 < d.tokens.countP Token.isLeaf := fun d => d.countP_leaf ▸ d.leaves_pos
  induction c with
  | name n => exact .single fun _ => rfl
  | const value => exact .single fun _ => rfl
  | paren inner ih =>
    have hclosed : Ends (inner.tokens ++ [.rightParen]) := ih.append (.single fun h => by cases h)
    apply hclosed.prepend [.leftParen]
    rw [List.countP_append]
    exact Nat.add_pos_left (hpos inner) _
  | not argument ih => exact Ends.prepend [.not] ih (hpos argument)
  | prime argument ih => exact ih.append (.single fun h => by cases h)
  | binary connective left right hleft hright => exact hleft.append (hright.prepend _ (hpos right))
  | cond condition whenTrue whenFalse hcondition htrue hfalse =>
    have hlast : Ends (.colon :: whenFalse.tokens) := hfalse.prepend [.colon] (hpos whenFalse)
    have hrest : Ends (.question :: (whenTrue.tokens ++ .colon :: whenFalse.tokens)) := by
      apply Ends.prepend [.question] (htrue.append hlast)
      rw [List.countP_append]
      exact Nat.add_pos_left (hpos whenTrue) _
    exact hcondition.append hrest

/-- Of two readings with one tree, neither has more tokens than the other. -/
theorem no_extension {extra : List Token} (htokens : c.tokens = d.tokens ++ extra) (htree : c.tree = d.tree) :
    extra = [] := by
  by_contra hextra
  obtain ⟨token, rest, rfl⟩ := List.exists_cons_of_ne_nil hextra
  have hleaves : (token :: rest).countP Token.isLeaf = 0 := by
    have hcount := congrArg (List.countP Token.isLeaf) htokens
    rw [List.countP_append, countP_leaf, countP_leaf, htree] at hcount
    omega
  have hinversions : (token :: rest).countP Token.isInversion = 0 := by
    have hcount := congrArg (List.countP Token.isInversion) htokens
    rw [List.countP_append, countP_inversion, countP_inversion, htree] at hcount
    omega
  have hprime : token ≠ .apostrophe := by
    rintro rfl
    rw [List.countP_cons_of_pos rfl] at hinversions
    cases hinversions
  have hparen : token ≠ .rightParen := by
    rintro rfl
    have hprefix := c.balanced.2 (d.tokens ++ [.rightParen]) rest (by rw [htokens, List.append_assoc]; rfl)
    rw [turns_append, d.balanced.1] at hprefix
    exact absurd hprefix (by decide)
  have hcloses : closes token = false := by
    cases token <;> first | rfl | contradiction
  exact Nat.ne_of_gt (c.ends _ _ _ htokens hcloses) hleaves

/-- Readings with one tree that begin the same tokens have the same tokens. -/
theorem tokens_eq_of_append (htokens : c.tokens ++ first = d.tokens ++ second) (htree : c.tree = d.tree) :
    c.tokens = d.tokens ∧ first = second := by
  rcases List.append_eq_append_iff.mp htokens with ⟨extra, hd, hfirst⟩ | ⟨extra, hc, hsecond⟩
  · obtain rfl := no_extension hd htree.symm
    exact ⟨(hd.trans (List.append_nil _)).symm, hfirst⟩
  · obtain rfl := no_extension hc htree
    exact ⟨hc.trans (List.append_nil _), hsecond.symm⟩

/-- A tree that a prime follows directly does not begin with an inversion. -/
theorem head_ne_not {powers : Powers} (hgrouped : c.Grouped powers) (hpowers : ∀ operator, (powers operator).2 ≤ 11)
    (hbinding : 11 < (c.binding powers).2) (rest : List Token) : c.tokens ≠ .not :: rest := by
  induction c generalizing rest with
  | name n => exact fun h => by cases h
  | const value => exact fun h => by cases h
  | paren inner => exact fun h => by cases h
  | not argument => exact absurd hbinding (Nat.lt_irrefl _)
  | prime argument ih =>
    intro h
    obtain ⟨token, tail, htail⟩ := List.exists_cons_of_ne_nil (List.ne_nil_of_length_pos argument.tokens_length_pos)
    rw [tokens, htail, List.cons_append] at h
    obtain ⟨rfl, -⟩ := List.cons_eq_cons.mp h
    exact ih hgrouped.1 hgrouped.2 tail htail
  | binary connective left right => exact absurd hbinding (Nat.not_lt.mpr (hpowers _))
  | cond condition whenTrue whenFalse => exact absurd hbinding (by simp [binding])

/-- A parenthesis that a tree begins with and that is closed at the end of another one. -/
theorem paren_ne_append {extra : List Token} (hextra : extra ≠ []) :
    (paren inner).tokens ≠ c.tokens ++ extra := by
  intro h
  have hpos := inner.balanced.paren_pos h (List.ne_nil_of_length_pos c.tokens_length_pos) hextra
  rw [c.balanced.1] at hpos
  exact absurd hpos (by decide)

theorem tokens_ne_nil (c : Syntax) : c.tokens ≠ [] := List.ne_nil_of_length_pos c.tokens_length_pos

/-- Parentheses around the whole of the tokens belong to the top of the tree. -/
theorem eq_paren (h : (paren inner).tokens = c.tokens) : ∃ d, c = paren d ∧ d.tokens = inner.tokens := by
  cases c with
  | paren d =>
    obtain ⟨hinner, -⟩ := List.append_inj' (List.cons_eq_cons.mp h).2 rfl
    exact ⟨d, rfl, hinner.symm⟩
  | name n => cases h
  | const value => cases h
  | not argument => cases h
  | prime argument => exact absurd h (paren_ne_append (List.cons_ne_nil _ _))
  | binary connective left right =>
    exact absurd h (paren_ne_append (List.append_ne_nil_of_right_ne_nil _ right.tokens_ne_nil))
  | cond condition whenTrue whenFalse => exact absurd h (paren_ne_append (List.cons_ne_nil _ _))

theorem connective_eq {connective connective' : Connective}
    (htokens : connective.tokens ++ c.tokens = connective'.tokens ++ d.tokens)
    (hoperator : connective.operator = connective'.operator) : connective = connective' ∧ c.tokens = d.tokens := by
  have hhead : ∀ (operator : Operator) (s t : Syntax), s.tokens ≠ operator.token :: t.tokens := by
    intro operator s t h
    obtain ⟨token, rest, hs, hstarts⟩ := startsExpression_head s
    rw [hs] at h
    rw [(List.cons_eq_cons.mp h).1] at hstarts
    cases operator <;> cases hstarts
  cases connective with
  | written operator =>
    cases connective' with
    | written operator' =>
      obtain rfl : operator = operator' := hoperator
      exact ⟨rfl, (List.cons_eq_cons.mp htokens).2⟩
    | beside => exact absurd htokens.symm (hhead operator d c)
  | beside =>
    cases connective' with
    | written operator => exact absurd htokens (hhead operator c d)
    | beside => exact ⟨rfl, htokens⟩

/-- Two groupings of the same tokens with the same tree are the same. -/
theorem eq_of_tokens_tree {powers powers' : Powers} (hpowers : ∀ operator, (powers operator).2 ≤ 11)
    (hpowers' : ∀ operator, (powers' operator).2 ≤ 11) (hc : c.Grouped powers) (hd : d.Grouped powers')
    (htokens : c.tokens = d.tokens) (htree : c.tree = d.tree) : c = d := by
  induction c generalizing d with
  | paren inner ih =>
    obtain ⟨d, rfl, hinner⟩ := eq_paren htokens
    exact congrArg paren (ih hc hd hinner.symm htree)
  | name n =>
    cases d with
    | name m => exact congrArg name (BooleanFunction.pin.inj htree)
    | paren inner => obtain ⟨_, h, -⟩ := eq_paren htokens.symm; cases h
    | binary connective left right => exact absurd htree.symm (Operator.combine_ne rfl)
    | _ => cases htree
  | const value =>
    cases d with
    | const value' => exact congrArg const (BooleanFunction.const.inj htree)
    | paren inner => obtain ⟨_, h, -⟩ := eq_paren htokens.symm; cases h
    | binary connective left right => exact absurd htree.symm (Operator.combine_ne rfl)
    | _ => cases htree
  | not argument ih =>
    cases d with
    | not argument' =>
      exact congrArg not (ih hc.1 hd.1 (List.cons_eq_cons.mp htokens).2 (BooleanFunction.not.inj htree))
    | prime argument' =>
      obtain ⟨token, rest, hhead⟩ := List.exists_cons_of_ne_nil argument'.tokens_ne_nil
      rw [tokens, tokens, hhead, List.cons_append] at htokens
      obtain ⟨rfl, -⟩ := List.cons_eq_cons.mp htokens
      exact absurd hhead (head_ne_not hd.1 hpowers' hd.2 rest)
    | paren inner => obtain ⟨_, h, -⟩ := eq_paren htokens.symm; cases h
    | binary connective left right => exact absurd htree.symm (Operator.combine_ne rfl)
    | _ => cases htree
  | prime argument ih =>
    cases d with
    | prime argument' =>
      exact congrArg prime (ih hc.1 hd.1 (List.append_inj' htokens rfl).1 (BooleanFunction.not.inj htree))
    | not argument' =>
      obtain ⟨token, rest, hhead⟩ := List.exists_cons_of_ne_nil argument.tokens_ne_nil
      rw [tokens, tokens, hhead, List.cons_append] at htokens
      obtain ⟨rfl, -⟩ := List.cons_eq_cons.mp htokens
      exact absurd hhead (head_ne_not hc.1 hpowers hc.2 rest)
    | paren inner => obtain ⟨_, h, -⟩ := eq_paren htokens.symm; cases h
    | binary connective left right => exact absurd htree.symm (Operator.combine_ne rfl)
    | _ => cases htree
  | binary connective left right hleft hright =>
    cases d with
    | binary connective' left' right' =>
      obtain ⟨hoperator, hltree, hrtree⟩ := Operator.combine_inj htree
      obtain ⟨hltokens, hrest⟩ := tokens_eq_of_append htokens hltree
      obtain ⟨rfl, hrtokens⟩ := connective_eq hrest hoperator
      rw [hleft hc.1 hd.1 hltokens hltree, hright hc.2.1 hd.2.1 hrtokens hrtree]
    | paren inner => obtain ⟨_, h, -⟩ := eq_paren htokens.symm; cases h
    | _ => exact absurd htree (Operator.combine_ne rfl)
  | cond condition whenTrue whenFalse hcondition htrue hfalse =>
    cases d with
    | cond condition' whenTrue' whenFalse' =>
      obtain ⟨hctree, httree, hftree⟩ := BooleanFunction.cond.inj htree
      obtain ⟨hctokens, hrest⟩ := tokens_eq_of_append htokens hctree
      obtain ⟨httokens, hrest⟩ := tokens_eq_of_append (List.cons_eq_cons.mp hrest).2 httree
      rw [hcondition hc.1 hd.1 hctokens hctree, htrue hc.2.1 hd.2.1 httokens httree,
        hfalse hc.2.2.1 hd.2.2.1 (List.cons_eq_cons.mp hrest).2 hftree]
    | paren inner => obtain ⟨_, h, -⟩ := eq_paren htokens.symm; cases h
    | binary connective left right => exact absurd htree.symm (Operator.combine_ne rfl)
    | _ => cases htree

end Syntax

end Opto.Liberty
