import Mathlib.Data.List.TakeWhile
import Opto.Library.Outcome
import Opto.Liberty.Syntax

/-!
# Parsing Boolean expressions

The parser reads exactly the trees that the operators' powers group, within its limits.
-/

namespace Opto.Liberty

open FunctionParser

theorem lexWord_length (c : Char) (rest : List Char) : (lexWord c rest).2.length ≤ rest.length := by
  rw [lexWord]
  split_ifs
  · exact Nat.le_refl _
  · exact List.length_dropWhile_le _ _

theorem lexFrom_length (c : Char) (rest : List Char) : (lexFrom c rest).2.length ≤ rest.length := by
  rw [lexFrom]
  split
  · exact Nat.le_refl _
  · split_ifs
    · exact List.length_tail ▸ Nat.sub_le _ _
    · exact List.length_tail ▸ Nat.sub_le _ _
    · exact lexWord_length c rest

/-- All tokens of a text. -/
def tokensOf (text : List Char) : List Token :=
  match h : text.dropWhile isBlank with
  | [] => []
  | c :: rest =>
    have : (lexFrom c rest).2.length < text.length := by
      have hrest := lexFrom_length c rest
      have htext := List.length_dropWhile_le isBlank text
      rw [h, List.length_cons] at htext
      omega
    (lexFrom c rest).1 :: tokensOf (lexFrom c rest).2
termination_by text.length

theorem tokensOf_nil {text : List Char} (h : text.dropWhile isBlank = []) : tokensOf text = [] := by
  rw [tokensOf]
  split
  · rfl
  · simp_all

theorem tokensOf_cons {text rest : List Char} {c : Char} (h : text.dropWhile isBlank = c :: rest) :
    tokensOf text = (lexFrom c rest).1 :: tokensOf (lexFrom c rest).2 := by
  rw [tokensOf]
  split
  · simp_all
  · rename_i heq
    rw [h] at heq
    cases heq
    rfl

theorem tokensOf_length (text : List Char) : (tokensOf text).length ≤ text.length := by
  induction hn : text.length using Nat.strong_induction_on generalizing text with
  | _ n ih =>
    cases h : text.dropWhile isBlank with
    | nil => simp [tokensOf_nil h]
    | cons c rest =>
      have hrest := lexFrom_length c rest
      have htext := List.length_dropWhile_le isBlank text
      rw [h, List.length_cons] at htext
      have hlexed := ih _ (by omega) (lexFrom c rest).2 rfl
      rw [tokensOf_cons h, List.length_cons]
      omega

namespace FunctionParser

/-- The tokens that are still to come. -/
def tokens (parser : FunctionParser) : List Token :=
  (parser.peeked.map (·.token)).toList ++ tokensOf parser.text

variable {s : FunctionParser} {rest : List Token} {token : Token}

theorem tokens_new (text : List Char) : (new text).tokens = tokensOf text := rfl

/-- What lexing gives, by the tokens of the text. -/
theorem lexToken_spec (s : FunctionParser) :
    s.lexToken.2.nodes = s.nodes ∧ s.lexToken.2.peeked = s.peeked ∧
      (s.lexToken.1.map (·.token)).toList ++ tokensOf s.lexToken.2.text = tokensOf s.text ∧
        (s.lexToken.1 = none → tokensOf s.text = []) := by
  rw [lexToken]
  cases h : s.text.dropWhile isBlank with
  | nil =>
    rw [tokensOf_nil h]
    exact ⟨rfl, rfl, tokensOf_nil rfl, fun _ => rfl⟩
  | cons c rest =>
    rw [tokensOf_cons h]
    exact ⟨rfl, rfl, rfl, fun h => by cases h⟩

variable {E : Stop → FunctionParser → Prop} {Q : Option SpannedToken → FunctionParser → Prop}

theorem nextToken_outcome (h : ∀ next t, t.nodes = s.nodes → t.tokens = s.tokens.tail →
    next.map (·.token) = s.tokens.head? → Q next t) : Outcome s nextToken Q E := by
  obtain ⟨hnodes, hpeeked, htokens, hnone⟩ := lexToken_spec s
  cases hs : s.peeked with
  | some token =>
    have hrun : nextToken s = .ok (some token) { s with peeked := none } := by rw [nextToken, hs]
    simp only [Outcome, EStateM.run, hrun]
    apply h <;> simp [tokens, hs]
  | none =>
    have hrun : nextToken s = .ok s.lexToken.1 s.lexToken.2 := by rw [nextToken, hs]
    simp only [Outcome, EStateM.run, hrun]
    rw [hs] at hpeeked
    cases hlexed : s.lexToken.1 with
    | none =>
      rw [hlexed] at htokens
      refine h none _ hnodes ?_ ?_
      · simpa [tokens, hs, hpeeked, hnone hlexed] using htokens
      · simp [tokens, hs, hnone hlexed]
    | some token =>
      rw [hlexed] at htokens
      refine h (some token) _ hnodes ?_ ?_
      · simp [tokens, hs, hpeeked, ← htokens]
      · simp [tokens, hs, ← htokens]

theorem peekToken_outcome (h : ∀ next t, t.nodes = s.nodes → t.tokens = s.tokens →
    next.map (·.token) = s.tokens.head? → Q next t) : Outcome s peekToken Q E := by
  obtain ⟨hnodes, hpeeked, htokens, hnone⟩ := lexToken_spec s
  cases hs : s.peeked with
  | some token =>
    have hrun : peekToken s = .ok (some token) s := by rw [peekToken, hs]
    simp only [Outcome, EStateM.run, hrun]
    exact h _ _ rfl rfl (by simp [tokens, hs])
  | none =>
    have hrun : peekToken s = .ok s.lexToken.1 { s.lexToken.2 with peeked := s.lexToken.1 } := by rw [peekToken, hs]
    simp only [Outcome, EStateM.run, hrun]
    refine h _ _ hnodes ?_ ?_
    · simpa [tokens, hs] using htokens
    · cases hlexed : s.lexToken.1 with
      | none => simp [tokens, hs, hnone hlexed]
      | some token =>
        rw [hlexed] at htokens
        simp [tokens, hs, ← htokens]

end FunctionParser

/-- The error says that the expression is too complex. -/
def Stop.IsLimit (e : Stop) : Prop := ∃ offset, e = .error ⟨offset, .complexityLimit⟩

theorem Stop.IsLimit.ne_fuel {e : Stop} (h : e.IsLimit) : e ≠ .fuel := by
  obtain ⟨offset, rfl⟩ := h
  exact fun h => by cases h

theorem eq_cons_of_head? {tokens : List Token} {next : SpannedToken}
    (h : (some next).map (·.token) = tokens.head?) : tokens = next.token :: tokens.tail := by
  cases tokens with
  | nil => cases h
  | cons first rest => rw [← Option.some_inj.mp h, List.tail_cons]

theorem continued_eq_none {nested : Nat → ParserM BooleanFunction} {minimum : Nat} {left : BooleanFunction}
    {next : SpannedToken} (hlimit : minimum ≤ 11) : continued nested minimum left next = none ↔
      ∀ k, next.token.power = some k → k < minimum := by
  rw [continued, Token.power]
  split_ifs with hprime hquestion hminimum
  · simpa using hlimit
  · simpa using hminimum
  · simpa using hminimum
  · cases next.token.operator with
    | none => simp
    | some operator => simp
section Steps

variable {s : FunctionParser} {fuel minimum depth : Nat} {left : BooleanFunction} {token : Token}
  {rest : List Token} {Q : BooleanFunction → FunctionParser → Prop} {E : Stop → FunctionParser → Prop}

theorem recordNode_outcome (offset : Nat) : Outcome s (recordNode offset)
    (fun _ t => t.tokens = s.tokens ∧ t.nodes = s.nodes + 1 ∧ s.nodes + 1 ≤ MAX_NODES)
    fun e _ => e.IsLimit ∧ MAX_NODES < s.nodes + 1 := by
  apply Outcome.modify
  apply Outcome.get
  rw [countNode]
  split_ifs with hmany
  · exact ⟨⟨offset, rfl⟩, hmany⟩
  · exact ⟨rfl, rfl, Nat.le_of_not_lt hmany⟩

theorem checkNesting_outcome (depth : Nat) : Outcome s (checkNesting depth)
    (fun _ t => t = s ∧ depth ≤ MAX_NESTING) fun e _ => e.IsLimit ∧ MAX_NESTING < depth := by
  rw [checkNesting]
  split_ifs with hdeep
  · exact ⟨⟨s.offset, rfl⟩, hdeep⟩
  · exact ⟨rfl, Nat.le_of_not_lt hdeep⟩

theorem expectToken_outcome (hs : s.tokens = token :: rest) :
    Outcome s (expectToken token) (fun _ t => t.tokens = rest ∧ t.nodes = s.nodes) E := by
  apply Outcome.bind (Q := fun next t => next.map (·.token) = some token ∧ t.tokens = rest ∧ t.nodes = s.nodes)
    (E := E) _ _ fun _ _ h => h
  · apply nextToken_outcome
    intro next t hnodes htokens hnext
    rw [hs] at htokens hnext
    exact ⟨hnext, htokens, hnodes⟩
  · rintro next t ⟨hnext, ht⟩
    obtain ⟨next, rfl, htoken⟩ := Option.map_eq_some_iff.mp hnext
    show Outcome t (closeWith token next) _ E
    rw [closeWith, if_pos htoken]
    exact ht

/-- When the token is there, it was the next one. -/
theorem expectToken_inv (token : Token) : Outcome s (expectToken token)
    (fun _ t => s.tokens = token :: t.tokens ∧ t.nodes = s.nodes) fun e _ => e ≠ .fuel := by
  apply Outcome.bind (Q := fun next t => next.map (·.token) = s.tokens.head? ∧ t.tokens = s.tokens.tail ∧
    t.nodes = s.nodes) (E := fun e _ => e ≠ Stop.fuel) _ _ fun _ _ h => h
  · exact nextToken_outcome fun next t hnodes htokens hnext => ⟨hnext, htokens, hnodes⟩
  · rintro next t ⟨hnext, htokens, hnodes⟩
    cases next with
    | none => exact fun h => by cases h
    | some next =>
      show Outcome t (closeWith token next) _ _
      rw [closeWith]
      split_ifs with htoken
      · refine ⟨?_, hnodes⟩
        rw [htokens, ← htoken]
        exact eq_cons_of_head? hnext
      · exact fun h => by cases h

/-- An operand is read, counted and handed to the loop. -/
theorem expression_outcome {R : BooleanFunction → FunctionParser → Prop}
    (hdeep : ∀ e t, e.IsLimit → MAX_NESTING < depth → E e t) (hend : s.tokens = [] → ∀ t : FunctionParser, E (.error ⟨t.offset, .unexpectedEnd⟩) t)
    (hoperand : depth ≤ MAX_NESTING → ∀ next t, s.tokens = next.token :: t.tokens → t.nodes = s.nodes →
      Outcome t (operand (expression fuel · (depth + 1)) next) R E)
    (hfull : ∀ left t, R left t → MAX_NODES < t.nodes + 1 → ∀ e u, e.IsLimit → E e u)
    (hloop : depth ≤ MAX_NESTING → ∀ left t, R left t → t.nodes + 1 ≤ MAX_NODES → ∀ u, u.tokens = t.tokens →
      u.nodes = t.nodes + 1 → Outcome u (expressionLoop fuel minimum depth left) Q E) :
    Outcome s (expression (fuel + 1) minimum depth) Q E := by
  rw [expression]
  apply Outcome.bind (checkNesting_outcome depth)
  · rintro _ t ⟨rfl, hdepth⟩
    apply Outcome.bind (Q := fun next u => next.map (·.token) = t.tokens.head? ∧ u.tokens = t.tokens.tail ∧
      u.nodes = t.nodes) (E := E) _ _ fun _ _ h => h
    · exact nextToken_outcome fun next u hnodes htokens hnext => ⟨hnext, htokens, hnodes⟩
    · rintro next u ⟨hnext, htokens, hnodes⟩
      cases next with
      | none =>
        refine hend ?_ u
        cases ht : t.tokens with
        | nil => rfl
        | cons first rest => rw [ht] at hnext; cases hnext
      | some next =>
        have hfirst : t.tokens = next.token :: u.tokens := by
          rw [htokens]
          exact eq_cons_of_head? hnext
        apply Outcome.bind (hoperand hdepth next u hfirst hnodes) _ fun _ _ h => h
        intro left v hleft
        apply Outcome.bind (recordNode_outcome next.offset)
        · exact fun _ w ⟨hw, hcount, hlimit⟩ => hloop hdepth left v hleft hlimit w hw hcount
        · exact fun e w ⟨he, hmany⟩ => hfull left v hleft hmany e w he
  · exact fun e t ⟨he, hdepth⟩ => hdeep e t he hdepth

/-- The next token ends the loop or continues the expression. -/
theorem expressionLoop_outcome {R : BooleanFunction → FunctionParser → Prop} (hlimit : minimum ≤ 11)
    (hstop : ∀ t, t.tokens = s.tokens → t.nodes = s.nodes → Stops minimum s.tokens → Q left t)
    (hread : ∀ next t read, s.tokens = next.token :: s.tokens.tail → t.tokens = s.tokens → t.nodes = s.nodes →
      continued (expression fuel · (depth + 1)) minimum left next = some read → Outcome t read R E)
    (hloop : ∀ left t, R left t → Outcome t (expressionLoop fuel minimum depth left) Q E) :
    Outcome s (expressionLoop (fuel + 1) minimum depth left) Q E := by
  rw [expressionLoop]
  apply Outcome.bind (Q := fun next t => next.map (·.token) = s.tokens.head? ∧ t.tokens = s.tokens ∧
    t.nodes = s.nodes) (E := E) _ _ fun _ _ h => h
  · exact peekToken_outcome fun next t hnodes htokens hnext => ⟨hnext, htokens, hnodes⟩
  · rintro next t ⟨hnext, htokens, hnodes⟩
    cases next with
    | none =>
      refine hstop t htokens hnodes fun token htoken => ?_
      rw [← hnext] at htoken
      cases htoken
    | some next =>
      cases hcontinued : continued (expression fuel · (depth + 1)) minimum left next with
      | none =>
        simp only [Option.bind_some, hcontinued]
        refine hstop t htokens hnodes fun token htoken => ?_
        rw [← hnext] at htoken
        rw [← Option.some_inj.mp htoken]
        exact (continued_eq_none hlimit).mp hcontinued
      | some read =>
        simp only [Option.bind_some, hcontinued]
        have hfirst := eq_cons_of_head? hnext
        exact Outcome.bind (hread next t read hfirst htokens hnodes hcontinued) hloop fun _ _ h => h

end Steps

end Opto.Liberty
