import Opto.Liberty.Determined
import Opto.Liberty.Evaluation
import Opto.Liberty.Readings
import Opto.Liberty.Spelling

/-!
# The parser and the Liberty format

Liberty groups an exclusive OR before a conjunction, and signs need no blanks around them. The
parser groups the two the other way round, and its names go on through an arrow.
-/

namespace Opto.Liberty

/-- A grouping of the tokens within the limits. -/
def Reading (powers : Powers) (tokens : List Token) (c : Syntax) : Prop :=
  c.Grouped powers ∧ c.tokens = tokens ∧ c.WithinLimits

/-- The text is an expression of the format with the tree. -/
def Sentence (text : List Char) (tree : BooleanFunction) : Prop :=
  ∃ layout : Layout, layout.Valid ∧ layout.text = text ∧ ∃ c, Reading libertyPowers layout.tokens c ∧ c.tree = tree

namespace BooleanFunction

/-- Evaluation and every entry of a truth table are the function's meaning. -/
def Evaluates (function : BooleanFunction) : Prop :=
  (∀ lookup, function.eval lookup = function.meaning lookup) ∧
    ∀ inputs : List String,
      match function.truthTableBits inputs with
      | some bits => inputs.length ≤ 6 ∧ ∀ assignment < 2 ^ inputs.length,
          function.meaning (assigned inputs assignment) = some (bits.testBit assignment)
      | none => 6 < inputs.length ∨
          ∃ assignment < 2 ^ inputs.length, function.meaning (assigned inputs assignment) = none

theorem evaluates (function : BooleanFunction) : function.Evaluates := by
  refine ⟨function.eval_eq_meaning, fun inputs => ?_⟩
  cases h : function.truthTableBits inputs with
  | some bits =>
    refine ⟨?_, (truthTableBits_eq_some h).2⟩
    by_contra hmany
    rw [truthTableBits, if_pos (by omega)] at h
    cases h
  | none => exact truthTableBits_eq_none h

end BooleanFunction

/-- The parser treats the text as the format says. -/
structure FollowsFormat (text : List Char) : Prop where
  accepts : ∀ tree, BooleanFunction.parse text = .ok tree ↔ Sentence text tree
  respaced : ∀ (layout layout' : Layout) (tree : BooleanFunction), layout.Valid → layout.text = text →
    layout.Respaced layout' → BooleanFunction.parse text = .ok tree → BooleanFunction.parse layout'.text = .ok tree
  evaluates : ∀ tree, BooleanFunction.parse text = .ok tree → tree.Evaluates

/-- Where the text is an expression, for the parser or the format, its names are words, no chain
mixes the two operators, and no arrow follows a word. -/
structure Plain (text : List Char) : Prop where
  parsed : ∀ c, Reading Operator.powers (tokensOf text) c →
    c.Unmixed ∧ ∀ n, .name n ∈ tokensOf text → IsWord n.toList
  written : ∀ (layout : Layout) (c : Syntax), layout.Valid → layout.text = text →
    Reading libertyPowers layout.tokens c → c.Unmixed ∧ layout.Apart

/-! Chains that do not mix the operators. -/

namespace Syntax

variable {c s left right : Syntax} {operator : Operator} {connective : Connective}

theorem binding_unmixed (hxor : operator = .xor → s.isChain .and = false) (hand : operator = .and → s.isChain .xor = false) :
    (operator.powers.1 < (s.binding Operator.powers).2 ↔ (libertyPowers operator).1 < (s.binding libertyPowers).2) ∧
      (operator.powers.2 ≤ (s.binding Operator.powers).1 ↔ (libertyPowers operator).2 ≤ (s.binding libertyPowers).1) := by
  cases s with
  | binary connective left right =>
    cases h : connective.operator <;> cases operator <;>
      simp_all [binding, Operator.powers, libertyPowers, isChain]
  | _ => cases operator <;> simp [binding, Operator.powers, libertyPowers]

theorem eleven_le_binding : 11 ≤ (s.binding Operator.powers).1 ↔ 11 ≤ (s.binding libertyPowers).1 := by
  cases s with
  | binary connective left right =>
    cases h : connective.operator <;> simp [binding, h, Operator.powers, libertyPowers]
  | _ => simp [binding]

theorem eleven_lt_binding : 11 < (s.binding Operator.powers).2 ↔ 11 < (s.binding libertyPowers).2 := by
  cases s with
  | binary connective left right =>
    cases h : connective.operator <;> simp [binding, h, Operator.powers, libertyPowers]
  | _ => simp [binding]

theorem one_lt_binding : 1 < (s.binding Operator.powers).2 ↔ 1 < (s.binding libertyPowers).2 := by
  cases s with
  | binary connective left right =>
    cases h : connective.operator <;> simp [binding, h, Operator.powers, libertyPowers]
  | _ => simp [binding]

theorem Unmixed.grouped_iff (h : c.Unmixed) : c.Grouped Operator.powers ↔ c.Grouped libertyPowers := by
  induction c with
  | name n => exact Iff.rfl
  | const value => exact Iff.rfl
  | paren inner ih => exact ih h
  | not argument ih => exact and_congr (ih h) eleven_le_binding
  | prime argument ih => exact and_congr (ih h) eleven_lt_binding
  | binary connective left right hleft hright =>
    obtain ⟨hl, hr, hxor, hand⟩ := h
    exact and_congr (hleft hl) (and_congr (hright hr) (and_congr
      (binding_unmixed (fun h => (hxor h).1) fun h => (hand h).1).1
      (binding_unmixed (fun h => (hxor h).2) fun h => (hand h).2).2))
  | cond condition whenTrue whenFalse hcondition htrue hfalse =>
    exact and_congr (hcondition h.1) (and_congr (htrue h.2.1) (and_congr (hfalse h.2.2) one_lt_binding))


theorem not_chain (h : s.binding Operator.powers = operator.powers → s.binding libertyPowers = libertyPowers operator → False) :
    s.isChain operator = false := by
  cases s with
  | binary connective left right =>
    by_contra hchain
    have hoperator : connective.operator = operator := by simpa [isChain] using hchain
    exact h (congrArg Operator.powers hoperator) (congrArg libertyPowers hoperator)
  | _ => rfl

/-- Grouped both ways, a tree mixes nowhere. -/
theorem unmixed_of_grouped (h : c.Grouped Operator.powers) (h' : c.Grouped libertyPowers) : c.Unmixed := by
  induction c with
  | name n => trivial
  | const value => trivial
  | paren inner ih => exact ih h h'
  | not argument ih => exact ih h.1 h'.1
  | prime argument ih => exact ih h.1 h'.1
  | binary connective left right hleft hright =>
    obtain ⟨hl, hr, hlow, hhigh⟩ := h
    obtain ⟨hl', hr', hlow', hhigh'⟩ := h'
    refine ⟨hleft hl hl', hright hr hr', fun hxor => ⟨?_, ?_⟩, fun hand => ⟨?_, ?_⟩⟩
    · exact not_chain fun _ hchain => by simp [hchain, hxor, libertyPowers] at hlow'
    · exact not_chain fun _ hchain => by simp [hchain, hxor, libertyPowers] at hhigh'
    · exact not_chain fun hchain _ => by simp [hchain, hand, Operator.powers] at hlow
    · exact not_chain fun hchain _ => by simp [hchain, hand, Operator.powers] at hhigh
  | cond condition whenTrue whenFalse hcondition htrue hfalse =>
    exact ⟨hcondition h.1 h'.1, htrue h.2.1 h'.2.1, hfalse h.2.2.1 h'.2.2.1⟩

end Syntax

/-! Names. -/

def BooleanFunction.names : BooleanFunction → List String
  | const _ => []
  | pin name => [name]
  | not argument => argument.names
  | and left right | or left right | xor left right | imp left right | iff left right => left.names ++ right.names
  | cond condition whenTrue whenFalse => condition.names ++ (whenTrue.names ++ whenFalse.names)

theorem Operator.names_combine {operator : Operator} {left right : BooleanFunction} :
    (operator.combine left right).names = left.names ++ right.names := by
  cases operator <;> rfl

theorem Connective.name_not_mem (connective : Connective) (n : String) : .name n ∉ connective.tokens := by
  rcases connective with operator | _
  · cases operator <;> simp [tokens, Operator.token]
  · simp [tokens]

/-- The names of a tree are those of the tokens. -/
theorem Syntax.mem_names (c : Syntax) (n : String) : n ∈ c.tree.names ↔ .name n ∈ c.tokens := by
  induction c with
  | binary connective left right hleft hright =>
    rw [tree, Operator.names_combine, tokens]
    simp [hleft, hright, connective.name_not_mem n]
  | _ => simp_all [tree, tokens, BooleanFunction.names]

theorem Layout.Valid.isWord_of_mem {layout : Layout} (h : layout.Valid) {n : String} (hn : .name n ∈ layout.tokens) :
    IsWord n.toList := by
  obtain ⟨p, hp, htoken⟩ := List.mem_filterMap.mp hn
  have hvalid := h.1 p hp
  cases p with
  | blank c => cases htoken
  | word w =>
    have hword : wordToken w = .name n := Option.some.inj htoken
    rw [wordToken] at hword
    split_ifs at hword
    rw [← Token.name.inj hword, String.toList_ofList]
    exact hvalid
  | sign spelling =>
    obtain ⟨c, -, hsingle⟩ | ⟨-, hname⟩ | ⟨-, hname⟩ | ⟨-, hname⟩ := signToken_cases htoken
    · rw [singleToken.eq_def] at hsingle
      split at hsingle <;> cases hsingle
    · cases hname
    · cases hname
    · cases hname

/-! The parser follows the format exactly on plain texts. -/

variable {text : List Char}

theorem Plain.follows (h : Plain text) : FollowsFormat text := by
  have haccepts : ∀ tree, BooleanFunction.parse text = .ok tree ↔ Sentence text tree := by
    intro tree
    rw [BooleanFunction.parse_eq_ok]
    constructor
    · rintro ⟨c, hgrouped, htokens, hlimits, rfl⟩
      obtain ⟨hunmixed, hwords⟩ := h.parsed c ⟨hgrouped, htokens, hlimits⟩
      obtain ⟨layout, hvalid, htext, hlayout⟩ := Layout.spelled_of_words text hwords
      exact ⟨layout, hvalid, htext, c, ⟨hunmixed.grouped_iff.mp hgrouped, htokens.trans hlayout.symm, hlimits⟩, rfl⟩
    · rintro ⟨layout, hvalid, rfl, c, hread, rfl⟩
      obtain ⟨hunmixed, hapart⟩ := h.written layout c hvalid rfl hread
      have htokens := hvalid.tokensOf_text hapart.parted
      exact ⟨c, hunmixed.grouped_iff.mpr hread.1, hread.2.1.trans htokens.symm, hread.2.2, rfl⟩
  refine ⟨haccepts, ?_, fun tree _ => tree.evaluates⟩
  rintro layout layout' tree hvalid rfl hrespaced hparse
  obtain ⟨c, hgrouped, htokens, hlimits, rfl⟩ := BooleanFunction.parse_eq_ok.mp hparse
  obtain ⟨hunmixed, hwords⟩ := h.parsed c ⟨hgrouped, htokens, hlimits⟩
  have hlayout := hvalid.tokensOf_text (hvalid.parted hwords)
  have hapart := (h.written layout c hvalid rfl
    ⟨hunmixed.grouped_iff.mp hgrouped, htokens.trans hlayout, hlimits⟩).2
  obtain ⟨hvalid', hsame, hapart'⟩ := hrespaced.same
  have hlayout' := (hvalid'.mp hvalid).tokensOf_text (hapart'.mp hapart).parted
  exact BooleanFunction.parse_eq_ok.mpr ⟨c, hgrouped, by rw [htokens, hlayout, hsame, hlayout'], hlimits, rfl⟩

theorem libertyPowers_le (operator : Operator) : (libertyPowers operator).2 ≤ 11 := by
  cases operator <;> decide

theorem Operator.powers_le_eleven (operator : Operator) : operator.powers.2 ≤ 11 := by
  cases operator <;> decide

/-- What both read the same way is plain. -/
theorem FollowsFormat.reading (h : FollowsFormat text) {c : Syntax} (hread : Reading Operator.powers (tokensOf text) c) :
    c.Unmixed ∧ (∀ n, .name n ∈ tokensOf text → IsWord n.toList) ∧
      ∀ layout : Layout, layout.Valid → layout.text = text → layout.Apart := by
  obtain ⟨hgrouped, htokens, hlimits⟩ := hread
  have hparse := BooleanFunction.parse_eq_ok.mpr ⟨c, hgrouped, htokens, hlimits, rfl⟩
  obtain ⟨layout, hvalid, rfl, d, ⟨hd, hdtokens, -⟩, htree⟩ := (h.accepts _).mp hparse
  have hnames : ∀ n ∈ c.tree.names, IsWord n.toList := by
    intro n hn
    rw [← htree, d.mem_names, hdtokens] at hn
    exact hvalid.isWord_of_mem hn
  have hwords : ∀ n, .name n ∈ tokensOf layout.text → IsWord n.toList := by
    intro n hn
    rw [← htokens, ← c.mem_names] at hn
    exact hnames n hn
  have hlayout := hvalid.tokensOf_text (hvalid.parted hwords)
  obtain rfl : c = d := Syntax.eq_of_tokens_tree Operator.powers_le_eleven libertyPowers_le hgrouped hd
    (by rw [htokens, hlayout, hdtokens]) htree.symm
  refine ⟨Syntax.unmixed_of_grouped hgrouped hd, hwords, fun layout' hvalid' htext => ?_⟩
  by_contra hapart
  obtain ⟨respaced, hrespaced, hparted⟩ := hvalid'.exists_not_parted hapart
  have hrespace := h.respaced layout' respaced c.tree hvalid' htext hrespaced hparse
  obtain ⟨e, -, hetokens, -, hetree⟩ := BooleanFunction.parse_eq_ok.mp hrespace
  apply hparted
  apply (hrespaced.same.1.mp hvalid').parted
  intro n hn
  rw [← hetokens, ← e.mem_names, hetree] at hn
  exact hnames n hn

theorem FollowsFormat.plain (h : FollowsFormat text) : Plain text := by
  constructor
  · intro c hread
    obtain ⟨hunmixed, hwords, -⟩ := h.reading hread
    exact ⟨hunmixed, hwords⟩
  · intro layout d hvalid htext hread
    have hparse := (h.accepts _).mpr ⟨layout, hvalid, htext, d, hread, rfl⟩
    obtain ⟨c, hgrouped, htokens, hlimits, htree⟩ := BooleanFunction.parse_eq_ok.mp hparse
    obtain ⟨hunmixed, hwords, hapart⟩ := h.reading ⟨hgrouped, htokens, hlimits⟩
    have hlayout := hvalid.tokensOf_text (hvalid.parted (htext ▸ hwords))
    obtain rfl : c = d := Syntax.eq_of_tokens_tree Operator.powers_le_eleven libertyPowers_le hgrouped hread.1
      (by rw [htokens, ← htext, hlayout, hread.2.1]) htree
    exact ⟨hunmixed, hapart layout hvalid htext⟩

/-- The parser treats a text as the format says if and only if the text is plain. -/
theorem followsFormat_iff (text : List Char) : FollowsFormat text ↔ Plain text := ⟨FollowsFormat.plain, Plain.follows⟩

/-- "A ^ B & C" groups the conjunction first. -/
theorem mixed_chain_misread : ¬∀ text, FollowsFormat text := by
  intro h
  have hsentence : Sentence "A ^ B & C".toList (.and (.xor (.pin "A") (.pin "B")) (.pin "C")) := by
    refine ⟨[.word ['A'], .blank ' ', .sign ['^'], .blank ' ', .word ['B'], .blank ' ', .sign ['&'], .blank ' ',
      .word ['C']], ?_, rfl, .binary (.written .and) (.binary (.written .xor) (.name "A") (.name "B")) (.name "C"),
      ⟨?_, rfl, ?_⟩, rfl⟩
    · decide
    · decide
    · decide
  have hparse := ((h "A ^ B & C".toList).accepts _).mpr hsentence
  have hcode : BooleanFunction.parse "A ^ B & C".toList =
      .ok (.xor (.pin "A") (.and (.pin "B") (.pin "C"))) := rfl
  rw [hcode] at hparse
  cases hparse

end Opto.Liberty
