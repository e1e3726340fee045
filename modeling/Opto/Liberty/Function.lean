import Mathlib.Algebra.GroupWithZero.Nat
/-!
# Boolean functions

The expression of a pin's function is read by a lexer over its text and a loop over binding
powers. Evaluation runs on an explicit stack of frames.
-/

namespace Opto.Liberty

inductive BooleanFunction
  | const (value : Bool)
  | pin (name : String)
  | not (argument : BooleanFunction)
  | and (left right : BooleanFunction)
  | or (left right : BooleanFunction)
  | xor (left right : BooleanFunction)
  | imp (left right : BooleanFunction)
  | iff (left right : BooleanFunction)
  | cond (condition whenTrue whenFalse : BooleanFunction)
  deriving DecidableEq, Repr

inductive Token
  | name (name : String)
  | const (value : Bool)
  | not
  | and
  | or
  | xor
  | imp
  | iff
  | question
  | colon
  | leftParen
  | rightParen
  | apostrophe
  deriving DecidableEq, Repr

def Token.startsExpression : Token → Bool
  | .name _ | .const _ | .not | .leftParen => true
  | _ => false

structure SpannedToken where
  token : Token
  offset : Nat
  deriving DecidableEq, Repr

inductive BooleanFunctionErrorKind
  | unexpectedEnd
  | unexpectedToken
  | trailingInput
  | complexityLimit
  deriving DecidableEq, Repr

structure FunctionError where
  offset : Nat
  kind : BooleanFunctionErrorKind
  deriving DecidableEq, Repr

/-- The parser recurses on fuel; running out is kept apart from the source's errors. -/
inductive Stop
  | fuel
  | error (error : FunctionError)
  deriving DecidableEq, Repr

/-! The lexer. All delimiters are ASCII, so characters stand for the bytes of the text. -/

def byteLength (text : List Char) : Nat := (text.map Char.utf8Size).sum

def isBlank (c : Char) : Bool := c = ' ' || c = '\t' || c = '\r' || c = '\n'

def formFeed : Char := '\x0c'

def isAsciiWhitespace (c : Char) : Bool := isBlank c || c = formFeed

/-- Tokens of one character that no other token begins with. -/
def singleToken : Char → Option Token
  | '!' | '~' => some .not
  | '&' | '*' => some .and
  | '+' | '|' => some .or
  | '^' => some .xor
  | '?' => some .question
  | ':' => some .colon
  | '(' => some .leftParen
  | ')' => some .rightParen
  | '\'' => some .apostrophe
  | _ => none

/-- Where a name ends. -/
def isDelimiter (c : Char) : Bool := isAsciiWhitespace c || (singleToken c).isSome || c = '='

def wordToken (word : List Char) : Token :=
  if word = ['0'] then .const false else if word = ['1'] then .const true else .name (String.ofList word)

/-- A delimiter that begins no token is a name by itself. -/
def lexWord (c : Char) (rest : List Char) : Token × List Char :=
  if isDelimiter c then (.name (String.ofList [c]), rest)
  else (wordToken (c :: rest.takeWhile (!isDelimiter ·)), rest.dropWhile (!isDelimiter ·))

/-- The token that begins with the character, and the text after it. -/
def lexFrom (c : Char) (rest : List Char) : Token × List Char :=
  match singleToken c with
  | some token => (token, rest)
  | none =>
    if (c = '-' ∨ c = '=') ∧ rest.head? = some '>' then (.imp, rest.tail)
    else if c = '=' ∧ rest.head? = some '=' then (.iff, rest.tail)
    else lexWord c rest

/-- The text that is still to be read begins at the offset. -/
structure FunctionParser where
  text : List Char
  offset : Nat
  peeked : Option SpannedToken
  nodes : Nat
  deriving DecidableEq, Repr

abbrev ParserM := EStateM Stop FunctionParser

namespace FunctionParser

def new (text : List Char) : FunctionParser := ⟨text, 0, none, 0⟩

def lexToken (parser : FunctionParser) : Option SpannedToken × FunctionParser :=
  let start := parser.offset + byteLength (parser.text.takeWhile isBlank)
  match parser.text.dropWhile isBlank with
  | [] => (none, { parser with text := [], offset := start })
  | c :: rest =>
    let lexed := lexFrom c rest
    (some ⟨lexed.1, start⟩,
      { parser with text := lexed.2, offset := start + (byteLength (c :: rest) - byteLength lexed.2) })

def peekToken : ParserM (Option SpannedToken) := fun parser =>
  match parser.peeked with
  | some token => .ok (some token) parser
  | none => .ok parser.lexToken.1 { parser.lexToken.2 with peeked := parser.lexToken.1 }

def nextToken : ParserM (Option SpannedToken) := fun parser =>
  match parser.peeked with
  | some token => .ok (some token) { parser with peeked := none }
  | none => .ok parser.lexToken.1 parser.lexToken.2

end FunctionParser

open FunctionParser

def MAX_NESTING : Nat := 256

def MAX_NODES : Nat := 512

def unexpected {α : Type} (offset : Nat) : ParserM α := throw (.error ⟨offset, .unexpectedToken⟩)

def unexpectedEnd {α : Type} : ParserM α := do
  let parser ← get
  throw (.error ⟨parser.offset, .unexpectedEnd⟩)

def complexityLimit {α : Type} : ParserM α := do
  let parser ← get
  throw (.error ⟨parser.offset, .complexityLimit⟩)

def checkNesting (depth : Nat) : ParserM Unit := if depth > MAX_NESTING then complexityLimit else pure ()

def countNode (nodes offset : Nat) : ParserM Unit :=
  if nodes > MAX_NODES then throw (.error ⟨offset, .complexityLimit⟩) else pure ()

def recordNode (offset : Nat) : ParserM Unit := do
  modify fun parser => { parser with nodes := parser.nodes + 1 }
  let parser ← get
  countNode parser.nodes offset

def requireToken : Option SpannedToken → ParserM SpannedToken
  | some token => pure token
  | none => unexpectedEnd

def closeWith (expected : Token) (token : SpannedToken) : ParserM Unit :=
  if token.token = expected then pure () else unexpected token.offset

def expectToken (expected : Token) : ParserM Unit := do
  let token ← nextToken
  let token ← requireToken token
  closeWith expected token

inductive Operator
  | and
  | or
  | xor
  | imp
  | iff
  deriving DecidableEq, Repr

namespace Operator

def token : Operator → Token
  | .and => .and
  | .or => .or
  | .xor => .xor
  | .imp => .imp
  | .iff => .iff

def combine : Operator → BooleanFunction → BooleanFunction → BooleanFunction
  | .and => .and
  | .or => .or
  | .xor => .xor
  | .imp => .imp
  | .iff => .iff

/-- The powers that an operator binds its left and its right operand with. -/
def powers : Operator → Nat × Nat
  | .iff => (2, 3)
  | .imp => (4, 4)
  | .or => (5, 6)
  | .xor => (7, 8)
  | .and => (9, 10)

end Operator

/-- The operator that a token continues an expression with; a token that starts one stands for a
conjunction. -/
def Token.operator : Token → Option Operator
  | .iff => some .iff
  | .imp => some .imp
  | .or => some .or
  | .xor => some .xor
  | .and => some .and
  | token => if token.startsExpression then some .and else none

/-- The operand that begins with the token; `nested` reads an expression one level down. -/
def operand (nested : Nat → ParserM BooleanFunction) (token : SpannedToken) : ParserM BooleanFunction :=
  match token.token with
  | .name name => pure (.pin name)
  | .const value => pure (.const value)
  | .not => do
    let argument ← nested 11
    return .not argument
  | .leftParen => do
    let function ← nested 0
    expectToken .rightParen
    return function
  | _ => unexpected token.offset

/-- The operator's token is there unless the operands stand side by side. -/
def skipOperator (token : Token) (operator : Operator) : ParserM Unit :=
  if token = operator.token then do
    let _ ← nextToken
    return ()
  else pure ()

def primed (left : BooleanFunction) (offset : Nat) : ParserM BooleanFunction := do
  let _ ← nextToken
  recordNode offset
  return .not left

def conditional (nested : Nat → ParserM BooleanFunction) (left : BooleanFunction) (offset : Nat) :
    ParserM BooleanFunction := do
  let _ ← nextToken
  let whenTrue ← nested 0
  expectToken .colon
  let whenFalse ← nested 1
  recordNode offset
  return .cond left whenTrue whenFalse

def combined (nested : Nat → ParserM BooleanFunction) (left : BooleanFunction) (operator : Operator)
    (next : SpannedToken) : ParserM BooleanFunction := do
  skipOperator next.token operator
  let right ← nested operator.powers.2
  recordNode next.offset
  return operator.combine left right

/-- What the next token makes of the expression read so far, if it continues it. -/
def continued (nested : Nat → ParserM BooleanFunction) (minimumBindingPower : Nat) (left : BooleanFunction)
    (next : SpannedToken) : Option (ParserM BooleanFunction) :=
  if next.token = .apostrophe then some (primed left next.offset)
  else if next.token = .question then
    if minimumBindingPower > 1 then none else some (conditional nested left next.offset)
  else
    match next.token.operator with
    | none => none
    | some operator =>
      if operator.powers.1 < minimumBindingPower then none else some (combined nested left operator next)

mutual

def expression : Nat → Nat → Nat → ParserM BooleanFunction
  | 0, _, _ => throw .fuel
  | fuel + 1, minimumBindingPower, depth => do
    checkNesting depth
    let token ← nextToken
    let token ← requireToken token
    let left ← operand (expression fuel · (depth + 1)) token
    recordNode token.offset
    expressionLoop fuel minimumBindingPower depth left

/-- The expression read so far takes in what binds it. -/
def expressionLoop : Nat → Nat → Nat → BooleanFunction → ParserM BooleanFunction
  | 0, _, _, _ => throw .fuel
  | fuel + 1, minimumBindingPower, depth, left => do
    let next ← peekToken
    match next.bind (continued (expression fuel · (depth + 1)) minimumBindingPower left) with
    | none => return left
    | some read => do
      let left ← read
      expressionLoop fuel minimumBindingPower depth left

end

def parseAll (fuel : Nat) : ParserM BooleanFunction := do
  let function ← expression fuel 0 0
  let token ← nextToken
  match token with
  | some token => throw (.error ⟨token.offset, .trailingInput⟩)
  | none => return function

namespace BooleanFunction

def parse (text : List Char) : Except Stop BooleanFunction :=
  match (parseAll (2 * text.length + 2)).run (.new text) with
  | .ok function _ => .ok function
  | .error e _ => .error e

/-! Evaluation. -/

inductive Frame
  | visit (function : BooleanFunction)
  | not
  | binary (operator : Operator)
  | conditional (whenTrue whenFalse : BooleanFunction)

end BooleanFunction

def Operator.apply : Operator → Bool → Bool → Bool
  | .and, left, right => left && right
  | .or, left, right => left || right
  | .xor, left, right => left ^^ right
  | .imp, left, right => !left || right
  | .iff, left, right => left == right

namespace BooleanFunction

section

variable (lookup : String → Option Bool)

/-- The frames that a visited function leaves and the value it gives. -/
def visit (values : List Bool) : BooleanFunction → Option (List Frame × List Bool)
  | .const value => some ([], value :: values)
  | .pin name => (lookup name).map fun value => ([], value :: values)
  | .not argument => some ([.visit argument, .not], values)
  | .and left right => some ([.visit left, .visit right, .binary .and], values)
  | .or left right => some ([.visit left, .visit right, .binary .or], values)
  | .xor left right => some ([.visit left, .visit right, .binary .xor], values)
  | .imp left right => some ([.visit left, .visit right, .binary .imp], values)
  | .iff left right => some ([.visit left, .visit right, .binary .iff], values)
  | .cond condition whenTrue whenFalse => some ([.visit condition, .conditional whenTrue whenFalse], values)

def runFrame (values : List Bool) : Frame → Option (List Frame × List Bool)
  | .visit function => visit lookup values function
  | .not =>
    match values with
    | value :: values => some ([], (!value) :: values)
    | [] => none
  | .binary operator =>
    match values with
    | right :: left :: values => some ([], operator.apply left right :: values)
    | _ => none
  | .conditional whenTrue whenFalse =>
    match values with
    | value :: values => some ([.visit (if value then whenTrue else whenFalse)], values)
    | [] => none

def evalLoop : Nat → List Frame → List Bool → Option Bool
  | _, [], values => if values.length = 1 then values.head? else none
  | 0, _ :: _, _ => none
  | fuel + 1, frame :: frames, values =>
    match runFrame lookup values frame with
    | none => none
    | some (pushed, values) => evalLoop fuel (pushed ++ frames) values

/-- The frames that a function needs. -/
def frameCount : BooleanFunction → Nat
  | .const _ | .pin _ => 1
  | .not argument => frameCount argument + 2
  | .and left right | .or left right | .xor left right | .imp left right | .iff left right =>
    frameCount left + frameCount right + 2
  | .cond condition whenTrue whenFalse => frameCount condition + frameCount whenTrue + frameCount whenFalse + 2

def eval (function : BooleanFunction) : Option Bool := evalLoop lookup function.frameCount [.visit function] []

end

/-- The value of an input under an assignment; the first input is the lowest bit. -/
def assigned (inputs : List String) (assignment : Nat) (name : String) : Option Bool :=
  if inputs.contains name then some (assignment.testBit (inputs.idxOf name)) else none

def truthTableBits (function : BooleanFunction) (inputs : List String) : Option Nat :=
  if inputs.length > 6 then none
  else
    (List.range (2 ^ inputs.length)).foldlM (fun bits assignment =>
      (function.eval (assigned inputs assignment)).map fun value =>
        if value then bits ||| 1 <<< assignment else bits) 0

end BooleanFunction

end Opto.Liberty
