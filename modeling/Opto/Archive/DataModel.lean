import Opto.Archive.Deserializer

/-!
# Deserialization from the data model

What a client is told when it reads a value itself, without a document: a value accepts the
requests for its own kind, a newtype struct is its content, and sequences, maps and variants open
what they hold. On a document that spells the value, the archive tells a client the same.
-/

namespace Opto.Archive

/-- What a client holds of a value. -/
inductive Reading
  | value (value : Value)
  | sequence (rest : List Value)
  | map (rest : List (Value × Value)) (pending : Option Value)
  | enum (value : Value)
  | variant (value : Value)

namespace Value

/-- Newtype structs are transparent. -/
def content : Value → Value
  | newtypeStruct value => value.content
  | value => value

def unwrapped : Value → Value
  | newtypeStruct value => value
  | value => value

/-- The requests for the value's own kind. -/
def accepts : Value → Request → Bool
  | _, .any | _, .identifier => true
  | bool _, .bool => true
  | number value, .number kind => value.kind = kind
  | string _, .str | string _, .string => true
  | bytes _, .bytes | bytes _, .byteBuf => true
  | none, .option | some _, .option => true
  | unit, .unit | unit, .unitStruct | unitStruct, .unit | unitStruct, .unitStruct => true
  | sequence _ _, .seq | sequence _ _, .tuple _ | sequence _ _, .tupleStruct _ | sequence _ _, .struct _ => true
  | map _ _, .map => true
  | unitVariant _, .enum _ | newtypeVariant _ _, .enum _ | sequenceVariant _ _ _, .enum _ => true
  | _, _ => false

/-- How the value shows itself to a visitor. -/
def shown : Value → Visit × Option Reading
  | bool value => (.bool value, Option.none)
  | number value => (.number value, Option.none)
  | string value => (.borrowedStr value, Option.none)
  | bytes value => (.borrowedBytes value, Option.none)
  | none => (.none, Option.none)
  | some value => (.some, Option.some (.value value))
  | unit | unitStruct => (.unit, Option.none)
  | newtypeStruct value => (.newtypeStruct, Option.some (.value value))
  | sequence _ fields => (.seq, Option.some (.sequence fields))
  | map _ entries => (.map, Option.some (.map entries Option.none))
  | unitVariant variant => (.enum, Option.some (.enum (unitVariant variant)))
  | newtypeVariant variant value => (.enum, Option.some (.enum (newtypeVariant variant value)))
  | sequenceVariant variant kind fields => (.enum, Option.some (.enum (sequenceVariant variant kind fields)))

end Value

/-- Strings and bytes that are asked for as owned are given away. -/
def Request.owned : Request → Visit → Visit
  | string, .borrowedStr value => .string value
  | byteBuf, .borrowedBytes value => .byteBuf value
  | _, called => called

/-- What a request asks for. -/
def Request.wanted : Request → String
  | bool => "bool"
  | number kind => kind.method
  | str | string => "string"
  | bytes | byteBuf => "bytes"
  | option => "option"
  | unit | unitStruct => "unit"
  | seq | tuple _ | tupleStruct _ | struct _ => "sequence"
  | map => "map"
  | enum _ => "enum"
  | _ => "any"

abbrev Told := Except ArchiveError (Visit × Option Reading)

namespace Value

def answer (value : Value) : Request → Told
  | .newtypeStruct => .ok (.newtypeStruct, Option.some (.value value.unwrapped))
  | .ignoredAny => .ok (.unit, Option.none)
  | request =>
    if value.content.accepts request then .ok (request.owned value.content.shown.1, value.content.shown.2)
    else typeMismatch request.wanted

/-- The number of a variant. -/
def variantIndex : Value → UInt32
  | unitVariant variant | newtypeVariant variant _ | sequenceVariant variant _ _ => variant
  | _ => 0

def asUnitVariant : Value → Told
  | unitVariant _ => .ok (.unitVariant, Option.none)
  | _ => .error ⟨"enum variant is not a unit variant"⟩

def asNewtypeVariant : Value → Told
  | newtypeVariant _ value => .ok (.nested, Option.some (.value value))
  | _ => .error ⟨"enum variant is not a newtype variant"⟩

def asSequenceVariant (wanted : String) : Value → Told
  | sequenceVariant _ _ fields => .ok (.seq, Option.some (.sequence fields))
  | _ => .error ⟨"enum variant is not a " ++ wanted ++ " variant"⟩

end Value

def nextOf : List Value → Told × Reading
  | [] => (.ok (.finished, none), .sequence [])
  | value :: rest => (.ok (.nested, some (.value value)), .sequence rest)

def keyOf (rest : List (Value × Value)) (pending : Option Value) : Told × Reading :=
  if pending.isSome then (.error ⟨"map key requested before pending value"⟩, .map rest pending)
  else
    match rest with
    | [] => (.ok (.finished, none), .map [] pending)
    | (key, value) :: rest => (.ok (.nested, some (.value key)), .map ((key, value) :: rest) (some value))

def valueOf (rest : List (Value × Value)) : Option Value → Told × Reading
  | none => (.error ⟨"map value requested before key"⟩, .map rest none)
  | some value => (.ok (.nested, some (.value value)), .map rest.tail none)

def Reading.react (object : Reading) : Operation → Reaction Reading Answer
  | .deserialize request =>
    match object with
    | .value v => Visited.reaction (v.answer request) object
    | _ => noMethod object
  | .nextElement =>
    match object with
    | .sequence rest => Visited.reaction (nextOf rest).1 (nextOf rest).2
    | _ => noMethod object
  | .nextKey =>
    match object with
    | .map rest pending => Visited.reaction (keyOf rest pending).1 (keyOf rest pending).2
    | _ => noMethod object
  | .nextValue =>
    match object with
    | .map rest pending => Visited.reaction (valueOf rest pending).1 (valueOf rest pending).2
    | _ => noMethod object
  | .sizeHint =>
    match object with
    | .sequence rest => Visited.reaction (.ok (.sizeHint rest.length, none)) object
    | .map rest _ => Visited.reaction (.ok (.sizeHint rest.length, none)) object
    | _ => noMethod object
  | .variant =>
    match object with
    | .enum v => Visited.reaction (.ok (.variant v.variantIndex, some (.variant v))) object
    | _ => noMethod object
  | .unitVariant =>
    match object with
    | .variant v => Visited.reaction v.asUnitVariant object
    | _ => noMethod object
  | .newtypeVariant =>
    match object with
    | .variant v => Visited.reaction v.asNewtypeVariant object
    | _ => noMethod object
  | .tupleVariant _ =>
    match object with
    | .variant v => Visited.reaction (v.asSequenceVariant "tuple") object
    | _ => noMethod object
  | .structVariant _ =>
    match object with
    | .variant v => Visited.reaction (v.asSequenceVariant "struct") object
    | _ => noMethod object

/-- What a type's `Deserialize` returns on the value itself. -/
def Value.read {T : Type} (deserializeType : Deserialize T) (value : Value) (operations : Nat) :
    Option (Except ArchiveError T) :=
  (Session.start (Reading.value value)).result Reading.react deserializeType operations

/-! The nodes of a value. -/

mutual

/-- The value is spelled at the node. -/
def Spells (nodes : List Node) : Nat → Value → Prop
  | id, .bool value => nodes[id]? = some (.bool value)
  | id, .number value => nodes[id]? = some (.number value)
  | id, .string value => nodes[id]? = some (.string value)
  | id, .bytes value => nodes[id]? = some (.bytes value)
  | id, .none => nodes[id]? = some .none
  | id, .some value => ∃ child, nodes[id]? = some (.some child) ∧ Spells nodes child value
  | id, .unit | id, .unitStruct => nodes[id]? = some .unit
  | id, .unitVariant variant => nodes[id]? = some (.unitVariant variant)
  | id, .newtypeStruct value => Spells nodes id value
  | id, .newtypeVariant variant value =>
    ∃ child, nodes[id]? = some (.newtypeVariant variant child) ∧ Spells nodes child value
  | id, .sequence _ fields => ∃ ids, nodes[id]? = some (.sequence ids) ∧ SpellsFields nodes ids fields
  | id, .sequenceVariant variant _ fields =>
    ∃ ids, nodes[id]? = some (.sequenceVariant variant ids) ∧ SpellsFields nodes ids fields
  | id, .map _ entries => ∃ ids, nodes[id]? = some (.map ids) ∧ SpellsEntries nodes ids entries

def SpellsFields (nodes : List Node) : List Nat → List Value → Prop
  | ids, [] => ids = []
  | ids, value :: rest => ∃ id tail, ids = id :: tail ∧ Spells nodes id value ∧ SpellsFields nodes tail rest

def SpellsEntries (nodes : List Node) : List (Nat × Nat) → List (Value × Value) → Prop
  | ids, [] => ids = []
  | ids, (key, value) :: rest => ∃ first second tail, ids = (first, second) :: tail ∧ Spells nodes first key ∧
      Spells nodes second value ∧ SpellsEntries nodes tail rest

end

mutual

/-- How deep a value is nested; newtype structs do not count. -/
def Value.height : Value → Nat
  | .some value | .newtypeVariant _ value => value.height + 1
  | .newtypeStruct value => value.height
  | .sequence _ fields | .sequenceVariant _ _ fields => fieldsHeight fields
  | .map _ entries => entriesHeight entries
  | _ => 0

def fieldsHeight : List Value → Nat
  | [] => 0
  | value :: rest => max (value.height + 1) (fieldsHeight rest)

def entriesHeight : List (Value × Value) → Nat
  | [] => 0
  | (key, value) :: rest => max (max (key.height + 1) (value.height + 1)) (entriesHeight rest)

end

end Opto.Archive
