import Opto.Library.Session
import Opto.Archive.Serializer

/-!
# Deserialization from a document

A type's `Deserialize` is a client of the deserializer and of the accesses that its visitor gets.
An answer tells the client which of its visitor's methods was called, or what an access returned.
-/

namespace Opto.Archive

inductive NumberKind
  | i8
  | i16
  | i32
  | i64
  | i128
  | u8
  | u16
  | u32
  | u64
  | u128
  | f32
  | f64
  | char
  deriving DecidableEq

def Number.kind : Number → NumberKind
  | i8 _ => .i8
  | i16 _ => .i16
  | i32 _ => .i32
  | i64 _ => .i64
  | i128 _ => .i128
  | u8 _ => .u8
  | u16 _ => .u16
  | u32 _ => .u32
  | u64 _ => .u64
  | u128 _ => .u128
  | f32 _ => .f32
  | f64 _ => .f64
  | char _ => .char

/-- The method that deserializes the kind. -/
def NumberKind.method : NumberKind → String
  | i8 => "deserialize_i8"
  | i16 => "deserialize_i16"
  | i32 => "deserialize_i32"
  | i64 => "deserialize_i64"
  | i128 => "deserialize_i128"
  | u8 => "deserialize_u8"
  | u16 => "deserialize_u16"
  | u32 => "deserialize_u32"
  | u64 => "deserialize_u64"
  | u128 => "deserialize_u128"
  | f32 => "deserialize_f32"
  | f64 => "deserialize_f64"
  | char => "deserialize_char"

/-- The methods of a deserializer. -/
inductive Request
  | any
  | bool
  | number (kind : NumberKind)
  | str
  | string
  | bytes
  | byteBuf
  | option
  | unit
  | unitStruct
  | newtypeStruct
  | seq
  | tuple (len : Nat)
  | tupleStruct (len : Nat)
  | map
  | struct (fields : List String)
  | enum (variants : List String)
  | identifier
  | ignoredAny

/-- A value of the client's: the methods of deserializers and of the accesses. -/
inductive Operation
  | deserialize (request : Request)
  | nextElement
  | nextKey
  | nextValue
  | sizeHint
  | variant
  | unitVariant
  | newtypeVariant
  | tupleVariant (len : Nat)
  | structVariant (fields : List String)

/-- Which method of the visitor was called, or what an access returned. What is opened for the
client comes beside it. -/
inductive Visit
  | bool (value : Bool)
  | number (value : Number)
  | borrowedStr (value : String)
  | string (value : String)
  | borrowedBytes (value : List UInt8)
  | byteBuf (value : List UInt8)
  | none
  | some
  | unit
  | newtypeStruct
  | seq
  | map
  | enum
  | nested
  | finished
  | sizeHint (count : Nat)
  | variant (index : UInt32)
  | unitVariant
  | noMethod
  deriving DecidableEq

abbrev Answer := Except ArchiveError Visit

structure ValueDeserializer where
  document : Document
  node : Nat
  depth : Nat

structure SequenceAccess where
  value : ValueDeserializer
  fields : List Nat
  next : Nat

structure MapValueAccess where
  value : ValueDeserializer
  entries : List (Nat × Nat)
  next : Nat
  pendingValue : Option Nat

inductive VariantShape
  | unit
  | newtype (node : Nat)
  | sequence (fields : List Nat)

structure ArchiveEnumAccess where
  value : ValueDeserializer
  variant : UInt32
  shape : VariantShape

structure ArchiveVariantAccess where
  value : ValueDeserializer
  shape : VariantShape

/-- What a client holds. -/
inductive Access
  | value (value : ValueDeserializer)
  | sequence (access : SequenceAccess)
  | map (access : MapValueAccess)
  | enum (access : ArchiveEnumAccess)
  | variant (access : ArchiveVariantAccess)

abbrev Visited := Except ArchiveError (Visit × Option Access)

def typeMismatch {α : Type} (name : String) : Except ArchiveError α := throw ⟨"archive type mismatch for " ++ name⟩

namespace ValueDeserializer

def new (document : Document) (node : Nat) : ValueDeserializer := ⟨document, node, 0⟩

variable (self : ValueDeserializer)

/-- The node that the deserializer stands at. -/
def stored : Except ArchiveError Node :=
  match self.document.nodes[self.node]? with
  | some node => pure node
  | none => throw ⟨"invalid node"⟩

def child (node : Nat) : Except ArchiveError ValueDeserializer :=
  if self.depth + 1 ≤ MAX_NESTING_DEPTH then pure { self with node, depth := self.depth + 1 }
  else throw ⟨"archive nesting depth limit exceeded"⟩

def sequence (fields : List Nat) : SequenceAccess := ⟨self, fields, 0⟩

def visitSome (node : Nat) : Visited := do
  let child ← self.child node
  return (.some, some (.value child))

def visitSeq (fields : List Nat) : Visited := pure (.seq, some (.sequence (self.sequence fields)))

def visitMap (entries : List (Nat × Nat)) : Visited := pure (.map, some (.map ⟨self, entries, 0, none⟩))

def visitEnum (variant : UInt32) (shape : VariantShape) : Visited := pure (.enum, some (.enum ⟨self, variant, shape⟩))

def visit (called : Visit) : Visited := pure (called, none)

def deserializeEnum : Visited := do
  let node ← self.stored
  match node with
  | .unitVariant variant => self.visitEnum variant .unit
  | .newtypeVariant variant value => self.visitEnum variant (.newtype value)
  | .sequenceVariant variant fields => self.visitEnum variant (.sequence fields)
  | _ => typeMismatch "enum"

def deserializeAny : Visited := do
  let node ← self.stored
  match node with
  | .bool value => visit (.bool value)
  | .number value => visit (.number value)
  | .string value => visit (.borrowedStr value)
  | .bytes value => visit (.borrowedBytes value)
  | .none => visit .none
  | .some value => self.visitSome value
  | .unit => visit .unit
  | .sequence fields => self.visitSeq fields
  | .map entries => self.visitMap entries
  | .unitVariant _ | .newtypeVariant _ _ | .sequenceVariant _ _ => self.deserializeEnum

def deserializeNumber (kind : NumberKind) : Visited := do
  let node ← self.stored
  match node with
  | .number value => if value.kind = kind then visit (.number value) else typeMismatch kind.method
  | _ => typeMismatch kind.method

def deserializeBool : Visited := do
  let node ← self.stored
  match node with
  | .bool value => visit (.bool value)
  | _ => typeMismatch "bool"

/-- A string is lent to the visitor or given to it. -/
def deserializeText (called : String → Visit) : Visited := do
  let node ← self.stored
  match node with
  | .string value => visit (called value)
  | _ => typeMismatch "string"

def deserializeStr : Visited := self.deserializeText .borrowedStr

def deserializeString : Visited := self.deserializeText .string

def deserializeBinary (called : List UInt8 → Visit) : Visited := do
  let node ← self.stored
  match node with
  | .bytes value => visit (called value)
  | _ => typeMismatch "bytes"

def deserializeBytes : Visited := self.deserializeBinary .borrowedBytes

def deserializeByteBuf : Visited := self.deserializeBinary .byteBuf

def deserializeOption : Visited := do
  let node ← self.stored
  match node with
  | .none => visit .none
  | .some value => self.visitSome value
  | _ => typeMismatch "option"

def deserializeUnit : Visited := do
  let node ← self.stored
  match node with
  | .unit => visit .unit
  | _ => typeMismatch "unit"

def deserializeUnitStruct : Visited := self.deserializeUnit

def deserializeNewtypeStruct : Visited := pure (.newtypeStruct, some (.value self))

def deserializeSeq : Visited := do
  let node ← self.stored
  match node with
  | .sequence fields => self.visitSeq fields
  | _ => typeMismatch "sequence"

def deserializeTuple (_len : Nat) : Visited := self.deserializeSeq

def deserializeTupleStruct (_len : Nat) : Visited := self.deserializeSeq

def deserializeMap : Visited := do
  let node ← self.stored
  match node with
  | .map entries => self.visitMap entries
  | _ => typeMismatch "map"

def deserializeStruct (_fields : List String) : Visited := self.deserializeSeq

def deserializeIdentifier : Visited := self.deserializeAny

def deserializeIgnoredAny : Visited := visit .unit

def deserialize : Request → Visited
  | .any => self.deserializeAny
  | .bool => self.deserializeBool
  | .number kind => self.deserializeNumber kind
  | .str => self.deserializeStr
  | .string => self.deserializeString
  | .bytes => self.deserializeBytes
  | .byteBuf => self.deserializeByteBuf
  | .option => self.deserializeOption
  | .unit => self.deserializeUnit
  | .unitStruct => self.deserializeUnitStruct
  | .newtypeStruct => self.deserializeNewtypeStruct
  | .seq => self.deserializeSeq
  | .tuple len => self.deserializeTuple len
  | .tupleStruct len => self.deserializeTupleStruct len
  | .map => self.deserializeMap
  | .struct fields => self.deserializeStruct fields
  | .enum _ => self.deserializeEnum
  | .identifier => self.deserializeIdentifier
  | .ignoredAny => deserializeIgnoredAny

end ValueDeserializer

/-- A seed gets the deserializer of a child. -/
def seed (value : ValueDeserializer) (node : Nat) : Visited := do
  let child ← value.child node
  return (.nested, some (.value child))

def SequenceAccess.nextElement (self : SequenceAccess) : Visited × SequenceAccess :=
  match self.fields[self.next]? with
  | none => (pure (.finished, none), self)
  | some node => (seed self.value node, { self with next := self.next + 1 })

def SequenceAccess.sizeHint (self : SequenceAccess) : Visited :=
  pure (.sizeHint (self.fields.length - self.next), none)

namespace MapValueAccess

variable (self : MapValueAccess)

def nextKey : Visited × MapValueAccess :=
  if self.pendingValue.isSome then (throw ⟨"map key requested before pending value"⟩, self)
  else
    match self.entries[self.next]? with
    | none => (pure (.finished, none), self)
    | some entry => (seed self.value entry.1, { self with pendingValue := some entry.2 })

def nextValue : Visited × MapValueAccess :=
  match self.pendingValue with
  | none => (throw ⟨"map value requested before key"⟩, self)
  | some value => (seed self.value value, { self with pendingValue := none, next := self.next + 1 })

def sizeHint : Visited := pure (.sizeHint (self.entries.length - self.next), none)

end MapValueAccess

def ArchiveEnumAccess.variantSeed (self : ArchiveEnumAccess) : Visited :=
  pure (.variant self.variant, some (.variant ⟨self.value, self.shape⟩))

namespace ArchiveVariantAccess

variable (self : ArchiveVariantAccess)

def unitVariant : Visited :=
  match self.shape with
  | .unit => pure (.unitVariant, none)
  | _ => throw ⟨"enum variant is not a unit variant"⟩

def newtypeVariant : Visited :=
  match self.shape with
  | .newtype node => seed self.value node
  | _ => throw ⟨"enum variant is not a newtype variant"⟩

def tupleVariant (_len : Nat) : Visited :=
  match self.shape with
  | .sequence fields => self.value.visitSeq fields
  | _ => throw ⟨"enum variant is not a tuple variant"⟩

def structVariant (_fields : List String) : Visited :=
  match self.shape with
  | .sequence fields => self.value.visitSeq fields
  | _ => throw ⟨"enum variant is not a struct variant"⟩

end ArchiveVariantAccess

def Visited.reaction {O : Type} (visited : Except ArchiveError (Visit × Option O)) (object : O) : Reaction O Answer :=
  match visited with
  | .ok (called, opened) => ⟨.ok called, object, opened⟩
  | .error e => ⟨.error e, object, none⟩

/-- An operation that the object does not have is none that a typed client can call. -/
def noMethod {O : Type} (object : O) : Reaction O Answer := ⟨.ok .noMethod, object, none⟩

def Access.react (object : Access) : Operation → Reaction Access Answer
  | .deserialize request =>
    match object with
    | .value deserializer => Visited.reaction (deserializer.deserialize request) object
    | _ => noMethod object
  | .nextElement =>
    match object with
    | .sequence access => Visited.reaction access.nextElement.1 (.sequence access.nextElement.2)
    | _ => noMethod object
  | .nextKey =>
    match object with
    | .map access => Visited.reaction access.nextKey.1 (.map access.nextKey.2)
    | _ => noMethod object
  | .nextValue =>
    match object with
    | .map access => Visited.reaction access.nextValue.1 (.map access.nextValue.2)
    | _ => noMethod object
  | .sizeHint =>
    match object with
    | .sequence access => Visited.reaction access.sizeHint object
    | .map access => Visited.reaction access.sizeHint object
    | _ => noMethod object
  | .variant =>
    match object with
    | .enum access => Visited.reaction access.variantSeed object
    | _ => noMethod object
  | .unitVariant =>
    match object with
    | .variant access => Visited.reaction access.unitVariant object
    | _ => noMethod object
  | .newtypeVariant =>
    match object with
    | .variant access => Visited.reaction access.newtypeVariant object
    | _ => noMethod object
  | .tupleVariant len =>
    match object with
    | .variant access => Visited.reaction (access.tupleVariant len) object
    | _ => noMethod object
  | .structVariant fields =>
    match object with
    | .variant access => Visited.reaction (access.structVariant fields) object
    | _ => noMethod object

/-- A type's `Deserialize`. -/
abbrev Deserialize (T : Type) := Client Operation Answer (Except ArchiveError T)

section

variable {Bytes Archived Word T : Type} (codec : Codec Bytes Archived Word)

/-- The document of the bytes, checked before and after it is read. -/
def readDocument (bytes : Bytes) : Except ArchiveError Document :=
  match codec.access bytes with
  | .error e => throw ⟨"rkyv validation failed: " ++ e⟩
  | .ok archived => do
    validateArchivedDocument codec.toNative (codec.seen archived)
    match codec.deserialize archived with
    | .error e => throw ⟨"rkyv deserialization failed: " ++ e⟩
    | .ok document => do
      validateDocument document
      return document

/-- A type's `Deserialize` on the root, if it returns after so many operations. -/
def decode (deserializeType : Deserialize T) (document : Document) (operations : Nat) :
    Option (Except ArchiveError T) :=
  (Session.start (Access.value (.new document document.root))).result Access.react deserializeType operations

def fromBytes (deserializeType : Deserialize T) (bytes : Bytes) (operations : Nat) :
    Option (Except ArchiveError T) :=
  match readDocument codec bytes with
  | .error e => some (.error e)
  | .ok document => decode deserializeType document operations

end

end Opto.Archive
