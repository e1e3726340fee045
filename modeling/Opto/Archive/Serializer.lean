import Opto.Archive.Document

/-!
# Serialization into a document

A value of the Serde data model is written as the calls that its type makes to the serializer.
Newtype structs are transparent; tuples and structs are kept like sequences.
-/

namespace Opto.Archive

inductive SequenceKind
  | seq (len : Option Nat)
  | tuple
  | tupleStruct
  | struct

inductive VariantKind
  | tuple
  | struct

/-- The Serde data model. -/
inductive Value
  | bool (value : Bool)
  | number (value : Number)
  | string (value : String)
  | bytes (value : List UInt8)
  | none
  | some (value : Value)
  | unit
  | unitStruct
  | unitVariant (variant : UInt32)
  | newtypeStruct (value : Value)
  | newtypeVariant (variant : UInt32) (value : Value)
  | sequence (kind : SequenceKind) (fields : List Value)
  | sequenceVariant (variant : UInt32) (kind : VariantKind) (fields : List Value)
  | map (len : Option Nat) (entries : List (Value × Value))

/-- The serializer's state is the list of its nodes. -/
abbrev DocumentSerializer := EStateM ArchiveError (List Node)

section

-- Whether room for so many elements can be had.
variable (reserve : Nat → Bool)

def reserveFor (count : Nat) (what : String) : DocumentSerializer Unit :=
  if reserve count then pure () else throw ⟨"could not allocate archive " ++ what⟩

def push (node : Node) : DocumentSerializer Nat := do
  let nodes ← get
  reserveFor reserve (nodes.length + 1) "node"
  set (nodes ++ [node])
  return nodes.length

structure MapSerializer where
  entries : List (Nat × Nat)
  pendingKey : Option Nat

namespace MapSerializer

def serializeKey (map : MapSerializer) (key : DocumentSerializer Nat) : DocumentSerializer MapSerializer :=
  if map.pendingKey.isSome then throw ⟨"map serialized two keys without a value"⟩
  else do
    let key ← key
    return { map with pendingKey := some key }

def serializeValue (map : MapSerializer) (value : DocumentSerializer Nat) : DocumentSerializer MapSerializer :=
  match map.pendingKey with
  | none => throw ⟨"map value was serialized before its key"⟩
  | some key => do
    let value ← value
    return ⟨map.entries ++ [(key, value)], none⟩

def finish (map : MapSerializer) : DocumentSerializer Nat :=
  if map.pendingKey.isSome then throw ⟨"map ended without a value for its final key"⟩
  else push reserve (.map map.entries)

end MapSerializer

/-- The length that a sequence announces. -/
def SequenceKind.hint (count : Nat) : SequenceKind → Nat
  | seq len => len.getD 0
  | _ => count

mutual

def serialize : Value → DocumentSerializer Nat
  | .bool value => push reserve (.bool value)
  | .number value => push reserve (.number value)
  | .string value => push reserve (.string value)
  | .bytes value => push reserve (.bytes value)
  | .none => push reserve .none
  | .some value => do
    let value ← serialize value
    push reserve (.some value)
  | .unit | .unitStruct => push reserve .unit
  | .unitVariant variant => push reserve (.unitVariant variant)
  | .newtypeStruct value => serialize value
  | .newtypeVariant variant value => do
    let value ← serialize value
    push reserve (.newtypeVariant variant value)
  | .sequence kind fields => do
    reserveFor reserve (kind.hint fields.length) "sequence"
    let fields ← serializeFields fields []
    push reserve (.sequence fields)
  | .sequenceVariant variant _ fields => do
    reserveFor reserve fields.length "variant"
    let fields ← serializeFields fields []
    push reserve (.sequenceVariant variant fields)
  | .map len entries => do
    reserveFor reserve (len.getD 0) "map"
    let map ← serializeEntries entries ⟨[], none⟩
    map.finish reserve

def serializeFields : List Value → List Nat → DocumentSerializer (List Nat)
  | [], fields => pure fields
  | value :: rest, fields => do
    let field ← serialize value
    serializeFields rest (fields ++ [field])

def serializeEntries : List (Value × Value) → MapSerializer → DocumentSerializer MapSerializer
  | [], map => pure map
  | (key, value) :: rest, map => do
    let map ← map.serializeKey (serialize key)
    let map ← map.serializeValue (serialize value)
    serializeEntries rest map

end

end

/-- What the archive needs of rkyv: writing a document, checked access to an archived one, what is
seen of it in place, and reading it. -/
structure Codec (Bytes Archived Word : Type) where
  toBytes : Document → Except String Bytes
  access : Bytes → Except String Archived
  seen : Archived → ArchivedDocument Word
  toNative : Word → Nat
  deserialize : Archived → Except String Document

section

variable {Bytes Archived Word T : Type} (codec : Codec Bytes Archived Word) (reserve : Nat → Bool)

def encode (document : Document) : Except ArchiveError Bytes :=
  match codec.toBytes document with
  | .ok bytes => .ok bytes
  | .error e => throw ⟨"rkyv serialization failed: " ++ e⟩

/-- The document of a value, before validation. -/
def toDocument (value : Value) : Except ArchiveError Document :=
  match (serialize reserve value).run [] with
  | .ok root nodes => .ok ⟨FORMAT_VERSION, root, nodes⟩
  | .error e _ => .error e

def toBytes (serializeType : T → Except ArchiveError Value) (value : T) : Except ArchiveError Bytes := do
  let value ← serializeType value
  let document ← toDocument reserve value
  validateDocument document
  encode codec document

end

end Opto.Archive
