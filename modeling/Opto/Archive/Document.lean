import Mathlib.Data.List.Basic

/-!
# Archive documents

A document keeps a value as nodes in post order: children come before their parent, and the root
comes last. Validation counts the parents of every node and bounds the nesting.
-/

namespace Opto.Archive

def FORMAT_VERSION : UInt32 := 1

def MAX_NESTING_DEPTH : Nat := 128

structure ArchiveError where
  message : String
  deriving DecidableEq, Repr

/-- Floating point numbers are kept as their bits. -/
inductive Number
  | i8 (value : Int8)
  | i16 (value : Int16)
  | i32 (value : Int32)
  | i64 (value : Int64)
  | i128 (value : BitVec 128)
  | u8 (value : UInt8)
  | u16 (value : UInt16)
  | u32 (value : UInt32)
  | u64 (value : UInt64)
  | u128 (value : BitVec 128)
  | f32 (bits : UInt32)
  | f64 (bits : UInt64)
  | char (value : Char)
  deriving DecidableEq

inductive Node
  | bool (value : Bool)
  | number (value : Number)
  | string (value : String)
  | bytes (value : List UInt8)
  | none
  | some (value : Nat)
  | unit
  | sequence (fields : List Nat)
  | map (entries : List (Nat × Nat))
  | unitVariant (variant : UInt32)
  | newtypeVariant (variant : UInt32) (value : Nat)
  | sequenceVariant (variant : UInt32) (fields : List Nat)
  deriving DecidableEq

def Node.children : Node → List Nat
  | some value | newtypeVariant _ value => [value]
  | sequence fields | sequenceVariant _ fields => fields
  | map entries => entries.flatMap fun entry => [entry.1, entry.2]
  | _ => []

structure Document where
  formatVersion : UInt32
  root : Nat
  nodes : List Node
  deriving DecidableEq

/-- The nodes of an archived document keep their numbers in the archive's own words. -/
inductive ArchivedNode (Word : Type)
  | leaf
  | some (value : Word)
  | sequence (fields : List Word)
  | map (entries : List (Word × Word))
  | newtypeVariant (value : Word)
  | sequenceVariant (fields : List Word)

structure ArchivedDocument (Word : Type) where
  formatVersion : UInt32
  root : Word
  nodes : List (ArchivedNode Word)

section

variable {Word : Type} (toNative : Word → Nat)

def archivedChildren : ArchivedNode Word → List Nat
  | .some value | .newtypeVariant value => [toNative value]
  | .sequence fields | .sequenceVariant fields => fields.map toNative
  | .map entries => entries.flatMap fun entry => [toNative entry.1, toNative entry.2]
  | .leaf => []

/-! Both validators run over the children of the nodes. -/

section

variable {N : Type} (children : N → List Nat)

def countParent (parent : Nat) (parents : List Nat) (child : Nat) : Except ArchiveError (List Nat) :=
  if parent ≤ child then throw ⟨"archive child is not earlier than its post-order parent"⟩
  else
    match parents[child]? with
    | none => throw ⟨"archive child index is out of bounds"⟩
    | some slot =>
      if 255 < slot + 1 then throw ⟨"archive node parent count overflow"⟩
      else if slot + 1 ≠ 1 then throw ⟨"archive node is referenced by more than one parent"⟩
      else return parents.set child (slot + 1)

/-- The parents counted from the nodes that begin at the index. -/
def countParents : Nat → List N → List Nat → Except ArchiveError (List Nat)
  | _, [], parents => pure parents
  | index, node :: rest, parents => do
    let parents ← (children node).foldlM (countParent index) parents
    countParents (index + 1) rest parents

/-- The depth is checked while levels are left. -/
def checkDepth (nodes : List N) : Nat → Nat → Except ArchiveError Unit
  | 0, _ => throw ⟨"archive nesting depth exceeds the configured limit"⟩
  | levels + 1, node =>
    match nodes[node]? with
    | none => throw ⟨"invalid archive node"⟩
    | some node => (children node).forM (checkDepth nodes levels)

def checkRoot (root : Nat) (parents : List Nat) : Except ArchiveError Unit :=
  if parents[root]? ≠ some 0 ∨ (parents.take root).any (· ≠ 1) then
    throw ⟨"archive contains unreachable nodes or an invalid root parent"⟩
  else pure ()

def checkNodes (root : Nat) (nodes : List N) : Except ArchiveError Unit :=
  if nodes.length = 0 ∨ root ≠ nodes.length - 1 then throw ⟨"archive root is not the final post-order node"⟩
  else do
    let parents ← countParents children 0 nodes (List.replicate nodes.length 0)
    checkRoot root parents
    checkDepth children nodes (MAX_NESTING_DEPTH + 1) root

end

def checkVersion (formatVersion : UInt32) : Except ArchiveError Unit :=
  if formatVersion ≠ FORMAT_VERSION then throw ⟨s!"unsupported Opto archive format {formatVersion.toNat}"⟩
  else pure ()

def validateDocument (document : Document) : Except ArchiveError Unit := do
  checkVersion document.formatVersion
  checkNodes Node.children document.root document.nodes

def validateArchivedDocument (document : ArchivedDocument Word) : Except ArchiveError Unit := do
  checkVersion document.formatVersion
  checkNodes (archivedChildren toNative) (toNative document.root) document.nodes

end

end Opto.Archive
