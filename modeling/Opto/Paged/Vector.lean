import Opto.Library.Outcome
import Opto.Library.Pages
import Opto.Mapped.Names

/-!
# Paged copy-on-write vectors

Forks of a vector share its pages. A page is written in place by the fork that alone refers
to it and copied by any other. Truncation leaves the values of the last page where they are;
what growth makes visible again is filled. Any reservation may fail.
-/

namespace Opto.Paged

open Mapped (U32_MAX U64_MAX)
open Pages Sharing

def VALUES_PER_PAGE : Nat := 4096

/-- A vector refers to its pages by their addresses. -/
structure PagedCowVec (α : Type) where
  pages : List Nat
  len : Nat
  default : α

/-- All pages that were allocated, and the vectors. A dropped vector leaves its place. -/
structure World (α : Type) where
  heap : List (List α)
  forks : List (Option (PagedCowVec α))

inductive Failure where
  | capacity
  | panic (message : String)
deriving DecidableEq

/-- Where a call reserves memory. -/
inductive Site where
  | pageTable
  | tail
  | newPages
  | page (pageIndex : Nat)
  | unique
deriving DecidableEq

abbrev PagedM (α β : Type) := EStateM Failure (World α) β

variable {α : Type}

def visiblePageLen (len page : Nat) : Nat := min (len - page * VALUES_PER_PAGE) VALUES_PER_PAGE

def World.get (w : World α) (f : PagedCowVec α) (index : Nat) : Option α :=
  if index < f.len then
    match f.pages[index / VALUES_PER_PAGE]? with
    | none => none
    | some address => (w.heap[address]?.getD [])[index % VALUES_PER_PAGE]?
  else none

/-- The references of all vectors. -/
def World.holders (w : World α) : List (List Nat) := w.forks.map fun f => (f.map (·.pages)).getD []

/-! Access. -/

def fork (i : Nat) : PagedM α (PagedCowVec α) := do
  match (← get).forks[i]? with
  | some (some f) => pure f
  | _ => throw (.panic "no such vector")

def setFork (i : Nat) (f : PagedCowVec α) : PagedM α Unit :=
  modify fun w => { w with forks := w.forks.set i (some f) }

def pageAt (f : PagedCowVec α) (pageIndex : Nat) : PagedM α Nat :=
  match f.pages[pageIndex]? with
  | some address => pure address
  | none => throw (.panic "index out of bounds")

def valuesAt (address : Nat) : PagedM α (List α) := do
  match (← get).heap[address]? with
  | some values => pure values
  | none => throw (.panic "dangling page")

/-- A page can be written when nothing else refers to it. -/
def isUnique (address : Nat) : PagedM α Bool := do
  return strongCount (← get).holders address = 1

def allocate (values : List α) : PagedM α Nat := do
  let w ← get
  set { w with heap := w.heap ++ [values] }
  return w.heap.length

def writePage (address : Nat) (values : List α) : PagedM α Unit :=
  modify fun w => { w with heap := w.heap.set address values }

def tryReserve (alloc : Site → Bool) (site : Site) : PagedM α Unit :=
  if alloc site then pure () else throw .capacity

/-! Values of a page. -/

def resizeValues (values : List α) (len : Nat) (default : α) : List α :=
  values.take len ++ List.replicate (len - values.length) default

def fillValues (values : List α) (start stop : Nat) (default : α) : PagedM α (List α) :=
  if start ≤ stop ∧ stop ≤ values.length then
    pure (values.take start ++ List.replicate (stop - start) default ++ values.drop stop)
  else throw (.panic "range out of bounds")

/-- The values of a tail page that becomes visible up to the required length. -/
def extendTail (values : List α) (start required : Nat) (default : α) : PagedM α (List α) :=
  fillValues (resizeValues values (max required values.length) default) start required default

/-! Operations. -/

def tryUniquePage (alloc : Site → Bool) (i pageIndex : Nat) : PagedM α Nat := do
  let f ← fork i
  let address ← pageAt f pageIndex
  if ← isUnique address then return address
  else do
    let values ← valuesAt address
    tryReserve alloc .unique
    let fresh ← allocate values
    setFork i { f with pages := f.pages.set pageIndex fresh }
    if ← isUnique fresh then return fresh
    else throw (.panic "copy-on-write page is exclusively owned")

def truncate (i len : Nat) : PagedM α Unit := do
  let f ← fork i
  let len := min f.len (if len ≤ U32_MAX then len else U32_MAX)
  setFork i { f with pages := f.pages.take (divCeil len VALUES_PER_PAGE), len }

/-- The copy of a shared tail page, or nothing where the page is written in place. -/
def tailReplacement (alloc : Site → Bool) (f : PagedCowVec α) (pageIndex newLen : Nat) :
    PagedM α (Option (List α)) := do
  let required := visiblePageLen newLen pageIndex
  let address ← pageAt f pageIndex
  if ← isUnique address then
    tryReserve alloc .tail
    return none
  else do
    let values ← valuesAt address
    tryReserve alloc .tail
    let replacement ← extendTail values (f.len % VALUES_PER_PAGE) required f.default
    return some replacement

def newPage (alloc : Site → Bool) (default : α) (newLen pageIndex : Nat) : PagedM α (List α) := do
  tryReserve alloc (.page pageIndex)
  return List.replicate (visiblePageLen newLen pageIndex) default

/-- Puts the extended tail page in its place, after every reservation has been made. -/
def commitTail (f : PagedCowVec α) (pageIndex newLen : Nat) : Option (List α) → PagedM α (PagedCowVec α)
  | some replacement => do
    let fresh ← allocate replacement
    if pageIndex < f.pages.length then return { f with pages := f.pages.set pageIndex fresh }
    else throw (.panic "index out of bounds")
  | none => do
    let address ← pageAt f pageIndex
    if ← isUnique address then
      let values ← valuesAt address
      let values ← extendTail values (f.len % VALUES_PER_PAGE) (visiblePageLen newLen pageIndex) f.default
      writePage address values
      return f
    else throw (.panic "reserved tail page remains exclusively owned")

def grow (alloc : Site → Bool) (i : Nat) (f : PagedCowVec α) (newLen : Nat) : PagedM α Unit := do
  let targetPages := divCeil newLen VALUES_PER_PAGE
  tryReserve alloc .pageTable
  let existingTail := if f.len % VALUES_PER_PAGE ≠ 0 then some (f.len / VALUES_PER_PAGE) else none
  let replacement ← match existingTail with
    | none => pure none
    | some pageIndex => tailReplacement alloc f pageIndex newLen
  tryReserve alloc .newPages
  let newPages ← (List.range' f.pages.length (targetPages - f.pages.length)).mapM (newPage alloc f.default newLen)
  let f ← match existingTail with
    | none => pure f
    | some pageIndex => commitTail f pageIndex newLen replacement
  let addresses ← newPages.mapM allocate
  setFork i { f with pages := f.pages ++ addresses, len := newLen }

def tryResize (alloc : Site → Bool) (i len : Nat) : PagedM α Unit := do
  if U32_MAX < len then throw .capacity
  else do
    let f ← fork i
    if len ≤ f.len then truncate i len else grow alloc i f len

def trySet (alloc : Site → Bool) (i index : Nat) (value : α) : PagedM α (Option α) := do
  if U64_MAX < index + 1 then throw .capacity
  else do
    let f ← fork i
    let old := (← get).get f index
    if f.len < index + 1 then tryResize alloc i (index + 1)
    let address ← tryUniquePage alloc i (index / VALUES_PER_PAGE)
    let values ← valuesAt address
    if index % VALUES_PER_PAGE < values.length then
      writePage address (values.set (index % VALUES_PER_PAGE) value)
      return old
    else throw (.panic "index out of bounds")

end Opto.Paged
