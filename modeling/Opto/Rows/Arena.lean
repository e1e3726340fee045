import Opto.Rows.Page

/-!
# Row arenas

An arena keeps its rows in pages. An edit makes the page of its row dirty and leaves the
packed page, which other arenas may share, as it is; so pages are shared by their values.
Compaction packs every dirty page before it replaces any.
-/

namespace Opto.Rows

open Mapped (U32_MAX U64_MAX)
open Pages

variable {α : Type}

structure RowArena (α : Type) where
  pages : List (RowPage α)
  rowCount : Nat

abbrev ArenaM (α β : Type) := EStateM Failure (RowArena α) β

def reserve (alloc : Site → Bool) (site : Site) : ArenaM α Unit :=
  if alloc site then pure () else throw .capacity

def settle {β : Type} : Except Failure β → ArenaM α β
  | .ok b => pure b
  | .error e => throw e

/-- The number of rows of one page in sixteen bits. -/
def pageRows (rows : Nat) : Except Failure Nat :=
  if U16_MAX < rows then .error (.panic "one row page contains at most 4096 rows") else .ok rows

/-! Reading. -/

def RowArena.get (a : RowArena α) (row : Nat) : Except Failure (Option (List α)) :=
  if row < a.rowCount then
    match a.pages[row / ROWS_PER_PAGE]? with
    | some page => some <$> page.row (row % ROWS_PER_PAGE)
    | none => .error (.panic "index out of bounds")
  else .ok none

def RowArena.index (a : RowArena α) (row : Nat) : Except Failure (List α) := do
  match ← a.get row with
  | some values => .ok values
  | none => .error (.panic "row arena index is in bounds")

/-! Building. -/

structure RowArenaBuilder (α : Type) where
  pages : List (RowPage α)
  current : Option (PackedRows α)
  rowCount : Nat

namespace RowArenaBuilder

def tryWithCapacity (alloc : Site → Bool) (rowCapacity : Nat) : Except Failure (RowArenaBuilder α) :=
  if U32_MAX < rowCapacity then .error .capacity
  else do
    tryReserve alloc .pageTable
    if rowCapacity = 0 then return ⟨[], none, 0⟩
    else return ⟨[], some (← Rows.tryWithCapacity alloc 0 ROWS_PER_PAGE 0), 0⟩

def finishPage (b : RowArenaBuilder α) : RowArenaBuilder α :=
  match b.current with
  | some page =>
    if page.rowCount ≠ 0 then { b with pages := b.pages ++ [.packed page], current := none }
    else { b with current := none }
  | none => b

/-- Seals a page that is full. -/
def roll (b : RowArenaBuilder α) (alloc : Site → Bool) : Except Failure (RowArenaBuilder α) :=
  if b.current.any (·.rowCount = ROWS_PER_PAGE) then do
    tryReserve alloc .pageTable
    let next ← Rows.tryWithCapacity alloc (b.pages.length + 1) ROWS_PER_PAGE 0
    return { b.finishPage with current := some next }
  else .ok b

def ensureCurrent (b : RowArenaBuilder α) (alloc : Site → Bool) : Except Failure (RowArenaBuilder α) :=
  if b.current.isNone then do
    tryReserve alloc .pageTable
    return { b with current := some (← Rows.tryWithCapacity alloc b.pages.length ROWS_PER_PAGE 0) }
  else .ok b

def tryPushRow (b : RowArenaBuilder α) (alloc : Site → Bool) (row : List α) : Except Failure (RowArenaBuilder α) :=
  if b.rowCount = U32_MAX then .error .capacity
  else do
    let b ← b.roll alloc
    let b ← b.ensureCurrent alloc
    match b.current with
    | none => .error (.panic "current row page was initialized")
    | some page =>
      let page ← page.tryPushRow alloc b.pages.length row
      return { b with current := some page, rowCount := b.rowCount + 1 }

def finish (b : RowArenaBuilder α) : RowArena α := ⟨b.finishPage.pages, b.finishPage.rowCount⟩

end RowArenaBuilder

def tryFromRows (alloc : Site → Bool) (rows : List (List α)) : Except Failure (RowArena α) := do
  let builder ← RowArenaBuilder.tryWithCapacity alloc rows.length
  let builder ← rows.foldlM (fun (builder : RowArenaBuilder α) row => builder.tryPushRow alloc row) builder
  return builder.finish

/-! Edits of one row. -/

/-- The page of a row, dirty from now on, and the row's position in it. -/
def dirtyRow (row : Nat) : ArenaM α (DirtyPage α × Nat) := do
  let a ← get
  if a.rowCount ≤ row then throw (.panic "row arena index is in bounds")
  else match a.pages[row / ROWS_PER_PAGE]? with
    | none => throw (.panic "index out of bounds")
    | some page =>
      let rows ← settle page.visibleRows
      let d := page.makeDirty rows
      set { a with pages := a.pages.set (row / ROWS_PER_PAGE) (.dirty d) }
      return (d, row % ROWS_PER_PAGE)

def writeBack (row : Nat) (d : DirtyPage α) : ArenaM α Unit :=
  modify fun a => { a with pages := a.pages.set (row / ROWS_PER_PAGE) (.dirty d) }

/-- Borrows a row; the borrower edits it in any way. -/
def rowMut (row : Nat) (edit : List α → List α) : ArenaM α Unit := do
  let (d, position) ← dirtyRow row
  writeBack row (← settle (d.rowMut position edit))

def replace (row : Nat) (values : List α) : ArenaM α Unit := do
  let (d, position) ← dirtyRow row
  writeBack row (← settle (d.replace position values))

def push (row : Nat) (value : α) : ArenaM α Unit := rowMut row (· ++ [value])

/-- The predicate may depend on the values that it has seen. -/
def retained (predicate : List α → α → Bool) (seen : List α) : List α → List α
  | [] => []
  | value :: values =>
    if predicate seen value then value :: retained predicate (seen ++ [value]) values
    else retained predicate (seen ++ [value]) values

def retain (row : Nat) (predicate : List α → α → Bool) : ArenaM α Unit := rowMut row (retained predicate [])

/-! Growing and shrinking. -/

def tryReserveRows (alloc : Site → Bool) (rowCount : Nat) : ArenaM α Unit :=
  if U32_MAX < rowCount then throw .capacity else reserve alloc .pageTable

/-- The last page takes what it has room for. -/
def growLast (rowCount : Nat) : ArenaM α Unit := do
  let a ← get
  match a.pages.getLast? with
  | none => pure ()
  | some last =>
    if a.rowCount % ROWS_PER_PAGE = 0 then pure ()
    else do
      let rows ← settle (pageRows (min (rowCount - (a.pages.length - 1) * ROWS_PER_PAGE) ROWS_PER_PAGE))
      let d : DirtyPage α := { last.makeDirty rows with rows }
      set { a with pages := a.pages.set (a.pages.length - 1) (.dirty d) }

def growPage (rowCount : Nat) : ArenaM α Unit := do
  let a ← get
  let first := a.pages.length * ROWS_PER_PAGE
  let rows ← settle (pageRows (min (rowCount - first) ROWS_PER_PAGE))
  set { a with pages := a.pages ++ [RowPage.dirty ⟨none, rows, []⟩] }

def setRowCount (rowCount : Nat) : ArenaM α Unit := modify fun a => { a with rowCount }

def resizeEmpty (alloc : Site → Bool) (rowCount : Nat) : ArenaM α Unit := do
  let a ← get
  if rowCount < a.rowCount then throw (.panic "resize_empty cannot remove rows")
  else if rowCount = a.rowCount then pure ()
  else do
    tryReserveRows alloc rowCount
    let targetPages := divCeil rowCount ROWS_PER_PAGE
    growLast rowCount
    (List.range (targetPages - a.pages.length)).forM fun _ => growPage rowCount
    setRowCount rowCount

def pushEmpty (alloc : Site → Bool) : ArenaM α Unit := do
  let a ← get
  if U64_MAX < a.rowCount + 1 then throw .capacity else resizeEmpty alloc (a.rowCount + 1)

def tryEmpty (alloc : Site → Bool) (rowCount : Nat) : Except Failure (RowArena α) :=
  match (resizeEmpty alloc rowCount).run ⟨[], 0⟩ with
  | .ok _ a => .ok a
  | .error e _ => .error e

def RowArena.allEmpty (a : RowArena α) (start stop : Nat) : Except Failure Bool :=
  (List.range' start (stop - start)).allM fun row => List.isEmpty <$> a.index row

/-- The page at the cut keeps the rows before it. -/
def cutLast (tailRows : Nat) : ArenaM α Unit := do
  let a ← get
  match a.pages.getLast? with
  | none => pure ()
  | some last =>
    if tailRows = 0 then pure ()
    else do
      let rows ← settle (pageRows tailRows)
      let d : DirtyPage α := { last.makeDirty rows with rows }
      set { a with pages := a.pages.set (a.pages.length - 1) (.dirty d) }

def truncateEmpty (rowCount : Nat) : ArenaM α Unit := do
  let a ← get
  let trailing ← if rowCount ≤ a.rowCount then settle (a.allEmpty rowCount a.rowCount) else pure false
  if trailing = false then throw (.panic "only empty trailing rows can be truncated")
  else if rowCount = a.rowCount then pure ()
  else do
    let targetPages := divCeil rowCount ROWS_PER_PAGE
    set { a with pages := a.pages.take targetPages }
    cutLast (rowCount % ROWS_PER_PAGE)
    setRowCount rowCount

def popEmpty : ArenaM α Unit := do
  let a ← get
  if a.rowCount = 0 then throw (.panic "row arena is not empty") else truncateEmpty (a.rowCount - 1)

/-! Compaction and forks. -/

def RowPage.isDirty : RowPage α → Bool
  | packed _ => false
  | dirty _ => true

/-- The packed form of every dirty page, with its place. -/
def repack (alloc : Site → Bool) (pages : List (RowPage α)) : Except Failure (List (Nat × PackedRows α)) :=
  pages.zipIdx.foldlM (fun replacements entry =>
    match entry with
    | (.packed _, _) => .ok replacements
    | (.dirty d, index) => do return replacements ++ [(index, ← d.pack alloc index)]) []

def installPage (replacement : Nat × PackedRows α) : ArenaM α Unit := do
  let a ← get
  if replacement.1 < a.pages.length then
    set { a with pages := a.pages.set replacement.1 (.packed replacement.2) }
  else throw (.panic "index out of bounds")

def compact (alloc : Site → Bool) : ArenaM α Unit := do
  let a ← get
  let dirtyCount := (a.pages.filter RowPage.isDirty).length
  if dirtyCount = 0 then pure ()
  else do
    reserve alloc .replacements
    let replacements ← settle (repack alloc a.pages)
    replacements.forM installPage

def sharedPage : RowPage α → Option (RowPage α)
  | .packed page => some (.packed page)
  | .dirty _ => none

def RowArena.forkShared (a : RowArena α) : Option (RowArena α) :=
  (a.pages.mapM sharedPage).map fun pages => ⟨pages, a.rowCount⟩

end Opto.Rows
