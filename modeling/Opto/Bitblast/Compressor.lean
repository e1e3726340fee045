import Opto.Bitblast.Adders

/-!
# Column compression

A matrix collects rows of partial products and a constant correction. A schedule reduces
the rows, or the columns of their bits, by full and half adders until two vectors are left.
-/

namespace Opto.Bitblast

variable {σ ε β : Type} [BitBackend σ ε β]

/-- A row has at most one bit for every column. -/
abbrev BitRow (β : Type) := List (Option β)

abbrev BitColumn (β : Type) := List β

inductive CompressionSchedule
  | serial
  | balanced
  | wallace
  | dadda
deriving DecidableEq, Repr

structure BitMatrix (β : Type) where
  width : Nat
  rows : List (BitRow β)
  correction : List Bool

namespace BitMatrix

def new (width : Nat) : BitMatrix β := ⟨width, [], List.replicate width false⟩

def pushRow (matrix : BitMatrix β) (row : BitRow β) : BitMatrix β :=
  if row.any Option.isSome then { matrix with rows := matrix.rows ++ [row] } else matrix

/-- Adds one to the bits, or takes one away, with the carry that runs through them. -/
def addOne (negative : Bool) : List Bool → List Bool
  | [] => []
  | bit :: bits => (!bit) :: if bit ^^ negative then addOne negative bits else bits

def addCorrectionPower (matrix : BitMatrix β) (column : Nat) (negative : Bool) : BitMatrix β :=
  if matrix.width ≤ column then matrix
  else { matrix with
    correction := matrix.correction.take column ++ addOne negative (matrix.correction.drop column) }

def takeRowsWithCorrection (matrix : BitMatrix β) (one : β) : List (BitRow β) :=
  if matrix.correction.any id then
    matrix.rows ++ [matrix.correction.map fun bit => if bit then some one else none]
  else matrix.rows

end BitMatrix

/-- The sum bit and the carry bit of a column. -/
def compressColumn (left right third : Option β) : BlastM σ ε (Option β × Option β) :=
  match [left, right, third].reduceOption with
  | [] => pure (none, none)
  | [first] => pure (some first, none)
  | [first, second] => do
    let (sum, carry) ← halfAdder first second
    return (some sum, some carry)
  | first :: second :: third :: _ => do
    let (sum, carry) ← fullAdder first second third
    return (some sum, some carry)

def compressAt (left right third : BitRow β) (column : Nat) : BlastM σ ε (Option β × Option β) :=
  match left[column]?, right[column]?, third[column]? with
  | some left, some right, some third => compressColumn left right third
  | _, _, _ => panicAt "index out of bounds"

/-- A carry goes to the next column, as long as there is one. -/
def compressRowTriplet (left right third : BitRow β) (width : Nat) :
    BlastM σ ε (List (BitRow β)) := do
  let columns ← (List.range width).mapM (compressAt left right third)
  return [columns.map Prod.fst, (none :: columns.map Prod.snd).take width]

def reduceRowsSerial (rows : List (BitRow β)) (width : Nat) : BlastM σ ε (List (BitRow β)) :=
  match rows with
  | left :: right :: remainder =>
    remainder.foldlM (fun rows row =>
      match rows with
      | [left, right] => compressRowTriplet left right row width
      | rows => invariantError s!"serial compressor retained {rows.length} accumulator rows")
      [left, right]
  | rows => pure rows

def compressTriplets (width : Nat) : List (BitRow β) → BlastM σ ε (List (BitRow β))
  | left :: right :: third :: rest => do
    let pair ← compressRowTriplet left right third width
    let next ← compressTriplets width rest
    return pair ++ next
  | rows => pure rows

def reduceRowsBalanced (width : Nat) : Nat → List (BitRow β) → BlastM σ ε (List (BitRow β))
  | 0, _ => throw .fuel
  | fuel + 1, rows =>
    if 2 < rows.length then do
      let next ← compressTriplets width rows
      reduceRowsBalanced width fuel next
    else pure rows

/-- `full` full adders, then `half` half adders, and the bits that are left. -/
def reduceColumn : Nat → Nat → BitColumn β → BlastM σ ε (BitColumn β × BitColumn β)
  | full + 1, half, left :: right :: third :: rest => do
    let (sum, carry) ← fullAdder left right third
    let (sums, carries) ← reduceColumn full half rest
    return (sum :: sums, carry :: carries)
  | 0, half + 1, left :: right :: rest => do
    let (sum, carry) ← halfAdder left right
    let (sums, carries) ← reduceColumn 0 half rest
    return (sum :: sums, carry :: carries)
  | 0, 0, rest => pure (rest, [])
  | _, _, _ => panicAt "full adder has three inputs"

/-- One pass over the columns. `plan` counts the full and the half adders of a column from the
carries that came in and the column's height; the flag says whether there was any. -/
def reducePass (plan : Nat → Nat → Nat × Nat) :
    BitColumn β → List (BitColumn β) → BlastM σ ε (List (BitColumn β) × Bool)
  | _, [] => pure ([], false)
  | incoming, column :: rest => do
    let adders := plan incoming.length column.length
    let (sums, carries) ← reduceColumn adders.1 adders.2 column
    let (next, progress) ← reducePass plan carries rest
    return ((incoming ++ sums) :: next, decide (adders.1 + adders.2 ≠ 0) || progress)

def columnsToRows (columns : List (BitColumn β)) : BlastM σ ε (List (BitRow β)) :=
  if columns.any (2 < ·.length) then invariantError "column reduction left more than two rows"
  else pure [columns.map (·[0]?), columns.map (·[1]?)]

def wallacePlan (_ height : Nat) : Nat × Nat := (height / 3, 0)

def reduceColumnsWallace : Nat → List (BitColumn β) → BlastM σ ε (List (BitRow β))
  | 0, _ => throw .fuel
  | fuel + 1, columns =>
    if columns.any (2 < ·.length) then do
      let (next, _) ← reducePass wallacePlan [] columns
      reduceColumnsWallace fuel next
    else columnsToRows columns

def daddaPlan (target incoming height : Nat) : Nat × Nat :=
  let excess := height + incoming - target
  let full := min (excess / 2) (height / 3)
  let half := min (excess - full * 2) ((height - full * 3) / 2)
  (full, half)

/-- The heights to reach, from `target` up to the first that is not below `maximum`. -/
def daddaTargets (maximum target : Nat) : List Nat :=
  if 2 ≤ target ∧ target < maximum then target :: daddaTargets maximum (target * 3 / 2)
  else [target]
termination_by maximum - target
decreasing_by omega

def reduceToTarget (target : Nat) : Nat → List (BitColumn β) → BlastM σ ε (List (BitColumn β))
  | 0, _ => throw .fuel
  | fuel + 1, columns => do
    let (next, progress) ← reducePass (daddaPlan target) [] columns
    if next.all (·.length ≤ target) then pure next
    else if !progress then invariantError "Dadda reduction made no progress"
    else reduceToTarget target fuel next

def totalBits (columns : List (BitColumn β)) : Nat := (columns.map List.length).sum

def reduceColumnsDadda (columns : List (BitColumn β)) : BlastM σ ε (List (BitRow β)) := do
  let maximum := (columns.map List.length).foldl max 0
  let targets := (daddaTargets maximum 2).reverse.drop 1
  let columns ← targets.foldlM
    (fun columns target => reduceToTarget target (totalBits columns + 1) columns) columns
  if columns.any (2 < ·.length) then invariantError "Dadda reduction left more than two rows"
  else columnsToRows columns

/-- Adds the bits of a row to the columns. -/
def pushToColumns (columns : List (BitColumn β)) (row : BitRow β) : List (BitColumn β) :=
  columns.zipWith (fun column bit => column ++ bit.toList) row ++ columns.drop row.length

def rowsToColumns (rows : List (BitRow β)) (width : Nat) : List (BitColumn β) :=
  rows.foldl pushToColumns (List.replicate width [])

def rowsToVectors (rows : List (BitRow β)) (width : Nat) (zero : β) :
    BlastM σ ε (List β × List β) :=
  match rows with
  | [] => let row := List.replicate width zero
    pure (row, row)
  | [left] => pure (left.map (·.getD zero), List.replicate width zero)
  | [left, right] => pure (left.map (·.getD zero), right.map (·.getD zero))
  | _ => invariantError "arithmetic compression left more than two rows"

def reduceRows (schedule : CompressionSchedule) (rows : List (BitRow β)) (width : Nat) :
    BlastM σ ε (List (BitRow β)) :=
  match schedule with
  | .serial => reduceRowsSerial rows width
  | .balanced => reduceRowsBalanced width (rows.length + 1) rows
  | .wallace =>
    let columns := rowsToColumns rows width
    reduceColumnsWallace (totalBits columns + 1) columns
  | .dadda => reduceColumnsDadda (rowsToColumns rows width)

def reduceMatrix (matrix : BitMatrix β) (schedule : CompressionSchedule) (zero one : β) :
    BlastM σ ε (List β × List β) := do
  let rows ← reduceRows schedule (matrix.takeRowsWithCorrection one) matrix.width
  rowsToVectors rows matrix.width zero

end Opto.Bitblast
