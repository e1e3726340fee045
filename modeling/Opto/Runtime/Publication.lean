import Opto.Runtime.Worklist

/-!
# Publishing dependency rows

Every item of a worklist publishes the rows that it owns. One coordinator prepares items
that are ready and commits what was analyzed, alone or with workers whose results arrive
in any order. A failed run takes all rows back.
-/

namespace Opto.Runtime

open Mapped (U32_MAX U64_MAX)

/-! Plans, publications and activation. -/

inductive PublicationRows
  | identity
  | sparse (rows : CsrEdges)
  deriving DecidableEq, Repr

structure DependencyPublicationPlan where
  itemCount : Nat
  rowCount : Nat
  rows : PublicationRows
  deriving DecidableEq, Repr

inductive DependencyPublication (R : Type)
  | none
  | row (row : Nat) (value : R)
  | rows (rows : List (Nat × R))
  deriving DecidableEq, Repr

def DependencyPublication.intoRows {R : Type} : DependencyPublication R → List (Nat × R)
  | .none => []
  | .row target value => [(target, value)]
  | .rows entries => entries

namespace DependencyPublicationPlan

def identity (rowCount : Nat) : DependencyPublicationPlan := ⟨rowCount, rowCount, .identity⟩

def own (owners : List (Option Nat)) (entry : Nat × Nat) : Except RuntimeError (List (Option Nat)) :=
  if owners[entry.2]?.join.isSome then invalid "dependency publication row has more than one owner"
  else .ok (owners.set entry.2 (some entry.1))

def sparse (itemCount rowCount : Nat) (entries : List (Nat × Nat)) :
    Except RuntimeError DependencyPublicationPlan := do
  if U64_MAX ≤ rowCount then invalid "dependency row count exceeds addressable capacity"
  else if entries.any fun entry => itemCount ≤ entry.1 || rowCount ≤ entry.2 then
    invalid "dependency publication row is outside its item or row arena"
  else if ¬entries.Nodup then
    invalid "dependency publication item declares the same row more than once"
  else
    let _ ← (entries.insertionSort DependencyWorklist.keyLe).foldlM own (List.replicate rowCount none)
    let rows ← CsrEdges.sealRows itemCount entries
    return { itemCount, rowCount, rows := .sparse rows }

variable (plan : DependencyPublicationPlan)

def ownedRows (item : Nat) : List Nat :=
  match plan.rows with
  | .identity => if item < plan.itemCount then [item] else []
  | .sparse rows => rows.row item

/-- The rows of a publication are those of the item, in their order. -/
def ownsPublication {R : Type} (item : Nat) : DependencyPublication R → Bool
  | .none => (plan.ownedRows item).length = 0
  | .row row _ => (plan.ownedRows item).length = 1 && (plan.ownedRows item)[0]? = some row
  | .rows rows => rows.length = (plan.ownedRows item).length &&
      rows.zipIdx.all fun entry => (plan.ownedRows item)[entry.2]? = some entry.1.1

end DependencyPublicationPlan

structure DependencyActivation where
  active : Option (List Bool)
  deriving DecidableEq, Repr

namespace DependencyActivation

def all : DependencyActivation := ⟨none⟩

def onChange (itemCount : Nat) (seeds : List Nat) : Except RuntimeError DependencyActivation := do
  let active ← seeds.foldlM (fun (active : List Bool) item =>
    if item < active.length then .ok (active.set item true)
    else invalid "dependency activation seed is outside the item arena") (List.replicate itemCount false)
  return ⟨some active⟩

def contains (activation : DependencyActivation) (item : Nat) : Bool :=
  activation.active.all fun active => active[item]?.getD false

def activate (activation : DependencyActivation) (item : Nat) : DependencyActivation :=
  ⟨activation.active.map (·.set item true)⟩

def itemCount (activation : DependencyActivation) : Option Nat := activation.active.map List.length

end DependencyActivation

def DependencyWorklist.itemCount (w : DependencyWorklist) : Nat := w.state.length

def DependencyWorklist.activateDependents (w : DependencyWorklist) (item : Nat)
    (activation : DependencyActivation) : DependencyActivation :=
  (w.dependents item).foldl (fun activation dependent =>
    if w.dependentIsEnabled item dependent then activation.activate dependent else activation)
    activation

/-! Rows. -/

/-- An owner of rows. A replacement is transactional: where it panics, nothing has changed. -/
structure DependencyRowStore (R S π : Type) where
  len : S → Nat
  get : S → Nat → Option R
  /-- The previous row, whether the new one differs from it, and the store. -/
  replace : S → Nat → R → Except π (Option (R × Bool × S))
  rollback : S → Nat → R → S
  differs : R → R → Bool
  get_isSome : ∀ s row, (get s row).isSome = true ↔ row < len s
  replace_some : ∀ s row value previous changed s',
    replace s row value = .ok (some (previous, changed, s')) →
      get s row = some previous ∧ changed = differs previous value ∧ len s' = len s ∧
        ∀ r, get s' r = if r = row then some value else get s r
  replace_none : ∀ s row value, replace s row value = .ok none → len s ≤ row
  rollback_spec : ∀ s row previous, row < len s → len (rollback s row previous) = len s ∧
    ∀ r, get (rollback s row previous) r = if r = row then some previous else get s r

theorem sliceRow_set {R : Type} {rows : List R} {row : Nat} (hlt : row < rows.length) (value : R) (r : Nat) :
    (rows.set row value)[r]? = if r = row then some value else rows[r]? := by
  split_ifs with hr
  · rw [hr, List.getElem?_set_self hlt]
  · rw [List.getElem?_set_ne fun he => hr he.symm]

/-- A slice replaces a row in place, and takes it back the same way. -/
def sliceRowStore (R π : Type) [DecidableEq R] : DependencyRowStore R (List R) π where
  len := List.length
  get rows row := rows[row]?
  replace rows row value := .ok (rows[row]?.map fun target => (target, decide (target ≠ value), rows.set row value))
  rollback rows row previous := rows.set row previous
  differs previous value := decide (previous ≠ value)
  get_isSome rows row := by simp
  replace_some rows row value previous changed rows' h := by
    obtain ⟨target, htarget, heq⟩ := Option.map_eq_some_iff.mp (Except.ok.inj h)
    obtain ⟨rfl, rfl, rfl⟩ := heq
    refine ⟨htarget, rfl, List.length_set, ?_⟩
    intro r
    exact sliceRow_set (List.getElem?_eq_some_iff.mp htarget).1 value r
  replace_none rows row value h := by
    have hnone := Option.map_eq_none_iff.mp (Except.ok.inj h)
    exact List.getElem?_eq_none_iff.mp hnone
  rollback_spec rows row previous hlt := ⟨List.length_set, fun r => sliceRow_set hlt previous r⟩

structure DependencyEffect (R : Type) where
  item : Nat
  row : Nat
  previous : R
  deriving DecidableEq, Repr

/-- The journal, whatever the order of completions. -/
def stabilize {R : Type} (journal : List (DependencyEffect R)) : List (DependencyEffect R) :=
  journal.insertionSort fun a b => DependencyWorklist.keyLe (a.item, a.row) (b.item, b.row)

structure DependencyExecution where
  publishedItems : List Nat
  changedItems : List Nat
  changedRows : List Nat
  deriving DecidableEq, Repr

/-- A callback fails or panics. -/
inductive DependencyFailure (ε π : Type)
  | error (error : ε)
  | panic (payload : π)
  deriving DecidableEq, Repr

/-- A failure and the item that it is reported for, if any. -/
structure Reported (ε π : Type) where
  item : Option Nat
  failure : DependencyFailure ε π
  deriving DecidableEq, Repr

/-- What happens to an item: its callbacks are called, its rows are committed, it is passed over. -/
inductive Event
  | ran (item : Nat)
  | published (item : Nat)
  | skipped (item : Nat)
  deriving DecidableEq, Repr

/-- The callbacks and the plan of one call, and the kind of its rows. -/
structure DependencyCalls (R S ι ε π : Type) where
  plan : DependencyPublicationPlan
  store : DependencyRowStore R S π
  prepare : S → Nat → Except (DependencyFailure ε π) ι
  analyze : ι → Except (DependencyFailure ε π) (DependencyPublication R)
  /-- How a runtime error becomes one of the caller's. -/
  fromRuntime : RuntimeError → ε

structure PublicationCoordinator (R S ι ε π : Type) where
  worklist : DependencyWorklist
  rows : S
  activation : DependencyActivation
  journal : List (DependencyEffect R)
  publishedItems : List Nat
  changedItems : List Nat
  changedRows : List Nat
  failure : Option (Nat × DependencyFailure ε π)
  /-- The items that workers analyze, with their inputs. -/
  inFlight : List (Nat × ι)
  cancelled : Bool
  /-- What happened so far; the code does not record it. -/
  events : List Event

/-- What the coordinator cannot choose: whether the run is cancelled, and which result arrives. -/
structure Turn where
  cancelledBefore : Bool
  cancelledAfter : Bool
  arrival : Nat
  deriving DecidableEq, Repr

def retainStableFailure {ε π : Type} (failure : Option (Nat × DependencyFailure ε π)) (item : Nat)
    (error : DependencyFailure ε π) : Option (Nat × DependencyFailure ε π) :=
  if failure.all (item < ·.1) then some (item, error) else failure

/-- The state is there also where a step fails. -/
abbrev Coordinating (e R S ι ε π : Type) := EStateM e (PublicationCoordinator R S ι ε π)

section Coordinator

variable {R S ι ε π : Type} (calls : DependencyCalls R S ι ε π)

/-! Committing. -/

def commitRow (item : Nat) (itemChanged : Bool) (entry : Nat × R) :
    Coordinating (DependencyFailure RuntimeError π) R S ι ε π Bool := fun c =>
  match calls.store.replace c.rows entry.1 entry.2 with
  | .error payload => .error (.panic payload) c
  | .ok none =>
    .error (.error (.invalidDependencyPlan "worker publication row is outside its mutable owner")) c
  | .ok (some (previous, changed, rows)) =>
    .ok (itemChanged || changed) { c with
      rows
      journal := c.journal ++ [⟨item, entry.1, previous⟩]
      changedRows := if changed then c.changedRows ++ [entry.1] else c.changedRows }

/-- The dependents of a changed item are activated before it releases them. -/
def complete (item : Nat) (itemChanged : Bool) :
    Coordinating (DependencyFailure RuntimeError π) R S ι ε π Unit := fun c =>
  let c := { c with
    publishedItems := c.publishedItems ++ [item]
    changedItems := if itemChanged then c.changedItems ++ [item] else c.changedItems
    activation := if itemChanged then c.worklist.activateDependents item c.activation else c.activation }
  match c.worklist.finish item with
  | .ok worklist => .ok () { c with worklist, events := c.events ++ [.published item] }
  | .error e => .error (.error e) c

def commit (item : Nat) (publication : DependencyPublication R) :
    Coordinating (DependencyFailure RuntimeError π) R S ι ε π Unit := do
  if calls.plan.ownsPublication item publication = false then
    throw (.error (.invalidDependencyPlan
      "worker publication does not match its sealed row ownership"))
  else
    let itemChanged ← publication.intoRows.foldlM (commitRow calls item) false
    complete item itemChanged

def retain (item : Nat) (error : DependencyFailure ε π) : Coordinating (Reported ε π) R S ι ε π Unit :=
  modify fun c => { c with failure := retainStableFailure c.failure item error }

/-- An error of the commit is retained; a panic of the rows is not caught here. -/
def publish (item : Nat) (publication : DependencyPublication R) :
    Coordinating (Reported ε π) R S ι ε π Unit := fun c =>
  match (commit calls item publication).run c with
  | .ok () c => .ok () c
  | .error (.error e) c => (retain item (.error (calls.fromRuntime e))).run c
  | .error (.panic payload) c => .error ⟨some item, .panic payload⟩ c

def skip (item : Nat) : Coordinating (Reported ε π) R S ι ε π Unit := fun c =>
  match c.worklist.finish item with
  | .ok worklist => .ok () { c with worklist, events := c.events ++ [.skipped item] }
  | .error e => .error ⟨none, .error (calls.fromRuntime e)⟩ c

def claimReady (limit : Nat) : Coordinating (Reported ε π) R S ι ε π (Option (List Nat)) := fun c =>
  match c.worklist.claimReadyBounded limit with
  | .ok (items, worklist) => .ok items { c with worklist }
  | .error e => .error ⟨none, .error (calls.fromRuntime e)⟩ c

/-- The callbacks of the item are called. -/
def begin (item : Nat) : Coordinating (Reported ε π) R S ι ε π Unit :=
  modify fun c => { c with events := c.events ++ [.ran item] }

/-! One worker. -/

def serialItem (turn : Turn) (item : Nat) : Coordinating (Reported ε π) R S ι ε π Unit := do
  let c ← get
  if c.activation.contains item = false then skip calls item
  else if turn.cancelledBefore then throw ⟨none, .error (calls.fromRuntime .cancelled)⟩
  else
    begin item
    match calls.prepare c.rows item >>= calls.analyze with
    | .error error => retain item error
    | .ok output => publish calls item output

def serialTurn (turn : Turn) : Coordinating (Reported ε π) R S ι ε π Bool := do
  let items ← claimReady calls 1
  if items.getD [] = [] then return false
  else
    (items.getD []).forM (serialItem calls turn)
    return true

/-! Several workers. -/

def dispatch (item : Nat) : Coordinating (Reported ε π) R S ι ε π Unit := do
  let c ← get
  if c.activation.contains item = false then skip calls item
  else
    begin item
    match calls.prepare c.rows item with
    | .error error => retain item error
    | .ok input => modify fun c => { c with inFlight := c.inFlight ++ [(item, input)] }

/-- The result of a worker. -/
def receive (item : Nat) (input : ι) : Coordinating (Reported ε π) R S ι ε π Unit := do
  let c ← get
  match calls.analyze input with
  | .error error => retain item error
  | .ok output => if c.cancelled then return () else publish calls item output

/-- One of the results in flight arrives, any of them. -/
def arrive (turn : Turn) (claimedAny : Bool) : Coordinating (Reported ε π) R S ι ε π Bool := do
  let c ← get
  let arrival := turn.arrival % c.inFlight.length
  match c.inFlight[arrival]? with
  | none => return claimedAny
  | some (item, input) =>
    set { c with inFlight := c.inFlight.eraseIdx arrival, cancelled := c.cancelled || turn.cancelledAfter }
    receive calls item input
    return true

def parallelTurn (workerCount : Nat) (turn : Turn) : Coordinating (Reported ε π) R S ι ε π Bool := do
  modify fun c => { c with cancelled := c.cancelled || turn.cancelledBefore }
  let c ← get
  let available := workerCount - c.inFlight.length
  if c.cancelled ∨ available = 0 then arrive calls turn false
  else
    let items ← claimReady calls available
    (items.getD []).forM (dispatch calls)
    arrive calls turn !(items.getD []).isEmpty

/-! The whole call. -/

/-- Turns until one ends the loop; whether there were enough. -/
def loop (turn : Nat → Coordinating (Reported ε π) R S ι ε π Bool) :
    Nat → Nat → Coordinating (Reported ε π) R S ι ε π Bool
  | 0, _ => return false
  | fuel + 1, k => do
    if ← turn k then loop turn fuel (k + 1) else return true

def resolveDependencyFailure (c : PublicationCoordinator R S ι ε π) : Except (Reported ε π) Unit :=
  match c.failure with
  | some (item, failure) => .error ⟨some item, failure⟩
  | none => if c.cancelled then .error ⟨none, .error (calls.fromRuntime .cancelled)⟩ else .ok ()

def rollback (journal : List (DependencyEffect R)) (rows : S) : S :=
  journal.reverse.foldl (fun rows entry => calls.store.rollback rows entry.row entry.previous) rows

def validatePublicationExecution (worklist : DependencyWorklist) (rowCount : Nat)
    (activation : DependencyActivation) : Except RuntimeError Unit :=
  if calls.plan.itemCount ≠ worklist.itemCount then
    invalid "dependency publication and worklist item arenas differ"
  else if calls.plan.rowCount ≠ rowCount then
    invalid "dependency publication plan does not cover the mutable row arena"
  else if activation.itemCount.any (· ≠ worklist.itemCount) then
    invalid "dependency activation and worklist item arenas differ"
  else .ok ()

structure PublicationResult (R S ε π : Type) where
  rows : S
  effects : Option (List (DependencyEffect R))
  result : Except (Reported ε π) DependencyExecution
  events : List Event
  deriving DecidableEq, Repr

def PublicationCoordinator.start (worklist : DependencyWorklist) (rows : S) (activation : DependencyActivation) :
    PublicationCoordinator R S ι ε π :=
  { worklist, rows, activation
    journal := []
    publishedItems := []
    changedItems := []
    changedRows := []
    failure := none
    inFlight := []
    cancelled := false
    events := [] }

def PublicationCoordinator.execution (c : PublicationCoordinator R S ι ε π) : DependencyExecution where
  publishedItems := c.publishedItems.insertionSort (· ≤ ·)
  changedItems := c.changedItems.insertionSort (· ≤ ·)
  changedRows := c.changedRows.insertionSort (· ≤ ·)

def PublicationCoordinator.failed (c : PublicationCoordinator R S ι ε π)
    (effects : Option (List (DependencyEffect R))) (reported : Reported ε π) : PublicationResult R S ε π where
  rows := rollback calls c.journal c.rows
  effects := effects.map fun _ => []
  result := .error reported
  events := c.events

/-- Nothing where the fuel does not last. -/
def publishDependencyRows (parallelism : Nat) (schedule : Nat → Turn) (fuel : Nat) (worklist : DependencyWorklist)
    (rows : S) (activation : DependencyActivation) (effects : Option (List (DependencyEffect R))) :
    Option (PublicationResult R S ε π) :=
  match validatePublicationExecution calls worklist (calls.store.len rows) activation with
  | .error e => some ⟨rows, effects, .error ⟨none, .error (calls.fromRuntime e)⟩, []⟩
  | .ok () =>
    let start := PublicationCoordinator.start worklist rows activation
    if (schedule 0).cancelledBefore then
      some (start.failed calls effects ⟨none, .error (calls.fromRuntime .cancelled)⟩)
    else
      let workerCount := min worklist.pending parallelism
      let turn k := if workerCount ≤ 1 then serialTurn calls (schedule k)
        else parallelTurn calls workerCount (schedule k)
      match (loop turn fuel 1).run start with
      | .error reported c => some (c.failed calls effects reported)
      | .ok false _ => none
      | .ok true c =>
        match resolveDependencyFailure calls c with
        | .error reported => some (c.failed calls effects reported)
        | .ok () => some ⟨c.rows, effects.map fun _ => stabilize c.journal, .ok c.execution, c.events⟩

end Coordinator

end Opto.Runtime
