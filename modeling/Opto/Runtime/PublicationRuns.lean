import Mathlib.Data.List.Perm.Basic
import Opto.Library.Undo
import Opto.Runtime.Publication
import Opto.Runtime.Scheduling

/-!
# Runs of a publication

The outcome of an item depends on its own rows and those of its dependencies, which no
other item writes. So what the coordinator keeps is a function of the outcomes so far, in
the order in which they came.
-/

namespace Opto.Runtime

open Mapped (U32_MAX U64_MAX)

/-! What a plan owns. -/

namespace DependencyPublicationPlan

/-- A row has at most one owner. -/
structure Sealed (plan : DependencyPublicationPlan) : Prop where
  nodup : ∀ item, (plan.ownedRows item).Nodup
  lt : ∀ item, ∀ row ∈ plan.ownedRows item, row < plan.rowCount
  exclusive : ∀ i j row, row ∈ plan.ownedRows i → row ∈ plan.ownedRows j → i = j

theorem mem_ownedRows_identity {rowCount item row : Nat} :
    row ∈ (identity rowCount).ownedRows item ↔ row = item ∧ item < rowCount := by
  change row ∈ (if item < rowCount then [item] else []) ↔ _
  split_ifs with hitem
  · simp [hitem]
  · simp [hitem]

theorem identity_sealed (rowCount : Nat) : (identity rowCount).Sealed := by
  constructor
  · intro item
    change (if item < rowCount then [item] else []).Nodup
    split_ifs
    · exact List.nodup_singleton item
    · exact List.nodup_nil
  · intro item row hrow
    obtain ⟨heq, hlt⟩ := mem_ownedRows_identity.mp hrow
    rw [heq]
    exact hlt
  · intro i j row hi hj
    obtain ⟨hi, -⟩ := mem_ownedRows_identity.mp hi
    obtain ⟨hj, -⟩ := mem_ownedRows_identity.mp hj
    exact hi.symm.trans hj

/-- The owner of every entry so far is noted. -/
theorem own_settles {rowCount : Nat} {owners : List (Option Nat)} {done : List (Nat × Nat)}
    (hlength : owners.length = rowCount) (hdone : ∀ e ∈ done, owners[e.2]? = some (some e.1)) (entry : Nat × Nat)
    (hentry : entry.2 < rowCount) :
    Settles (own owners entry) (fun owners => owners.length = rowCount ∧
      ∀ e ∈ done ++ [entry], owners[e.2]? = some (some e.1)) fun _ => True := by
  unfold own
  split_ifs with howned
  · trivial
  · refine ⟨List.length_set.trans hlength, ?_⟩
    intro e he
    rcases List.mem_append.mp he with hold | hnew
    · have hne : entry.2 ≠ e.2 := by
        intro heq
        rw [heq, hdone e hold] at howned
        exact howned rfl
      rw [List.getElem?_set_ne hne]
      exact hdone e hold
    · rw [List.mem_singleton.mp hnew]
      exact List.getElem?_set_self (hlength.symm ▸ hentry)

theorem sparse_settles (itemCount rowCount : Nat) (entries : List (Nat × Nat)) :
    Settles (sparse itemCount rowCount entries) Sealed fun _ => True := by
  unfold sparse
  split_ifs with hlarge hrange hnodup
  · trivial
  · trivial
  · have hin : ∀ e ∈ entries, e.2 < rowCount := by
      intro e he
      by_contra hout
      apply hrange
      rw [List.any_eq_true]
      exact ⟨e, he, by simp [Nat.not_lt.mp hout]⟩
    have hsorted (e : Nat × Nat) : e ∈ entries.insertionSort DependencyWorklist.keyLe ↔ e ∈ entries :=
      (List.perm_insertionSort _ entries).mem_iff
    apply Settles.bind (Settles.foldlM (fun (done : List (Nat × Nat)) (owners : List (Option Nat)) =>
      owners.length = rowCount ∧ ∀ e ∈ done, owners[e.2]? = some (some e.1)) ⟨List.length_replicate, fun _ he => absurd he List.not_mem_nil⟩ ?_)
    · intro owners howners
      apply Settles.bind (CsrEdges.sealRows_settles itemCount entries)
      intro rows hrows
      constructor
      · exact hrows.nodup
      · intro item row hrow
        exact hin (item, row) ((hrows.mem item row).mp hrow)
      · intro i j row hi hj
        have hi := howners.2 (i, row) ((hsorted _).mpr ((hrows.mem i row).mp hi))
        have hj := howners.2 (j, row) ((hsorted _).mpr ((hrows.mem j row).mp hj))
        exact Option.some.inj (Option.some.inj (hi.symm.trans hj))
    · intro done entry hmem owners howners
      exact own_settles howners.1 howners.2 entry (hin entry ((hsorted entry).mp hmem))
  · trivial

/-- An owned publication has exactly the rows of its item, in their order. -/
theorem rows_of_owns {R : Type} {plan : DependencyPublicationPlan} {item : Nat} {publication : DependencyPublication R}
    (h : plan.ownsPublication item publication = true) :
    publication.intoRows.map (·.1) = plan.ownedRows item := by
  cases publication with
  | none =>
    have hlength : (plan.ownedRows item).length = 0 := of_decide_eq_true h
    exact (List.length_eq_zero_iff.mp hlength).symm
  | row target value =>
    obtain ⟨hlength, hfirst⟩ := (Bool.and_eq_true _ _).mp h
    obtain ⟨only, honly⟩ := List.length_eq_one_iff.mp (of_decide_eq_true hlength)
    rw [honly] at hfirst ⊢
    have hfirst := of_decide_eq_true hfirst
    rw [List.getElem?_cons_zero, Option.some_inj] at hfirst
    rw [hfirst]
    rfl
  | rows entries =>
    obtain ⟨hlength, hall⟩ := (Bool.and_eq_true _ _).mp h
    have hlength := of_decide_eq_true hlength
    apply List.ext_getElem?
    intro k
    change (entries.map (·.1))[k]? = _
    rw [List.getElem?_map]
    cases hentry : entries[k]? with
    | none =>
      rw [List.getElem?_eq_none_iff, hlength] at hentry
      exact (List.getElem?_eq_none hentry).symm
    | some entry =>
      have hmem : (entry, k) ∈ entries.zipIdx := List.mem_zipIdx_iff_getElem?.mpr hentry
      exact (of_decide_eq_true (List.all_eq_true.mp hall _ hmem)).symm

end DependencyPublicationPlan

/-! Taking rows back. -/

section Rows

variable {R S ι ε π : Type}

/-- Equal row by row. -/
def DependencyRowStore.Same (store : DependencyRowStore R S π) (s t : S) : Prop :=
  store.len s = store.len t ∧ ∀ row, store.get s row = store.get t row

theorem DependencyRowStore.Same.trans {store : DependencyRowStore R S π} {s t u : S} (h : store.Same s t)
    (h' : store.Same t u) : store.Same s u :=
  ⟨h.1.trans h'.1, fun row => (h.2 row).trans (h'.2 row)⟩

theorem DependencyRowStore.Same.symm {store : DependencyRowStore R S π} {s t : S} (h : store.Same s t) :
    store.Same t s :=
  ⟨h.1.symm, fun row => (h.2 row).symm⟩

variable {calls : DependencyCalls R S ι ε π} {before rows : S} {journal : List (DependencyEffect R)}

theorem rollback_append (entry : DependencyEffect R) :
    rollback calls (journal ++ [entry]) rows = rollback calls journal (calls.store.rollback rows entry.row entry.previous) := by
  rw [rollback, List.reverse_append]
  rfl

theorem rollback_congr {s t : S} (hsame : calls.store.Same s t) (hlt : ∀ e ∈ journal, e.row < calls.store.len s) :
    calls.store.Same (rollback calls journal s) (rollback calls journal t) := by
  induction journal using List.reverseRecOn generalizing s t with
  | nil => exact hsame
  | append_singleton journal entry ih =>
    rw [rollback_append, rollback_append]
    have hentry := hlt entry (List.mem_append_right _ (List.mem_singleton_self entry))
    have hs := calls.store.rollback_spec s entry.row entry.previous hentry
    have ht := calls.store.rollback_spec t entry.row entry.previous (hsame.1 ▸ hentry)
    apply ih
    · refine ⟨hs.1.trans (hsame.1.trans ht.1.symm), ?_⟩
      intro row
      rw [hs.2, ht.2, hsame.2]
    · intro e he
      rw [hs.1]
      exact hlt e (List.mem_append_left _ he)

/-- The journal takes the rows back to those before. -/
structure Restores (calls : DependencyCalls R S ι ε π) (before : S) (journal : List (DependencyEffect R)) (rows : S) :
    Prop where
  len : calls.store.len rows = calls.store.len before
  lt : ∀ e ∈ journal, e.row < calls.store.len before
  same : calls.store.Same (rollback calls journal rows) before

theorem restores_refl (calls : DependencyCalls R S ι ε π) (before : S) : Restores calls before [] before where
  len := rfl
  lt := fun _ he => absurd he List.not_mem_nil
  same := ⟨rfl, fun _ => rfl⟩

theorem Restores.push (h : Restores calls before journal rows) (item : Nat) {row : Nat} {value previous : R}
    {changed : Bool} {rows' : S} (hreplace : calls.store.replace rows row value = .ok (some (previous, changed, rows'))) :
    Restores calls before (journal ++ [⟨item, row, previous⟩]) rows' := by
  obtain ⟨hprevious, -, hlen, hget⟩ := calls.store.replace_some _ _ _ _ _ _ hreplace
  have hrow : row < calls.store.len rows := by
    rw [← calls.store.get_isSome, hprevious]
    rfl
  have hback := calls.store.rollback_spec rows' row previous (hlen.symm ▸ hrow)
  have hsame : calls.store.Same (calls.store.rollback rows' row previous) rows := by
    refine ⟨hback.1.trans hlen, ?_⟩
    intro r
    rw [hback.2, hget]
    split_ifs with hr
    · rw [hr, hprevious]
    · rfl
  constructor
  · exact hlen.trans h.len
  · intro e he
    rcases List.mem_append.mp he with hold | hnew
    · exact h.lt e hold
    · rw [List.mem_singleton.mp hnew, ← h.len]
      exact hrow
  · rw [rollback_append]
    apply (rollback_congr hsame ?_).trans h.same
    intro e he
    rw [hsame.1, h.len]
    exact h.lt e he

end Rows

/-! What becomes of an item. -/

inductive ItemOutcome (R ε π : Type)
  | skipped
  | published (entries : List (Nat × R))
  | failed (failure : DependencyFailure ε π)
  /-- The result came after the run was cancelled. -/
  | discarded

namespace ItemOutcome

variable {R ε π : Type}

def isSettled : ItemOutcome R ε π → Bool
  | skipped | published _ => true
  | failed _ | discarded => false

def entries : ItemOutcome R ε π → List (Nat × R)
  | published entries => entries
  | _ => []

end ItemOutcome

/-- The outcomes so far, in the order in which they came. -/
abbrev History (R ε π : Type) := List (Nat × ItemOutcome R ε π)

/-- A task is prepared from the rows of the item and of what it depends on. -/
def DependencyCalls.PreparesLocally {R S ι ε π : Type} (calls : DependencyCalls R S ι ε π) (w : DependencyWorklist) :
    Prop :=
  ∀ item s t, calls.store.len s = calls.store.len t →
    (∀ owner, owner = item ∨ owner ∈ w.enabledDependencies item →
      ∀ row ∈ calls.plan.ownedRows owner, calls.store.get s row = calls.store.get t row) →
    calls.prepare s item = calls.prepare t item

/-- A call whose arguments fit together. -/
structure PublicationCall (R S ι ε π : Type) where
  calls : DependencyCalls R S ι ε π
  worklist : DependencyWorklist
  rows : S
  activation : DependencyActivation
  seeds : List Nat
  sealedPlan : calls.plan.Sealed
  building : ∃ plan direction disabled, worklist.Building plan direction disabled seeds
  rowCount : calls.plan.rowCount = calls.store.len rows
  activationLength : ∀ active, activation.active = some active → active.length = worklist.itemCount
  preparesLocally : calls.PreparesLocally worklist

namespace PublicationCall

variable {R S ι ε π : Type} (call : PublicationCall R S ι ε π)

def uses (item : Nat) : List Nat := call.worklist.enabledDependencies item

/-- The rows that an item has published. -/
def entriesAt (history : History R ε π) (item : Nat) : List (Nat × R) :=
  ((history.lookup item).map ItemOutcome.entries).getD []

def valueAt (history : History R ε π) (item row : Nat) : Option R :=
  ((entriesAt history item).lookup row).or (call.calls.store.get call.rows row)

def differs (entry : Nat × R) : Bool :=
  (call.calls.store.get call.rows entry.1).any (call.calls.store.differs · entry.2)

def isActive (history : History R ε π) (item : Nat) : Bool :=
  call.activation.contains item || (call.uses item).any fun d => (entriesAt history d).any call.differs

/-- The scheduled items that it depends on are published or skipped. -/
def Ready (history : History R ε π) (item : Nat) : Prop :=
  ∀ d ∈ call.uses item, d ∈ call.seeds → ∃ x, history.lookup d = some x ∧ x.isSettled = true

structure Sees (history : History R ε π) (item : Nat) (s : S) : Prop where
  len : call.calls.store.len s = call.calls.store.len call.rows
  own : ∀ row ∈ call.calls.plan.ownedRows item, call.calls.store.get s row = call.calls.store.get call.rows row
  used : ∀ d ∈ call.uses item, ∀ row ∈ call.calls.plan.ownedRows d,
    call.calls.store.get s row = call.valueAt history d row

/-- A publication of foreign rows is a failure of the item. -/
def judged (item : Nat) (output : DependencyPublication R) : ItemOutcome R ε π :=
  if call.calls.plan.ownsPublication item output then .published output.intoRows
  else .failed (.error (call.calls.fromRuntime
    (.invalidDependencyPlan "worker publication does not match its sealed row ownership")))

def outcomeOf (s : S) (item : Nat) : ItemOutcome R ε π :=
  match call.calls.prepare s item >>= call.calls.analyze with
  | .error failure => .failed failure
  | .ok output => call.judged item output

/-- The outcome of an item from those of the items that it depends on. -/
def Explains (history : History R ε π) (item : Nat) (x : ItemOutcome R ε π) : Prop :=
  if call.isActive history item then x = .discarded ∨ ∃ s, call.Sees history item s ∧ x = call.outcomeOf s item
  else x = .skipped

variable {call} {h h' : History R ε π} {item : Nat}

theorem entriesAt_congr (hlookup : h.lookup item = h'.lookup item) : entriesAt h item = entriesAt h' item := by
  rw [entriesAt, entriesAt, hlookup]

theorem isActive_congr (hagree : ∀ d ∈ call.uses item, h.lookup d = h'.lookup d) :
    call.isActive h item = call.isActive h' item := by
  unfold isActive
  congr 1
  rw [Bool.eq_iff_iff, List.any_eq_true, List.any_eq_true]
  constructor
  · intro hany
    obtain ⟨d, hd, hdiffers⟩ := hany
    exact ⟨d, hd, entriesAt_congr (hagree d hd) ▸ hdiffers⟩
  · intro hany
    obtain ⟨d, hd, hdiffers⟩ := hany
    exact ⟨d, hd, (entriesAt_congr (hagree d hd)).symm ▸ hdiffers⟩

theorem Sees.congr {s : S} (hsees : call.Sees h item s) (hagree : ∀ d ∈ call.uses item, h.lookup d = h'.lookup d) :
    call.Sees h' item s where
  len := hsees.len
  own := hsees.own
  used d hd row hrow := by
    rw [hsees.used d hd row hrow, valueAt, valueAt, entriesAt_congr (hagree d hd)]

theorem Explains.congr {x : ItemOutcome R ε π} (hx : call.Explains h item x)
    (hagree : ∀ d ∈ call.uses item, h.lookup d = h'.lookup d) : call.Explains h' item x := by
  unfold Explains at *
  rw [← isActive_congr hagree]
  split_ifs at * with hactive
  · rcases hx with hdiscarded | hran
    · exact .inl hdiscarded
    · obtain ⟨s, hsees, hx⟩ := hran
      exact .inr ⟨s, hsees.congr hagree, hx⟩
  · exact hx

/-- Rows that an item sees alike give it the same outcome. -/
theorem Sees.outcomeOf_eq {s t : S} (hs : call.Sees h item s) (ht : call.Sees h item t) :
    call.outcomeOf s item = call.outcomeOf t item := by
  have hprepare : call.calls.prepare s item = call.calls.prepare t item := by
    apply call.preparesLocally item s t (hs.len.trans ht.len.symm)
    intro owner howner row hrow
    rcases howner with hitem | hused
    · subst hitem
      exact (hs.own row hrow).trans (ht.own row hrow).symm
    · exact (hs.used owner hused row hrow).trans (ht.used owner hused row hrow).symm
  rw [outcomeOf, outcomeOf, hprepare]

theorem Explains.unique {x y : ItemOutcome R ε π} (hx : call.Explains h item x) (hy : call.Explains h item y)
    (hxkept : x ≠ .discarded) (hykept : y ≠ .discarded) : x = y := by
  unfold Explains at *
  split_ifs at * with hactive
  · obtain ⟨s, hs, hx⟩ := hx.resolve_left hxkept
    obtain ⟨t, ht, hy⟩ := hy.resolve_left hykept
    rw [hx, hy, hs.outcomeOf_eq ht]
  · rw [hx, hy]

/-! One more outcome. -/

section Snoc

variable {x y : ItemOutcome R ε π} {i j : Nat}

theorem lookup_snoc_self (hfresh : h.lookup i = none) : (h ++ [(i, x)]).lookup i = some x := by
  rw [List.lookup_append, hfresh, lookup_cons, if_pos rfl]
  rfl

theorem lookup_snoc_ne (hne : j ≠ i) : (h ++ [(i, x)]).lookup j = h.lookup j := by
  rw [List.lookup_append, lookup_cons, if_neg hne]
  exact Option.or_none

theorem lookup_snoc_some (hj : h.lookup j = some y) : (h ++ [(i, x)]).lookup j = some y := by
  rw [List.lookup_append, hj]
  rfl

theorem entriesAt_snoc (hfresh : h.lookup i = none) (j : Nat) :
    entriesAt (h ++ [(i, x)]) j = if j = i then x.entries else entriesAt h j := by
  split_ifs with hj
  · subst hj
    rw [entriesAt, lookup_snoc_self hfresh]
    rfl
  · exact entriesAt_congr (lookup_snoc_ne hj)

theorem entriesAt_fresh (hfresh : h.lookup i = none) : entriesAt h i = [] := by
  rw [entriesAt, hfresh]
  rfl

theorem entriesAt_silent (hfresh : h.lookup i = none) (hx : x.entries = []) : entriesAt (h ++ [(i, x)]) = entriesAt h := by
  funext j
  rw [entriesAt_snoc hfresh]
  split_ifs with hj
  · rw [hj, entriesAt_fresh hfresh, hx]
  · rfl

theorem Ready.snoc (hready : call.Ready h j) : call.Ready (h ++ [(i, x)]) j := by
  intro d hd hseed
  obtain ⟨y, hlookup, hy⟩ := hready d hd hseed
  exact ⟨y, lookup_snoc_some hlookup, hy⟩

/-- An item that is ready does not depend on one that was open. -/
theorem Ready.agree (hready : call.Ready h j) (hfresh : h.lookup i = none) (hseed : i ∈ call.seeds) :
    ∀ d ∈ call.uses j, h.lookup d = (h ++ [(i, x)]).lookup d := by
  intro d hd
  by_cases hdi : d = i
  · subst hdi
    obtain ⟨y, hlookup, -⟩ := hready d hd hseed
    rw [hfresh] at hlookup
    cases hlookup
  · exact (lookup_snoc_ne hdi).symm

end Snoc

/-- Outcomes follow from those before them, and the items that are busy are ready. -/
structure Flow (call : PublicationCall R S ι ε π) (h : History R ε π) (busy : List Nat) : Prop where
  keys : (h.map (·.1)).Nodup
  nodup : busy.Nodup
  fresh : ∀ i ∈ busy, h.lookup i = none ∧ i ∈ call.seeds ∧ call.Ready h i
  explained : ∀ i x, h.lookup i = some x → i ∈ call.seeds ∧ call.Ready h i ∧ call.Explains h i x

theorem Flow.snoc {busy busy' : List Nat} (hflow : Flow call h busy) {i : Nat} (hi : i ∈ busy)
    {x : ItemOutcome R ε π} (hx : call.Explains h i x) (hnodup : busy'.Nodup)
    (hbusy : ∀ j, j ∈ busy' ↔ j ∈ busy ∧ j ≠ i) : Flow call (h ++ [(i, x)]) busy' := by
  obtain ⟨hfresh, hseed, hready⟩ := hflow.fresh i hi
  constructor
  · rw [List.map_append, List.nodup_append]
    refine ⟨hflow.keys, List.nodup_singleton i, ?_⟩
    intro a ha b hb heq
    rw [List.mem_singleton.mp hb] at heq
    obtain ⟨entry, hentry, rfl⟩ := List.mem_map.mp ha
    rw [List.lookup_eq_none_iff] at hfresh
    have := hfresh entry hentry
    simp [heq] at this
  · exact hnodup
  · intro j hj
    obtain ⟨hold, hne⟩ := (hbusy j).mp hj
    obtain ⟨hjfresh, hjseed, hjready⟩ := hflow.fresh j hold
    exact ⟨(lookup_snoc_ne hne).trans hjfresh, hjseed, hjready.snoc⟩
  · intro j y hy
    by_cases hj : j = i
    · subst hj
      rw [lookup_snoc_self hfresh] at hy
      obtain rfl := Option.some.inj hy
      exact ⟨hseed, hready.snoc, hx.congr (hready.agree hfresh hseed)⟩
    · rw [lookup_snoc_ne hj] at hy
      obtain ⟨hjseed, hjready, hjx⟩ := hflow.explained j y hy
      exact ⟨hjseed, hjready.snoc, hjx.congr (hjready.agree hfresh hseed)⟩

/-! The worklist. -/

def stateIn (call : PublicationCall R S ι ε π) (h : History R ε π) (busy : List Nat) (item : Nat) : ItemState :=
  match h.lookup item with
  | some x => if x.isSettled then .complete else .running
  | none => if item ∈ busy then .running else if item ∈ call.seeds then .pending else .absent

structure Working (call : PublicationCall R S ι ε π) (w : DependencyWorklist) (h : History R ε π) (busy : List Nat) :
    Prop where
  valid : w.Valid
  plan_eq : w.plan = call.worklist.plan
  direction_eq : w.direction = call.worklist.direction
  disabled_eq : w.disabledDependencies = call.worklist.disabledDependencies
  state_eq : ∀ i, w.stateOf i = call.stateIn h busy i

section Working

variable {w w' : DependencyWorklist} {busy busy' : List Nat}

theorem Working.uses_eq (hw : Working call w h busy) (i : Nat) : w.enabledDependencies i = call.uses i :=
  DependencyWorklist.Progress.enabled_congr hw.plan_eq hw.direction_eq hw.disabled_eq i

theorem stateIn_pending {i : Nat} :
    call.stateIn h busy i = .pending ↔ h.lookup i = none ∧ i ∉ busy ∧ i ∈ call.seeds := by
  unfold stateIn
  cases h.lookup i with
  | none => split_ifs with hbusy hseed <;> simp [*]
  | some x =>
    dsimp only
    split_ifs <;> simp

/-- A scheduled item that is not open is settled. -/
theorem settled_of_closed {i : Nat} (hseed : i ∈ call.seeds) (hclosed : (call.stateIn h busy i).isOpen = false) :
    ∃ x, h.lookup i = some x ∧ x.isSettled = true := by
  unfold stateIn at hclosed
  cases hlookup : h.lookup i with
  | none =>
    rw [hlookup] at hclosed
    dsimp only at hclosed
    rw [if_pos hseed] at hclosed
    split_ifs at hclosed <;> cases hclosed
  | some x =>
    rw [hlookup] at hclosed
    refine ⟨x, rfl, ?_⟩
    by_contra hx
    dsimp only at hclosed
    rw [if_neg hx] at hclosed
    cases hclosed

theorem stateIn_running {i : Nat} (hbusy : i ∈ busy) (hfresh : h.lookup i = none) : call.stateIn h busy i = .running := by
  rw [stateIn, hfresh]
  exact if_pos hbusy

theorem stateIn_snoc_ne {i j : Nat} {x : ItemOutcome R ε π} (hbusy : ∀ j, j ∈ busy' ↔ j ∈ busy ∧ j ≠ i) (hne : j ≠ i) :
    call.stateIn (h ++ [(i, x)]) busy' j = call.stateIn h busy j := by
  have hmem : j ∈ busy' ↔ j ∈ busy := (hbusy j).trans (and_iff_left hne)
  rw [stateIn, stateIn, lookup_snoc_ne hne]
  simp only [hmem]

theorem stateIn_snoc_self {i : Nat} {x : ItemOutcome R ε π} (hfresh : h.lookup i = none) :
    call.stateIn (h ++ [(i, x)]) busy' i = if x.isSettled then .complete else .running := by
  rw [stateIn, lookup_snoc_self hfresh]

theorem Working.claim (hw : Working call w h busy) {items : List Nat} (hclaimed : DependencyWorklist.Claimed w items w') :
    Working call w' h (items ++ busy) := by
  constructor
  · exact hclaimed.toValid
  · exact hclaimed.plan_eq.trans hw.plan_eq
  · exact hclaimed.direction_eq.trans hw.direction_eq
  · exact hclaimed.disabled_eq.trans hw.disabled_eq
  · intro i
    rw [hclaimed.state_eq, hw.state_eq]
    by_cases hi : i ∈ items
    · have hpending := (hclaimed.claimable i hi).1
      rw [hw.state_eq, stateIn_pending] at hpending
      rw [if_pos hi, stateIn_running (List.mem_append_left _ hi) hpending.1]
    · rw [if_neg hi, stateIn, stateIn]
      simp only [List.mem_append, hi, false_or]

theorem Working.finish (hw : Working call w h busy) {i : Nat} {x : ItemOutcome R ε π}
    (hfinished : DependencyWorklist.Finished w i w') (hfresh : h.lookup i = none) (hx : x.isSettled = true)
    (hbusy : ∀ j, j ∈ busy' ↔ j ∈ busy ∧ j ≠ i) : Working call w' (h ++ [(i, x)]) busy' := by
  constructor
  · exact hfinished.toValid
  · exact hfinished.plan_eq.trans hw.plan_eq
  · exact hfinished.direction_eq.trans hw.direction_eq
  · exact hfinished.disabled_eq.trans hw.disabled_eq
  · intro j
    rw [hfinished.state_eq]
    split_ifs with hj
    · rw [hj, stateIn_snoc_self hfresh, if_pos hx]
    · rw [hw.state_eq, stateIn_snoc_ne hbusy hj]

/-- An item that failed is never finished. -/
theorem Working.leave (hw : Working call w h busy) {i : Nat} {x : ItemOutcome R ε π} (hi : i ∈ busy)
    (hfresh : h.lookup i = none) (hx : x.isSettled = false) (hbusy : ∀ j, j ∈ busy' ↔ j ∈ busy ∧ j ≠ i) :
    Working call w (h ++ [(i, x)]) busy' := by
  refine ⟨hw.valid, hw.plan_eq, hw.direction_eq, hw.disabled_eq, ?_⟩
  intro j
  rw [hw.state_eq]
  by_cases hj : j = i
  · rw [hj, stateIn_running hi hfresh, stateIn_snoc_self hfresh, hx]
    rfl
  · rw [stateIn_snoc_ne hbusy hj]

end Working

/-! What is reported. -/

/-- An item runs after what it depends on was published or skipped. -/
def InOrder (uses : Nat → List Nat) (seeds : List Nat) (events : List Event) : Prop :=
  ∀ (k i : Nat), events[k]? = some (Event.ran i) → ∀ d ∈ uses i, d ∈ seeds →
    ∃ earlier < k, events[earlier]? = some (Event.published d) ∨ events[earlier]? = some (Event.skipped d)

theorem InOrder.snoc {uses : Nat → List Nat} {seeds : List Nat} {events : List Event} (horder : InOrder uses seeds events)
    {event : Event} (hevent : ∀ i, event = .ran i → ∀ d ∈ uses i, d ∈ seeds →
      Event.published d ∈ events ∨ Event.skipped d ∈ events) :
    InOrder uses seeds (events ++ [event]) := by
  intro k i hk d hd hseed
  rw [List.getElem?_append] at hk
  split_ifs at hk with hlt
  · obtain ⟨earlier, hearlier, htold⟩ := horder k i hk d hd hseed
    refine ⟨earlier, hearlier, ?_⟩
    rw [List.getElem?_append_left (by omega)]
    exact htold
  · have hlast := List.mem_singleton.mp (List.mem_of_getElem? hk)
    rcases hevent i hlast.symm d hd hseed with htold | htold
    · obtain ⟨earlier, hearlier⟩ := List.mem_iff_getElem?.mp htold
      have hbound := (List.getElem?_eq_some_iff.mp hearlier).1
      refine ⟨earlier, by omega, .inl ?_⟩
      rw [List.getElem?_append_left hbound]
      exact hearlier
    · obtain ⟨earlier, hearlier⟩ := List.mem_iff_getElem?.mp htold
      have hbound := (List.getElem?_eq_some_iff.mp hearlier).1
      refine ⟨earlier, by omega, .inr ?_⟩
      rw [List.getElem?_append_left hbound]
      exact hearlier

structure Told (call : PublicationCall R S ι ε π) (events : List Event) (h : History R ε π) (begun : List Nat) : Prop where
  ran : ∀ i, Event.ran i ∈ events ↔ i ∈ begun ∨ ∃ x, h.lookup i = some x ∧ x ≠ .skipped
  published : ∀ i, Event.published i ∈ events ↔ ∃ entries, h.lookup i = some (.published entries)
  skipped : ∀ i, Event.skipped i ∈ events ↔ h.lookup i = some .skipped
  nodup : events.Nodup
  inOrder : InOrder call.uses call.seeds events

section Told

variable {events : List Event} {begun begun' : List Nat} {i : Nat}

theorem nodup_snoc {event : Event} (hnodup : events.Nodup) (hnew : event ∉ events) : (events ++ [event]).Nodup := by
  apply List.Nodup.append hnodup (List.nodup_singleton event)
  intro e hold he
  rw [List.mem_singleton.mp he] at hold
  exact hnew hold

theorem Told.begin (ht : Told call events h begun) (hfresh : h.lookup i = none) (hi : i ∉ begun) (hready : call.Ready h i) :
    Told call (events ++ [.ran i]) h (i :: begun) := by
  constructor
  · intro j
    simp only [List.mem_append, List.mem_cons, List.not_mem_nil, or_false, ht.ran, Event.ran.injEq]
    exact or_comm.trans or_assoc.symm
  · intro j
    simp [ht.published]
  · intro j
    simp [ht.skipped]
  · apply nodup_snoc ht.nodup
    simp [ht.ran, hi, hfresh]
  · apply ht.inOrder.snoc
    intro j hj d hd hseed
    obtain rfl := Event.ran.inj hj
    obtain ⟨x, hx, hsettled⟩ := hready d hd hseed
    rw [ht.published, ht.skipped, hx]
    cases x with
    | skipped => exact .inr rfl
    | published entries => exact .inl ⟨entries, rfl⟩
    | failed failure => cases hsettled
    | discarded => cases hsettled

/-- The event of an outcome, if it has one. -/
def eventOf (i : Nat) : ItemOutcome R ε π → List Event
  | .skipped => [.skipped i]
  | .published _ => [.published i]
  | _ => []

theorem Told.snoc (ht : Told call events h begun) {x : ItemOutcome R ε π} (hfresh : h.lookup i = none)
    (hi : x = .skipped ↔ i ∉ begun) (hbegun : ∀ j, j ∈ begun' ↔ j ∈ begun ∧ j ≠ i) :
    Told call (events ++ eventOf i x) (h ++ [(i, x)]) begun' := by
  constructor
  · intro j
    have hnone : Event.ran j ∉ eventOf i x := by cases x <;> simp [eventOf]
    rw [List.mem_append, or_iff_left hnone, ht.ran, hbegun]
    by_cases hj : j = i
    · subst hj
      rw [lookup_snoc_self hfresh, hfresh]
      simp only [reduceCtorEq, false_and, exists_false, or_false, ne_eq, not_true_eq_false, and_false,
        Option.some.injEq, false_or]
      constructor
      · exact fun hmem => ⟨x, rfl, fun hskip => hi.mp hskip hmem⟩
      · intro hex
        obtain ⟨y, rfl, hy⟩ := hex
        by_contra hmem
        exact hy (hi.mpr hmem)
    · rw [lookup_snoc_ne hj, and_iff_left hj]
  · intro j
    rw [List.mem_append, ht.published]
    by_cases hj : j = i
    · subst hj
      rw [lookup_snoc_self hfresh, hfresh]
      cases x <;> simp [eventOf]
    · rw [lookup_snoc_ne hj]
      cases x <;> simp [eventOf, hj]
  · intro j
    rw [List.mem_append, ht.skipped]
    by_cases hj : j = i
    · subst hj
      rw [lookup_snoc_self hfresh, hfresh]
      cases x <;> simp [eventOf]
    · rw [lookup_snoc_ne hj]
      cases x <;> simp [eventOf, hj]
  · cases x with
    | skipped => exact nodup_snoc ht.nodup (by simp [ht.skipped, hfresh])
    | published entries => exact nodup_snoc ht.nodup (by simp [ht.published, hfresh])
    | failed failure => simpa [eventOf] using ht.nodup
    | discarded => simpa [eventOf] using ht.nodup
  · cases x with
    | skipped => exact ht.inOrder.snoc (fun _ he => by cases he)
    | published entries => exact ht.inOrder.snoc (fun _ he => by cases he)
    | failed failure => simpa [eventOf] using ht.inOrder
    | discarded => simpa [eventOf] using ht.inOrder

end Told

/-! Rows and summaries. -/

def publishedItems (h : History R ε π) : List Nat := h.filterMap fun e =>
  match e.2 with
  | .published _ => some e.1
  | _ => none

def changedItems (call : PublicationCall R S ι ε π) (h : History R ε π) : List Nat :=
  (h.filter fun e => e.2.entries.any call.differs).map (·.1)

def changedRows (call : PublicationCall R S ι ε π) (h : History R ε π) : List Nat :=
  h.flatMap fun e => (e.2.entries.filter call.differs).map (·.1)

def effects (call : PublicationCall R S ι ε π) (item : Nat) (entries : List (Nat × R)) : List (DependencyEffect R) :=
  entries.filterMap fun e => (call.calls.store.get call.rows e.1).map fun previous => ⟨item, e.1, previous⟩

def journal (call : PublicationCall R S ι ε π) (h : History R ε π) : List (DependencyEffect R) :=
  h.flatMap fun e => call.effects e.1 e.2.entries

def retained (failure : Option (Nat × DependencyFailure ε π)) (e : Nat × ItemOutcome R ε π) :
    Option (Nat × DependencyFailure ε π) :=
  match e.2 with
  | .failed f => retainStableFailure failure e.1 f
  | _ => failure

structure Kept (call : PublicationCall R S ι ε π) (c : PublicationCoordinator R S ι ε π) (h : History R ε π) :
    Prop where
  owned : ∀ i, ∀ row ∈ call.calls.plan.ownedRows i, call.calls.store.get c.rows row = call.valueAt h i row
  unowned : ∀ row, (∀ i, row ∉ call.calls.plan.ownedRows i) →
    call.calls.store.get c.rows row = call.calls.store.get call.rows row
  restores : Restores call.calls call.rows c.journal c.rows
  active : ∀ i, c.activation.contains i = call.isActive h i
  activeLength : ∀ active, c.activation.active = some active → active.length = call.worklist.itemCount
  publishedItems_eq : c.publishedItems = publishedItems h
  changedItems_eq : c.changedItems = call.changedItems h
  changedRows_eq : c.changedRows = call.changedRows h
  journal_eq : c.journal = call.journal h
  failure_eq : c.failure = h.foldl retained none

section Kept

variable {c : PublicationCoordinator R S ι ε π} {i : Nat} {x : ItemOutcome R ε π}

/-- The other fields of the coordinator do not matter. -/
theorem Kept.others (hk : Kept call c h) {worklist : DependencyWorklist} {inFlight : List (Nat × ι)} {cancelled : Bool}
    {events : List Event} : Kept call { c with worklist, inFlight, cancelled, events } h :=
  ⟨hk.owned, hk.unowned, hk.restores, hk.active, hk.activeLength, hk.publishedItems_eq, hk.changedItems_eq,
    hk.changedRows_eq, hk.journal_eq, hk.failure_eq⟩

/-- What an item that is ready sees are the rows of the coordinator. -/
theorem Kept.sees (hk : Kept call c h) (hfresh : h.lookup i = none) : call.Sees h i c.rows where
  len := hk.restores.len
  own row hrow := by
    rw [hk.owned i row hrow, valueAt, entriesAt_fresh hfresh]
    rfl
  used d _ row hrow := hk.owned d row hrow

theorem valueAt_silent (hfresh : h.lookup i = none) (hx : x.entries = []) :
    call.valueAt (h ++ [(i, x)]) = call.valueAt h := by
  funext j row
  rw [valueAt, valueAt, entriesAt_silent hfresh hx]

theorem isActive_silent (hfresh : h.lookup i = none) (hx : x.entries = []) :
    call.isActive (h ++ [(i, x)]) = call.isActive h := by
  funext j
  rw [isActive, isActive, entriesAt_silent hfresh hx]

/-- An outcome without rows. -/
theorem Kept.silent (hk : Kept call c h) (hfresh : h.lookup i = none) (hx : x.entries = [])
    (hpublished : publishedItems [(i, x)] = []) :
    Kept call { c with failure := retained c.failure (i, x) } (h ++ [(i, x)]) := by
  constructor
  · rw [valueAt_silent hfresh hx]
    exact hk.owned
  · exact hk.unowned
  · exact hk.restores
  · rw [isActive_silent hfresh hx]
    exact hk.active
  · exact hk.activeLength
  · have hsplit : publishedItems (h ++ [(i, x)]) = publishedItems h ++ publishedItems [(i, x)] :=
      List.filterMap_append
    rw [hsplit, hpublished, List.append_nil]
    exact hk.publishedItems_eq
  · change c.changedItems = _
    rw [hk.changedItems_eq, changedItems, changedItems, List.filter_append]
    simp [hx]
  · change c.changedRows = _
    rw [hk.changedRows_eq, changedRows, changedRows, List.flatMap_append]
    simp [hx]
  · change c.journal = _
    rw [hk.journal_eq, journal, journal, List.flatMap_append]
    simp [hx, effects]
  · rw [List.foldl_append, ← hk.failure_eq]
    rfl

/-! Committing. -/

/-- Where the coordinator is after some rows of a publication. -/
structure Committed (call : PublicationCall R S ι ε π) (c : PublicationCoordinator R S ι ε π) (item : Nat)
    (done : List (Nat × R)) (itemChanged : Bool) (c' : PublicationCoordinator R S ι ε π) : Prop where
  eq : c' = { c with
    rows := c'.rows
    journal := c.journal ++ call.effects item done
    changedRows := c.changedRows ++ (done.filter call.differs).map (·.1) }
  changed : itemChanged = done.any call.differs
  get : ∀ row, call.calls.store.get c'.rows row = (done.lookup row).or (call.calls.store.get c.rows row)
  restores : Restores call.calls call.rows c'.journal c'.rows

theorem committed_nil (hk : Kept call c h) : Committed call c i [] false c where
  eq := by
    simp [effects]
  changed := rfl
  get _ := rfl
  restores := hk.restores

/-- A store that panics while rows are replaced. -/
def DependencyStorePanics (store : DependencyRowStore R S π) (payload : π) : Prop :=
  ∃ rows row value, store.replace rows row value = .error payload

theorem commitRow_outcome (hk : Kept call c h) (hfresh : h.lookup i = none) {done : List (Nat × R)} {entry : Nat × R}
    (howned : entry.1 ∈ call.calls.plan.ownedRows i) (hnew : done.lookup entry.1 = none) {itemChanged : Bool}
    {c' : PublicationCoordinator R S ι ε π} (hc : Committed call c i done itemChanged c') :
    Outcome c' (commitRow call.calls i itemChanged entry) (Committed call c i (done ++ [entry]))
      fun f c'' => c'' = c' ∧ ∃ payload, f = .panic payload ∧ DependencyStorePanics call.calls.store payload := by
  have hinitial : call.calls.store.get c'.rows entry.1 = call.calls.store.get call.rows entry.1 := by
    rw [hc.get, hnew]
    exact (hk.sees hfresh).own entry.1 howned
  have hrow : entry.1 < call.calls.store.len c'.rows := by
    rw [hc.restores.len, ← call.rowCount]
    exact call.sealedPlan.lt i entry.1 howned
  unfold Outcome commitRow EStateM.run
  dsimp only
  cases hreplace : call.calls.store.replace c'.rows entry.1 entry.2 with
  | error payload => exact ⟨rfl, payload, rfl, _, _, _, hreplace⟩
  | ok r =>
    cases r with
    | none =>
      have := call.calls.store.replace_none _ _ _ hreplace
      omega
    | some r =>
      obtain ⟨previous, changed, rows⟩ := r
      obtain ⟨hprevious, hchanged, -, hget⟩ := call.calls.store.replace_some _ _ _ _ _ _ hreplace
      have hbefore : call.calls.store.get call.rows entry.1 = some previous := hinitial.symm.trans hprevious
      have hdiffers : call.differs entry = changed := by
        rw [differs, hbefore, hchanged]
        rfl
      have heffects : call.effects i (done ++ [entry]) = call.effects i done ++ [⟨i, entry.1, previous⟩] := by
        simp [effects, List.filterMap_append, hbefore]
      change Committed call c i (done ++ [entry]) _ _
      constructor
      · rw [hc.eq]
        dsimp only
        rw [heffects, List.filter_append, List.map_append]
        cases changed <;> simp [hdiffers]
      · rw [List.any_append, ← hc.changed]
        simp [hdiffers]
      · intro row
        rw [hget, hc.get, List.lookup_append, lookup_cons]
        by_cases heq : row = entry.1
        · rw [if_pos heq, if_pos heq, heq, hnew]
          rfl
        · rw [if_neg heq, if_neg heq]
          simp
      · exact hc.restores.push i hreplace

theorem commitRows_outcome (hk : Kept call c h) (hfresh : h.lookup i = none) {entries : List (Nat × R)}
    (hrows : entries.map (·.1) = call.calls.plan.ownedRows i) :
    Outcome c (entries.foldlM (commitRow call.calls i) false) (Committed call c i entries)
      fun f c' => (∃ done itemChanged, Committed call c i done itemChanged c') ∧
        ∃ payload, f = .panic payload ∧ DependencyStorePanics call.calls.store payload := by
  apply Outcome.foldlM (fun done itemChanged c' => Committed call c i done itemChanged c') (committed_nil hk)
  intro done entry rest hsplit itemChanged c' hc
  have hnodup := call.sealedPlan.nodup i
  rw [← hrows, ← hsplit, List.map_append, List.map_cons] at hnodup
  have howned : entry.1 ∈ call.calls.plan.ownedRows i := by
    rw [← hrows, ← hsplit]
    simp
  have hnew : done.lookup entry.1 = none := by
    rw [List.lookup_eq_none_iff]
    intro e he
    have hne : entry.1 ≠ e.1 := by
      intro heq
      have hdisjoint := (List.nodup_append.mp hnodup).2.2
      exact hdisjoint e.1 (List.mem_map_of_mem he) entry.1 List.mem_cons_self heq.symm
    simpa using hne
  apply (commitRow_outcome hk hfresh howned hnew hc).mono
  · exact fun _ _ hdone => hdone
  · intro f c'' hf
    obtain ⟨rfl, hpanic⟩ := hf
    exact ⟨⟨done, itemChanged, hc⟩, hpanic⟩

end Kept

end PublicationCall

end Opto.Runtime
