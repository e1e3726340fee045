import Opto.Library.SortedMap
import Opto.Rows.Packed

/-!
# Pages of rows

A packed page is never written again. A dirty page keeps the rows that were edited since, in
the order of their positions, over the packed page that it came from; rows that were cut off
stay stored, but they are empty.
-/

namespace Opto.Rows

open Mapped (U32_MAX U64_MAX)
open SortedMap

variable {α : Type}

def ROWS_PER_PAGE : Nat := 4096

def U16_MAX : Nat := 2 ^ 16 - 1

structure DirtyPage (α : Type) where
  base : Option (PackedRows α)
  rows : Nat
  overrides : List (Nat × List α)

inductive RowPage (α : Type) where
  | packed (page : PackedRows α)
  | dirty (page : DirtyPage α)

namespace DirtyPage

/-- What the packed page has for a row. -/
def baseRow (d : DirtyPage α) (row : Nat) : Option (List α) := d.base.bind (·.get row)

def row (d : DirtyPage α) (row : Nat) : Except Failure (List α) :=
  if d.rows ≤ row then .error (.panic "row page index is in bounds")
  else if U16_MAX < row then .error (.panic "validated page-local row fits in u16")
  else match search d.overrides row with
    | .ok index =>
      match d.overrides[index]? with
      | some (_, values) => .ok values
      | none => .error (.panic "index out of bounds")
    | .error _ => .ok ((d.baseRow row).getD [])

/-- Borrows a row and edits it. -/
def rowMut (d : DirtyPage α) (position : Nat) (edit : List α → List α) : Except Failure (DirtyPage α) :=
  match search d.overrides position with
  | .ok index =>
    match d.overrides[index]? with
    | some (key, values) => .ok { d with overrides := d.overrides.set index (key, edit values) }
    | none => .error (.panic "index out of bounds")
  | .error index =>
    let values := (d.baseRow position).getD []
    .ok { d with overrides := Ranked.insertAt d.overrides index (position, edit values) }

def replace (d : DirtyPage α) (position : Nat) (values : List α) : Except Failure (DirtyPage α) :=
  match search d.overrides position with
  | .ok index =>
    match d.overrides[index]? with
    | some (key, _) => .ok { d with overrides := d.overrides.set index (key, values) }
    | none => .error (.panic "index out of bounds")
  | .error index => .ok { d with overrides := Ranked.insertAt d.overrides index (position, values) }

def baseRows (d : DirtyPage α) : Nat := (d.base.map fun base => min base.rowCount d.rows).getD 0

def baseCount (d : DirtyPage α) : Nat :=
  if d.baseRows = 0 then 0 else ((d.base.bind (·.rowRange (d.baseRows - 1))).map Prod.snd).getD 0

/-- The values of the packed page that an edited row takes the place of. -/
def oldCount (d : DirtyPage α) (row : Nat) : Nat :=
  if row < d.baseRows then ((d.baseRow row).map List.length).getD 0 else 0

def countOverride (d : DirtyPage α) (counts : Nat × Nat) (entry : Nat × List α) : Except Failure (Nat × Nat) :=
  if U64_MAX < counts.1 + d.oldCount entry.1 then .error .capacity
  else if U64_MAX < counts.2 + entry.2.length then .error .capacity
  else .ok (counts.1 + d.oldCount entry.1, counts.2 + entry.2.length)

def valueCount (d : DirtyPage α) : Except Failure Nat := do
  let (removed, added) ← (d.overrides.filter fun entry => entry.1 < d.rows).foldlM d.countOverride (0, 0)
  if d.baseCount < removed then .error .capacity
  else if U64_MAX < d.baseCount - removed + added then .error .capacity
  else if U32_MAX < d.baseCount - removed + added then .error .capacity
  else .ok (d.baseCount - removed + added)

def pack (d : DirtyPage α) (alloc : Site → Bool) (pageIndex : Nat) : Except Failure (PackedRows α) := do
  let count ← d.valueCount
  let builder ← tryWithCapacity alloc pageIndex d.rows count
  (List.range d.rows).foldlM (fun builder row => do
    builder.tryPushRow alloc pageIndex (← d.row row)) builder

end DirtyPage

namespace RowPage

def visibleRows : RowPage α → Except Failure Nat
  | packed page =>
    if U16_MAX < page.rowCount then .error (.panic "one row page contains at most 4096 rows")
    else .ok page.rowCount
  | dirty page => .ok page.rows

/-- A packed page becomes the base of a dirty one. -/
def makeDirty : RowPage α → Nat → DirtyPage α
  | packed page, rows => ⟨some page, rows, []⟩
  | dirty page, _ => page

def row : RowPage α → Nat → Except Failure (List α)
  | packed page, row =>
    match page.get row with
    | some values => .ok values
    | none => .error (.panic "packed row index is in bounds")
  | dirty page, row => page.row row

end RowPage

/-! What a page holds. -/

/-- The stored row at a position, visible or not. -/
def DirtyPage.stored (d : DirtyPage α) (row : Nat) : List α :=
  (d.overrides.lookup row).getD ((d.baseRow row).getD [])

/-- The packed page under a dirty one. -/
def BasePacks (base : Option (PackedRows α)) (rows : List (List α)) : Prop :=
  match base with
  | none => rows = []
  | some page => Packs page rows

structure DirtyHolds (d : DirtyPage α) (rows : List (List α)) : Prop where
  length : d.rows = rows.length
  base : ∃ old, BasePacks d.base old ∧ old.flatten.length ≤ U32_MAX
  ascending : Ascending d.overrides
  /-- A row that is not visible is stored empty. -/
  stored : ∀ row, d.stored row = rows[row]?.getD []

def PageHolds (page : RowPage α) (rows : List (List α)) : Prop :=
  rows.length ≤ ROWS_PER_PAGE ∧ match page with
  | .packed p => Packs p rows ∧ rows.flatten.length ≤ U32_MAX
  | .dirty d => DirtyHolds d rows

section

variable {d : DirtyPage α} {rows old : List (List α)}

theorem baseRow_eq (h : BasePacks d.base old) (row : Nat) : d.baseRow row = old[row]? := by
  rw [DirtyPage.baseRow]
  cases hbase : d.base with
  | none =>
    rw [hbase] at h
    obtain rfl : old = [] := h
    rfl
  | some page =>
    rw [hbase] at h
    exact Packs.get h row

theorem DirtyHolds.row (h : DirtyHolds d rows) {row : Nat} (hrow : row < rows.length)
    (hfits : rows.length ≤ ROWS_PER_PAGE) : d.row row = .ok rows[row] := by
  have hstored := h.stored row
  have hsmall : ROWS_PER_PAGE ≤ U16_MAX := by decide
  rw [DirtyPage.stored, List.getElem?_eq_getElem hrow, Option.getD_some] at hstored
  rw [DirtyPage.row, h.length, if_neg (by omega), if_neg (by omega)]
  cases hsearch : search d.overrides row with
  | ok index =>
    obtain ⟨values, hentry, hlookup⟩ := search_ok h.ascending hsearch
    rw [hlookup, Option.getD_some] at hstored
    simp only [hentry, hstored]
  | error index =>
    rw [(search_error hsearch).2, Option.getD_none] at hstored
    simp only [hstored]

/-- A dirty page with one stored row changed. -/
theorem DirtyHolds.edited (h : DirtyHolds d rows) {row : Nat} (hrow : row < rows.length) {values : List α}
    {overrides : List (Nat × List α)} (hascending : Ascending overrides)
    (hlookup : ∀ r, overrides.lookup r = if r = row then some values else d.overrides.lookup r) :
    DirtyHolds { d with overrides } (rows.set row values) := by
  refine ⟨by rw [List.length_set, h.length], h.base, hascending, fun r => ?_⟩
  have hstored := h.stored r
  rw [DirtyPage.stored] at hstored ⊢
  rw [hlookup r, List.getElem?_set]
  by_cases hr : r = row
  · rw [if_pos hr, if_pos hr.symm, if_pos hrow]
    rfl
  · rw [if_neg hr, if_neg (Ne.symm hr)]
    exact hstored

theorem DirtyHolds.rowMut (h : DirtyHolds d rows) {row : Nat} (hrow : row < rows.length) (edit : List α → List α) :
    ∃ d', d.rowMut row edit = .ok d' ∧ DirtyHolds d' (rows.set row (edit rows[row])) := by
  have hstored := h.stored row
  rw [DirtyPage.stored, List.getElem?_eq_getElem hrow, Option.getD_some] at hstored
  rw [DirtyPage.rowMut]
  cases hsearch : search d.overrides row with
  | ok index =>
    obtain ⟨values, hentry, hlookup⟩ := search_ok h.ascending hsearch
    rw [hlookup, Option.getD_some] at hstored
    simp only [hentry, ← hstored]
    exact ⟨_, rfl, h.edited hrow (ascending_set h.ascending hentry _) (lookup_set h.ascending hentry _)⟩
  | error index =>
    rw [(search_error hsearch).2, Option.getD_none] at hstored
    simp only [hstored]
    exact ⟨_, rfl, h.edited hrow (ascending_insertAt h.ascending hsearch _) (lookup_insertAt hsearch _)⟩

theorem DirtyHolds.replace (h : DirtyHolds d rows) {row : Nat} (hrow : row < rows.length) (values : List α) :
    ∃ d', d.replace row values = .ok d' ∧ DirtyHolds d' (rows.set row values) := by
  rw [DirtyPage.replace]
  cases hsearch : search d.overrides row with
  | ok index =>
    obtain ⟨_, hentry, _⟩ := search_ok h.ascending hsearch
    simp only [hentry]
    exact ⟨_, rfl, h.edited hrow (ascending_set h.ascending hentry _) (lookup_set h.ascending hentry _)⟩
  | error index =>
    exact ⟨_, rfl, h.edited hrow (ascending_insertAt h.ascending hsearch _) (lookup_insertAt hsearch _)⟩

/-- Rows that are cut off are empty, and so are rows that come after the last one. -/
theorem DirtyHolds.resize (h : DirtyHolds d rows) {count : Nat} {rows' : List (List α)} (hcount : rows'.length = count)
    (hsame : ∀ row : Nat, rows'[row]?.getD [] = rows[row]?.getD []) : DirtyHolds { d with rows := count } rows' :=
  ⟨hcount.symm, h.base, h.ascending, fun row => (h.stored row).trans (hsame row).symm⟩

theorem PageHolds.makeDirty {page : RowPage α} (h : PageHolds page rows) : DirtyHolds (page.makeDirty rows.length) rows := by
  cases page with
  | packed p =>
    obtain ⟨_, hpacks, hfits⟩ := h
    have hbase : BasePacks (some p) rows := hpacks
    refine ⟨rfl, ⟨rows, hbase, hfits⟩, List.Pairwise.nil, fun row => ?_⟩
    change (⟨some p, rows.length, []⟩ : DirtyPage α).stored row = _
    rw [DirtyPage.stored, baseRow_eq hbase]
    rfl
  | dirty d => exact h.2

theorem PageHolds.visibleRows {page : RowPage α} (h : PageHolds page rows) : page.visibleRows = .ok rows.length := by
  have hsmall : ROWS_PER_PAGE ≤ U16_MAX := by decide
  cases page with
  | packed p =>
    obtain ⟨hfits, hpacks, _⟩ := h
    rw [RowPage.visibleRows, hpacks.rowCount, if_neg (by omega)]
  | dirty d =>
    rw [RowPage.visibleRows]
    exact congrArg _ h.2.length

theorem PageHolds.row {page : RowPage α} (h : PageHolds page rows) {row : Nat} (hrow : row < rows.length) :
    page.row row = .ok rows[row] := by
  cases page with
  | packed p =>
    obtain ⟨_, hpacks, _⟩ := h
    rw [RowPage.row, hpacks.get, List.getElem?_eq_getElem hrow]
  | dirty d => exact h.2.row hrow h.1

end

end Opto.Rows

/-! A dirty page counts its values before it is packed: those of the packed page under it, less
the ones that edited rows replace, and the ones of the edited rows. -/

namespace Opto.Rows

open Mapped (U32_MAX U64_MAX)
open SortedMap

variable {α : Type} {d : DirtyPage α} {rows old : List (List α)}

theorem sum_lengths (xs : List (List α)) (n : Nat) :
    ∑ r ∈ Finset.range n, (xs[r]?.getD []).length = (xs.take n).flatten.length := by
  induction n with
  | zero => rfl
  | succ n ih =>
    rw [Finset.sum_range_succ, ih, List.take_add_one, List.flatten_append, List.length_append]
    cases xs[n]? with
    | none => rfl
    | some row => rw [Option.getD_some, Option.toList_some, List.flatten_singleton]

theorem baseCount_eq (hbase : BasePacks d.base old) : d.baseCount = (old.take d.rows).flatten.length := by
  rw [DirtyPage.baseCount, DirtyPage.baseRows]
  cases hpage : d.base with
  | none =>
    rw [hpage] at hbase
    obtain rfl : old = [] := hbase
    rw [List.take_nil]
    rfl
  | some page =>
    rw [hpage] at hbase
    have hpacks : Packs page old := hbase
    rw [Option.map_some, Option.getD_some, hpacks.rowCount]
    split_ifs with hzero
    · have htake : old.take d.rows = [] := by
        rw [List.take_eq_nil_iff, ← List.length_eq_zero_iff]
        omega
      rw [htake]
      rfl
    · rw [Option.bind_some, hpacks.rowRange (by omega), Option.map_some, Option.getD_some,
        Nat.sub_add_cancel (by omega)]
      rcases Nat.le_total old.length d.rows with hle | hle
      · rw [Nat.min_eq_left hle, List.take_length, List.take_of_length_le hle]
      · rw [Nat.min_eq_right hle]

theorem oldCount_eq (hbase : BasePacks d.base old) {row : Nat} (hrow : row < d.rows) :
    d.oldCount row = (old[row]?.getD []).length := by
  have hget := baseRow_eq hbase row
  have hrows : d.baseRows = min old.length d.rows := by
    rw [DirtyPage.baseRows]
    cases hpage : d.base with
    | none =>
      rw [hpage] at hbase
      obtain rfl : old = [] := hbase
      rw [List.length_nil, Nat.zero_min]
      rfl
    | some page =>
      rw [hpage] at hbase
      have hpacks : Packs page old := hbase
      rw [Option.map_some, Option.getD_some, hpacks.rowCount]
  rw [DirtyPage.oldCount, hrows, hget]
  split_ifs with hin
  · cases old[row]? <;> rfl
  · rw [List.getElem?_eq_none (by omega)]
    rfl

/-- The counts stay exact until they no longer fit. -/
theorem foldlM_countOverride (d : DirtyPage α) (entries : List (Nat × List α)) (removed added : Nat) :
    Settles (entries.foldlM d.countOverride (removed, added))
      (fun counts => counts = (removed + (entries.map fun entry => d.oldCount entry.1).sum,
        added + (entries.map fun entry => entry.2.length).sum))
      (fun e => e = .capacity ∧ (U64_MAX < removed + (entries.map fun entry => d.oldCount entry.1).sum ∨
        U64_MAX < added + (entries.map fun entry => entry.2.length).sum)) := by
  induction entries generalizing removed added with
  | nil => rfl
  | cons entry entries ih =>
    rw [List.foldlM_cons, List.map_cons, List.map_cons, List.sum_cons, List.sum_cons, DirtyPage.countOverride]
    simp only [← Nat.add_assoc]
    split_ifs with hremoved hadded
    · exact ⟨rfl, .inl (by omega)⟩
    · exact ⟨rfl, .inr (by omega)⟩
    · exact ih _ _

/-- The counted values are those of the visible rows, and they must fit. -/
theorem DirtyHolds.valueCount (h : DirtyHolds d rows) : d.valueCount =
    if U32_MAX < rows.flatten.length then .error .capacity else .ok rows.flatten.length := by
  obtain ⟨old, hbase, hfits⟩ := h.base
  have hwide : U32_MAX < U64_MAX := by decide
  have htotal : ∑ r ∈ Finset.range d.rows, ((d.overrides.lookup r).map List.length).getD (old[r]?.getD []).length =
      rows.flatten.length := by
    rw [← List.take_length (l := rows), ← sum_lengths, h.length]
    apply Finset.sum_congr rfl
    intro r _
    rw [← h.stored r, DirtyPage.stored, baseRow_eq hbase]
    cases d.overrides.lookup r <;> rfl
  have hcount := baseCount_eq hbase
  have hbound : d.baseCount ≤ U32_MAX := by
    rw [hcount]
    exact Nat.le_trans ((List.take_sublist d.rows old).flatten.length_le) hfits
  have hold : ((d.overrides.filter fun entry => entry.1 < d.rows).map fun entry => d.oldCount entry.1).sum =
      ((d.overrides.filter fun entry => entry.1 < d.rows).map fun entry => (old[entry.1]?.getD []).length).sum := by
    apply congrArg
    apply List.map_congr_left
    intro entry hentry
    have hvisible := (List.mem_filter.mp hentry).2
    exact oldCount_eq hbase (of_decide_eq_true hvisible)
  -- what is replaced was counted in the packed page
  have hless := sum_lookup h.ascending.nodup (fun r => (old[r]?.getD []).length) (fun _ => 0) d.rows
  have hsum := sum_lookup h.ascending.nodup (fun r => (old[r]?.getD []).length) List.length d.rows
  rw [htotal, sum_lengths, ← hcount, ← hold] at hsum
  rw [sum_lengths, ← hcount, ← hold] at hless
  have hzero : ((d.overrides.filter fun entry => entry.1 < d.rows).map fun _ => 0).sum = 0 := by simp
  rw [hzero] at hless
  have hloop := foldlM_countOverride d (d.overrides.filter fun entry => entry.1 < d.rows) 0 0
  rw [DirtyPage.valueCount]
  cases hfold : (d.overrides.filter fun entry => entry.1 < d.rows).foldlM d.countOverride (0, 0) with
  | error e =>
    rw [hfold] at hloop
    obtain ⟨rfl, hlarge⟩ := hloop
    rw [if_pos (by omega)]
    rfl
  | ok counts =>
    rw [hfold] at hloop
    obtain rfl := hloop
    simp only [bind, Except.bind]
    rw [if_neg (by omega)]
    have hsame : d.baseCount - (0 + ((d.overrides.filter fun entry => entry.1 < d.rows).map
        fun entry => d.oldCount entry.1).sum) + (0 + ((d.overrides.filter fun entry => entry.1 < d.rows).map
        fun entry => entry.2.length).sum) = rows.flatten.length := by omega
    rw [hsame]
    split_ifs with h64 h32
    · rfl
    · omega
    · rfl
    · rfl

/-- Packing fails only for want of memory or of room. -/
theorem DirtyHolds.pack (h : DirtyHolds d rows) (hfits : rows.length ≤ ROWS_PER_PAGE) (alloc : Site → Bool)
    (pageIndex : Nat) :
    Settles (d.pack alloc pageIndex) (fun p => Packs p rows ∧ rows.flatten.length ≤ U32_MAX)
      (fun e => e = .capacity ∧ ((∃ site, alloc site = false) ∨ U32_MAX < rows.flatten.length)) := by
  have hsmall : ROWS_PER_PAGE < U32_MAX := by decide
  rw [DirtyPage.pack, h.valueCount]
  split_ifs with hlarge
  · exact ⟨rfl, .inr hlarge⟩
  · change Settles (do
      let builder ← tryWithCapacity alloc pageIndex d.rows rows.flatten.length
      (List.range d.rows).foldlM (fun builder row => do
        builder.tryPushRow alloc pageIndex (← d.row row)) builder) _ _
    have hstart : Settles (tryWithCapacity alloc pageIndex d.rows rows.flatten.length : Except Failure (PackedRows α))
        (fun builder => Packs builder (rows.take 0))
        (fun e => e = .capacity ∧ ((∃ site, alloc site = false) ∨ U32_MAX < rows.flatten.length)) := by
      rw [tryWithCapacity, h.length, if_neg (by omega)]
      apply Settles.bind (tryReserve_settles _ _)
      intro _ _
      apply Settles.bind (tryReserve_settles _ _)
      intro _ _
      exact Packs.empty
    apply Settles.bind hstart
    intro builder hbuilder
    have hloop : Settles ((List.range d.rows).foldlM (fun builder row => do
        builder.tryPushRow alloc pageIndex (← d.row row)) builder)
        (fun q => Packs q (rows.take (List.range d.rows).length))
        (fun e => e = .capacity ∧ ((∃ site, alloc site = false) ∨ U32_MAX < rows.flatten.length)) := by
      apply Settles.foldlM_split (fun (done : List Nat) (builder : PackedRows α) => Packs builder (rows.take done.length))
        hbuilder
      intro done row rest hsplit builder hbuilder
      have hentry : (List.range d.rows)[done.length]? = some row := by
        rw [← hsplit, List.getElem?_append_right (Nat.le_refl _), Nat.sub_self]
        rfl
      have hrow : done.length < rows.length := by
        have hlt := (List.getElem?_eq_some_iff.mp hentry).1
        rwa [List.length_range, h.length] at hlt
      rw [List.getElem?_range (h.length ▸ hrow)] at hentry
      cases hentry
      rw [h.row hrow hfits, List.length_append, List.length_singleton, List.take_succ_eq_append_getElem hrow]
      apply ((hbuilder.tryPushRow alloc pageIndex rows[done.length]).mono fun _ hq => hq.1).weaken
      rintro e ⟨he, hsite | hrows | hvalues⟩
      · exact ⟨he, .inl hsite⟩
      · rw [List.length_take] at hrows
        omega
      · rw [← List.take_succ_eq_append_getElem hrow] at hvalues
        have hsub := ((List.take_sublist (done.length + 1) rows).flatten.length_le)
        omega
    apply hloop.mono
    intro p hp
    rw [List.length_range, h.length, List.take_length] at hp
    exact ⟨hp, Nat.not_lt.mp hlarge⟩

end Opto.Rows
