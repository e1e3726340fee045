import Opto.Rows.Arena

/-!
# What an arena holds

Every page of an arena holds its part of one list of rows. Reading gives the rows and an edit
changes one of them. Rows that are added are empty, and so are those that may be removed, so
that growing and shrinking change the last page only.
-/

namespace Opto.Rows

open Mapped (U32_MAX U64_MAX)
open Pages

variable {α : Type}

def PagesHold (pages : List (RowPage α)) (rows : List (List α)) : Prop :=
  ∀ k page, pages[k]? = some page → PageHolds page (Pages.page ROWS_PER_PAGE rows k)

structure ArenaHolds (a : RowArena α) (rows : List (List α)) : Prop where
  rowCount : a.rowCount = rows.length
  fits : rows.length ≤ U32_MAX
  length : a.pages.length = divCeil rows.length ROWS_PER_PAGE
  pages : PagesHold a.pages rows

theorem rowsPerPage_pos : 0 < ROWS_PER_PAGE := by decide

section

variable {a : RowArena α} {rows rows' : List (List α)} {row : Nat}

theorem settle_outcome {β : Type} {r : Except Failure β} {Q : β → Prop} {E : Failure → Prop} (h : Settles r Q E) :
    Outcome a (settle r) (fun b a' => a' = a ∧ Q b) (fun e a' => a' = a ∧ E e) := by
  cases r with
  | ok b => exact ⟨rfl, h⟩
  | error e => exact ⟨rfl, h⟩

theorem ArenaHolds.pageOf (h : ArenaHolds a rows) (hrow : row < rows.length) : ∃ page,
    a.pages[row / ROWS_PER_PAGE]? = some page ∧
      PageHolds page (Pages.page ROWS_PER_PAGE rows (row / ROWS_PER_PAGE)) ∧
      ∃ hlocal : row % ROWS_PER_PAGE < (Pages.page ROWS_PER_PAGE rows (row / ROWS_PER_PAGE)).length,
        (Pages.page ROWS_PER_PAGE rows (row / ROWS_PER_PAGE))[row % ROWS_PER_PAGE] = rows[row] := by
  have hstart := Nat.div_mul_le_self row ROWS_PER_PAGE
  have hlt : row / ROWS_PER_PAGE < a.pages.length := by
    rw [h.length, lt_divCeil rowsPerPage_pos]
    omega
  have hentry := getElem?_page_mod rowsPerPage_pos rows row
  rw [List.getElem?_eq_getElem hrow] at hentry
  obtain ⟨hlocal, hvalue⟩ := List.getElem?_eq_some_iff.mp hentry
  refine ⟨_, List.getElem?_eq_getElem hlt, h.pages _ _ (List.getElem?_eq_getElem hlt), hlocal, hvalue⟩

theorem ArenaHolds.get (h : ArenaHolds a rows) (row : Nat) : a.get row = .ok rows[row]? := by
  rw [RowArena.get, h.rowCount]
  split_ifs with hrow
  · obtain ⟨page, hpage, hholds, hlocal, hvalue⟩ := h.pageOf hrow
    rw [hpage, List.getElem?_eq_getElem hrow, ← hvalue]
    simp only [hholds.row hlocal]
    rfl
  · rw [List.getElem?_eq_none (Nat.not_lt.mp hrow)]

theorem ArenaHolds.index (h : ArenaHolds a rows) (hrow : row < rows.length) : a.index row = .ok rows[row] := by
  rw [RowArena.index, h.get, List.getElem?_eq_getElem hrow]
  rfl

/-! Edits of one row. -/

theorem dirtyRow_outcome (h : ArenaHolds a rows) (hrow : row < rows.length) : Outcome a (dirtyRow row)
    (fun r a' => r.2 = row % ROWS_PER_PAGE ∧
      DirtyHolds r.1 (Pages.page ROWS_PER_PAGE rows (row / ROWS_PER_PAGE)) ∧
      a' = { a with pages := a.pages.set (row / ROWS_PER_PAGE) (.dirty r.1) })
    (fun _ _ => False) := by
  obtain ⟨page, hpage, hholds, _⟩ := h.pageOf hrow
  apply Outcome.get
  rw [if_neg (by rw [h.rowCount]; omega), hpage]
  simp only [hholds.visibleRows, settle, pure_bind]
  apply Outcome.set
  apply Outcome.pure
  exact ⟨rfl, hholds.makeDirty, rfl⟩

/-- An edit that a page takes is one of the arena. -/
theorem edit_outcome (h : ArenaHolds a rows) (change : DirtyPage α → Nat → Except Failure (DirtyPage α))
    {values : List α} (hchange : ∀ d,
      row % ROWS_PER_PAGE < (Pages.page ROWS_PER_PAGE rows (row / ROWS_PER_PAGE)).length →
      DirtyHolds d (Pages.page ROWS_PER_PAGE rows (row / ROWS_PER_PAGE)) →
      ∃ d', change d (row % ROWS_PER_PAGE) = .ok d' ∧
        DirtyHolds d' ((Pages.page ROWS_PER_PAGE rows (row / ROWS_PER_PAGE)).set (row % ROWS_PER_PAGE) values)) :
    Outcome a (do
      let (d, position) ← dirtyRow row
      writeBack row (← settle (change d position)))
      (fun _ a' => row < rows.length ∧ ArenaHolds a' (rows.set row values))
      (fun e a' => a' = a ∧ rows.length ≤ row ∧ ∃ message, e = .panic message) := by
  by_cases hrow : row < rows.length
  · obtain ⟨page, hpage, hholds, hlocal, _⟩ := h.pageOf hrow
    apply (dirtyRow_outcome h hrow).bind
    · rintro ⟨d, position⟩ _ ⟨hposition, hd, rfl⟩
      obtain rfl : position = _ := hposition
      obtain ⟨d', hedit, hd'⟩ := hchange d hlocal hd
      simp only [hedit, settle, pure_bind]
      rw [writeBack]
      refine ⟨hrow, ?_⟩
      refine ⟨by rw [List.length_set]; exact h.rowCount, by rw [List.length_set]; exact h.fits,
        by rw [List.length_set, List.length_set, List.length_set]; exact h.length, fun k p hk => ?_⟩
      change ((a.pages.set _ _).set _ _)[k]? = some p at hk
      rw [List.set_set, List.getElem?_set] at hk
      rw [page_set rowsPerPage_pos]
      by_cases hother : row / ROWS_PER_PAGE = k
      · subst hother
        rw [if_pos rfl] at hk ⊢
        split_ifs at hk
        cases hk
        exact ⟨by rw [List.length_set]; exact hholds.1, hd'⟩
      · rw [if_neg hother] at hk
        rw [if_neg (Ne.symm hother)]
        exact h.pages k p hk
    · exact fun _ _ he => he.elim
  · have hfail : (dirtyRow row).run a = .error (.panic "row arena index is in bounds") a := by
      rw [dirtyRow]
      simp only [bind, EStateM.bind, EStateM.run, get, getThe, MonadStateOf.get, stateGet_eq]
      rw [if_pos (by rw [h.rowCount]; omega)]
      rfl
    rw [Outcome]
    simp only [EStateM.run, bind, EStateM.bind] at hfail ⊢
    rw [hfail]
    exact ⟨rfl, by omega, _, rfl⟩

theorem rowMut_outcome (h : ArenaHolds a rows) (row : Nat) (edit : List α → List α) : Outcome a (rowMut row edit)
    (fun _ a' => row < rows.length ∧ ArenaHolds a' (rows.modify row edit))
    (fun e a' => a' = a ∧ rows.length ≤ row ∧ ∃ message, e = .panic message) := by
  have hsame : rows.modify row edit = rows.set row (edit (rows[row]?.getD [])) := by
    rw [List.modify_eq_set]
    cases rows[row]? with
    | none => rfl
    | some values => rfl
  rw [hsame]
  apply edit_outcome h fun d position => d.rowMut position edit
  intro d hlocal hd
  obtain ⟨d', hedit, hd'⟩ := hd.rowMut hlocal edit
  refine ⟨d', hedit, ?_⟩
  have hentry := getElem?_page_mod rowsPerPage_pos rows row
  rw [List.getElem?_eq_getElem hlocal] at hentry
  rwa [← hentry, Option.getD_some]

theorem replace_outcome (h : ArenaHolds a rows) (row : Nat) (values : List α) : Outcome a (replace row values)
    (fun _ a' => row < rows.length ∧ ArenaHolds a' (rows.set row values))
    (fun e a' => a' = a ∧ rows.length ≤ row ∧ ∃ message, e = .panic message) := by
  apply edit_outcome h fun d position => d.replace position values
  intro d hlocal hd
  exact hd.replace hlocal values

end

end Opto.Rows

namespace Opto.Rows

open Mapped (U32_MAX U64_MAX)
open Pages

variable {α : Type}

/-- The rows are the same but for empty ones at the end. -/
def SameStored (rows rows' : List (List α)) : Prop := ∀ i : Nat, rows'[i]?.getD [] = rows[i]?.getD []

section

variable {a : RowArena α} {rows rows' : List (List α)}

theorem sameStored_grown (rows : List (List α)) (n : Nat) : SameStored rows (rows ++ List.replicate n []) := by
  intro i
  by_cases hi : i < rows.length
  · rw [List.getElem?_append_left hi]
  · rw [List.getElem?_append_right (Nat.not_lt.mp hi), List.getElem?_eq_none (Nat.not_lt.mp hi), List.getElem?_replicate]
    split_ifs <;> rfl

theorem sameStored_cut {count : Nat} (hempty : ∀ i (hi : i < rows.length), count ≤ i → rows[i] = []) :
    SameStored rows (rows.take count) := by
  intro i
  rw [List.getElem?_take]
  split_ifs with hi
  · rfl
  · by_cases hin : i < rows.length
    · rw [List.getElem?_eq_getElem hin, Option.getD_some, hempty i hin (Nat.not_lt.mp hi)]
      rfl
    · rw [List.getElem?_eq_none (Nat.not_lt.mp hin)]

theorem SameStored.page (h : SameStored rows rows') (k : Nat) :
    SameStored (Pages.page ROWS_PER_PAGE rows k) (Pages.page ROWS_PER_PAGE rows' k) := by
  intro i
  rw [getElem?_page, getElem?_page]
  split_ifs with hi
  · exact h _
  · rfl

/-- A page that is full on both sides is the same. -/
theorem SameStored.eq (h : SameStored rows rows') (hlength : rows'.length = rows.length) : rows' = rows := by
  apply List.ext_getElem hlength
  intro i hi hi'
  have hentry := h i
  rwa [List.getElem?_eq_getElem hi, List.getElem?_eq_getElem hi', Option.getD_some, Option.getD_some] at hentry

theorem SameStored.page_eq (h : SameStored rows rows') {k : Nat}
    (hlength : (Pages.page ROWS_PER_PAGE rows' k).length = (Pages.page ROWS_PER_PAGE rows k).length) :
    Pages.page ROWS_PER_PAGE rows' k = Pages.page ROWS_PER_PAGE rows k := (h.page k).eq hlength

theorem length_page_le (rows : List (List α)) (k : Nat) : (Pages.page ROWS_PER_PAGE rows k).length ≤ ROWS_PER_PAGE := by
  rw [length_page]
  exact Nat.min_le_right _ _

/-- A page that is cut or extended by empty rows. -/
theorem PageHolds.resize {page : RowPage α} (h : PageHolds page rows) (hfits : rows'.length ≤ ROWS_PER_PAGE)
    (hsame : SameStored rows rows') (count : Nat) :
    PageHolds (.dirty { page.makeDirty count with rows := rows'.length }) rows' := by
  have hd := h.makeDirty.resize rfl hsame
  refine ⟨hfits, ?_⟩
  cases page with
  | packed p => exact hd
  | dirty d => exact hd

theorem pageRows_ok {n : Nat} (hn : n ≤ ROWS_PER_PAGE) : pageRows n = .ok n := by
  have hsmall : ROWS_PER_PAGE ≤ U16_MAX := by decide
  rw [pageRows, if_neg (by omega)]

/-- The last page takes the form that it has in the new rows; the pages before it keep theirs. -/
theorem pagesHold_last {pages : List (RowPage α)} (h : PagesHold pages rows) (hsame : SameStored rows rows')
    (hothers : ∀ k, k + 1 < pages.length →
      (Pages.page ROWS_PER_PAGE rows' k).length = (Pages.page ROWS_PER_PAGE rows k).length)
    {last : RowPage α} (hlast : pages.getLast? = some last) {count n : Nat}
    (hcount : n = (Pages.page ROWS_PER_PAGE rows' (pages.length - 1)).length) :
    PagesHold (pages.set (pages.length - 1) (.dirty { last.makeDirty count with rows := n })) rows' := by
  subst hcount
  intro k page hk
  rw [List.getLast?_eq_getElem?] at hlast
  rw [List.getElem?_set] at hk
  by_cases hother : pages.length - 1 = k
  · subst hother
    rw [if_pos rfl] at hk
    split_ifs at hk
    cases hk
    exact (h _ _ hlast).resize (length_page_le rows' _) (hsame.page _) count
  · rw [if_neg hother] at hk
    have hlt := (List.getElem?_eq_some_iff.mp hk).1
    rw [hsame.page_eq (hothers k (by omega))]
    exact h k page hk

/-! Growing. -/

theorem tryReserveRows_outcome (alloc : Site → Bool) (count : Nat) : Outcome a (tryReserveRows alloc count)
    (fun _ a' => a' = a ∧ count ≤ U32_MAX)
    (fun e a' => a' = a ∧ e = .capacity ∧ ((∃ site, alloc site = false) ∨ U32_MAX < count)) := by
  rw [tryReserveRows]
  split_ifs with hlarge
  · exact Outcome.throw ⟨rfl, rfl, .inr hlarge⟩
  · rw [reserve]
    split_ifs with hsite
    · exact Outcome.pure ⟨rfl, Nat.not_lt.mp hlarge⟩
    · exact Outcome.throw ⟨rfl, rfl, .inl ⟨_, Bool.eq_false_iff.mpr hsite⟩⟩

theorem growLast_outcome (h : ArenaHolds a rows) {count : Nat} (hgrows : rows.length ≤ count) :
    Outcome a (growLast count)
      (fun _ a' => a'.pages.length = a.pages.length ∧
        PagesHold a'.pages (rows ++ List.replicate (count - rows.length) []))
      (fun _ _ => False) := by
  have hsame := sameStored_grown rows (count - rows.length)
  have hgrown : (rows ++ List.replicate (count - rows.length) []).length = count := by
    rw [List.length_append, List.length_replicate]
    omega
  have hpos := rowsPerPage_pos
  have hcut (k : Nat) : k < a.pages.length ↔ k * ROWS_PER_PAGE < rows.length := by
    rw [h.length, lt_divCeil hpos]
  have hend := hcut a.pages.length
  have hothers (k : Nat) (hk : k + 1 < a.pages.length) :
      (Pages.page ROWS_PER_PAGE (rows ++ List.replicate (count - rows.length) []) k).length =
        (Pages.page ROWS_PER_PAGE rows k).length := by
    have hnext := (hcut (k + 1)).mp hk
    rw [Nat.succ_mul] at hnext
    rw [length_page, length_page, hgrown]
    omega
  rw [growLast]
  apply Outcome.get
  cases hlast : a.pages.getLast? with
  | none =>
    rw [List.getLast?_eq_none_iff] at hlast
    refine Outcome.pure ⟨rfl, fun k page hk => ?_⟩
    rw [hlast] at hk
    cases hk
  | some last =>
    have hne : a.pages.length ≠ 0 := by
      intro hzero
      rw [List.length_eq_zero_iff] at hzero
      rw [hzero] at hlast
      cases hlast
    simp only [h.rowCount]
    split_ifs with hfull
    · -- a full last page stays as it is
      refine Outcome.pure ⟨rfl, fun k page hk => ?_⟩
      have hlt := (List.getElem?_eq_some_iff.mp hk).1
      rw [hsame.page_eq]
      · exact h.pages k page hk
      · have hstart := (hcut k).mp hlt
        have hdvd := Nat.dvd_of_mod_eq_zero hfull
        obtain ⟨m, hm⟩ := hdvd
        rw [hm, Nat.mul_comm, Nat.mul_lt_mul_left hpos] at hstart
        have hroom : (k + 1) * ROWS_PER_PAGE ≤ rows.length := by
          rw [hm, Nat.mul_comm]
          exact Nat.mul_le_mul_left _ hstart
        rw [Nat.succ_mul] at hroom
        rw [length_page, length_page, hgrown]
        omega
    · rw [pageRows_ok (Nat.min_le_right _ _)]
      simp only [settle, pure_bind]
      refine ⟨List.length_set, ?_⟩
      apply pagesHold_last h.pages hsame hothers hlast
      rw [length_page, hgrown]

theorem growPage_outcome {count : Nat} (hcount : rows'.length = count) (h : PagesHold a.pages rows')
    (hempty : ∀ row ∈ rows'.drop (a.pages.length * ROWS_PER_PAGE), row = []) :
    Outcome a (growPage count)
      (fun _ a' => a'.pages.length = a.pages.length + 1 ∧ PagesHold a'.pages rows')
      (fun _ _ => False) := by
  rw [growPage]
  apply Outcome.get
  simp only [pageRows_ok (Nat.min_le_right _ ROWS_PER_PAGE), settle, pure_bind]
  refine ⟨List.length_append, fun k page hk => ?_⟩
  change (a.pages ++ [_])[k]? = some page at hk
  by_cases hin : k < a.pages.length
  · rw [List.getElem?_append_left hin] at hk
    exact h k page hk
  · rw [List.getElem?_append_right (Nat.not_lt.mp hin)] at hk
    obtain hlast | hlast : k - a.pages.length = 0 ∨ 0 < k - a.pages.length := Nat.eq_zero_or_pos _
    · obtain rfl : k = a.pages.length := by omega
      rw [Nat.sub_self] at hk
      cases hk
      refine ⟨length_page_le rows' _, ?_⟩
      change DirtyHolds _ _
      refine ⟨by rw [length_page, hcount], ⟨[], rfl, Nat.zero_le _⟩, List.Pairwise.nil, fun i => ?_⟩
      rw [getElem?_page]
      split_ifs
      · rw [← List.getElem?_drop]
        cases hrow : (rows'.drop (a.pages.length * ROWS_PER_PAGE))[i]? with
        | none => rfl
        | some row =>
          rw [Option.getD_some, hempty row (List.mem_of_getElem? hrow)]
          rfl
      · rfl
    · rw [List.getElem?_eq_none (by rw [List.length_singleton]; omega)] at hk
      cases hk

theorem setRowCount_outcome {count : Nat} (hcount : rows'.length = count) (hfits : count ≤ U32_MAX)
    (hlength : a.pages.length = divCeil count ROWS_PER_PAGE) (h : PagesHold a.pages rows') :
    Outcome a (setRowCount count) (fun _ a' => ArenaHolds a' rows') (fun _ _ => False) := by
  subst hcount
  exact ⟨rfl, hfits, hlength, h⟩

theorem resizeEmpty_outcome (h : ArenaHolds a rows) (alloc : Site → Bool) (count : Nat) :
    Outcome a (resizeEmpty alloc count)
      (fun _ a' => rows.length ≤ count ∧ ArenaHolds a' (rows ++ List.replicate (count - rows.length) []))
      (fun e a' => a' = a ∧ (e = .capacity ∧ ((∃ site, alloc site = false) ∨ U32_MAX < count) ∨
        count < rows.length ∧ ∃ message, e = .panic message)) := by
  have hpos := rowsPerPage_pos
  rw [resizeEmpty]
  apply Outcome.get
  rw [h.rowCount]
  split_ifs with hless hsame
  · exact Outcome.throw ⟨rfl, .inr ⟨hless, _, rfl⟩⟩
  · refine Outcome.pure ⟨by omega, ?_⟩
    rw [hsame, Nat.sub_self, List.replicate_zero, List.append_nil]
    exact h
  · have hgrows : rows.length ≤ count := Nat.not_lt.mp hless
    have hgrown : (rows ++ List.replicate (count - rows.length) []).length = count := by
      rw [List.length_append, List.length_replicate]
      omega
    have hpages : a.pages.length ≤ divCeil count ROWS_PER_PAGE := by
      rw [h.length, divCeil, divCeil]
      exact Nat.div_le_div_right (by omega)
    have hcover : rows.length ≤ a.pages.length * ROWS_PER_PAGE := by
      have hend := (lt_divCeil hpos (k := a.pages.length) (n := rows.length))
      rw [← h.length] at hend
      omega
    apply (tryReserveRows_outcome alloc count).bind
    · rintro _ reserved ⟨hreserved, hfits⟩
      obtain rfl : a = reserved := hreserved.symm
      apply (growLast_outcome h hgrows).bind
      · rintro _ b ⟨hlength, hb⟩
        apply Outcome.bind (Outcome.forM (fun (done : List Nat) (b : RowArena α) =>
          b.pages.length = a.pages.length + done.length ∧
            PagesHold b.pages (rows ++ List.replicate (count - rows.length) [])) ⟨hlength, hb⟩ ?_)
        · rintro _ b ⟨hlength, hb⟩
          rw [List.length_range] at hlength
          apply (setRowCount_outcome hgrown hfits (by omega) hb).mono
          · exact fun _ _ ha => ⟨hgrows, ha⟩
          · exact fun _ _ he => he.elim
        · exact fun _ _ he => he
        · rintro done _ _ _ b ⟨hlength, hb⟩
          rw [List.length_append, List.length_singleton, ← Nat.add_assoc]
          have hempty (row : List α) (hrow : row ∈ (rows ++ List.replicate (count - rows.length) []).drop
              (b.pages.length * ROWS_PER_PAGE)) : row = [] := by
            have hpast : rows.length ≤ b.pages.length * ROWS_PER_PAGE := by
              rw [hlength, Nat.add_mul]
              omega
            rw [List.drop_append, List.drop_eq_nil_of_le hpast, List.nil_append] at hrow
            exact List.eq_of_mem_replicate (List.mem_of_mem_drop hrow)
          apply (growPage_outcome hgrown hb hempty).mono
          · rintro _ b' ⟨hlength', hb'⟩
            exact ⟨by omega, hb'⟩
          · exact fun _ _ he => he.elim
      · exact fun _ _ he => he.elim
    · rintro _ _ ⟨ha, he, hwhy⟩
      exact ⟨ha, .inl ⟨he, hwhy⟩⟩

theorem pushEmpty_outcome (h : ArenaHolds a rows) (alloc : Site → Bool) :
    Outcome a (pushEmpty alloc) (fun _ a' => ArenaHolds a' (rows ++ [[]]))
      (fun e a' => a' = a ∧ e = .capacity ∧ ((∃ site, alloc site = false) ∨ U32_MAX < rows.length + 1)) := by
  have hwide : U32_MAX < U64_MAX := by decide
  have hfits := h.fits
  rw [pushEmpty]
  apply Outcome.get
  rw [h.rowCount, if_neg (by omega)]
  apply (resizeEmpty_outcome h alloc (rows.length + 1)).mono
  · intro _ a' ⟨_, ha⟩
    rwa [Nat.add_sub_cancel_left] at ha
  · rintro e a' ⟨ha, he | ⟨hless, _⟩⟩
    · exact ⟨ha, he⟩
    · omega

/-! Shrinking. -/

theorem allEmpty_eq (h : ArenaHolds a rows) {start : Nat} (hstart : start ≤ rows.length) :
    a.allEmpty start rows.length = .ok ((rows.drop start).all List.isEmpty) := by
  rw [RowArena.allEmpty]
  generalize hn : rows.length - start = n
  induction n generalizing start with
  | zero =>
    rw [List.drop_eq_nil_of_le (by omega)]
    rfl
  | succ n ih =>
    have hlt : start < rows.length := by omega
    rw [List.range'_succ, List.allM, h.index hlt, List.drop_eq_getElem_cons hlt, List.all_cons]
    have hrest := @ih (start + 1) (by omega) (by omega)
    cases hempty : rows[start].isEmpty with
    | false =>
      simp only [Functor.map, Except.map, bind, Except.bind, hempty]
      rfl
    | true =>
      simp only [Functor.map, Except.map, bind, Except.bind, hempty, Bool.true_and]
      exact hrest

theorem cutLast_outcome (h : ArenaHolds a rows) {count : Nat} (hcount : count ≤ rows.length)
    (hsame : SameStored rows (rows.take count)) {b : RowArena α}
    (hb : b.pages = a.pages.take (divCeil count ROWS_PER_PAGE)) :
    Outcome b (cutLast (count % ROWS_PER_PAGE))
      (fun _ b' => b'.pages.length = b.pages.length ∧ PagesHold b'.pages (rows.take count))
      (fun _ _ => False) := by
  have hpos := rowsPerPage_pos
  have hmod := Nat.mod_lt count hpos
  have hdiv := Nat.div_add_mod' count ROWS_PER_PAGE
  have hcut : (rows.take count).length = count := List.length_take_of_le hcount
  have hold : PagesHold b.pages rows := by
    intro k page hk
    rw [hb, List.getElem?_take] at hk
    split_ifs at hk
    exact h.pages k page hk
  have hlt (k : Nat) (hk : k < b.pages.length) : k * ROWS_PER_PAGE < count := by
    rw [← lt_divCeil hpos]
    rw [hb, List.length_take] at hk
    omega
  have hothers (k : Nat) (hk : k + 1 < b.pages.length) : (Pages.page ROWS_PER_PAGE (rows.take count) k).length =
      (Pages.page ROWS_PER_PAGE rows k).length := by
    have hnext := hlt (k + 1) hk
    rw [Nat.succ_mul] at hnext
    rw [length_page, length_page, hcut]
    omega
  rw [cutLast]
  apply Outcome.get
  cases hlast : b.pages.getLast? with
  | none =>
    rw [List.getLast?_eq_none_iff] at hlast
    refine Outcome.pure ⟨rfl, fun k page hk => ?_⟩
    rw [hlast] at hk
    cases hk
  | some last =>
    simp only
    split_ifs with hfull
    · refine Outcome.pure ⟨rfl, fun k page hk => ?_⟩
      rw [hsame.page_eq]
      · exact hold k page hk
      · have hstart := hlt k (List.getElem?_eq_some_iff.mp hk).1
        rw [hfull, Nat.add_zero] at hdiv
        rw [← hdiv, Nat.mul_lt_mul_right hpos] at hstart
        have hroom : (k + 1) * ROWS_PER_PAGE ≤ count := by
          rw [← hdiv]
          exact Nat.mul_le_mul_right _ hstart
        rw [Nat.succ_mul] at hroom
        rw [length_page, length_page, hcut]
        omega
    · rw [pageRows_ok (Nat.le_of_lt hmod)]
      simp only [settle, pure_bind]
      refine ⟨List.length_set, ?_⟩
      apply pagesHold_last hold hsame hothers hlast
      have hpages : b.pages.length = count / ROWS_PER_PAGE + 1 := by
        have hin : count / ROWS_PER_PAGE < divCeil count ROWS_PER_PAGE := by
          rw [lt_divCeil hpos]
          omega
        have hout := (lt_divCeil hpos (k := count / ROWS_PER_PAGE + 1) (n := count)).not
        rw [Nat.succ_mul] at hout
        have hmore : divCeil count ROWS_PER_PAGE ≤ a.pages.length := by
          rw [h.length, divCeil, divCeil]
          exact Nat.div_le_div_right (by omega)
        rw [hb, List.length_take]
        omega
      rw [length_page, hcut, hpages, Nat.add_sub_cancel]
      omega

theorem truncateEmpty_outcome (h : ArenaHolds a rows) (count : Nat) :
    Outcome a (truncateEmpty count)
      (fun _ a' => count ≤ rows.length ∧ (rows.drop count).all List.isEmpty ∧ ArenaHolds a' (rows.take count))
      (fun e a' => a' = a ∧ ¬(count ≤ rows.length ∧ (rows.drop count).all List.isEmpty) ∧
        ∃ message, e = .panic message) := by
  have hpos := rowsPerPage_pos
  rw [truncateEmpty]
  apply Outcome.get
  rw [h.rowCount]
  by_cases hcount : count ≤ rows.length
  · simp only [if_pos hcount, allEmpty_eq h hcount, settle, pure_bind]
    split_ifs with hnonempty hall
    · exact Outcome.throw ⟨rfl, (fun hall => Bool.noConfusion (hall.2.symm.trans hnonempty)), _, rfl⟩
    · refine Outcome.pure ⟨hcount, Bool.eq_true_of_not_eq_false hnonempty, ?_⟩
      rw [hall, List.take_length]
      exact h
    · rw [Bool.not_eq_false] at hnonempty
      have hsame : SameStored rows (rows.take count) := by
        apply sameStored_cut
        intro i hi hle
        rw [List.all_eq_true] at hnonempty
        have hmem : rows[i] ∈ rows.drop count := by
          rw [List.mem_drop_iff_getElem]
          exact ⟨i - count, by omega, by simp only [Nat.add_sub_cancel' hle]⟩
        exact List.isEmpty_iff.mp (hnonempty _ hmem)
      apply Outcome.set
      apply (cutLast_outcome h hcount hsame rfl).bind
      · intro _ b ⟨hlength, hb⟩
        have hcut : (rows.take count).length = count := List.length_take_of_le hcount
        have hmore : divCeil count ROWS_PER_PAGE ≤ a.pages.length := by
          rw [h.length, divCeil, divCeil]
          exact Nat.div_le_div_right (by omega)
        apply (setRowCount_outcome hcut (Nat.le_trans hcount h.fits) ?_ hb).mono
        · exact fun _ _ ha => ⟨hcount, hnonempty, ha⟩
        · exact fun _ _ he => he.elim
        · rw [hlength]
          exact List.length_take_of_le hmore
      · exact fun _ _ he => he.elim
  · simp only [if_neg hcount, pure_bind, if_pos]
    exact Outcome.throw ⟨rfl, (fun hall => hcount hall.1), _, rfl⟩

theorem popEmpty_outcome (h : ArenaHolds a rows) :
    Outcome a popEmpty (fun _ a' => rows.getLast? = some [] ∧ ArenaHolds a' rows.dropLast)
      (fun e a' => a' = a ∧ rows.getLast? ≠ some [] ∧ ∃ message, e = .panic message) := by
  rw [popEmpty]
  apply Outcome.get
  rw [h.rowCount]
  split_ifs with hzero
  · obtain rfl := List.length_eq_zero_iff.mp hzero
    exact Outcome.throw ⟨rfl, by simp, _, rfl⟩
  · have hlast : (rows.drop (rows.length - 1)).all List.isEmpty = true ↔ rows.getLast? = some [] := by
      rw [List.getLast?_eq_getElem?, List.drop_eq_getElem_cons (by omega : rows.length - 1 < rows.length),
        List.drop_eq_nil_of_le (by omega), List.getElem?_eq_getElem (by omega : rows.length - 1 < rows.length)]
      simp
    apply (truncateEmpty_outcome h (rows.length - 1)).mono
    · intro _ a' ⟨_, hempty, ha⟩
      rw [← List.dropLast_eq_take] at ha
      exact ⟨hlast.mp hempty, ha⟩
    · intro e a' ⟨ha, hnot, he⟩
      exact ⟨ha, fun hempty => hnot ⟨Nat.sub_le _ _, hlast.mpr hempty⟩, he⟩

end

end Opto.Rows
