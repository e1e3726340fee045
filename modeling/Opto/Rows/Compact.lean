import Opto.Rows.Resize

/-!
# Compaction, forks and packed arenas

Compaction packs all dirty pages or changes none. Afterwards every page is packed, and an
arena of packed pages can be forked. An arena that is built from rows is packed from the start.
-/

namespace Opto.Rows

open Mapped (U32_MAX U64_MAX)
open Pages

variable {α : Type} {a : RowArena α} {rows : List (List α)}

/-- Why a page cannot be packed. -/
def Overfull (rows : List (List α)) : Prop := ∃ k, U32_MAX < (Pages.page ROWS_PER_PAGE rows k).flatten.length

structure Repacked (pages : List (RowPage α)) (rows : List (List α)) (n : Nat)
    (replacements : List (Nat × PackedRows α)) : Prop where
  sound : ∀ entry ∈ replacements, entry.1 < pages.length ∧ PageHolds (.packed entry.2) (Pages.page ROWS_PER_PAGE rows entry.1)
  complete : ∀ (k : Nat) d, k < n → pages[k]? = some (.dirty d) → ∃ p, (k, p) ∈ replacements

theorem repack_settles {pages : List (RowPage α)} (h : PagesHold pages rows) (alloc : Site → Bool) :
    Settles (repack alloc pages) (Repacked pages rows pages.length)
      (fun e => e = .capacity ∧ ((∃ site, alloc site = false) ∨ Overfull rows)) := by
  apply Settles.foldlM_zipIdx (Repacked pages rows)
  · refine ⟨fun entry hentry => ?_, fun k d hk => ?_⟩
    · cases hentry
    · cases hk
  · intro k page hpage replacements ⟨hsound, hcomplete⟩
    have hlt := (List.getElem?_eq_some_iff.mp hpage).1
    cases page with
    | packed p =>
      refine ⟨hsound, fun j d hj hd => ?_⟩
      by_cases hjk : j = k
      · subst hjk
        rw [hpage] at hd
        cases hd
      · exact hcomplete j d (by omega) hd
    | dirty d =>
      obtain ⟨hfits, hd⟩ := h k _ hpage
      apply Settles.bind ((hd.pack hfits alloc k).weaken ?_)
      · intro p hp
        refine ⟨fun entry hentry => ?_, fun j d' hj hd' => ?_⟩
        · rw [List.mem_append, List.mem_singleton] at hentry
          rcases hentry with hentry | rfl
          · exact hsound entry hentry
          · exact ⟨hlt, hfits, hp⟩
        · by_cases hjk : j = k
          · exact ⟨p, List.mem_append_right _ (hjk ▸ List.mem_singleton_self _)⟩
          · obtain ⟨p', hp'⟩ := hcomplete j d' (by omega) hd'
            exact ⟨p', List.mem_append_left _ hp'⟩
      · rintro e ⟨he, hsite | hlarge⟩
        · exact ⟨he, .inl hsite⟩
        · exact ⟨he, .inr ⟨k, hlarge⟩⟩

def AllPacked (pages : List (RowPage α)) : Prop := ∀ page ∈ pages, page.isDirty = false

/-- The pages that are replaced already are packed, and the others are as they were. -/
structure Installed (old new : RowArena α) (rows : List (List α)) (done : List (Nat × PackedRows α)) : Prop where
  rowCount : new.rowCount = old.rowCount
  length : new.pages.length = old.pages.length
  holds : PagesHold new.pages rows
  dirty : ∀ (k : Nat) d, new.pages[k]? = some (.dirty d) → old.pages[k]? = some (.dirty d) ∧ k ∉ done.map Prod.fst

theorem Installed.installPage {old : RowArena α} {done : List (Nat × PackedRows α)} (h : Installed old a rows done)
    {replacement : Nat × PackedRows α} (hlt : replacement.1 < old.pages.length)
    (hpage : PageHolds (.packed replacement.2) (Pages.page ROWS_PER_PAGE rows replacement.1)) :
    Outcome a (installPage replacement) (fun _ a' => Installed old a' rows (done ++ [replacement]))
      (fun _ _ => False) := by
  rw [Rows.installPage]
  apply Outcome.get
  rw [h.length, if_pos hlt]
  refine ⟨h.rowCount, List.length_set.trans h.length, fun k page hk => ?_, fun k d hk => ?_⟩
  · change (a.pages.set _ _)[k]? = some page at hk
    rw [List.getElem?_set] at hk
    by_cases hother : replacement.1 = k
    · subst hother
      rw [if_pos rfl] at hk
      split_ifs at hk
      cases hk
      exact hpage
    · rw [if_neg hother] at hk
      exact h.holds k page hk
  · change (a.pages.set _ _)[k]? = some _ at hk
    rw [List.getElem?_set] at hk
    by_cases hother : replacement.1 = k
    · rw [if_pos hother] at hk
      split_ifs at hk
      cases hk
    · rw [if_neg hother] at hk
      obtain ⟨hold, hnot⟩ := h.dirty k d hk
      refine ⟨hold, ?_⟩
      rw [List.map_append, List.mem_append]
      rintro (hmem | hmem)
      · exact hnot hmem
      · exact hother (List.mem_singleton.mp hmem).symm

theorem compact_outcome (h : ArenaHolds a rows) (alloc : Site → Bool) :
    Outcome a (compact alloc) (fun _ a' => ArenaHolds a' rows ∧ AllPacked a'.pages)
      (fun e a' => a' = a ∧ e = .capacity ∧ ((∃ site, alloc site = false) ∨ Overfull rows)) := by
  rw [compact]
  apply Outcome.get
  dsimp only
  split_ifs with hnone
  · refine Outcome.pure ⟨h, fun page hpage => ?_⟩
    rw [List.length_eq_zero_iff, List.filter_eq_nil_iff] at hnone
    exact Bool.eq_false_iff.mpr (hnone page hpage)
  · have hreserve : Outcome a (reserve alloc .replacements) (fun _ a' => a' = a)
        (fun e a' => a' = a ∧ e = .capacity ∧ ((∃ site, alloc site = false) ∨ Overfull rows)) := by
      rw [reserve]
      split_ifs with hsite
      · exact Outcome.pure rfl
      · exact Outcome.throw ⟨rfl, rfl, .inl ⟨_, Bool.eq_false_iff.mpr hsite⟩⟩
    apply hreserve.bind
    · intro _ reserved hreserved
      obtain rfl : a = reserved := hreserved.symm
      apply (settle_outcome (repack_settles h.pages alloc)).bind
      · rintro replacements packed ⟨hpacked, hsound, hcomplete⟩
        obtain rfl : a = packed := hpacked.symm
        have hloop : Outcome a (replacements.forM installPage) (fun _ b => Installed a b rows replacements)
            (fun _ _ => False) := by
          apply Outcome.forM (fun done b => Installed a b rows done)
          · exact ⟨rfl, rfl, h.pages, fun k d hk => ⟨hk, List.not_mem_nil⟩⟩
          · intro done replacement rest hsplit b hb
            have hmem : replacement ∈ replacements := hsplit ▸ List.mem_append_right _ List.mem_cons_self
            obtain ⟨hlt, hpage⟩ := hsound replacement hmem
            exact hb.installPage hlt hpage
        apply hloop.mono
        · intro _ b hb
          refine ⟨⟨hb.rowCount.trans h.rowCount, h.fits, hb.length.trans h.length, hb.holds⟩, fun page hpage => ?_⟩
          cases page with
          | packed p => rfl
          | dirty d =>
            obtain ⟨k, hk⟩ := List.mem_iff_getElem?.mp hpage
            obtain ⟨hold, hnot⟩ := hb.dirty k d hk
            obtain ⟨p, hp⟩ := hcomplete k d (List.getElem?_eq_some_iff.mp hold).1 hold
            exact (hnot (List.mem_map_of_mem hp)).elim
        · exact fun _ _ he => he.elim
      · exact fun _ _ he => he
    · exact fun _ _ he => he

/-! Forks. -/

theorem mapM_sharedPage {pages : List (RowPage α)} (h : AllPacked pages) : pages.mapM sharedPage = some pages := by
  induction pages with
  | nil => rfl
  | cons page pages ih =>
    rw [List.mapM_cons, ih fun page' hpage' => h page' (List.mem_cons_of_mem page hpage')]
    have hpage := h page List.mem_cons_self
    cases page with
    | packed p => rfl
    | dirty d => cases hpage

theorem mapM_sharedPage_eq {pages shared : List (RowPage α)} (h : pages.mapM sharedPage = some shared) :
    shared = pages ∧ AllPacked pages := by
  induction pages generalizing shared with
  | nil =>
    cases h
    exact ⟨rfl, fun page hpage => by cases hpage⟩
  | cons page pages ih =>
    rw [List.mapM_cons] at h
    cases page with
    | dirty d => cases h
    | packed p =>
      cases hrest : pages.mapM sharedPage with
      | none =>
        rw [hrest] at h
        cases h
      | some shared' =>
        rw [hrest] at h
        cases h
        obtain ⟨rfl, hall⟩ := ih hrest
        refine ⟨rfl, fun page hpage => ?_⟩
        rcases List.mem_cons.mp hpage with rfl | hpage
        · rfl
        · exact hall page hpage

/-- A fork is made of packed pages only, and it has the same ones. -/
theorem forkShared_iff (a f : RowArena α) : a.forkShared = some f ↔ f = a ∧ AllPacked a.pages := by
  rw [RowArena.forkShared, Option.map_eq_some_iff]
  constructor
  · rintro ⟨shared, hshared, rfl⟩
    obtain ⟨rfl, hall⟩ := mapM_sharedPage_eq hshared
    exact ⟨rfl, hall⟩
  · rintro ⟨rfl, hall⟩
    exact ⟨_, mapM_sharedPage hall, rfl⟩

/-! Building. -/

/-- Sealed pages are full; the open one holds the rows after them. -/
structure BuilderHolds (b : RowArenaBuilder α) (rows : List (List α)) : Prop where
  rowCount : b.rowCount = rows.length
  fits : rows.length ≤ U32_MAX
  sealed : b.pages.length * ROWS_PER_PAGE ≤ rows.length
  pages : PagesHold b.pages rows
  packed : AllPacked b.pages
  current : match b.current with
    | none => rows.length = b.pages.length * ROWS_PER_PAGE
    | some page => PageHolds (.packed page) (rows.drop (b.pages.length * ROWS_PER_PAGE))

theorem reserve_settles (alloc : Site → Bool) (site : Site) :
    Settles (tryReserve alloc site) (fun _ => True) (fun e => e = .capacity ∧ ∃ site, alloc site = false) := by
  apply (tryReserve_settles alloc site).weaken
  intro e he
  exact ⟨he.1, he.2.resolve_right not_false⟩

theorem tryWithCapacity_settles (alloc : Site → Bool) (pageIndex : Nat) :
    Settles (Rows.tryWithCapacity alloc pageIndex ROWS_PER_PAGE 0 : Except Failure (PackedRows α))
      (fun page => PageHolds (.packed page) []) (fun e => e = .capacity ∧ ∃ site, alloc site = false) := by
  have hsmall : ROWS_PER_PAGE ≤ U32_MAX := by decide
  rw [Rows.tryWithCapacity, if_neg (by omega)]
  apply Settles.bind (reserve_settles _ _)
  intro _ _
  apply Settles.bind (reserve_settles _ _)
  intro _ _
  exact ⟨Nat.zero_le _, Packs.empty, Nat.zero_le _⟩

theorem Overfull.mono {done rest : List (List α)} (h : Overfull done) : Overfull (done ++ rest) := by
  obtain ⟨k, hk⟩ := h
  have hpage : (Pages.page ROWS_PER_PAGE done k).Sublist (Pages.page ROWS_PER_PAGE (done ++ rest) k) :=
    (((List.prefix_append done rest).drop (k * ROWS_PER_PAGE)).take ROWS_PER_PAGE).sublist
  exact ⟨k, Nat.lt_of_lt_of_le hk hpage.flatten.length_le⟩

namespace BuilderHolds

variable {b : RowArenaBuilder α}

theorem start (hcurrent : match b.current with
    | none => True
    | some page => PageHolds (.packed page) ([] : List (List α))) (hpages : b.pages = []) (hcount : b.rowCount = 0) :
    BuilderHolds b [] := by
  refine ⟨hcount, Nat.zero_le _, by rw [hpages]; exact Nat.le_of_eq (Nat.zero_mul _), ?_, ?_, ?_⟩
  · rw [hpages]
    intro k page hk
    cases hk
  · rw [hpages]
    intro page hpage
    cases hpage
  · cases hb : b.current with
    | none =>
      rw [hpages]
      exact (Nat.zero_mul _).symm
    | some page =>
      rw [hb] at hcurrent
      simp only [List.drop_nil]
      exact hcurrent

/-- The rows of a page that has some. -/
theorem openPage (h : BuilderHolds b rows) {page : PackedRows α} (hcurrent : b.current = some page) :
    PageHolds (.packed page) (rows.drop (b.pages.length * ROWS_PER_PAGE)) ∧
      page.rowCount = rows.length - b.pages.length * ROWS_PER_PAGE := by
  have hpage := h.current
  rw [hcurrent] at hpage
  have hpacks : Packs page (rows.drop (b.pages.length * ROWS_PER_PAGE)) := hpage.2.1
  exact ⟨hpage, hpacks.rowCount.trans List.length_drop⟩

/-- Sealing the open page. -/
theorem sealedPages (h : BuilderHolds b rows) {page : PackedRows α} (hcurrent : b.current = some page) :
    PagesHold (b.pages ++ [.packed page]) rows ∧ AllPacked (b.pages ++ [.packed page]) := by
  refine ⟨fun k p hk => ?_, fun p hp => ?_⟩
  · by_cases hin : k < b.pages.length
    · rw [List.getElem?_append_left hin] at hk
      exact h.pages k p hk
    · rw [List.getElem?_append_right (Nat.not_lt.mp hin)] at hk
      obtain hlast | hlast : k - b.pages.length = 0 ∨ 0 < k - b.pages.length := Nat.eq_zero_or_pos _
      · obtain rfl : k = b.pages.length := by omega
        rw [Nat.sub_self] at hk
        cases hk
        have hpage := (h.openPage hcurrent).1
        rw [Pages.page, List.take_of_length_le hpage.1]
        exact hpage
      · rw [List.getElem?_eq_none (by rw [List.length_singleton]; omega)] at hk
        cases hk
  · rw [List.mem_append, List.mem_singleton] at hp
    rcases hp with hp | rfl
    · exact h.packed p hp
    · rfl

theorem finish (h : BuilderHolds b rows) : ArenaHolds b.finish rows ∧ AllPacked b.finish.pages := by
  have hpos := rowsPerPage_pos
  have hsealed := h.sealed
  have hceil {n : Nat} (hlow : ∀ k, k < n ↔ k * ROWS_PER_PAGE < rows.length) : n = divCeil rows.length ROWS_PER_PAGE := by
    apply Nat.le_antisymm <;> apply Nat.le_of_not_lt <;> intro hlt
    · rw [hlow, ← lt_divCeil hpos] at hlt
      omega
    · rw [lt_divCeil hpos, ← hlow] at hlt
      omega
  have hend {n : Nat} (hfull : rows.length = n * ROWS_PER_PAGE) (k : Nat) : k < n ↔ k * ROWS_PER_PAGE < rows.length := by
    rw [hfull, Nat.mul_lt_mul_right hpos]
  rw [RowArenaBuilder.finish, RowArenaBuilder.finishPage]
  cases hcurrent : b.current with
  | none =>
    have hfull := h.current
    rw [hcurrent] at hfull
    exact ⟨⟨h.rowCount, h.fits, hceil (hend hfull), h.pages⟩, h.packed⟩
  | some page =>
    obtain ⟨hpage, hcount⟩ := h.openPage hcurrent
    have hroom := hpage.1
    rw [List.length_drop] at hroom
    simp only
    split_ifs with hsome
    · obtain ⟨hpages, hpacked⟩ := h.sealedPages hcurrent
      refine ⟨⟨h.rowCount, h.fits, hceil fun k => ?_, hpages⟩, hpacked⟩
      rw [List.length_append, List.length_singleton]
      rcases Nat.lt_or_ge k (b.pages.length + 1) with hk | hk
      · have hle : k * ROWS_PER_PAGE ≤ b.pages.length * ROWS_PER_PAGE := Nat.mul_le_mul_right _ (by omega)
        omega
      · have hle : (b.pages.length + 1) * ROWS_PER_PAGE ≤ k * ROWS_PER_PAGE := Nat.mul_le_mul_right _ hk
        rw [Nat.succ_mul] at hle
        omega
    · have hfull : rows.length = b.pages.length * ROWS_PER_PAGE := by omega
      exact ⟨⟨h.rowCount, h.fits, hceil (hend hfull), h.pages⟩, h.packed⟩

theorem roll (h : BuilderHolds b rows) (alloc : Site → Bool) :
    Settles (b.roll alloc) (fun b' => BuilderHolds b' rows ∧
        ∀ page, b'.current = some page → rows.length - b'.pages.length * ROWS_PER_PAGE < ROWS_PER_PAGE)
      (fun e => e = .capacity ∧ ∃ site, alloc site = false) := by
  rw [RowArenaBuilder.roll]
  cases hcurrent : b.current with
  | none => exact ⟨h, fun page hpage => by rw [hcurrent] at hpage; cases hpage⟩
  | some page =>
    obtain ⟨hpage, hcount⟩ := h.openPage hcurrent
    have hroom := hpage.1
    have hsealed := h.sealed
    rw [List.length_drop] at hroom
    rw [Option.any_some]
    split_ifs with hfull
    · have hfull := of_decide_eq_true hfull
      have hpos := rowsPerPage_pos
      apply Settles.bind (reserve_settles _ _)
      intro _ _
      apply Settles.bind (tryWithCapacity_settles alloc _)
      intro next hnext
      have hpages : b.finishPage.pages = b.pages ++ [.packed page] := by
        rw [RowArenaBuilder.finishPage, hcurrent]
        simp only
        rw [if_pos (by omega)]
      have hrows : b.finishPage.rowCount = b.rowCount := by
        rw [RowArenaBuilder.finishPage, hcurrent]
        simp only
        split_ifs <;> rfl
      obtain ⟨hholds, hpacked⟩ := h.sealedPages hcurrent
      have hlength : (b.finishPage.pages).length = b.pages.length + 1 := by
        rw [hpages, List.length_append, List.length_singleton]
      have hnow : rows.length = b.finishPage.pages.length * ROWS_PER_PAGE := by
        rw [hlength, Nat.succ_mul]
        omega
      refine ⟨⟨hrows.trans h.rowCount, h.fits, Nat.le_of_eq hnow.symm, hpages ▸ hholds, hpages ▸ hpacked, ?_⟩, ?_⟩
      · simp only
        rw [List.drop_eq_nil_of_le (Nat.le_of_eq hnow)]
        exact hnext
      · intro p _
        change rows.length - b.finishPage.pages.length * ROWS_PER_PAGE < ROWS_PER_PAGE
        omega
    · refine ⟨h, fun p hp => ?_⟩
      have hnot := of_decide_eq_false (Bool.eq_false_iff.mpr hfull)
      omega

theorem ensureCurrent (h : BuilderHolds b rows) (alloc : Site → Bool)
    (hroom : ∀ page, b.current = some page → rows.length - b.pages.length * ROWS_PER_PAGE < ROWS_PER_PAGE) :
    Settles (b.ensureCurrent alloc) (fun b' => BuilderHolds b' rows ∧ ∃ page, b'.current = some page ∧
        rows.length - b'.pages.length * ROWS_PER_PAGE < ROWS_PER_PAGE)
      (fun e => e = .capacity ∧ ∃ site, alloc site = false) := by
  rw [RowArenaBuilder.ensureCurrent]
  cases hcurrent : b.current with
  | none =>
    have hfull := h.current
    rw [hcurrent] at hfull
    have hpos := rowsPerPage_pos
    apply Settles.bind (reserve_settles _ _)
    intro _ _
    apply Settles.bind (tryWithCapacity_settles alloc _)
    intro next hnext
    refine ⟨⟨h.rowCount, h.fits, h.sealed, h.pages, h.packed, ?_⟩, next, rfl, ?_⟩
    · simp only
      rw [List.drop_eq_nil_of_le (Nat.le_of_eq hfull)]
      exact hnext
    · change rows.length - b.pages.length * ROWS_PER_PAGE < ROWS_PER_PAGE
      omega
  | some page => exact ⟨h, page, hcurrent, hroom page hcurrent⟩

theorem tryPushRow (h : BuilderHolds b rows) (alloc : Site → Bool) (row : List α) :
    Settles (b.tryPushRow alloc row) (fun b' => BuilderHolds b' (rows ++ [row]))
      (fun e => e = .capacity ∧ ((∃ site, alloc site = false) ∨ U32_MAX < (rows ++ [row]).length ∨
        Overfull (rows ++ [row]))) := by
  have hlength : (rows ++ [row]).length = rows.length + 1 := List.length_append
  have hfits := h.fits
  rw [RowArenaBuilder.tryPushRow]
  split_ifs with hlast
  · have hcount := h.rowCount
    exact ⟨rfl, .inr (.inl (by omega))⟩
  · have hcount := h.rowCount
    apply Settles.bind ((h.roll alloc).weaken fun e he => ⟨he.1, .inl he.2⟩)
    rintro rolled ⟨hrolled, hroom⟩
    apply Settles.bind ((hrolled.ensureCurrent alloc hroom).weaken fun e he => ⟨he.1, .inl he.2⟩)
    rintro ready ⟨hready, page, hcurrent, hspace⟩
    obtain ⟨⟨_, hpacks, _⟩, hrows⟩ := hready.openPage hcurrent
    have hsealed := hready.sealed
    have hdrop : (rows ++ [row]).drop (ready.pages.length * ROWS_PER_PAGE) =
        rows.drop (ready.pages.length * ROWS_PER_PAGE) ++ [row] := List.drop_append_of_le_length hsealed
    have hpage : Pages.page ROWS_PER_PAGE (rows ++ [row]) ready.pages.length =
        rows.drop (ready.pages.length * ROWS_PER_PAGE) ++ [row] := by
      rw [Pages.page, hdrop, List.take_of_length_le]
      rw [List.length_append, List.length_drop, List.length_singleton]
      omega
    simp only [hcurrent]
    apply Settles.bind ((hpacks.tryPushRow alloc ready.pages.length row).weaken ?_)
    · rintro page' ⟨hpage', hvalues⟩
      have hcount' := hready.rowCount
      refine ⟨?_, ?_, ?_, ?_, hready.packed, ?_⟩
      · change ready.rowCount + 1 = _
        omega
      · omega
      · change ready.pages.length * ROWS_PER_PAGE ≤ _
        omega
      · intro k p hk
        have hk : ready.pages[k]? = some p := hk
        have hlt := (List.getElem?_eq_some_iff.mp hk).1
        have hle : (k + 1) * ROWS_PER_PAGE ≤ ready.pages.length * ROWS_PER_PAGE := Nat.mul_le_mul_right _ hlt
        rw [Nat.succ_mul] at hle
        have hsame : Pages.page ROWS_PER_PAGE (rows ++ [row]) k = Pages.page ROWS_PER_PAGE rows k := by
          rw [Pages.page, Pages.page, List.drop_append_of_le_length (by omega), List.take_append_of_le_length]
          rw [List.length_drop]
          omega
        rw [hsame]
        exact hready.pages k p hk
      · simp only
        rw [hdrop]
        refine ⟨?_, hpage', hvalues⟩
        rw [List.length_append, List.length_drop, List.length_singleton]
        omega
    · rintro e ⟨he, hsite | hrows | hvalues⟩
      · exact ⟨he, .inl hsite⟩
      · have hsmall : ROWS_PER_PAGE < U32_MAX := by decide
        rw [List.length_drop] at hrows
        omega
      · exact ⟨he, .inr (.inr ⟨ready.pages.length, by rwa [hpage]⟩)⟩

end BuilderHolds

theorem tryFromRows_settles (alloc : Site → Bool) (rows : List (List α)) :
    Settles (tryFromRows alloc rows) (fun a => ArenaHolds a rows ∧ AllPacked a.pages)
      (fun e => e = .capacity ∧ ((∃ site, alloc site = false) ∨ U32_MAX < rows.length ∨ Overfull rows)) := by
  have hstart : Settles (RowArenaBuilder.tryWithCapacity alloc rows.length : Except Failure (RowArenaBuilder α))
      (fun b => BuilderHolds b [])
      (fun e => e = .capacity ∧ ((∃ site, alloc site = false) ∨ U32_MAX < rows.length ∨ Overfull rows)) := by
    rw [RowArenaBuilder.tryWithCapacity]
    split_ifs with hlarge hzero
    · exact ⟨rfl, .inr (.inl hlarge)⟩
    · apply Settles.bind (tryReserve_settles _ _)
      intro _ _
      exact BuilderHolds.start trivial rfl rfl
    · apply Settles.bind (tryReserve_settles _ _)
      intro _ _
      apply Settles.bind ((tryWithCapacity_settles alloc 0).weaken fun e he => ⟨he.1, .inl he.2⟩)
      intro page hpage
      exact BuilderHolds.start hpage rfl rfl
  apply Settles.bind hstart
  intro b hb
  apply Settles.bind (Settles.foldlM_split (fun done b => BuilderHolds b done) hb ?_)
  · intro b hb
    exact hb.finish
  · rintro done row rest rfl b hb
    apply (hb.tryPushRow alloc row).weaken
    rintro e ⟨he, hsite | hlarge | hover⟩
    · exact ⟨he, .inl hsite⟩
    · refine ⟨he, .inr (.inl ?_)⟩
      rw [List.length_append] at hlarge ⊢
      rw [List.length_singleton] at hlarge
      rw [List.length_cons]
      omega
    · refine ⟨he, .inr (.inr ?_)⟩
      rw [List.append_cons]
      exact hover.mono

end Opto.Rows
