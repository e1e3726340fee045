import Opto.Paged.Agrees

/-!
# Calls on paged vectors

A call that fails has reserved nothing that a vector shows. Growth extends the tail page,
in place where it is not shared, and adds new pages after it; the page of the last position
is then the vector's own.
-/

namespace Opto.Paged

open Mapped (U32_MAX U64_MAX)
open Pages Sharing

variable {α β : Type} {w : World α} {s : List (Option (PlainVec α))} {i : Nat} {f : PagedCowVec α}
variable {p : PlainVec α} {Q : β → World α → Prop} {E : Failure → World α → Prop}

/-- A reservation failed, and nothing has changed. -/
structure Refused (w : World α) (alloc : Site → Bool) (e : Failure) (w' : World α) : Prop where
  capacity : e = .capacity
  unchanged : w' = w
  refused : ∃ site, alloc site = false

/-! What one step of a call does. -/

section

variable {γ : Type} {m : PagedM α γ} {k : γ → PagedM α β}

theorem of_run {a : γ} {w' : World α} (hrun : m.run w = .ok a w') (h : Outcome w' (k a) Q E) :
    Outcome w (m >>= k) Q E := by
  have hfirst : Outcome w m (fun b v => b = a ∧ v = w') E := by
    rw [Outcome, hrun]
    exact ⟨rfl, rfl⟩
  apply Outcome.bind hfirst
  · rintro b v ⟨hb, hv⟩
    rw [hb, hv]
    exact h
  · exact fun _ _ he => he

end

theorem fork_run (hi : w.forks[i]? = some (some f)) : (fork i).run w = .ok f w := by
  simp only [fork, EStateM.run, Bind.bind, EStateM.bind, get, getThe, MonadStateOf.get, stateGet_eq, hi]
  rfl

theorem pageAt_run {k address : Nat} (hk : f.pages[k]? = some address) : (pageAt f k).run w = .ok address w := by
  rw [pageAt, hk]
  rfl

theorem valuesAt_run {address : Nat} {values : List α} (h : w.heap[address]? = some values) :
    (valuesAt address).run w = .ok values w := by
  simp only [valuesAt, EStateM.run, Bind.bind, EStateM.bind, get, getThe, MonadStateOf.get, stateGet_eq, h]
  rfl

theorem isUnique_run (w : World α) (address : Nat) :
    (isUnique address).run w = .ok (decide (strongCount w.holders address = 1)) w := rfl

theorem allocate_run (w : World α) (values : List α) :
    (allocate values).run w = .ok w.heap.length { w with heap := w.heap ++ [values] } := rfl

theorem setFork_run (w : World α) (i : Nat) (f : PagedCowVec α) :
    (setFork i f).run w = .ok () { w with forks := w.forks.set i (some f) } := rfl

theorem writePage_run (w : World α) (address : Nat) (values : List α) :
    (writePage address values).run w = .ok () { w with heap := w.heap.set address values } := rfl

theorem tryReserve_outcome {alloc : Site → Bool} {site : Site} {k : Unit → PagedM α β}
    (h : Outcome w (k ()) Q E) (hfails : Refused w alloc .capacity w → E .capacity w) :
    Outcome w (tryReserve alloc site >>= k) Q E := by
  rw [tryReserve]
  split_ifs with hsite
  · exact h
  · exact hfails ⟨rfl, rfl, site, Bool.eq_false_iff.mpr hsite⟩

/-! Truncation. -/

theorem Shows.truncate {heap : List (List α)} (h : Shows heap f p) {len : Nat} (hlen : len ≤ p.values.length) :
    Shows heap { f with pages := f.pages.take (divCeil len VALUES_PER_PAGE), len } (p.truncate len) := by
  have hsize : (p.truncate len).values.length = len := List.length_take_of_le hlen
  have hfits := h.fits
  refine ⟨hsize.symm, by omega, h.default, ?_, fun k address hk => ?_⟩
  · rw [hsize, List.length_take, h.pages]
    unfold divCeil VALUES_PER_PAGE
    omega
  · rw [List.getElem?_take] at hk
    split_ifs at hk
    apply (h.page k address hk).agree
    intro j _ hlt
    rw [hsize] at hlt
    refine ⟨by omega, ?_⟩
    rw [PlainVec.truncate, List.getElem?_take, if_pos hlt]

theorem truncate_outcome (hw : Agrees w s) (hi : w.forks[i]? = some (some f)) (hshows : Shows w.heap f p) (len : Nat) :
    Outcome w (truncate i len) (fun _ w' => Agrees w' (s.set i (some (p.truncate len)))) E := by
  rw [truncate]
  apply of_run (fork_run hi)
  have hfits := hshows.fits
  have hlen := hshows.len
  have hsame : p.truncate len = p.truncate (min f.len (if len ≤ U32_MAX then len else U32_MAX)) := by
    rw [PlainVec.truncate, PlainVec.truncate]
    congr 1
    rw [List.take_eq_take_iff]
    split_ifs <;> omega
  rw [hsame]
  exact hw.replace (fun _ _ _ _ _ _ => rfl) (hshows.truncate (by omega))

/-! A page of one's own. -/

/-- A page that was not allocated before is held by no other position. -/
theorem sole_fresh (hw : Agrees w s) (f' : PagedCowVec α) {k address : Nat} (hfresh : w.heap.length ≤ address)
    (hposition : OnlyAt (· = address) f'.pages k) (heap : List (List α)) :
    Sole ⟨heap, w.forks.set i (some f')⟩ i f' k address := by
  refine ⟨fun j g hj hg hmem => ?_, hposition⟩
  rw [List.getElem?_set_ne (Ne.symm hj)] at hg
  have := hw.lt hg hmem
  omega

theorem set_same {γ : Type} {xs : List γ} {x : γ} (hi : xs[i]? = some x) : xs.set i x = xs := by
  obtain ⟨hlt, rfl⟩ := List.getElem?_eq_some_iff.mp hi
  exact List.set_getElem_self hlt

/-- What a vector shows through the page of its own that is to be written. -/
structure Writable (w : World α) (s : List (Option (PlainVec α))) (i : Nat) (p : PlainVec α) (k address : Nat)
    (f : PagedCowVec α) : Prop where
  agrees : Agrees w s
  vector : w.forks[i]? = some (some f)
  shows : Shows w.heap f p
  page : f.pages[k]? = some address
  sole : Sole w i f k address

/-- A copy fails only where the page is shared. -/
theorem tryUniquePage_outcome (hw : Agrees w s) (hi : w.forks[i]? = some (some f)) (hs : s[i]? = some (some p))
    (hshows : Shows w.heap f p) {k address : Nat} (hk : f.pages[k]? = some address) (alloc : Site → Bool) :
    Outcome w (tryUniquePage alloc i k) (fun address' w' => ∃ f', Writable w' s i p k address' f')
      (fun e w' => Refused w alloc e w' ∧ ¬Sole w i f k address) := by
  rw [tryUniquePage]
  apply of_run (fork_run hi)
  apply of_run (pageAt_run hk)
  apply of_run (isUnique_run w address)
  split_ifs with hunique
  · rw [decide_eq_true_eq, strongCount_iff hi hk] at hunique
    exact ⟨f, hw, hi, hshows, hk, hunique⟩
  · rw [decide_eq_true_eq, strongCount_iff hi hk] at hunique
    obtain ⟨values, hvalues, hread⟩ := hshows.page k address hk
    apply of_run (valuesAt_run hvalues)
    have hlt : k < f.pages.length := (List.getElem?_eq_some_iff.mp hk).1
    have hilt : i < w.forks.length := (List.getElem?_eq_some_iff.mp hi).1
    have hkept {address' : Nat} (h : address' < w.heap.length) :
        (w.heap ++ [values])[address']? = w.heap[address']? := List.getElem?_append_left h
    have hposition : OnlyAt (· = w.heap.length) (f.pages.set k w.heap.length) k := by
      intro j other hj heq
      rw [List.getElem?_set] at hj
      split_ifs at hj with hkj
      · exact hkj.symm
      · have := hshows.lt (List.mem_of_getElem? hj)
        omega
    have hcopied : Shows (w.heap ++ [values]) { f with pages := f.pages.set k w.heap.length } p := by
      refine ⟨hshows.len, hshows.fits, hshows.default, by rw [List.length_set, hshows.pages], fun j other hj => ?_⟩
      rw [List.getElem?_set] at hj
      split_ifs at hj with hkj
      · cases hj
        exact ⟨values, List.getElem?_concat_length, hkj ▸ hread⟩
      · exact (hshows.page j other hj).congr (hkept (hshows.lt (List.mem_of_getElem? hj)))
    have hagrees := hw.replace (i := i) (fun j g _ hg other hmem => hkept (hw.lt hg hmem)) hcopied
    rw [set_same hs] at hagrees
    have hi' : (w.forks.set i (some { f with pages := f.pages.set k w.heap.length }))[i]? =
        some (some { f with pages := f.pages.set k w.heap.length }) := by
      rw [List.getElem?_set_self hilt]
    have hk' : (f.pages.set k w.heap.length)[k]? = some w.heap.length := by
      rw [List.getElem?_set_self hlt]
    have hsole := sole_fresh (i := i) hw { f with pages := f.pages.set k w.heap.length } (Nat.le_refl _)
      hposition (w.heap ++ [values])
    apply tryReserve_outcome _ fun h => ⟨h, hunique⟩
    apply of_run (allocate_run w values)
    apply of_run (setFork_run _ i _)
    apply of_run (isUnique_run _ w.heap.length)
    rw [if_pos]
    · exact ⟨_, hagrees, hi', hcopied, hk', hsole⟩
    · rw [decide_eq_true_eq, strongCount_iff hi' hk']
      exact hsole

/-! Writing. -/

/-- A write through the vector's own page. -/
theorem Writable.write {k address : Nat} (h : Writable w s i p k address f) {j : Nat} (hj : j < VALUES_PER_PAGE)
    (hlt : k * VALUES_PER_PAGE + j < p.values.length) (value : α) {values : List α}
    (hvalues : w.heap[address]? = some values) :
    j < values.length ∧ Agrees { w with heap := w.heap.set address (values.set j value) }
      (s.set i (some { p with values := p.values.set (k * VALUES_PER_PAGE + j) value })) := by
  obtain ⟨values', hvalues', hread⟩ := h.shows.page k address h.page
  obtain rfl : values = values' := Option.some.inj (hvalues.symm.trans hvalues')
  have hin : j < values.length := by
    have hsome := hread j hj hlt
    rw [List.getElem?_eq_getElem hlt] at hsome
    exact (List.getElem?_eq_some_iff.mp hsome).1
  have hother {other : Nat} (hne : other ≠ address) :
      (w.heap.set address (values.set j value))[other]? = w.heap[other]? := List.getElem?_set_ne (Ne.symm hne)
  have hshows : Shows (w.heap.set address (values.set j value)) f
      { p with values := p.values.set (k * VALUES_PER_PAGE + j) value } := by
    refine ⟨by rw [List.length_set, h.shows.len], by rw [List.length_set]; exact h.shows.fits, h.shows.default,
      by rw [List.length_set, h.shows.pages], fun k' other hk' => ?_⟩
    by_cases hsame : other = address
    · obtain rfl := hsame
      obtain rfl := h.sole.position k' other hk' rfl
      refine ⟨values.set j value, ?_, fun j' hj' hlt' => ?_⟩
      · rw [List.getElem?_set_self (List.getElem?_eq_some_iff.mp hvalues).1]
      · rw [List.length_set] at hlt'
        rw [List.getElem?_set, List.getElem?_set]
        by_cases hjj : j = j'
        · rw [if_pos hjj, if_pos hin, if_pos (by rw [hjj]), if_pos hlt]
        · rw [if_neg hjj, if_neg (by omega)]
          exact hread j' hj' hlt'
    · apply ((h.shows.page k' other hk').congr (hother hsame)).agree
      intro j' hj' hlt'
      rw [List.length_set] at hlt'
      refine ⟨hlt', ?_⟩
      rw [List.getElem?_set_ne]
      intro heq
      have hkk : k = k' := by
        unfold VALUES_PER_PAGE at *
        omega
      subst hkk
      exact hsame (Option.some.inj (hk'.symm.trans h.page))
  refine ⟨hin, ?_⟩
  have hagrees := h.agrees.replace (i := i)
    (fun j' g hj' hg other hmem => hother fun he => h.sole.vector j' g hj' hg (he ▸ hmem)) hshows
  rwa [set_same h.vector] at hagrees

/-! Growth. -/

section

variable {newLen : Nat}

theorem resize_length (p : PlainVec α) (hlt : p.values.length < newLen) : (p.resize newLen).values.length = newLen := by
  rw [PlainVec.resize, List.length_append, List.length_take, List.length_replicate]
  omega

theorem resize_old (hlt : p.values.length < newLen) {index : Nat} (hindex : index < p.values.length) :
    (p.resize newLen).values[index]? = p.values[index]? := by
  rw [PlainVec.resize, List.take_of_length_le (Nat.le_of_lt hlt), List.getElem?_append_left hindex]

theorem resize_new (hlt : p.values.length < newLen) {index : Nat} (hold : p.values.length ≤ index)
    (hindex : index < newLen) : (p.resize newLen).values[index]? = some p.default := by
  rw [PlainVec.resize, List.take_of_length_le (Nat.le_of_lt hlt), List.getElem?_append_right hold, List.getElem?_replicate,
    if_pos (by omega)]

/-- The positions of a tail page keep their values up to the start, and are filled from there on. -/
theorem extendTail_run (w : World α) (values : List α) {start required : Nat} (hle : start ≤ required) (default : α) :
    ∃ out, (extendTail values start required default).run w = .ok out w ∧
      (∀ j, j < start → j < values.length → out[j]? = values[j]?) ∧
      ∀ j, start ≤ j → j < required → out[j]? = some default := by
  have hsize : (resizeValues values (max required values.length) default).length = max required values.length := by
    rw [resizeValues, List.length_append, List.length_take, List.length_replicate]
    omega
  refine ⟨_, by rw [extendTail, fillValues, if_pos ⟨hle, by omega⟩]; rfl, fun j hj hin => ?_, fun j hj hin => ?_⟩
  · rw [List.append_assoc, List.getElem?_append_left (by rw [List.length_take]; omega), List.getElem?_take, if_pos hj,
      resizeValues, List.take_of_length_le (Nat.le_max_right _ _), List.getElem?_append_left hin]
  · rw [List.append_assoc, List.getElem?_append_right (by rw [List.length_take]; omega),
      List.getElem?_append_left (by rw [List.length_take, List.length_replicate]; omega), List.getElem?_replicate,
      if_pos (by rw [List.length_take]; omega)]

/-- The values of a page of the grown vector. -/
def PageOf (p : PlainVec α) (newLen k : Nat) (values : List α) : Prop :=
  ∀ j, j < VALUES_PER_PAGE → k * VALUES_PER_PAGE + j < newLen →
    values[j]? = (p.resize newLen).values[k * VALUES_PER_PAGE + j]?

theorem extendTail_pageOf (w : World α) (hlen : f.len = p.values.length) (hdefault : f.default = p.default)
    (hlt : p.values.length < newLen) {values : List α}
    (hread : ∀ j, j < VALUES_PER_PAGE → f.len / VALUES_PER_PAGE * VALUES_PER_PAGE + j < p.values.length →
      values[j]? = p.values[f.len / VALUES_PER_PAGE * VALUES_PER_PAGE + j]?) :
    ∃ out, (extendTail values (f.len % VALUES_PER_PAGE) (visiblePageLen newLen (f.len / VALUES_PER_PAGE))
      f.default).run w = .ok out w ∧ PageOf p newLen (f.len / VALUES_PER_PAGE) out := by
  have hsplit := page_split f.len
  have hmod := mod_lt_page f.len
  generalize f.len / VALUES_PER_PAGE = t at *
  generalize f.len % VALUES_PER_PAGE = start at *
  have hrequired : start ≤ visiblePageLen newLen t := by
    unfold visiblePageLen
    omega
  obtain ⟨out, hrun, hold, hnew⟩ := extendTail_run w values hrequired f.default
  refine ⟨out, hrun, fun j hj hin => ?_⟩
  by_cases hj' : j < start
  · have hpos : t * VALUES_PER_PAGE + j < p.values.length := by omega
    have hvalue := hread j hj hpos
    rw [List.getElem?_eq_getElem hpos] at hvalue
    have hlength := (List.getElem?_eq_some_iff.mp hvalue).1
    rw [hold j hj' hlength, hread j hj hpos, resize_old hlt hpos]
  · rw [hnew j (by omega) (by unfold visiblePageLen; omega), resize_new hlt (by omega) hin, hdefault]

theorem pageOf_new (hlt : p.values.length < newLen) {k : Nat} (hk : p.values.length ≤ k * VALUES_PER_PAGE) :
    PageOf p newLen k (List.replicate (visiblePageLen newLen k) p.default) := by
  intro j hj hin
  rw [resize_new hlt (by omega) hin, List.getElem?_replicate, if_pos]
  unfold visiblePageLen
  omega

/-- Pages before the tail go on showing what they show. -/
theorem pageShows_old {heap : List (List α)} (hlt : p.values.length < newLen) {k address : Nat}
    (h : PageShows heap p.values k address) (hk : (k + 1) * VALUES_PER_PAGE ≤ p.values.length) :
    PageShows heap (p.resize newLen).values k address := by
  apply h.agree
  intro j hj _
  have hin : k * VALUES_PER_PAGE + j < p.values.length := by
    rw [Nat.succ_mul] at hk
    omega
  exact ⟨hin, (resize_old hlt hin).symm⟩

/-- The pages of a growing vector once its tail is extended. -/
structure Extended (w w' : World α) (i : Nat) (f : PagedCowVec α) (p : PlainVec α) (newLen : Nat) (pages : List Nat) :
    Prop where
  forks : w'.forks = w.forks
  heap_le : w.heap.length ≤ w'.heap.length
  frame : ∀ (j : Nat) g, j ≠ i → w.forks[j]? = some (some g) → ∀ address ∈ g.pages,
    w'.heap[address]? = w.heap[address]?
  length : pages.length = f.pages.length
  page : ∀ (k address : Nat), pages[k]? = some address → PageShows w'.heap (p.resize newLen).values k address
  own : f.len % VALUES_PER_PAGE ≠ 0 → ∀ address, pages[f.len / VALUES_PER_PAGE]? = some address →
    (∀ (j : Nat) g, j ≠ i → w.forks[j]? = some (some g) → address ∉ g.pages) ∧
      OnlyAt (· = address) pages (f.len / VALUES_PER_PAGE)

/-- A vector of whole pages has no tail to extend. -/
theorem extended_whole (hshows : Shows w.heap f p) (hlt : p.values.length < newLen)
    (hwhole : f.len % VALUES_PER_PAGE = 0) : Extended w w i f p newLen f.pages := by
  refine ⟨rfl, Nat.le_refl _, fun _ _ _ _ _ _ => rfl, rfl, fun k address hk => ?_, fun h => absurd hwhole h⟩
  apply pageShows_old hlt (hshows.page k address hk)
  have hin := (List.getElem?_eq_some_iff.mp hk).1
  rw [hshows.pages, lt_pages] at hin
  rw [hshows.len] at hwhole
  unfold VALUES_PER_PAGE at *
  omega

/-- What is kept for the tail page: its copy, or that it is the vector's own. -/
def TailReady (w : World α) (f : PagedCowVec α) (p : PlainVec α) (newLen : Nat) : Option (List α) → Prop
  | some replacement => PageOf p newLen (f.len / VALUES_PER_PAGE) replacement
  | none => ∀ address, f.pages[f.len / VALUES_PER_PAGE]? = some address → strongCount w.holders address = 1

theorem tail_address (hshows : Shows w.heap f p) (htail : f.len % VALUES_PER_PAGE ≠ 0) :
    ∃ address values, f.pages[f.len / VALUES_PER_PAGE]? = some address ∧ w.heap[address]? = some values ∧
      ∀ j, j < VALUES_PER_PAGE → f.len / VALUES_PER_PAGE * VALUES_PER_PAGE + j < p.values.length →
        values[j]? = p.values[f.len / VALUES_PER_PAGE * VALUES_PER_PAGE + j]? := by
  have hsplit := page_split f.len
  have hlen := hshows.len
  obtain ⟨address, haddress⟩ := hshows.page_at (k := f.len / VALUES_PER_PAGE) (by omega)
  obtain ⟨values, hvalues, hread⟩ := hshows.page _ _ haddress
  exact ⟨address, values, haddress, hvalues, hread⟩

theorem tailReplacement_outcome (hshows : Shows w.heap f p) (hlt : p.values.length < newLen)
    (htail : f.len % VALUES_PER_PAGE ≠ 0) (alloc : Site → Bool) :
    Outcome w (tailReplacement alloc f (f.len / VALUES_PER_PAGE) newLen)
      (fun r w' => w' = w ∧ TailReady w f p newLen r) (Refused w alloc) := by
  obtain ⟨address, values, haddress, hvalues, hread⟩ := tail_address hshows htail
  rw [tailReplacement]
  apply of_run (pageAt_run haddress)
  apply of_run (isUnique_run w address)
  split_ifs with hunique
  · rw [decide_eq_true_eq] at hunique
    apply tryReserve_outcome _ id
    refine ⟨rfl, fun address' haddress' => ?_⟩
    rwa [← Option.some.inj (haddress.symm.trans haddress')]
  · obtain ⟨out, hrun, hout⟩ := extendTail_pageOf w hshows.len hshows.default hlt hread
    apply of_run (valuesAt_run hvalues)
    apply tryReserve_outcome _ id
    apply of_run hrun
    exact ⟨rfl, hout⟩

theorem newPages_outcome (alloc : Site → Bool) (w : World α) (default : α) (newLen : Nat) (ks : List Nat) :
    Outcome w (ks.mapM (newPage alloc default newLen))
      (fun pages w' => w' = w ∧ pages = ks.map fun k => List.replicate (visiblePageLen newLen k) default)
      (Refused w alloc) := by
  induction ks with
  | nil => exact ⟨rfl, rfl⟩
  | cons k ks ih =>
    rw [List.mapM_cons, newPage, bind_assoc]
    apply tryReserve_outcome _ id
    rw [pure_bind]
    apply Outcome.bind ih
    · intro pages w' ⟨hw, hpages⟩
      exact ⟨hw, by rw [hpages, List.map_cons]⟩
    · exact fun _ _ he => he

/-- The tail page of a grown vector, replaced or extended in place. -/
theorem commitTail_outcome (hw : Agrees w s) (hi : w.forks[i]? = some (some f)) (hshows : Shows w.heap f p)
    (hlt : p.values.length < newLen) (htail : f.len % VALUES_PER_PAGE ≠ 0) {r : Option (List α)}
    (hr : TailReady w f p newLen r) :
    Outcome w (commitTail f (f.len / VALUES_PER_PAGE) newLen r)
      (fun f' w' => ∃ pages, f' = { f with pages } ∧ Extended w w' i f p newLen pages) E := by
  obtain ⟨address, values, haddress, hvalues, hread⟩ := tail_address hshows htail
  have hin := (List.getElem?_eq_some_iff.mp haddress).1
  -- every other page lies before the tail
  have hbefore : ∀ (k other : Nat), k ≠ f.len / VALUES_PER_PAGE → f.pages[k]? = some other →
      (k + 1) * VALUES_PER_PAGE ≤ p.values.length := by
    intro k other hne hk
    have hk' := (List.getElem?_eq_some_iff.mp hk).1
    rw [hshows.pages, lt_pages] at hk'
    have hlen := hshows.len
    unfold VALUES_PER_PAGE at *
    omega
  cases r with
  | some replacement =>
    rw [commitTail]
    apply of_run (allocate_run w replacement)
    rw [if_pos hin]
    have hkept {other : Nat} (h : other < w.heap.length) : (w.heap ++ [replacement])[other]? = w.heap[other]? :=
      List.getElem?_append_left h
    refine ⟨_, rfl, rfl, by simp, fun j g _ hg other hmem => hkept (hw.lt hg hmem), List.length_set,
      fun k other hk => ?_, fun _ other hother => ?_⟩
    · rw [List.getElem?_set] at hk
      split_ifs at hk with hkt
      · cases hk
        refine ⟨replacement, List.getElem?_concat_length, fun j hj hlt' => ?_⟩
        rw [resize_length p hlt] at hlt'
        exact hkt ▸ hr j hj (hkt ▸ hlt')
      · apply pageShows_old hlt _ (hbefore k other (Ne.symm hkt) hk)
        exact (hshows.page k other hk).congr (hkept (hshows.lt (List.mem_of_getElem? hk)))
    · rw [List.getElem?_set_self hin] at hother
      cases hother
      refine ⟨fun j g _ hg hmem => absurd (hw.lt hg hmem) (Nat.lt_irrefl _), fun k other hk heq => ?_⟩
      rw [List.getElem?_set] at hk
      split_ifs at hk with hkt
      · exact hkt.symm
      · have := hshows.lt (List.mem_of_getElem? hk)
        omega
  | none =>
    have hunique := hr address haddress
    have hsole := (strongCount_iff hi haddress).mp hunique
    obtain ⟨out, hrun, hout⟩ := extendTail_pageOf w hshows.len hshows.default hlt hread
    rw [commitTail]
    apply of_run (pageAt_run haddress)
    apply of_run (isUnique_run w address)
    rw [if_pos (decide_eq_true hunique)]
    apply of_run (valuesAt_run hvalues)
    apply of_run hrun
    apply of_run (writePage_run w address out)
    have hother {other : Nat} (hne : other ≠ address) : (w.heap.set address out)[other]? = w.heap[other]? :=
      List.getElem?_set_ne (Ne.symm hne)
    refine ⟨_, rfl, rfl, Nat.le_of_eq List.length_set.symm, fun j g hj hg other hmem => hother fun he =>
      hsole.vector j g hj hg (he ▸ hmem), rfl, fun k other hk => ?_, fun _ other hother' => ?_⟩
    · by_cases hkt : k = f.len / VALUES_PER_PAGE
      · obtain rfl : other = address := Option.some.inj (hk.symm.trans (hkt ▸ haddress))
        refine ⟨out, List.getElem?_set_self (List.getElem?_eq_some_iff.mp hvalues).1, fun j hj hlt' => ?_⟩
        rw [resize_length p hlt] at hlt'
        exact hkt ▸ hout j hj (hkt ▸ hlt')
      · have hne : other ≠ address := fun he => hkt (hsole.position k other hk he)
        exact pageShows_old hlt ((hshows.page k other hk).congr (hother hne)) (hbefore k other hkt hk)
    · obtain rfl : other = address := Option.some.inj (hother'.symm.trans haddress)
      exact ⟨hsole.vector, hsole.position⟩

theorem allocateAll_outcome (w : World α) (pages : List (List α)) :
    Outcome w (pages.mapM allocate) (fun addresses w' => w' = { w with heap := w.heap ++ pages } ∧
      addresses = List.range' w.heap.length pages.length) E := by
  induction pages generalizing w with
  | nil => exact ⟨by rw [List.append_nil], rfl⟩
  | cons page pages ih =>
    rw [List.mapM_cons]
    apply of_run (allocate_run w page)
    apply Outcome.bind (ih _)
    · intro addresses w' ⟨hw, haddresses⟩
      refine ⟨by rw [hw, List.append_assoc, List.singleton_append], ?_⟩
      rw [haddresses, List.length_append, List.length_singleton, List.length_cons, List.range'_succ]
    · exact fun _ _ he => he

/-- The new pages are put behind the extended ones, and the last page is the vector's own. -/
theorem Extended.finish {w' : World α} {pages : List Nat} (h : Extended w w' i f p newLen pages) (hw : Agrees w s)
    (hi : w.forks[i]? = some (some f)) (hshows : Shows w.heap f p) (hlt : p.values.length < newLen)
    (hfits : newLen ≤ U32_MAX) {count : Nat} (hcount : count = divCeil newLen VALUES_PER_PAGE - f.pages.length) :
    ∃ f' address, Writable
      ⟨w'.heap ++ (List.range' f.pages.length count).map fun k => List.replicate (visiblePageLen newLen k) f.default,
        w.forks.set i (some ⟨pages ++ List.range' w'.heap.length count, newLen, f.default⟩)⟩
      (s.set i (some (p.resize newLen))) i (p.resize newLen) ((newLen - 1) / VALUES_PER_PAGE) address f' := by
  have hsize := resize_length p hlt
  have hold := hshows.pages
  have hlength := h.length
  have hlen := hshows.len
  have hpages : ∀ (k address : Nat), (pages ++ List.range' w'.heap.length count)[k]? = some address →
      (k < pages.length ∧ pages[k]? = some address) ∨ (pages.length ≤ k ∧ k - pages.length < count ∧
        address = w'.heap.length + (k - pages.length)) := by
    intro k address hk
    by_cases hin : k < pages.length
    · rw [List.getElem?_append_left hin] at hk
      exact .inl ⟨hin, hk⟩
    · rw [List.getElem?_append_right (Nat.not_lt.mp hin)] at hk
      have hnew := (List.getElem?_eq_some_iff.mp hk).1
      rw [List.length_range'] at hnew
      rw [List.getElem?_range' hnew] at hk
      cases hk
      exact .inr ⟨Nat.not_lt.mp hin, hnew, by rw [Nat.one_mul]⟩
  have hgrown : Shows (w'.heap ++ (List.range' f.pages.length count).map fun k =>
      List.replicate (visiblePageLen newLen k) f.default)
      ⟨pages ++ List.range' w'.heap.length count, newLen, f.default⟩ (p.resize newLen) := by
    refine ⟨hsize.symm, by rw [hsize]; exact hfits, hshows.default, ?_, fun k address hk => ?_⟩
    · rw [hsize, List.length_append, List.length_range', hlength, hcount, hold]
      unfold divCeil VALUES_PER_PAGE
      omega
    · rcases hpages k address hk with ⟨_, hk⟩ | ⟨hle, hnew, rfl⟩
      · have hshow := h.page k address hk
        exact hshow.congr (List.getElem?_append_left hshow.lt)
      · refine ⟨List.replicate (visiblePageLen newLen k) f.default, ?_, ?_⟩
        · rw [List.getElem?_append_right (Nat.le_add_right _ _), Nat.add_sub_cancel_left, List.getElem?_map,
            List.getElem?_range' hnew, Option.map_some, Nat.one_mul, ← hlength, Nat.add_sub_cancel' hle]
        · intro j hj hin
          rw [hsize] at hin
          rw [hshows.default]
          apply pageOf_new hlt _ j hj hin
          have hnot : ¬k < divCeil p.values.length VALUES_PER_PAGE := by omega
          rw [lt_pages] at hnot
          omega
  have hilt : i < w.forks.length := (List.getElem?_eq_some_iff.mp hi).1
  have hlast : (newLen - 1) / VALUES_PER_PAGE * VALUES_PER_PAGE < (p.resize newLen).values.length := by
    rw [hsize]
    unfold VALUES_PER_PAGE
    omega
  obtain ⟨address, haddress⟩ := hgrown.page_at hlast
  have hagrees := hw.replace (i := i) (fun j g hj hg other hmem =>
    (List.getElem?_append_left (Nat.lt_of_lt_of_le (hw.lt hg hmem) h.heap_le)).trans (h.frame j g hj hg other hmem))
    hgrown
  refine ⟨_, address, hagrees, List.getElem?_set_self hilt, hgrown, haddress, ?_⟩
  rcases hpages _ address haddress with ⟨hin, hk⟩ | ⟨hle, hnew, haddr⟩
  · -- the last page is the extended tail
    have htail : f.len % VALUES_PER_PAGE ≠ 0 ∧ (newLen - 1) / VALUES_PER_PAGE = f.len / VALUES_PER_PAGE := by
      rw [hlength, hold, lt_pages] at hin
      unfold VALUES_PER_PAGE at *
      omega
    rw [htail.2] at hk ⊢
    obtain ⟨hvector, hposition⟩ := h.own htail.1 address hk
    refine ⟨fun j g hj hg hmem => ?_, fun k other hk' heq => ?_⟩
    · rw [List.getElem?_set_ne (Ne.symm hj)] at hg
      exact hvector j g hj hg hmem
    · rcases hpages k other hk' with ⟨_, hk'⟩ | ⟨_, _, hother⟩
      · exact hposition k other hk' heq
      · have := (h.page _ address hk).lt
        omega
  · apply sole_fresh hw _ (by have := h.heap_le; omega)
    intro k other hk' heq
    rcases hpages k other hk' with ⟨_, hk'⟩ | ⟨_, _, hother⟩
    · have := (h.page k other hk').lt
      omega
    · omega

theorem grow_outcome (hw : Agrees w s) (hi : w.forks[i]? = some (some f)) (hshows : Shows w.heap f p)
    (hlt : p.values.length < newLen) (hfits : newLen ≤ U32_MAX) (alloc : Site → Bool) :
    Outcome w (grow alloc i f newLen) (fun _ w' => ∃ f' address, Writable w' (s.set i (some (p.resize newLen))) i
      (p.resize newLen) ((newLen - 1) / VALUES_PER_PAGE) address f') (Refused w alloc) := by
  have hfinish : ∀ (w' : World α) (pages : List Nat), Extended w w' i f p newLen pages →
      Outcome w' (do
        let addresses ← ((List.range' f.pages.length (divCeil newLen VALUES_PER_PAGE - f.pages.length)).map fun k =>
          List.replicate (visiblePageLen newLen k) f.default).mapM allocate
        setFork i { f with pages := pages ++ addresses, len := newLen })
        (fun _ w' => ∃ f' address, Writable w' (s.set i (some (p.resize newLen))) i (p.resize newLen)
          ((newLen - 1) / VALUES_PER_PAGE) address f') (Refused w alloc) := by
    intro w' pages hext
    apply Outcome.bind (allocateAll_outcome w' _)
    · intro addresses w'' ⟨hw'', haddresses⟩
      rw [List.length_map, List.length_range'] at haddresses
      have hdone := hext.finish hw hi hshows hlt hfits rfl
      rw [← hext.forks, ← haddresses] at hdone
      rw [hw'']
      exact hdone
    · exact fun _ _ he => he
  unfold grow
  apply tryReserve_outcome _ id
  by_cases htail : f.len % VALUES_PER_PAGE ≠ 0
  · simp only [if_pos htail]
    apply Outcome.bind (tailReplacement_outcome hshows hlt htail alloc)
    · intro r w' ⟨hw', hr⟩
      rw [hw']
      apply tryReserve_outcome _ id
      apply Outcome.bind (newPages_outcome alloc w f.default newLen _)
      · intro newPages w' ⟨hw', hnew⟩
        rw [hw', hnew]
        apply Outcome.bind (commitTail_outcome hw hi hshows hlt htail hr)
        · intro f' w' ⟨pages, hf', hext⟩
          rw [hf']
          exact hfinish w' pages hext
        · exact fun _ _ he => he
      · exact fun _ _ he => he
    · exact fun _ _ he => he
  · simp only [if_neg htail, pure_bind]
    apply tryReserve_outcome _ id
    apply Outcome.bind (newPages_outcome alloc w f.default newLen _)
    · intro newPages w' ⟨hw', hnew⟩
      rw [hw', hnew]
      exact hfinish w f.pages (extended_whole hshows hlt (not_not.mp htail))
    · exact fun _ _ he => he

end

/-! Calls. -/

theorem resize_shrink (p : PlainVec α) {len : Nat} (hlen : len ≤ p.values.length) : p.resize len = p.truncate len := by
  rw [PlainVec.resize, Nat.sub_eq_zero_of_le hlen, List.replicate_zero, List.append_nil, PlainVec.truncate]

theorem tryResize_outcome (hw : Agrees w s) (hi : w.forks[i]? = some (some f)) (hshows : Shows w.heap f p)
    (alloc : Site → Bool) (len : Nat) : Outcome w (tryResize alloc i len)
      (fun _ w' => Agrees w' (s.set i (some (p.resize len))) ∧ (p.values.length < len → ∃ f' address,
        Writable w' (s.set i (some (p.resize len))) i (p.resize len) ((len - 1) / VALUES_PER_PAGE) address f'))
      (fun e w' => e = .capacity ∧ w' = w ∧ ((∃ site, alloc site = false) ∨ U32_MAX < len)) := by
  have hlen := hshows.len
  rw [tryResize]
  split_ifs with hwide
  · exact ⟨rfl, rfl, .inr hwide⟩
  · apply of_run (fork_run hi)
    split_ifs with hle
    · apply (truncate_outcome hw hi hshows len).mono
      · intro _ w' hagrees
        rw [resize_shrink p (by omega)]
        exact ⟨hagrees, fun hlt => by omega⟩
      · exact fun _ _ he => he
    · apply (grow_outcome hw hi hshows (by omega) (by omega) alloc).mono
      · intro _ w' ⟨f', address, hwritable⟩
        exact ⟨hwritable.agrees, fun _ => ⟨f', address, hwritable⟩⟩
      · exact fun e w' h => ⟨h.capacity, h.unchanged, .inl h.refused⟩

/-- The value is put in its place once the page is the vector's own. -/
theorem write_outcome {k address : Nat} (h : Writable w s i p k address f) {j : Nat} (hj : j < VALUES_PER_PAGE)
    (hlt : k * VALUES_PER_PAGE + j < p.values.length) (value : α) (old : Option α) :
    Outcome w (do
      let values ← valuesAt address
      if j < values.length then
        writePage address (values.set j value)
        return old
      else throw (.panic "index out of bounds"))
      (fun r w' => r = old ∧
        Agrees w' (s.set i (some { p with values := p.values.set (k * VALUES_PER_PAGE + j) value }))) E := by
  obtain ⟨values, hvalues, _⟩ := h.shows.page k address h.page
  obtain ⟨hin, hagrees⟩ := h.write hj hlt value hvalues
  apply of_run (valuesAt_run hvalues)
  rw [if_pos hin]
  apply of_run (writePage_run w address _)
  exact ⟨rfl, hagrees⟩

theorem trySet_outcome (hw : Agrees w s) (hi : w.forks[i]? = some (some f)) (hs : s[i]? = some (some p))
    (hshows : Shows w.heap f p) (alloc : Site → Bool) (index : Nat) (value : α) :
    Outcome w (trySet alloc i index value)
      (fun old w' => old = p.values[index]? ∧ Agrees w' (s.set i (some (p.set index value))))
      (fun e w' => e = .capacity ∧ w' = w ∧ ((∃ site, alloc site = false) ∨ U32_MAX < index + 1)) := by
  have hlen := hshows.len
  have hsplit := page_split index
  rw [trySet]
  split_ifs with hwide
  · exact ⟨rfl, rfl, .inr (Nat.lt_trans (by decide) hwide)⟩
  · apply of_run (fork_run hi)
    apply of_run (show (get : PagedM α (World α)).run w = .ok w w from rfl)
    rw [hshows.get]
    by_cases hgrow : f.len < index + 1
    · -- the page of the last position is the vector's own, so no copy can fail
      simp only [if_pos hgrow]
      apply Outcome.bind (tryResize_outcome hw hi hshows alloc (index + 1))
      · intro _ w₁ ⟨_, hlast⟩
        obtain ⟨f₁, address, hwritable⟩ := hlast (by omega)
        rw [Nat.add_sub_cancel] at hwritable
        have hsize : (p.resize (index + 1)).values.length = index + 1 := resize_length p (by omega)
        have hs₁ : (s.set i (some (p.resize (index + 1))))[i]? = some (some (p.resize (index + 1))) :=
          List.getElem?_set_self (List.getElem?_eq_some_iff.mp hs).1
        apply Outcome.bind (tryUniquePage_outcome hwritable.agrees hwritable.vector hs₁ hwritable.shows
          hwritable.page alloc)
        · intro address' w₂ ⟨f₂, hown⟩
          apply (write_outcome hown (mod_lt_page index) (by omega) value _).mono
          · intro old w₃ ⟨hold, hagrees⟩
            rw [List.set_set, hsplit] at hagrees
            have hmax : max p.values.length (index + 1) = index + 1 := Nat.max_eq_right (by omega)
            refine ⟨hold, ?_⟩
            rw [PlainVec.set, hmax]
            exact hagrees
          · exact fun _ _ he => he
        · exact fun _ _ ⟨_, hnot⟩ => absurd hwritable.sole hnot
      · exact fun _ _ he => he
    · simp only [if_neg hgrow]
      obtain ⟨address, haddress⟩ := hshows.page_at (k := index / VALUES_PER_PAGE) (by omega)
      apply Outcome.bind (tryUniquePage_outcome hw hi hs hshows haddress alloc)
      · intro address' w₂ ⟨f₂, hown⟩
        apply (write_outcome hown (mod_lt_page index) (by omega) value _).mono
        · intro old w₃ ⟨hold, hagrees⟩
          rw [hsplit] at hagrees
          have hmax : max p.values.length (index + 1) = p.values.length := Nat.max_eq_left (by omega)
          refine ⟨hold, ?_⟩
          rw [PlainVec.set, hmax, resize_shrink p (Nat.le_refl _), PlainVec.truncate, List.take_length]
          exact hagrees
        · exact fun _ _ he => he
      · exact fun _ _ ⟨h, _⟩ => ⟨h.capacity, h.unchanged, .inl h.refused⟩

end Opto.Paged
