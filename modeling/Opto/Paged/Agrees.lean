import Opto.Paged.Vector

/-!
# Paged vectors refine plain vectors

A vector shows a plain one when each of its pages holds the values of its positions. Writing
a page that one vector alone refers to, or a new page, leaves what the others show.
-/

namespace Opto.Paged

open Mapped (U32_MAX U64_MAX)
open Pages Sharing

variable {α : Type}

/-- A vector that shares nothing, with the value that fills new positions. -/
structure PlainVec (α : Type) where
  values : List α
  default : α

namespace PlainVec

def truncate (p : PlainVec α) (len : Nat) : PlainVec α := { p with values := p.values.take len }

def resize (p : PlainVec α) (len : Nat) : PlainVec α :=
  { p with values := p.values.take len ++ List.replicate (len - p.values.length) p.default }

def set (p : PlainVec α) (index : Nat) (value : α) : PlainVec α :=
  { p with values := (p.resize (max p.values.length (index + 1))).values.set index value }

end PlainVec

/-! Page arithmetic. -/

theorem lt_pages {k n : Nat} : k < divCeil n VALUES_PER_PAGE ↔ k * VALUES_PER_PAGE < n := lt_divCeil (by decide)

theorem mod_lt_page (index : Nat) : index % VALUES_PER_PAGE < VALUES_PER_PAGE := Nat.mod_lt _ (by decide)

theorem page_split (index : Nat) : index / VALUES_PER_PAGE * VALUES_PER_PAGE + index % VALUES_PER_PAGE = index :=
  Nat.div_add_mod' _ _

/-! What a page shows. -/

/-- The page holds the values of its positions; it may hold more. -/
def PageShows (heap : List (List α)) (v : List α) (k address : Nat) : Prop :=
  ∃ values, heap[address]? = some values ∧
    ∀ j, j < VALUES_PER_PAGE → k * VALUES_PER_PAGE + j < v.length → values[j]? = v[k * VALUES_PER_PAGE + j]?

theorem PageShows.congr {heap heap' : List (List α)} {v : List α} {k address : Nat} (h : PageShows heap v k address)
    (hsame : heap'[address]? = heap[address]?) : PageShows heap' v k address := by
  obtain ⟨values, hvalues, hshows⟩ := h
  exact ⟨values, hsame.trans hvalues, hshows⟩

theorem PageShows.lt {heap : List (List α)} {v : List α} {k address : Nat} (h : PageShows heap v k address) :
    address < heap.length := by
  obtain ⟨values, hvalues, _⟩ := h
  exact (List.getElem?_eq_some_iff.mp hvalues).1

/-- Positions that agree in two vectors are shown for both. -/
theorem PageShows.agree {heap : List (List α)} {v v' : List α} {k address : Nat} (h : PageShows heap v k address)
    (hagree : ∀ j, j < VALUES_PER_PAGE → k * VALUES_PER_PAGE + j < v'.length →
      k * VALUES_PER_PAGE + j < v.length ∧ v[k * VALUES_PER_PAGE + j]? = v'[k * VALUES_PER_PAGE + j]?) :
    PageShows heap v' k address := by
  obtain ⟨values, hvalues, hshows⟩ := h
  refine ⟨values, hvalues, fun j hj hlt => ?_⟩
  obtain ⟨hlt', heq⟩ := hagree j hj hlt
  exact (hshows j hj hlt').trans heq

structure Shows (heap : List (List α)) (f : PagedCowVec α) (p : PlainVec α) : Prop where
  len : f.len = p.values.length
  fits : p.values.length ≤ U32_MAX
  default : f.default = p.default
  pages : f.pages.length = divCeil p.values.length VALUES_PER_PAGE
  page : ∀ (k address : Nat), f.pages[k]? = some address → PageShows heap p.values k address

/-- Each vector shows its plain one, and the same vectors were dropped. -/
structure Agrees (w : World α) (s : List (Option (PlainVec α))) : Prop where
  length : w.forks.length = s.length
  shows : ∀ (i : Nat) f, w.forks[i]? = some (some f) → ∃ p, s[i]? = some (some p) ∧ Shows w.heap f p
  dropped : ∀ (i : Nat), w.forks[i]? = some none → s[i]? = some none

theorem Shows.congr {heap heap' : List (List α)} {f : PagedCowVec α} {p : PlainVec α} (h : Shows heap f p)
    (hsame : ∀ address ∈ f.pages, heap'[address]? = heap[address]?) : Shows heap' f p :=
  ⟨h.len, h.fits, h.default, h.pages, fun k address hk =>
    (h.page k address hk).congr (hsame address (List.mem_of_getElem? hk))⟩

theorem Shows.lt {heap : List (List α)} {f : PagedCowVec α} {p : PlainVec α} (h : Shows heap f p) {address : Nat}
    (haddress : address ∈ f.pages) : address < heap.length := by
  obtain ⟨k, hk⟩ := List.mem_iff_getElem?.mp haddress
  exact (h.page k address hk).lt

/-- A visible position has a page. -/
theorem Shows.page_at {heap : List (List α)} {f : PagedCowVec α} {p : PlainVec α} (h : Shows heap f p) {k : Nat}
    (hk : k * VALUES_PER_PAGE < p.values.length) : ∃ address, f.pages[k]? = some address := by
  have hlt : k < f.pages.length := by
    rw [h.pages]
    exact lt_pages.mpr hk
  exact ⟨_, List.getElem?_eq_getElem hlt⟩

theorem Shows.get {w : World α} {f : PagedCowVec α} {p : PlainVec α} (h : Shows w.heap f p) (index : Nat) :
    w.get f index = p.values[index]? := by
  rw [World.get, h.len]
  split_ifs with hlt
  · have hsplit := page_split index
    obtain ⟨address, haddress⟩ := h.page_at (k := index / VALUES_PER_PAGE) (by omega)
    obtain ⟨values, hvalues, hshows⟩ := h.page _ _ haddress
    simp only [haddress, hvalues, Option.getD_some]
    have hread := hshows (index % VALUES_PER_PAGE) (mod_lt_page index) (by omega)
    rwa [hsplit] at hread
  · rw [List.getElem?_eq_none (by omega)]

namespace Agrees

variable {w : World α} {s : List (Option (PlainVec α))} {i : Nat} {f f' : PagedCowVec α} {p' : PlainVec α}

/-- One vector is changed and the pages of the others are left alone. -/
theorem replace (h : Agrees w s) {heap : List (List α)}
    (hframe : ∀ (j : Nat) g, j ≠ i → w.forks[j]? = some (some g) → ∀ address ∈ g.pages, heap[address]? = w.heap[address]?)
    (hshows : Shows heap f' p') : Agrees ⟨heap, w.forks.set i (some f')⟩ (s.set i (some p')) := by
  have hlength := h.length
  refine ⟨by rw [List.length_set, List.length_set, hlength], fun j g hj => ?_, fun j hj => ?_⟩
  · rw [List.getElem?_set] at hj
    rw [List.getElem?_set]
    by_cases hij : i = j
    · rw [if_pos hij] at hj ⊢
      split_ifs at hj with hlt
      cases hj
      exact ⟨p', by rw [if_pos (hlength ▸ hlt)], hshows⟩
    · rw [if_neg hij] at hj ⊢
      obtain ⟨p, hp, hshow⟩ := h.shows j g hj
      exact ⟨p, hp, hshow.congr (hframe j g (Ne.symm hij) hj)⟩
  · rw [List.getElem?_set] at hj
    rw [List.getElem?_set]
    by_cases hij : i = j
    · rw [if_pos hij] at hj
      split_ifs at hj
      cases hj
    · rw [if_neg hij] at hj ⊢
      exact h.dropped j hj

/-- Addresses that are not allocated yet are held by no vector. -/
theorem lt (h : Agrees w s) {j : Nat} {g : PagedCowVec α} (hj : w.forks[j]? = some (some g)) {address : Nat}
    (haddress : address ∈ g.pages) : address < w.heap.length := by
  obtain ⟨p, _, hshows⟩ := h.shows j g hj
  exact hshows.lt haddress

end Agrees

/-! Unique pages. -/

theorem holders_getElem? {w : World α} {i : Nat} {f : PagedCowVec α} (hi : w.forks[i]? = some (some f)) :
    w.holders[i]? = some f.pages := by
  rw [World.holders, List.getElem?_map, hi]
  rfl

/-- The page of a vector that no other position of any vector refers to. -/
structure Sole (w : World α) (i : Nat) (f : PagedCowVec α) (k address : Nat) : Prop where
  vector : ∀ (j : Nat) g, j ≠ i → w.forks[j]? = some (some g) → address ∉ g.pages
  position : OnlyAt (· = address) f.pages k

theorem strongCount_iff {w : World α} {i k address : Nat} {f : PagedCowVec α} (hi : w.forks[i]? = some (some f))
    (hk : f.pages[k]? = some address) : strongCount w.holders address = 1 ↔ Sole w i f k address := by
  rw [strongCount_eq_one_iff (holders_getElem? hi) hk]
  constructor
  · intro ⟨hvector, hposition⟩
    refine ⟨fun j g hj hg hmem => hj (hvector j g.pages (holders_getElem? hg) hmem), hposition⟩
  · intro h
    refine ⟨fun j refs hj hmem => ?_, h.position⟩
    by_contra hne
    rw [World.holders, List.getElem?_map] at hj
    obtain ⟨g, hg, rfl⟩ := Option.map_eq_some_iff.mp hj
    cases g with
    | none => exact absurd hmem List.not_mem_nil
    | some g => exact h.vector j g hne hg hmem

end Opto.Paged
