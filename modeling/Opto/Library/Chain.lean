import Mathlib.Data.List.Nodup
import Mathlib.Data.List.Perm.Subperm

/-!
# Intrusive doubly linked lists

A table of links threads disjoint lists of indices. Appending an index to a list
and unlinking one from it are local: they write the links of that index and of
its neighbours only, so every other list stays as it is.
-/

namespace Opto

structure Links where
  previous : Option Nat
  next : Option Nat
deriving DecidableEq, Inhabited

/-- The links of `xs`, entered from `previous` and left to `next`. -/
def Segment (links : List Links) : Option Nat → List Nat → Option Nat → Prop
  | _, [], _ => True
  | previous, x :: xs, next =>
    links[x]? = some ⟨previous, xs.head?.or next⟩ ∧ Segment links (some x) xs next

variable {links links' : List Links} {previous next : Option Nat} {xs ys : List Nat} {x : Nat}

theorem segment_append : Segment links previous (xs ++ ys) next ↔
    Segment links previous xs (ys.head?.or next) ∧ Segment links (xs.getLast?.or previous) ys next := by
  induction xs generalizing previous with
  | nil => simp [Segment]
  | cons x xs ih =>
    rw [List.cons_append, Segment, Segment, ih, and_assoc]
    cases xs with
    | nil => simp
    | cons y xs =>
      have hlast : ((x :: y :: xs).getLast?).or previous = ((y :: xs).getLast?).or (some x) := by
        rw [List.getLast?_cons_cons, List.getLast?_eq_getLast_of_ne_nil (List.cons_ne_nil y xs)]
        rfl
      rw [hlast]
      rfl

theorem Segment.congr (h : Segment links previous xs next) (hsame : ∀ x ∈ xs, links'[x]? = links[x]?) :
    Segment links' previous xs next := by
  induction xs generalizing previous with
  | nil => trivial
  | cons x xs ih =>
    obtain ⟨hx, hrest⟩ := h
    exact ⟨(hsame x List.mem_cons_self).trans hx, ih hrest fun y hy => hsame y (List.mem_cons_of_mem x hy)⟩

/-- The last link decides where a segment is left to. -/
theorem Segment.leave (h : Segment links previous (xs ++ [x]) next) {next' : Option Nat}
    (hx : links'[x]? = (links[x]?).map fun l => { l with next := next' })
    (hsame : ∀ y ∈ xs, links'[y]? = links[y]?) : Segment links' previous (xs ++ [x]) next' := by
  rw [segment_append] at h ⊢
  obtain ⟨hinit, hlast, -⟩ := h
  refine ⟨hinit.congr hsame, ?_, trivial⟩
  rw [hx, hlast]
  rfl

/-- The first link decides where a segment is entered from. -/
theorem Segment.enter (h : Segment links previous (x :: xs) next) {previous' : Option Nat}
    (hx : links'[x]? = (links[x]?).map fun l => { l with previous := previous' })
    (hsame : ∀ y ∈ xs, links'[y]? = links[y]?) : Segment links' previous' (x :: xs) next := by
  obtain ⟨hfirst, hrest⟩ := h
  refine ⟨?_, hrest.congr hsame⟩
  rw [hx, hfirst]
  rfl

/-- The list `xs` is threaded from `head` to `tail`. -/
structure Chain (links : List Links) (head tail : Option Nat) (xs : List Nat) : Prop where
  head : head = xs.head?
  tail : tail = xs.getLast?
  nodup : xs.Nodup
  segment : Segment links none xs none

namespace Chain

variable {head tail : Option Nat}

theorem congr (h : Chain links head tail xs) (hsame : ∀ x ∈ xs, links'[x]? = links[x]?) :
    Chain links' head tail xs :=
  ⟨h.head, h.tail, h.nodup, h.segment.congr hsame⟩

theorem lt (h : Chain links head tail xs) (hx : x ∈ xs) : x < links.length := by
  obtain ⟨ys, zs, rfl⟩ := List.append_of_mem hx
  obtain ⟨-, hlink, -⟩ := segment_append.mp h.segment
  exact (List.getElem?_eq_some_iff.mp hlink).1

theorem length_le (h : Chain links head tail xs) : xs.length ≤ links.length := by
  have hsub : xs ⊆ List.range links.length := fun x hx => List.mem_range.mpr (h.lt hx)
  have hle := (h.nodup.subperm hsub).length_le
  rwa [List.length_range] at hle

end Chain

/-! Appending. -/

/-- Writes to a link that may be missing. -/
def modifyAt (links : List Links) (x : Option Nat) (f : Links → Links) : List Links :=
  match x with
  | some x => links.modify x f
  | none => links

theorem length_modifyAt (links : List Links) (x : Option Nat) (f : Links → Links) :
    (modifyAt links x f).length = links.length := by
  cases x with
  | none => rfl
  | some x => exact List.length_modify _ _ _

theorem getElem?_modifyAt_of_ne {x : Option Nat} {y : Nat} (h : x ≠ some y) (f : Links → Links) :
    (modifyAt links x f)[y]? = links[y]? := by
  cases x with
  | none => rfl
  | some x => exact List.getElem?_modify_ne _ _ fun he => h (he ▸ rfl)

theorem getElem?_modifyAt_self (x : Nat) (f : Links → Links) :
    (modifyAt links (some x) f)[x]? = (links[x]?).map f := List.getElem?_modify_eq _ _ _

def linkLast (links : List Links) (tail : Option Nat) (x : Nat) : List Links :=
  (modifyAt links tail fun l => { l with next := some x }).modify x fun _ => ⟨tail, none⟩

theorem length_linkLast (links : List Links) (tail : Option Nat) (x : Nat) :
    (linkLast links tail x).length = links.length := by
  rw [linkLast, List.length_modify, length_modifyAt]

theorem getElem?_linkLast_of_ne {tail : Option Nat} {y : Nat} (hx : x ≠ y) (ht : tail ≠ some y) :
    (linkLast links tail x)[y]? = links[y]? := by
  rw [linkLast, List.getElem?_modify_ne _ _ hx, getElem?_modifyAt_of_ne ht]

theorem getElem?_linkLast_self (tail : Option Nat) (hx : x < links.length) :
    (linkLast links tail x)[x]? = some ⟨tail, none⟩ := by
  have hlt : x < (modifyAt links tail fun l => { l with next := some x }).length := by
    rw [length_modifyAt]
    exact hx
  rw [linkLast, List.getElem?_modify_eq, List.getElem?_eq_getElem hlt]
  rfl

theorem getElem?_linkLast_tail {tail : Nat} (h : tail ≠ x) :
    (linkLast links (some tail) x)[tail]? = (links[tail]?).map fun l => { l with next := some x } := by
  rw [linkLast, List.getElem?_modify_ne _ _ (Ne.symm h), getElem?_modifyAt_self]

theorem Chain.push {head tail : Option Nat} (h : Chain links head tail xs) (hx : x ∉ xs)
    (hlt : x < links.length) : Chain (linkLast links tail x)
      (if tail.isSome then head else some x) (some x) (xs ++ [x]) where
  head := by
    rw [h.head, h.tail]
    cases xs with
    | nil => rfl
    | cons y xs => rw [List.getLast?_eq_some_getLast (List.cons_ne_nil y xs)]; rfl
  tail := by simp
  nodup := List.nodup_append.mpr ⟨h.nodup, List.nodup_singleton x, fun y hy z hz he =>
    hx (List.mem_singleton.mp hz ▸ he ▸ hy)⟩
  segment := by
    rw [segment_append]
    refine ⟨?_, by rw [getElem?_linkLast_self tail hlt, h.tail]; simp, trivial⟩
    rcases List.eq_nil_or_concat' xs with rfl | ⟨ys, t, rfl⟩
    · trivial
    · have htail : tail = some t := by rw [h.tail]; simp
      have hnt : x ≠ t := fun he => hx (by simp [he])
      apply h.segment.leave
      · rw [htail, getElem?_linkLast_tail (Ne.symm hnt)]
        rfl
      · intro y hy
        apply getElem?_linkLast_of_ne
        · exact fun he => hx (by simp [he, hy])
        · rw [htail]
          rintro ⟨⟩
          exact (List.nodup_append.mp h.nodup).2.2 t hy t (by simp) rfl

/-! Unlinking. -/

def unlink (links : List Links) (previous next : Option Nat) (x : Nat) : List Links :=
  (modifyAt (modifyAt links previous fun l => { l with next := next }) next fun l =>
    { l with previous := previous }).modify x fun _ => ⟨none, none⟩

theorem length_unlink (links : List Links) (previous next : Option Nat) (x : Nat) :
    (unlink links previous next x).length = links.length := by
  rw [unlink, List.length_modify, length_modifyAt, length_modifyAt]

theorem getElem?_unlink_of_ne {y : Nat} (hx : x ≠ y) (hp : previous ≠ some y) (hn : next ≠ some y) :
    (unlink links previous next x)[y]? = links[y]? := by
  rw [unlink, List.getElem?_modify_ne _ _ hx, getElem?_modifyAt_of_ne hn, getElem?_modifyAt_of_ne hp]

theorem getElem?_unlink_self (hx : x < links.length) :
    (unlink links previous next x)[x]? = some ⟨none, none⟩ := by
  have hlt : x < (modifyAt (modifyAt links previous fun l => { l with next := next }) next fun l =>
      { l with previous := previous }).length := by
    rw [length_modifyAt, length_modifyAt]
    exact hx
  rw [unlink, List.getElem?_modify_eq, List.getElem?_eq_getElem hlt]
  rfl

/-- The links of a member name its neighbours. -/
theorem Chain.neighbours {head tail : Option Nat} (h : Chain links head tail (xs ++ x :: ys)) :
    links[x]? = some ⟨xs.getLast?, ys.head?⟩ := by
  obtain ⟨-, hx, -⟩ := segment_append.mp h.segment
  simpa using hx

theorem Chain.remove {head tail : Option Nat} (h : Chain links head tail (xs ++ x :: ys)) :
    Chain (unlink links xs.getLast? ys.head? x)
      (if xs.getLast?.isSome then head else ys.head?)
      (if ys.head?.isSome then tail else xs.getLast?) (xs ++ ys) where
  head := by
    rw [h.head]
    cases xs with
    | nil => rfl
    | cons y xs => rw [List.getLast?_eq_some_getLast (List.cons_ne_nil y xs)]; rfl
  tail := by
    rw [h.tail]
    cases ys with
    | nil => simp
    | cons y ys => simp
  nodup := h.nodup.sublist ((List.sublist_cons_self x ys).append_left xs)
  segment := by
    have hnodup := List.nodup_append.mp h.nodup
    have hx : x ∉ xs := fun hx => hnodup.2.2 x hx x List.mem_cons_self rfl
    have hy : x ∉ ys := (List.nodup_cons.mp hnodup.2.1).1
    have hdisjoint : ∀ y ∈ xs, y ∉ ys := fun y hl hr =>
      hnodup.2.2 y hl y (List.mem_cons_of_mem x hr) rfl
    obtain ⟨hleft, -, hright⟩ := segment_append.mp h.segment
    rw [segment_append]
    constructor
    · rcases List.eq_nil_or_concat' xs with rfl | ⟨xs, p, rfl⟩
      · trivial
      · have hlast : (xs ++ [p]).getLast? = some p := by simp
        rw [hlast]
        have hfirst : ys.head? ≠ some p := fun he => hdisjoint p (by simp) (List.mem_of_head? he)
        have hpx : x ≠ p := fun he => hx (by simp [he])
        apply hleft.leave
        · rw [unlink, List.getElem?_modify_ne _ _ hpx, getElem?_modifyAt_of_ne hfirst,
            getElem?_modifyAt_self, Option.or_none]
        · intro y hy'
          apply getElem?_unlink_of_ne
          · exact fun he => hx (by simp [he, hy'])
          · rintro ⟨⟩
            exact (List.nodup_append.mp hnodup.1).2.2 p hy' p (by simp) rfl
          · exact fun he => hdisjoint y (by simp [hy']) (List.mem_of_head? he)
    · cases ys with
      | nil => trivial
      | cons n ys =>
        have hlast : xs.getLast? ≠ some n := fun he =>
          hdisjoint n (List.mem_of_getLast? he) List.mem_cons_self
        have hnx : x ≠ n := fun he => hy (by simp [he])
        apply hright.enter
        · rw [unlink, List.head?_cons, List.getElem?_modify_ne _ _ hnx, getElem?_modifyAt_self,
            getElem?_modifyAt_of_ne hlast, Option.or_none]
        · intro y hy'
          apply getElem?_unlink_of_ne
          · exact fun he => hy (by simp [he, hy'])
          · exact fun he => hdisjoint y (List.mem_of_getLast? he) (by simp [hy'])
          · rintro ⟨⟩
            exact (List.nodup_cons.mp (List.nodup_cons.mp hnodup.2.1).2).1 hy'

end Opto
