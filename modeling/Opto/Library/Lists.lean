import Mathlib.Data.List.Induction
import Mathlib.Data.List.Sort

/-!
# Association lists and related lists

Finite maps as lists of keys and values: what `lookup` finds after an entry is
put in front, or into its place in a list kept in ascending order of keys. Two
lists related entry by entry have a partner for every entry, and a loop succeeds
when each of its steps does.
-/

namespace Opto

variable {κ α : Type}

theorem lookup_cons [DecidableEq κ] {key k : κ} {x : α} {xs : List (κ × α)} :
    ((k, x) :: xs).lookup key = if key = k then some x else xs.lookup key := by
  by_cases h : key = k
  · simp [h]
  · have hb : (key == k) = false := by simpa using h
    simp [List.lookup_cons, h, hb]

theorem lookup_orderedInsert {o : Nat} {l : α} {xs : List (Nat × α)}
    (h : xs.lookup o = none) (k : Nat) :
    (xs.orderedInsert (fun a b => a.1 ≤ b.1) (o, l)).lookup k =
      if k = o then some l else xs.lookup k := by
  induction xs with
  | nil => simp only [List.orderedInsert_nil, lookup_cons]
  | cons x xs ih =>
    obtain ⟨j, y⟩ := x
    rw [lookup_cons] at h
    have hne : o ≠ j := fun hoj => by rw [if_pos hoj] at h; cases h
    rw [if_neg hne] at h
    by_cases hle : o ≤ j
    · rw [List.orderedInsert_cons, if_pos hle, lookup_cons]
    · rw [List.orderedInsert_cons, if_neg hle, lookup_cons, lookup_cons, ih h]
      by_cases hk : k = o
      · rw [if_pos hk, if_pos hk, if_neg (by rw [hk]; exact hne)]
      · rw [if_neg hk, if_neg hk]

theorem ascending_orderedInsert {o : Nat} {l : α} {xs : List (Nat × α)}
    (hs : xs.Pairwise (·.1 < ·.1)) (h : xs.lookup o = none) :
    (xs.orderedInsert (fun a b => a.1 ≤ b.1) (o, l)).Pairwise (·.1 < ·.1) := by
  induction xs with
  | nil => exact List.pairwise_singleton _ _
  | cons x xs ih =>
    obtain ⟨j, y⟩ := x
    rw [lookup_cons] at h
    have hne : o ≠ j := fun hoj => by rw [if_pos hoj] at h; cases h
    rw [if_neg hne] at h
    obtain ⟨hj, hxs⟩ := List.pairwise_cons.mp hs
    by_cases hle : o ≤ j
    · rw [List.orderedInsert_cons, if_pos hle]
      refine List.pairwise_cons.mpr ⟨fun z hz => ?_, hs⟩
      rcases List.mem_cons.mp hz with rfl | hz
      · dsimp only; omega
      · have := hj z hz
        dsimp only at this ⊢; omega
    · rw [List.orderedInsert_cons, if_neg hle]
      refine List.pairwise_cons.mpr ⟨fun z hz => ?_, ih hxs h⟩
      rcases (List.mem_orderedInsert _).mp hz with rfl | hz
      · dsimp only; omega
      · exact hj z hz

theorem lookup_filter_ne [DecidableEq κ] (key k : κ) (xs : List (κ × α)) :
    (xs.filter (·.1 ≠ key)).lookup k = if k = key then none else xs.lookup k := by
  induction xs with
  | nil => split_ifs <;> rfl
  | cons x xs ih =>
    obtain ⟨j, a⟩ := x
    by_cases hj : j = key
    · rw [List.filter_cons_of_neg (by simp [hj]), ih, lookup_cons]
      split_ifs with hk hkj
      · rfl
      · exact absurd (hkj.trans hj) hk
      · rfl
    · rw [List.filter_cons_of_pos (by simp [hj]), lookup_cons, lookup_cons, ih]
      split_ifs with hkj hk
      · exact absurd (hkj.symm.trans hk) hj
      · rfl
      · rfl
      · rfl

theorem lookup_of_mem [DecidableEq κ] {xs : List (κ × α)} (h : (xs.map (·.1)).Nodup) {entry : κ × α}
    (hmem : entry ∈ xs) : xs.lookup entry.1 = some entry.2 := by
  induction xs with
  | nil => cases hmem
  | cons x xs ih =>
    obtain ⟨k, a⟩ := x
    obtain ⟨hk, hrest⟩ := List.nodup_cons.mp h
    rw [lookup_cons]
    rcases List.mem_cons.mp hmem with rfl | hmem
    · rw [if_pos rfl]
    · have hne : entry.1 ≠ k := fun he => hk (List.mem_map.mpr ⟨entry, hmem, he⟩)
      rw [if_neg hne]
      exact ih hrest hmem

theorem filterMap_lookup [DecidableEq κ] {xs : List (κ × α)} (h : (xs.map (·.1)).Nodup) :
    (xs.map (·.1)).filterMap (fun k => xs.lookup k) = xs.map (·.2) := by
  rw [List.filterMap_map, ← List.filterMap_eq_map]
  exact List.filterMap_congr fun entry hmem => lookup_of_mem h hmem

section Related

variable {β : Type} {R : α → β → Prop} {xs : List α} {ys : List β}

theorem exists_of_mem_left (h : List.Forall₂ R xs ys) {x : α} (hx : x ∈ xs) :
    ∃ y ∈ ys, R x y := by
  induction h with
  | nil => cases hx
  | cons hr _ ih =>
    rcases List.mem_cons.mp hx with rfl | hx
    · exact ⟨_, by simp, hr⟩
    · obtain ⟨y, hy, hr⟩ := ih hx
      exact ⟨y, by simp [hy], hr⟩

theorem exists_of_mem_right (h : List.Forall₂ R xs ys) {y : β} (hy : y ∈ ys) :
    ∃ x ∈ xs, R x y := exists_of_mem_left h.flip hy

theorem forall₂_mono_mem {S : α → β → Prop} (h : List.Forall₂ R xs ys)
    (hmono : ∀ x, ∀ y ∈ ys, R x y → S x y) : List.Forall₂ S xs ys := by
  induction h with
  | nil => exact .nil
  | cons hhead htail ih =>
    obtain ⟨hy, hys⟩ := List.forall_mem_cons.mp fun y hy x => hmono x y hy
    exact .cons (hy _ hhead) (ih fun x y hy => hys y hy x)

theorem exists_of_getElem?_right (h : List.Forall₂ R xs ys) {i : Nat} {y : β}
    (hy : ys[i]? = some y) : ∃ x, xs[i]? = some x ∧ R x y := by
  induction h generalizing i with
  | nil => cases hy
  | cons hr _ ih =>
    cases i with
    | zero => exact ⟨_, rfl, Option.some.inj hy ▸ hr⟩
    | succ i => exact ih hy

theorem split_left {x : α} {done rest : List α} (h : List.Forall₂ R (done ++ x :: rest) ys) :
    ∃ done' y rest', ys = done' ++ y :: rest' ∧ List.Forall₂ R done done' ∧ R x y := by
  induction done generalizing ys with
  | nil =>
    cases h with
    | cons hr _ => exact ⟨[], _, _, rfl, .nil, hr⟩
  | cons z done ih =>
    cases h with
    | cons hz h =>
      obtain ⟨done', y, rest', rfl, hdone, hr⟩ := ih h
      exact ⟨_ :: done', y, rest', rfl, .cons hz hdone, hr⟩

theorem split_right {y : β} {done rest : List β} (h : List.Forall₂ R xs (done ++ y :: rest)) :
    ∃ done' x rest', xs = done' ++ x :: rest' ∧ List.Forall₂ R done' done ∧ R x y := by
  obtain ⟨done', x, rest', hxs, hdone, hr⟩ := split_left h.flip
  exact ⟨done', x, rest', hxs, hdone.flip, hr⟩

theorem filterMap_forall₂ {γ : Type} {f : α → Option γ} {g : β → Option γ}
    (hR : ∀ x y, R x y → g y = f x) (h : List.Forall₂ R xs ys) : ys.filterMap g = xs.filterMap f := by
  induction h with
  | nil => rfl
  | cons hr _ ih => rw [List.filterMap_cons, List.filterMap_cons, hR _ _ hr, ih]

theorem map_forall₂ {γ : Type} {f : α → γ} {g : β → γ} (hR : ∀ x y, R x y → g y = f x)
    (h : List.Forall₂ R xs ys) : ys.map g = xs.map f := by
  induction h with
  | nil => rfl
  | cons hr _ ih => rw [List.map_cons, List.map_cons, hR _ _ hr, ih]

theorem forall₂_flatMap {γ : Type} {S : γ → γ → Prop} {f : α → List γ} {g : β → List γ}
    (h : List.Forall₂ R xs ys) (hR : ∀ x y, R x y → List.Forall₂ S (f x) (g y)) :
    List.Forall₂ S (xs.flatMap f) (ys.flatMap g) := by
  induction h with
  | nil => exact .nil
  | cons hr _ ih => exact List.rel_append (hR _ _ hr) ih

theorem forall₂_trans {γ : Type} {S : β → γ → Prop} {T : α → γ → Prop} {zs : List γ}
    (hT : ∀ x y z, R x y → S y z → T x z) (h : List.Forall₂ R xs ys) (hS : List.Forall₂ S ys zs) :
    List.Forall₂ T xs zs := by
  induction h generalizing zs with
  | nil => cases hS; exact .nil
  | cons hr _ ih =>
    cases hS with
    | cons hs hrest => exact .cons (hT _ _ _ hr hs) (ih hrest)

end Related

/-! Loops over lists that may fail. -/

section Loops

variable {β ε σ : Type} {xs : List α}

theorem mapM_eq_some_map {f : α → Option β} {g : α → β}
    (h : ∀ x ∈ xs, f x = some (g x)) : xs.mapM f = some (xs.map g) := by
  induction xs with
  | nil => rfl
  | cons x xs ih =>
    have hrest := ih fun y hy => h y (List.mem_cons_of_mem _ hy)
    rw [List.mapM_cons, h x List.mem_cons_self, Option.bind_eq_bind, Option.bind_some, hrest]
    rfl

theorem forall₂_of_mapM {f : α → Option β} {ys : List β} (h : xs.mapM f = some ys) :
    List.Forall₂ (fun x y => f x = some y) xs ys := by
  induction xs generalizing ys with
  | nil => cases h; exact .nil
  | cons x xs ih =>
    rw [List.mapM_cons] at h
    obtain ⟨y, hy, h⟩ := Option.bind_eq_some_iff.mp h
    obtain ⟨rest, hrest, h⟩ := Option.bind_eq_some_iff.mp h
    cases h
    exact .cons hy (ih hrest)

theorem mapM_isSome (xs : List α) (f : α → Option β) (h : ∀ x ∈ xs, (f x).isSome) :
    ∃ ys, xs.mapM f = some ys := by
  induction xs with
  | nil => exact ⟨[], rfl⟩
  | cons x xs ih =>
    obtain ⟨ys, hys⟩ := ih fun z hz => h z (List.mem_cons_of_mem _ hz)
    obtain ⟨y, hy⟩ := Option.isSome_iff_exists.mp (h x List.mem_cons_self)
    exact ⟨y :: ys, by rw [List.mapM_cons, hy, hys]; rfl⟩

theorem mapM_congr {f g : α → Option β} (h : ∀ x ∈ xs, f x = g x) : xs.mapM f = xs.mapM g := by
  induction xs with
  | nil => rfl
  | cons x xs ih =>
    rw [List.mapM_cons, List.mapM_cons, h x List.mem_cons_self,
      ih fun z hz => h z (List.mem_cons_of_mem _ hz)]

theorem foldlM_congr (xs : List α) (f g : σ → α → Option σ) (h : ∀ s, ∀ x ∈ xs, f s x = g s x) (s : σ) :
    xs.foldlM f s = xs.foldlM g s := by
  induction xs generalizing s with
  | nil => rfl
  | cons x xs ih =>
    rw [List.foldlM_cons, List.foldlM_cons, h s x List.mem_cons_self]
    congr 1
    funext t
    exact ih (fun s z hz => h s z (List.mem_cons_of_mem _ hz)) t

theorem mapM_ok {f : α → Except ε β} {P : α → β → Prop} (h : ∀ x ∈ xs, ∃ y, f x = .ok y ∧ P x y) :
    ∃ ys, xs.mapM f = .ok ys ∧ List.Forall₂ P xs ys := by
  induction xs with
  | nil => exact ⟨[], rfl, .nil⟩
  | cons x xs ih =>
    obtain ⟨y, hy, hp⟩ := h x List.mem_cons_self
    obtain ⟨ys, hys, hrest⟩ := ih fun z hz => h z (List.mem_cons_of_mem _ hz)
    refine ⟨y :: ys, ?_, .cons hp hrest⟩
    rw [List.mapM_cons, hy, hys]
    rfl

/-- A loop whose steps succeed and keep an invariant succeeds and keeps it. -/
theorem foldlM_ok {f : σ → α → Except ε σ} (invariant : σ → Prop)
    (hstep : ∀ s x, x ∈ xs → invariant s → ∃ t, f s x = .ok t ∧ invariant t) {s : σ}
    (h : invariant s) : ∃ t, xs.foldlM f s = .ok t ∧ invariant t := by
  induction xs generalizing s with
  | nil => exact ⟨s, rfl, h⟩
  | cons x xs ih =>
    obtain ⟨t, ht, hi⟩ := hstep s x List.mem_cons_self h
    obtain ⟨u, hu, hiu⟩ := ih (fun s z hz => hstep s z (List.mem_cons_of_mem _ hz)) hi
    refine ⟨u, ?_, hiu⟩
    rw [List.foldlM_cons, ht]
    exact hu

end Loops

/-! Folds. -/

/-- What every step of a fold preserves, with the elements it has passed. -/
theorem foldl_split {σ α : Type} {f : σ → α → σ} (invariant : List α → σ → Prop) {xs : List α} {s : σ}
    (h : invariant [] s) (hstep : ∀ done x rest, xs = done ++ x :: rest →
      invariant done (done.foldl f s) → invariant (done ++ [x]) (f (done.foldl f s) x)) :
    invariant xs (xs.foldl f s) := by
  have hprefix : ∀ done rest, xs = done ++ rest → invariant done (done.foldl f s) := by
    intro done
    induction done using List.reverseRec with
    | nil => exact fun _ _ => h
    | append_singleton done x ih =>
      intro rest hsplit
      rw [List.append_assoc] at hsplit
      rw [List.foldl_append]
      exact hstep done x rest hsplit (ih _ hsplit)
  exact hprefix xs [] (List.append_nil xs).symm

theorem foldl_keep {σ α : Type} {f : σ → α → σ} {xs : List α} {s : σ} (h : ∀ a ∈ xs, f s a = s) :
    xs.foldl f s = s := by
  induction xs with
  | nil => rfl
  | cons a xs ih =>
    rw [List.foldl_cons, h a List.mem_cons_self]
    exact ih fun b hb => h b (List.mem_cons_of_mem _ hb)

/-- A loop over numbered elements keeps an invariant that counts them. -/
theorem foldl_zipIdx {σ α : Type} (f : σ → α × Nat → σ) (invariant : Nat → σ → Prop) (xs : List α)
    (start : Nat) (hstep : ∀ (j : Nat) (x : α), xs[j]? = some x → ∀ s, invariant (start + j) s →
      invariant (start + j + 1) (f s (x, start + j))) {s : σ} (h : invariant start s) :
    invariant (start + xs.length) ((xs.zipIdx start).foldl f s) := by
  induction xs generalizing start s with
  | nil => exact h
  | cons x xs ih =>
    rw [List.zipIdx_cons, List.foldl_cons, List.length_cons, Nat.add_comm xs.length 1, ← Nat.add_assoc]
    apply ih
    · intro j y hy s hs
      have hy' : (x :: xs)[j + 1]? = some y := hy
      have hnext := hstep (j + 1) y hy' s
      rw [← Nat.add_assoc, Nat.add_right_comm] at hnext
      exact hnext hs
    · exact hstep 0 x rfl s h

/-! Tables that a fold appends to and rewrites row by row. -/

section Tables

variable {σ α β : Type} {f : σ → α → σ} {row : Nat → β → α → β}

/-- A row that is there keeps its place. -/
theorem foldl_row (table : σ → List β) (hrow : ∀ s a i x, (table s)[i]? = some x → (table (f s a))[i]? = some (row i x a))
    {s : σ} {i : Nat} {x : β} (hx : (table s)[i]? = some x) (xs : List α) :
    (table (xs.foldl f s))[i]? = some (xs.foldl (row i) x) := by
  induction xs generalizing s x with
  | nil => exact hx
  | cons a xs ih => exact ih (hrow s a i x hx)

/-- A row that was not there is appended by one of the steps. -/
theorem foldl_born (table : σ → List β) (hrow : ∀ s a i x, (table s)[i]? = some x → (table (f s a))[i]? = some (row i x a))
    {xs : List α} {s : σ} {i : Nat} {x : β} (hx : (table (xs.foldl f s))[i]? = some x)
    (hnew : (table s).length ≤ i) :
    ∃ done a rest y, xs = done ++ a :: rest ∧ (table (done.foldl f s)).length ≤ i ∧
      (table (f (done.foldl f s) a))[i]? = some y ∧ x = rest.foldl (row i) y := by
  induction xs generalizing s with
  | nil => exact absurd (List.getElem?_eq_some_iff.mp hx).1 (Nat.not_lt.mpr hnew)
  | cons a xs ih =>
    cases hy : (table (f s a))[i]? with
    | some y =>
      have hkept := foldl_row table hrow hy xs
      rw [List.foldl_cons, hkept] at hx
      exact ⟨[], a, xs, y, rfl, hnew, hy, (Option.some_inj.mp hx).symm⟩
    | none =>
      obtain ⟨done, b, rest, y, rfl, hlen, hb, hlast⟩ := ih hx (List.getElem?_eq_none_iff.mp hy)
      exact ⟨a :: done, b, rest, y, rfl, hlen, hb, hlast⟩

end Tables

/-! Elements that occur once. -/

/-- An element stands in the first part exactly when it occurs there. -/
theorem index_lt_iff {xs ys : List α} (hnodup : (xs ++ ys).Nodup) {i : Nat} {a : α}
    (ha : (xs ++ ys)[i]? = some a) : i < xs.length ↔ a ∈ xs := by
  constructor
  · intro hlt
    rw [List.getElem?_append_left hlt] at ha
    exact List.mem_of_getElem? ha
  · intro hmem
    obtain ⟨j, hj⟩ := List.mem_iff_getElem?.mp hmem
    have hlt := (List.getElem?_eq_some_iff.mp hj).1
    have hat : (xs ++ ys)[j]? = some a := (List.getElem?_append_left hlt).trans hj
    rw [(List.getElem?_inj (List.getElem?_eq_some_iff.mp ha).1 hnodup).mp (ha.trans hat.symm)]
    exact hlt

/-! Keys that occur once. -/

section Once

variable {κ : Type} {key : α → Option κ} {xs done rest : List α} {a : α} {i : κ}

/-- Neither before nor after an element another one has its key. -/
theorem key_once (honce : ((done ++ a :: rest).filterMap key).Nodup) (hkey : key a = some i) :
    (∀ b ∈ done, key b ≠ some i) ∧ ∀ b ∈ rest, key b ≠ some i := by
  rw [List.filterMap_append, List.filterMap_cons, hkey] at honce
  obtain ⟨-, hrest, hdone⟩ := List.nodup_append.mp honce
  constructor
  · intro b hb hk
    exact hdone i (List.mem_filterMap.mpr ⟨b, hb, hk⟩) i List.mem_cons_self rfl
  · intro b hb hk
    exact (List.nodup_cons.mp hrest).1 (List.mem_filterMap.mpr ⟨b, hb, hk⟩)

theorem eq_of_key (honce : (xs.filterMap key).Nodup) {b : α} (ha : a ∈ xs) (hb : b ∈ xs)
    (hai : key a = some i) (hbi : key b = some i) : b = a := by
  obtain ⟨done, rest, rfl⟩ := List.append_of_mem ha
  obtain ⟨hdone, hrest⟩ := key_once honce hai
  rcases List.mem_append.mp hb with hb | hb
  · exact absurd hbi (hdone b hb)
  · exact (List.mem_cons.mp hb).resolve_right fun hb => hrest b hb hbi

/-- Only one element of the list changes the state, and it does so once. -/
theorem foldl_written {σ : Type} {f : σ → α → σ} (honce : (xs.filterMap key).Nodup)
    (hother : ∀ a s, key a ≠ some i → f s a = s) (ha : a ∈ xs) (hkey : key a = some i) (s : σ) :
    xs.foldl f s = f s a := by
  obtain ⟨done, rest, rfl⟩ := List.append_of_mem ha
  obtain ⟨hdone, hrest⟩ := key_once honce hkey
  rw [List.foldl_append, List.foldl_cons, foldl_keep, foldl_keep]
  · exact fun b hb => hother b s (hdone b hb)
  · exact fun b hb => hother b _ (hrest b hb)

end Once

/-! Counting. -/

theorem countP_set {α : Type} {xs : List α} {i : Nat} {x : α} (hx : xs[i]? = some x) (p : α → Bool)
    (y : α) : (xs.set i y).countP p + (if p x = true then 1 else 0) =
      xs.countP p + if p y = true then 1 else 0 := by
  induction xs generalizing i with
  | nil => cases hx
  | cons head xs ih =>
    cases i with
    | zero =>
      rw [List.getElem?_cons_zero, Option.some_inj] at hx
      subst hx
      rw [List.set_cons_zero, List.countP_cons, List.countP_cons]
      omega
    | succ i =>
      have := ih hx
      rw [List.set_cons_succ, List.countP_cons, List.countP_cons]
      omega

/-- A predicate comes to hold of one entry. -/
theorem countP_flip {α : Type} [DecidableEq α] {xs : List α} (hn : xs.Nodup) {p q : α → Bool} {x : α}
    (hp : p x = false) (hq : q x = true) (h : ∀ y ∈ xs, y ≠ x → q y = p y) :
    xs.countP q = xs.countP p + if x ∈ xs then 1 else 0 := by
  induction xs with
  | nil => rfl
  | cons y xs ih =>
    obtain ⟨hnew, hrest⟩ := List.nodup_cons.mp hn
    have htail := ih hrest fun z hz => h z (List.mem_cons_of_mem _ hz)
    rw [List.countP_cons, List.countP_cons, htail]
    by_cases hy : y = x
    · subst hy
      rw [if_neg hnew, hp, hq, if_pos List.mem_cons_self]
      simp
    · rw [h y List.mem_cons_self hy]
      have hmem : x ∈ y :: xs ↔ x ∈ xs := by
        rw [List.mem_cons]
        exact ⟨fun hx => hx.resolve_left fun he => hy he.symm, .inr⟩
      simp only [hmem]
      omega

/-- Lists with the same entries are sorted alike. -/
theorem insertionSort_perm {r : α → α → Prop} [DecidableRel r] [Std.Total r] [IsTrans α r] {xs ys : List α}
    (hperm : xs.Perm ys) (hanti : ∀ a ∈ xs, ∀ b ∈ xs, r a b → r b a → a = b) :
    xs.insertionSort r = ys.insertionSort r := by
  apply List.Perm.eq_of_pairwise
  · intro a b ha hb hab hba
    have ha := (List.perm_insertionSort r xs).mem_iff.mp ha
    have hb := hperm.mem_iff.mpr ((List.perm_insertionSort r ys).mem_iff.mp hb)
    exact hanti a ha b hb hab hba
  · exact List.pairwise_insertionSort r xs
  · exact List.pairwise_insertionSort r ys
  · exact (List.perm_insertionSort r xs).trans (hperm.trans (List.perm_insertionSort r ys).symm)

end Opto
