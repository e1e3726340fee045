import Mathlib.Data.List.Basic
import Mathlib.Data.Nat.Init
import Mathlib.Logic.Relation

/-!
# Memoised evaluation over a dependency graph

Each node has a fact, evaluated from the facts of the nodes it reads. A walk also
follows dependencies that are not read, and takes a fact it is still computing for
a blank one. A table of facts that each follow from the table is the one solution
of the equations, if reading is well-founded and only blank facts are read around
a cycle of dependencies. Partial tables that leave out no more than they must agree.
-/

namespace Opto.Memo

structure System (ν φ : Type) where
  deps : ν → List ν
  reads : ν → List ν
  blank : ν → φ
  eval : (ν → φ) → ν → φ
  reads_subset : ∀ n, reads n ⊆ deps n
  eval_congr : ∀ f g n, (∀ d ∈ reads n, f d = g d) → eval f n = eval g n

namespace System

variable {ν φ : Type} (S : System ν φ)

def Reaches : ν → ν → Prop := Relation.ReflTransGen fun n d => d ∈ S.deps n

/-- `d` is read by `n` around a cycle. -/
def Circular (n d : ν) : Prop := d ∈ S.reads n ∧ S.Reaches d n

structure Settles (rank : ν → Nat) (ideal : ν → φ) : Prop where
  ranked : ∀ n, ∀ d ∈ S.reads n, rank d < rank n
  solves : ∀ n, S.eval ideal n = ideal n
  blank_around : ∀ n d, S.Circular n d → ideal d = S.blank d

/-- The fact `v` of `n` follows from those in the table. -/
def Supported (table : ν → Option φ) (n : ν) (v : φ) : Prop :=
  ∃ facts, S.eval facts n = v ∧ ∀ d ∈ S.reads n,
    table d = some (facts d) ∨ (S.Circular n d ∧ facts d = S.blank d)

variable {S} {rank : ν → Nat} {ideal : ν → φ} {table table' : ν → Option φ} {n : ν} {v : φ}

theorem Settles.ideal_of_supported (h : S.Settles rank ideal)
    (ht : ∀ d ∈ S.reads n, ∀ w, table d = some w → w = ideal d) (hv : S.Supported table n v) :
    v = ideal n := by
  obtain ⟨facts, rfl, hfacts⟩ := hv
  rw [← h.solves n]
  apply S.eval_congr
  intro d hd
  rcases hfacts d hd with ht' | ⟨hc, hb⟩
  · exact ht d hd _ ht'
  · rw [hb, h.blank_around n d hc]

theorem Settles.eq_ideal (h : S.Settles rank ideal)
    (ht : ∀ n v, table n = some v → S.Supported table n v) (n : ν) (v : φ)
    (hv : table n = some v) : v = ideal n := by
  induction hr : rank n using Nat.strongRecOn generalizing n v with
  | _ r ih =>
    apply h.ideal_of_supported (fun d hd w hw => ?_) (ht n v hv)
    exact ih (rank d) (hr ▸ h.ranked n d hd) d w hw rfl

theorem Supported.mono (h : S.Supported table n v)
    (hread : ∀ d ∈ S.reads n, ∀ w, table d = some w → table' d = some w) :
    S.Supported table' n v := by
  obtain ⟨facts, hv, hfacts⟩ := h
  exact ⟨facts, hv, fun d hd => (hfacts d hd).imp_left (hread d hd _)⟩

theorem Settles.supported (h : S.Settles rank ideal)
    (ht : ∀ d ∈ S.reads n, table d = some (ideal d)) : S.Supported table n (ideal n) :=
  ⟨ideal, h.solves n, fun d hd => .inl (ht d hd)⟩

theorem Settles.of_acyclic (hranked : ∀ n, ∀ d ∈ S.deps n, rank d < rank n)
    (hsolves : ∀ n, S.eval ideal n = ideal n) : S.Settles rank ideal := by
  refine ⟨fun n d hd => hranked n d (S.reads_subset n hd), hsolves, fun n d hc => ?_⟩
  have hle (a b : ν) (h : S.Reaches a b) : rank b ≤ rank a := by
    induction h with
    | refl => exact Nat.le_refl _
    | tail _ hd ih => exact Nat.le_trans (Nat.le_of_lt (hranked _ _ hd)) ih
  have hlt := hranked n d (S.reads_subset n hc.1)
  exact absurd (hle d n hc.2) (by omega)

/-! Stacks of a depth-first walk: entered nodes are marked, and stay until they are left. -/

def parent : List (ν × Bool) → Option ν
  | [] => none
  | (n, true) :: _ => some n
  | (_, false) :: rest => parent rest

variable (S) in
/-- Every entry is a dependency of the entered node below it. -/
def Linked : List (ν × Bool) → Prop
  | [] => True
  | (n, _) :: rest => (∀ p, parent rest = some p → n ∈ S.deps p) ∧ Linked rest

variable {rest : List (ν × Bool)} {b : Bool} {m : ν}

theorem reaches_of_linked (hn : ∀ p, parent rest = some p → n ∈ S.deps p) (h : S.Linked rest)
    (hm : (m, true) ∈ rest) : S.Reaches m n := by
  induction rest generalizing n with
  | nil => cases hm
  | cons top rest ih =>
    obtain ⟨x, entered⟩ := top
    cases entered with
    | false =>
      have hm' : (m, true) ∈ rest := by simpa using hm
      exact ih hn h.2 hm'
    | true =>
      have hx : n ∈ S.deps x := hn x rfl
      rcases List.mem_cons.mp hm with he | hm
      · cases he
        exact .single hx
      · exact (ih h.1 h.2 hm).tail hx

theorem Linked.reaches (h : S.Linked ((n, b) :: rest)) (hm : (m, true) ∈ rest) : S.Reaches m n :=
  reaches_of_linked h.1 h.2 hm

theorem Linked.push (h : S.Linked ((n, b) :: rest)) {ds : List ν} (hds : ds ⊆ S.deps n) :
    S.Linked (ds.map (·, false) ++ (n, true) :: rest) := by
  induction ds with
  | nil => exact h
  | cons d ds ih =>
    have hparent : parent (ds.map (·, false) ++ (n, true) :: rest) = some n := by
      clear ih hds
      induction ds with
      | nil => rfl
      | cons d ds ih => exact ih
    refine ⟨fun p hp => ?_, ih (List.subset_of_cons_subset hds)⟩
    cases hparent.symm.trans hp
    exact hds List.mem_cons_self

end System

/-! Partial solutions: some nodes are wanted, and a value that is not good keeps the nodes that
depend on it unsolved. -/

section Partial

variable {ν φ : Type} (deps : ν → List ν) (wanted : ν → Prop) (good : φ → Prop)
  (explains : (ν → Option φ) → ν → φ → Prop)

structure Complete (table : ν → Option φ) : Prop where
  explained : ∀ n v, table n = some v →
    wanted n ∧ (∀ d ∈ deps n, wanted d → ∃ w, table d = some w ∧ good w) ∧ explains table n v
  maximal : ∀ n, wanted n → table n = none → ∃ d ∈ deps n, wanted d ∧ ∀ w, table d = some w → ¬good w

variable {deps wanted good explains} {rank : ν → Nat} {table table' : ν → Option φ}

theorem Complete.none_of_none (h : Complete deps wanted good explains table)
    (h' : Complete deps wanted good explains table') {n : ν} (hdeps : ∀ d ∈ deps n, table d = table' d)
    (hn : table n = none) : table' n = none := by
  by_contra hsome
  obtain ⟨v, hv⟩ := Option.ne_none_iff_exists'.mp hsome
  obtain ⟨hwanted, hready, -⟩ := h'.explained n v hv
  obtain ⟨d, hd, hdwanted, hbad⟩ := h.maximal n hwanted hn
  obtain ⟨w, hw, hgood⟩ := hready d hd hdwanted
  exact hbad w ((hdeps d hd).trans hw) hgood

/-- There is one partial solution that leaves out no more than it must. -/
theorem Complete.unique (hrank : ∀ n, ∀ d ∈ deps n, rank d < rank n)
    (hexplains : ∀ table table' n v v', (∀ d ∈ deps n, table d = table' d) →
      explains table n v → explains table' n v' → v = v')
    (h : Complete deps wanted good explains table) (h' : Complete deps wanted good explains table') (n : ν) :
    table n = table' n := by
  induction hr : rank n using Nat.strongRecOn generalizing n with
  | ind r ih =>
    have hdeps : ∀ d ∈ deps n, table d = table' d := fun d hd => ih (rank d) (hr ▸ hrank n d hd) d rfl
    cases hn : table n with
    | none => exact (h.none_of_none h' hdeps hn).symm
    | some v =>
      cases hn' : table' n with
      | none =>
        rw [h'.none_of_none h (fun d hd => (hdeps d hd).symm) hn'] at hn
        cases hn
      | some v' =>
        have hv := (h.explained n v hn).2.2
        have hv' := (h'.explained n v' hn').2.2
        rw [hexplains table table' n v v' hdeps hv hv']

/-- Where all values are good, every wanted node is solved. -/
theorem Complete.total (hrank : ∀ n, ∀ d ∈ deps n, rank d < rank n) (h : Complete deps wanted good explains table)
    (hgood : ∀ n v, table n = some v → good v) {n : ν} (hn : wanted n) : ∃ v, table n = some v := by
  induction hr : rank n using Nat.strongRecOn generalizing n with
  | ind r ih =>
    by_contra hnone
    have hnone : table n = none := Option.eq_none_iff_forall_ne_some.mpr fun v hv => hnone ⟨v, hv⟩
    obtain ⟨d, hd, hwanted, hbad⟩ := h.maximal n hn hnone
    obtain ⟨w, hw⟩ := ih (rank d) (hr ▸ hrank n d hd) hwanted rfl
    exact hbad w hw (hgood d w hw)

end Partial

end Opto.Memo
