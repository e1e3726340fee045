import Mathlib.Algebra.GroupWithZero.Nat
import Mathlib.Algebra.Order.BigOperators.Group.List
import Mathlib.Algebra.Order.Group.Nat
import Mathlib.Data.List.Basic
import Opto.Library.Outcome

/-!
# Work stacks

A loop that pops the top entry of a stack, updates a state and pushes further
entries, until the stack is empty. The step may fail, and fuel bounds the number
of steps. A cost of the state and the stack that every step lowers bounds the
fuel, and an invariant of them is kept to the end.
-/

namespace Opto.Worklist

variable {σ α : Type} (step : σ → α → Option (σ × List α))

/-- The head of the list is the top of the stack. -/
def drain : Nat → σ → List α → Option σ
  | _, s, [] => some s
  | 0, _, _ :: _ => none
  | fuel + 1, s, x :: pending => do
    let (s, pushed) ← step s x
    drain fuel s (pushed ++ pending)

variable {step}

theorem drain_ok (invariant : σ → List α → Prop) (cost : σ → List α → Nat)
    (hstep : ∀ s x pending, invariant s (x :: pending) → ∃ s' pushed,
      step s x = some (s', pushed) ∧ invariant s' (pushed ++ pending) ∧
        cost s' (pushed ++ pending) < cost s (x :: pending))
    {fuel : Nat} {s : σ} {pending : List α} (hi : invariant s pending)
    (hfuel : cost s pending ≤ fuel) :
    ∃ s', drain step fuel s pending = some s' ∧ invariant s' [] := by
  induction fuel generalizing s pending with
  | zero =>
    cases pending with
    | nil => exact ⟨s, rfl, hi⟩
    | cons x pending =>
      obtain ⟨s', pushed, -, -, hcost⟩ := hstep s x pending hi
      omega
  | succ fuel ih =>
    cases pending with
    | nil => exact ⟨s, rfl, hi⟩
    | cons x pending =>
      obtain ⟨s', pushed, hs, hi', hcost⟩ := hstep s x pending hi
      obtain ⟨t, ht, hit⟩ := ih hi' (by omega)
      exact ⟨t, by simp only [drain, hs, Option.bind_eq_bind, Option.bind_some, ht], hit⟩

/-- The cost of a stack may be summed over its entries. -/
theorem drain_entries (invariant : σ → List α → Prop) (cost : α → Nat)
    (hstep : ∀ s x pending, invariant s (x :: pending) → ∃ s' pushed,
      step s x = some (s', pushed) ∧ invariant s' (pushed ++ pending) ∧
        (pushed.map cost).sum < cost x)
    {fuel : Nat} {s : σ} {pending : List α} (hi : invariant s pending)
    (hfuel : (pending.map cost).sum ≤ fuel) :
    ∃ s', drain step fuel s pending = some s' ∧ invariant s' [] := by
  apply drain_ok invariant (fun _ pending => (pending.map cost).sum) ?_ hi hfuel
  intro s x pending h
  obtain ⟨s', pushed, hs, hi', hcost⟩ := hstep s x pending h
  refine ⟨s', pushed, hs, hi', ?_⟩
  rw [List.map_append, List.sum_append, List.map_cons, List.sum_cons]
  omega

/-- What every step keeps of the state, the whole loop keeps. -/
theorem drain_keeps {kept : σ → Prop}
    (hstep : ∀ s x s' pushed, kept s → step s x = some (s', pushed) → kept s')
    {fuel : Nat} {s t : σ} {pending : List α} (hs : kept s)
    (h : drain step fuel s pending = some t) : kept t := by
  induction fuel generalizing s pending with
  | zero =>
    cases pending with
    | nil => cases h; exact hs
    | cons x pending => cases h
  | succ fuel ih =>
    cases pending with
    | nil => cases h; exact hs
    | cons x pending =>
      simp only [drain, Option.bind_eq_bind] at h
      obtain ⟨⟨s', pushed⟩, hx, h⟩ := Option.bind_eq_some_iff.mp h
      exact ih (hstep s x s' pushed hs hx) h

/-- A cost summed over all nodes drops when the cost of one node does. -/
theorem sum_map_add_le {xs : List α} {f g : α → Nat} (hle : ∀ x ∈ xs, g x ≤ f x) {x : α} {k : Nat}
    (hx : x ∈ xs) (hk : g x + k ≤ f x) : (xs.map g).sum + k ≤ (xs.map f).sum := by
  induction xs with
  | nil => cases hx
  | cons y xs ih =>
    have hy := hle y List.mem_cons_self
    have hrest (z : α) (hz : z ∈ xs) : g z ≤ f z := hle z (List.mem_cons_of_mem _ hz)
    simp only [List.map_cons, List.sum_cons]
    rcases List.mem_cons.mp hx with rfl | hx
    · have := List.sum_le_sum hrest
      omega
    · have := ih hrest hx
      omega

/-! A loop that keeps its state when a step fails. -/

section Drive

variable (step : σ → α → σ × Option (List α))

/-- Whether the loop ended with an empty stack comes with the last state. -/
def drive : Nat → σ → List α → σ × Bool
  | _, s, [] => (s, true)
  | 0, s, _ :: _ => (s, false)
  | fuel + 1, s, x :: pending =>
    match step s x with
    | (s, some pushed) => drive fuel s (pushed ++ pending)
    | (s, none) => (s, false)

variable {step}

theorem drive_of_drain {fuel : Nat} {s t : σ} {pending : List α}
    (h : drain (fun s x => (step s x).2.map fun pushed => ((step s x).1, pushed)) fuel s pending =
      some t) : drive step fuel s pending = (t, true) := by
  induction fuel generalizing s pending with
  | zero =>
    cases pending with
    | nil => cases h; rfl
    | cons x pending => cases h
  | succ fuel ih =>
    cases pending with
    | nil => cases h; rfl
    | cons x pending =>
      simp only [drain, Option.bind_eq_bind] at h
      obtain ⟨⟨s', pushed⟩, hx, h⟩ := Option.bind_eq_some_iff.mp h
      obtain ⟨pushed', hpushed, he⟩ := Option.map_eq_some_iff.mp hx
      cases he
      have hstep : step s x = ((step s x).1, some pushed) := Prod.ext rfl hpushed
      rw [drive, hstep]
      exact ih h

theorem drive_ok (invariant : σ → List α → Prop) (cost : σ → List α → Nat)
    (hstep : ∀ s x pending, invariant s (x :: pending) → ∃ s' pushed,
      step s x = (s', some pushed) ∧ invariant s' (pushed ++ pending) ∧
        cost s' (pushed ++ pending) < cost s (x :: pending))
    {fuel : Nat} {s : σ} {pending : List α} (hi : invariant s pending)
    (hfuel : cost s pending ≤ fuel) :
    ∃ s', drive step fuel s pending = (s', true) ∧ invariant s' [] := by
  have hdrain (s : σ) (x : α) (pending : List α) (h : invariant s (x :: pending)) :
      ∃ s' pushed, ((step s x).2.map fun pushed => ((step s x).1, pushed)) = some (s', pushed) ∧
        invariant s' (pushed ++ pending) ∧ cost s' (pushed ++ pending) < cost s (x :: pending) := by
    obtain ⟨s', pushed, hs, hi', hcost⟩ := hstep s x pending h
    exact ⟨s', pushed, by rw [hs]; rfl, hi', hcost⟩
  obtain ⟨t, ht, hit⟩ := drain_ok invariant cost hdrain hi hfuel
  exact ⟨t, drive_of_drain ht, hit⟩

end Drive

/-! A loop whose steps may fail with an error. -/

section Exhaust

variable {ε : Type} (step : σ → α → Except ε (σ × List α)) (spent : ε)

/-- Running out of fuel is an error of its own. -/
def exhaust : Nat → σ → List α → Except ε σ
  | _, s, [] => .ok s
  | 0, _, _ :: _ => .error spent
  | fuel + 1, s, x :: pending => do
    let (s, pushed) ← step s x
    exhaust fuel s (pushed ++ pending)

variable {step spent}

theorem exhaust_settles {E : ε → Prop} (invariant : σ → List α → Prop) (cost : σ → List α → Nat)
    (hstep : ∀ s x pending, invariant s (x :: pending) → Settles (step s x) (fun r =>
      invariant r.1 (r.2 ++ pending) ∧ cost r.1 (r.2 ++ pending) < cost s (x :: pending)) E)
    {fuel : Nat} {s : σ} {pending : List α} (hi : invariant s pending)
    (hfuel : cost s pending < fuel) :
    Settles (exhaust step spent fuel s pending) (fun s => invariant s []) E := by
  induction fuel generalizing s pending with
  | zero => omega
  | succ fuel ih =>
    cases pending with
    | nil => exact hi
    | cons x pending =>
      apply Settles.bind (hstep s x pending hi)
      intro r hr
      exact ih hr.1 (by omega)

end Exhaust

/-! Marking everything that is reachable over a dependency relation. -/

section Mark

variable (deps : Nat → List Nat)

/-- Marks a node and pushes its dependencies, unless it is marked already. -/
def markStep (marked : List Bool) (node : Nat) : Option (List Bool × List Nat) :=
  match marked[node]? with
  | some true => some (marked, [])
  | some false => some (marked.set node true, (deps node).reverse)
  | none => none

/-- Every node is expanded once at most, which bounds the number of pops. -/
def mark (size : Nat) (roots : List Nat) : Option (List Bool) :=
  drain (markStep deps) (roots.length + ((List.range size).map fun i => (deps i).length).sum)
    (List.replicate size false) roots.reverse

structure Marking (size : Nat) (roots : List Nat) (marked : List Bool) (pending : List Nat) :
    Prop where
  length : marked.length = size
  known : ∀ i ∈ pending, i < size
  closed : ∀ i : Nat, marked[i]? = some true →
    ∀ d ∈ deps i, marked[d]? = some true ∨ d ∈ pending
  reached : ∀ r ∈ roots, marked[r]? = some true ∨ r ∈ pending

/-- The pending entries and the dependencies of the nodes still to be expanded. -/
def remaining (size : Nat) (marked : List Bool) (pending : List Nat) : Nat :=
  pending.length + ((List.range size).map fun i =>
    if marked[i]? = some true then 0 else (deps i).length).sum

variable {deps} {size node : Nat} {roots pending : List Nat} {marked : List Bool}

theorem Marking.skip (h : Marking deps size roots marked (node :: pending))
    (hnode : marked[node]? = some true) : Marking deps size roots marked pending where
  length := h.length
  known i hi := h.known i (List.mem_cons_of_mem _ hi)
  closed i hi d hd := (h.closed i hi d hd).elim .inl fun hp =>
    (List.mem_cons.mp hp).elim (fun he => .inl (he ▸ hnode)) .inr
  reached r hr := (h.reached r hr).elim .inl fun hp =>
    (List.mem_cons.mp hp).elim (fun he => .inl (he ▸ hnode)) .inr

theorem Marking.expand (hdeps : ∀ i < size, ∀ d ∈ deps i, d < size)
    (h : Marking deps size roots marked (node :: pending)) :
    Marking deps size roots (marked.set node true) ((deps node).reverse ++ pending) := by
  have hlt : node < marked.length := h.length.symm ▸ h.known node List.mem_cons_self
  have keep (j : Nat) (hj : marked[j]? = some true ∨ j ∈ node :: pending) :
      (marked.set node true)[j]? = some true ∨ j ∈ (deps node).reverse ++ pending := by
    by_cases he : j = node
    · rw [he]; exact .inl (List.getElem?_set_self hlt)
    · rw [List.getElem?_set_ne (Ne.symm he)]
      exact hj.imp_right fun hp => List.mem_append_right _ ((List.mem_cons.mp hp).resolve_left he)
  constructor
  · rw [List.length_set]; exact h.length
  · intro i hi
    rcases List.mem_append.mp hi with hi | hi
    · exact hdeps node (h.known node List.mem_cons_self) i (List.mem_reverse.mp hi)
    · exact h.known i (List.mem_cons_of_mem _ hi)
  · intro i hi d hd
    by_cases he : i = node
    · rw [he] at hd
      exact .inr (List.mem_append_left _ (List.mem_reverse.mpr hd))
    · rw [List.getElem?_set_ne (Ne.symm he)] at hi
      exact keep d (h.closed i hi d hd)
  · exact fun r hr => keep r (h.reached r hr)

theorem sum_set_lt (deps : Nat → List Nat) (size : Nat) (hnode : node < size) (hlt : node < marked.length)
    (hfresh : marked[node]? ≠ some true) :
    ((List.range size).map fun i =>
      if (marked.set node true)[i]? = some true then 0 else (deps i).length).sum +
        (deps node).length = ((List.range size).map fun i =>
      if marked[i]? = some true then 0 else (deps i).length).sum := by
  induction size with
  | zero => omega
  | succ size ih =>
    rw [List.range_succ, List.map_append, List.map_append, List.sum_append, List.sum_append]
    simp only [List.map_cons, List.map_nil, List.sum_cons, List.sum_nil]
    by_cases he : node = size
    · subst he
      have hsame : ((List.range node).map fun i =>
          if (marked.set node true)[i]? = some true then 0 else (deps i).length) =
          (List.range node).map fun i => if marked[i]? = some true then 0 else (deps i).length :=
        List.map_congr_left fun i hi => by
          rw [List.getElem?_set_ne (Nat.ne_of_gt (List.mem_range.mp hi))]
      rw [hsame, List.getElem?_set_self hlt, if_pos rfl, if_neg hfresh]
      omega
    · have := ih (by omega)
      rw [List.getElem?_set_ne he]
      omega

/-- Marking succeeds; the marked nodes contain the roots and are closed. -/
theorem mark_ok (hdeps : ∀ i < size, ∀ d ∈ deps i, d < size) (hroots : ∀ r ∈ roots, r < size) :
    ∃ marked, mark deps size roots = some marked ∧ Marking deps size roots marked [] := by
  have start : Marking deps size roots (List.replicate size false) roots.reverse := by
    constructor
    · exact List.length_replicate
    · exact fun i hi => hroots i (List.mem_reverse.mp hi)
    · intro i hi
      simp [List.getElem?_replicate] at hi
    · exact fun r hr => .inr (List.mem_reverse.mpr hr)
  refine drain_ok _ (remaining deps size) (fun marked node pending h => ?_) start ?_
  · have hknown := h.known node List.mem_cons_self
    have hlt : node < marked.length := h.length.symm ▸ hknown
    by_cases hnode : marked[node]? = some true
    · refine ⟨marked, [], by rw [markStep, hnode], h.skip hnode, ?_⟩
      simp only [remaining, List.nil_append, List.length_cons]
      omega
    · have hfalse : marked[node]? = some false := by
        rw [List.getElem?_eq_getElem hlt] at hnode ⊢
        simpa using hnode
      refine ⟨_, _, by rw [markStep, hfalse], h.expand hdeps, ?_⟩
      have hsum := sum_set_lt deps size hknown hlt hnode
      simp only [remaining, List.length_append, List.length_reverse, List.length_cons]
      omega
  · simp only [remaining, List.length_reverse]
    refine Nat.add_le_add_left (List.sum_le_sum fun i _ => ?_) _
    split_ifs
    · exact Nat.zero_le _
    · exact Nat.le_refl _

end Mark

end Opto.Worklist

/-! Marks that are set one by one, and a cost summed over what is not marked yet. -/

namespace Opto

abbrev Marked (flags : List Bool) (i : Nat) : Prop := flags[i]? = some true

/-- The cost of all entries without a mark. -/
def unmarked (cost : Nat → Nat) (flags : List Bool) : Nat :=
  ((List.range flags.length).map fun i => if flags[i]? = some true then 0 else cost i).sum

variable {flags : List Bool} {i j : Nat}

theorem Marked.lt (h : Marked flags i) : i < flags.length := (List.getElem?_eq_some_iff.mp h).1

theorem Marked.set (h : Marked flags j) (i : Nat) : Marked (flags.set i true) j := by
  by_cases hij : i = j
  · subst hij
    exact List.getElem?_set_self h.lt
  · rwa [Marked, List.getElem?_set_ne hij]

theorem marked_self {b : Bool} (h : flags[i]? = some b) : Marked (flags.set i true) i :=
  List.getElem?_set_self (List.getElem?_eq_some_iff.mp h).1

theorem Marked.of_set (h : Marked (flags.set i true) j) : j = i ∨ Marked flags j := by
  by_cases hij : i = j
  · exact .inl hij.symm
  · rw [Marked, List.getElem?_set_ne hij] at h
    exact .inr h

theorem not_marked_replicate (n : Nat) : ¬Marked (List.replicate n false) i := by
  intro h
  rw [Marked, List.getElem?_replicate] at h
  split_ifs at h
  cases h

/-- A new mark takes its cost off the sum. -/
theorem unmarked_set (cost : Nat → Nat) (h : flags[i]? = some false) :
    unmarked cost (flags.set i true) + cost i = unmarked cost flags := by
  have hlt := (List.getElem?_eq_some_iff.mp h).1
  have hfresh : flags[i]? ≠ some true := by rw [h]; simp
  have hsum := Worklist.sum_set_lt (fun i => List.replicate (cost i) 0) flags.length hlt hlt hfresh
  simpa only [List.length_replicate, unmarked, List.length_set] using hsum

end Opto
