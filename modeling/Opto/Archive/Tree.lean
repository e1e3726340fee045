import Mathlib.Data.List.Count
import Mathlib.Tactic.Common
import Opto.Library.Outcome
import Opto.Archive.Document

/-!
# Validated documents are trees

Children come before their parent and every node but the last has one parent, so there is one way
from the root to each node.
-/

namespace Opto.Archive

section

variable {N : Type} {children : N → List Nat} {nodes rest : List N} {parents parents' : List Nat}

theorem countParent_ok {parent child : Nat} (h : countParent parent parents child = .ok parents') :
    child < parent ∧ parents[child]? = some 0 ∧ parents' = parents.set child 1 := by
  rw [countParent] at h
  split_ifs at h with hchild
  cases hslot : parents[child]? with
  | none => rw [hslot] at h; cases h
  | some slot =>
    rw [hslot] at h
    dsimp only at h
    split_ifs at h with hoverflow hshared
    obtain rfl : slot = 0 := by omega
    exact ⟨Nat.lt_of_not_le hchild, rfl, (Except.ok.inj h).symm⟩

/-- The children of one node are counted. -/
theorem foldlM_countParent {parent : Nat} {cs : List Nat}
    (h : cs.foldlM (countParent parent) parents = .ok parents') :
    (∀ c ∈ cs, c < parent) ∧ ∀ i : Nat, parents'[i]? = parents[i]?.map (· + cs.count i) := by
  induction cs generalizing parents with
  | nil =>
    obtain rfl := Except.ok.inj h
    exact ⟨List.forall_mem_nil _, fun i => by simp⟩
  | cons c cs ih =>
    rw [List.foldlM_cons] at h
    cases hfirst : countParent parent parents c with
    | error e => rw [hfirst] at h; cases h
    | ok counted =>
      rw [hfirst] at h
      obtain ⟨hlt, hslot, rfl⟩ := countParent_ok hfirst
      obtain ⟨hcs, hcounts⟩ := ih h
      refine ⟨List.forall_mem_cons.mpr ⟨hlt, hcs⟩, fun i => ?_⟩
      rw [hcounts i, List.getElem?_set, List.count_cons]
      split_ifs with heq hlength hbeq
      · subst heq
        rw [hslot]
        simp [Nat.add_comm]
      · simp_all
      · simp_all
      · simp_all
      · simp_all
      · simp

/-- The children of the nodes from an index on are counted, and come before their parents. -/
theorem countParents_ok {index : Nat} (h : countParents children index rest parents = .ok parents') :
    (∀ k node, rest[k]? = some node → ∀ c ∈ children node, c < index + k) ∧
      ∀ i : Nat, parents'[i]? = parents[i]?.map (· + (rest.flatMap children).count i) := by
  induction rest generalizing index parents with
  | nil =>
    obtain rfl := Except.ok.inj h
    exact ⟨fun k node hk => by simp at hk, fun i => by simp⟩
  | cons node rest ih =>
    rw [countParents] at h
    cases hfirst : (children node).foldlM (countParent index) parents with
    | error e => rw [hfirst] at h; cases h
    | ok counted =>
      rw [hfirst] at h
      obtain ⟨hearlier, hcounts⟩ := foldlM_countParent hfirst
      obtain ⟨hrest, hall⟩ := ih h
      refine ⟨fun k other hk c hc => ?_, fun i => ?_⟩
      · cases k with
        | zero =>
          obtain rfl := Option.some.inj hk
          exact hearlier c hc
        | succ k =>
          have hlt := hrest k other hk c hc
          omega
      · rw [hall, hcounts, List.flatMap_cons, List.count_append, Option.map_map]
        congr 1
        funext x
        exact Nat.add_assoc _ _ _

/-- Children come earlier, each node but the last is the child of one, and the last of none. -/
structure PostOrder (children : N → List Nat) (nodes : List N) : Prop where
  nonempty : 0 < nodes.length
  earlier : ∀ i node, nodes[i]? = some node → ∀ c ∈ children node, c < i
  count : ∀ i, i + 1 < nodes.length → (nodes.flatMap children).count i = 1

theorem checkRoot_ok {root : Nat} (h : checkRoot root parents = .ok ()) :
    ∀ i < root, ∀ slot, parents[i]? = some slot → slot = 1 := by
  rw [checkRoot] at h
  split_ifs at h with hroot
  intro i hi slot hslot
  by_contra hne
  have hmem : slot ∈ parents.take root := List.mem_of_getElem? (i := i) (by rw [List.getElem?_take, if_pos hi, hslot])
  exact hroot (.inr (List.any_eq_true.mpr ⟨slot, hmem, decide_eq_true hne⟩))

theorem checkNodes_ok {root : Nat} (h : checkNodes children root nodes = .ok ()) :
    PostOrder children nodes ∧ root + 1 = nodes.length ∧
      checkDepth children nodes (MAX_NESTING_DEPTH + 1) root = .ok () := by
  rw [checkNodes] at h
  split_ifs at h with hroot
  obtain ⟨parents, hcounted, h⟩ := bind_eq_ok h
  obtain ⟨u, hchecked, hdepth⟩ := bind_eq_ok h
  obtain ⟨hearlier, hcounts⟩ := countParents_ok hcounted
  refine ⟨⟨by omega, fun i node hi c hc => ?_, fun i hi => ?_⟩, by omega, hdepth⟩
  · have hlt := hearlier i node hi c hc
    omega
  · have hslot := hcounts i
    rw [List.getElem?_replicate, if_pos (by omega), Option.map_some, Nat.zero_add] at hslot
    exact checkRoot_ok hchecked i (by omega) _ hslot

/-! One way to every node. -/

def childrenAt (children : N → List Nat) (nodes : List N) (node : Nat) : List Nat :=
  (nodes[node]?.map children).getD []

/-- The node that the child positions lead to. -/
def follow (children : N → List Nat) (nodes : List N) : List Nat → Nat → Option Nat
  | [], node => some node
  | k :: path, node => ((childrenAt children nodes node)[k]?).bind (follow children nodes path)

/-- From the root, which is the last node, there is exactly one way to each node. -/
def OneTree (children : N → List Nat) (nodes : List N) (root : Nat) : Prop :=
  root + 1 = nodes.length ∧ ∀ i < nodes.length, ∃! path, follow children nodes path root = some i

theorem follow_append (path : List Nat) (k node : Nat) : follow children nodes (path ++ [k]) node =
    (follow children nodes path node).bind fun p => (childrenAt children nodes p)[k]? := by
  induction path generalizing node with
  | nil => 
    simp only [List.nil_append, follow, Option.bind_some]
    cases (childrenAt children nodes node)[k]? <;> rfl
  | cons j path ih =>
    rw [List.cons_append, follow, follow, Option.bind_assoc]
    congr 1
    funext next
    exact ih next

/-- A value that is counted once is at one place. -/
theorem eq_of_count_le_one {α : Type} [DecidableEq α] {xs : List α} {a : α} (h : xs.count a ≤ 1) {j k : Nat}
    (hj : xs[j]? = some a) (hk : xs[k]? = some a) : j = k := by
  induction xs generalizing j k with
  | nil => simp at hj
  | cons x xs ih =>
    have hmem : ∀ i, xs[i]? = some a → 0 < xs.count a := fun i hi => List.count_pos_iff.mpr (List.mem_of_getElem? hi)
    rw [List.count_cons] at h
    cases j with
    | zero =>
      obtain rfl := Option.some.inj hj
      cases k with
      | zero => rfl
      | succ k =>
        have hpos := hmem k hk
        rw [if_pos (beq_self_eq_true x)] at h
        omega
    | succ j =>
      cases k with
      | zero =>
        obtain rfl := Option.some.inj hk
        have hpos := hmem j hj
        rw [if_pos (beq_self_eq_true x)] at h
        omega
      | succ k => exact congrArg Nat.succ (ih (by omega) hj hk)

/-- A child that is counted once among all nodes has one parent and one place there. -/
theorem parent_unique {c p q j k : Nat} {x y : N} (h : (nodes.flatMap children).count c ≤ 1)
    (hp : nodes[p]? = some x) (hj : (children x)[j]? = some c) (hq : nodes[q]? = some y)
    (hk : (children y)[k]? = some c) : p = q ∧ j = k := by
  induction nodes generalizing p q with
  | nil => simp at hp
  | cons node nodes ih =>
    have hmem : ∀ i z l, nodes[i]? = some z → (children z)[l]? = some c → 0 < (nodes.flatMap children).count c :=
      fun i z l hi hl => List.count_pos_iff.mpr
        (List.mem_flatMap.mpr ⟨z, List.mem_of_getElem? hi, List.mem_of_getElem? hl⟩)
    rw [List.flatMap_cons, List.count_append] at h
    cases p with
    | zero =>
      obtain rfl := Option.some.inj hp
      have hpos : 0 < (children node).count c := List.count_pos_iff.mpr (List.mem_of_getElem? hj)
      cases q with
      | zero =>
        obtain rfl := Option.some.inj hq
        exact ⟨rfl, eq_of_count_le_one (by omega) hj hk⟩
      | succ q =>
        have hrest := hmem q y k hq hk
        omega
    | succ p =>
      cases q with
      | zero =>
        obtain rfl := Option.some.inj hq
        have hpos : 0 < (children node).count c := List.count_pos_iff.mpr (List.mem_of_getElem? hk)
        have hrest := hmem p x j hp hj
        omega
      | succ q =>
        obtain ⟨rfl, rfl⟩ := ih (by omega) hp hq
        exact ⟨rfl, rfl⟩

theorem childrenAt_eq_some {p k c : Nat} (h : (childrenAt children nodes p)[k]? = some c) :
    ∃ x, nodes[p]? = some x ∧ (children x)[k]? = some c := by
  rw [childrenAt] at h
  cases hp : nodes[p]? with
  | none => rw [hp] at h; simp at h
  | some x => rw [hp] at h; exact ⟨x, rfl, h⟩

namespace PostOrder

theorem follow_le (h : PostOrder children nodes) {path : List Nat} {node i : Nat}
    (hfollow : follow children nodes path node = some i) : i ≤ node := by
  induction path generalizing node with
  | nil => exact Nat.le_of_eq (Option.some.inj hfollow).symm
  | cons k path ih =>
    rw [follow] at hfollow
    obtain ⟨next, hnext, hrest⟩ := Option.bind_eq_some_iff.mp hfollow
    obtain ⟨x, hx, hk⟩ := childrenAt_eq_some hnext
    have hlt := h.earlier node x hx next (List.mem_of_getElem? hk)
    have hle := ih hrest
    omega

theorem oneTree (h : PostOrder children nodes) {root : Nat} (hroot : root + 1 = nodes.length) :
    OneTree children nodes root := by
  refine ⟨hroot, ?_⟩
  intro i hi
  induction hn : nodes.length - i using Nat.strongRecOn generalizing i with
  | _ n ih =>
    by_cases hlast : i = root
    · subst hlast
      refine ⟨[], rfl, fun path hpath => ?_⟩
      rcases List.eq_nil_or_concat path with rfl | ⟨path, k, rfl⟩
      · rfl
      · rw [List.concat_eq_append, follow_append] at hpath
        obtain ⟨p, hp, hk⟩ := Option.bind_eq_some_iff.mp hpath
        obtain ⟨x, hx, hk⟩ := childrenAt_eq_some hk
        have hlt := h.earlier p x hx i (List.mem_of_getElem? hk)
        have hle := h.follow_le hp
        omega
    · have hcount := h.count i (by omega)
      obtain ⟨x, hx, hmem⟩ := List.mem_flatMap.mp (List.count_pos_iff.mp (hcount ▸ Nat.one_pos))
      obtain ⟨p, hp⟩ := List.mem_iff_getElem?.mp hx
      obtain ⟨k, hk⟩ := List.mem_iff_getElem?.mp hmem
      have hlt := h.earlier p x hp i hmem
      have hbound := (List.getElem?_eq_some_iff.mp hp).1
      obtain ⟨path, hpath, hunique⟩ := ih _ (by omega) p hbound rfl
      refine ⟨path ++ [k], ?_, fun other hother => ?_⟩
      · dsimp only
        rw [follow_append, hpath, Option.bind_some, childrenAt, hp]
        exact hk
      · rcases List.eq_nil_or_concat other with rfl | ⟨other, l, rfl⟩
        · exact absurd (Option.some.inj hother).symm hlast
        · rw [List.concat_eq_append] at hother ⊢
          rw [follow_append] at hother
          obtain ⟨q, hq, hl⟩ := Option.bind_eq_some_iff.mp hother
          obtain ⟨y, hy, hl⟩ := childrenAt_eq_some hl
          obtain ⟨rfl, rfl⟩ := parent_unique (Nat.le_of_eq hcount) hp hk hy hl
          rw [hunique other hq]

end PostOrder

end

end Opto.Archive
