import Opto.Library.Lists
import Opto.Runtime.Worklist

/-!
# Scheduling

The counts of a worklist are right and its ready items are those that wait for nothing,
whatever was scheduled, claimed and finished. There is always a ready or a running item
while an item is open, so a run of claims and completions in any order goes on to its end.
-/

namespace Opto.Runtime.DependencyWorklist

open Mapped (U32_MAX)

def enabledDependencies (w : DependencyWorklist) (item : Nat) : List Nat :=
  (w.dependencies item).filter (w.dependencyIsEnabled item)

structure Valid (w : DependencyWorklist) : Prop where
  sealedPlan : w.plan.Sealed
  length : w.state.length = w.plan.itemCount
  unresolvedLength : w.unresolved.length = w.plan.itemCount
  unresolved : ∀ i, w.stateOf i = .pending → w.unresolvedOf i = w.waits i
  ready : ∀ key, key ∈ w.ready ↔ ∃ i, key = w.readyKey i ∧ w.stateOf i = .pending ∧ w.waits i = 0
  readyNodup : w.ready.Nodup
  pending : w.pending = w.state.countP ItemState.isOpen
  running : w.running = w.state.count .running

variable {w w' : DependencyWorklist} {item : Nat}

theorem waits_eq (w : DependencyWorklist) (item : Nat) :
    w.waits item = (w.enabledDependencies item).countP fun d => (w.stateOf d).isOpen := by
  rw [waits, enabledDependencies, List.countP_filter]
  simp only [Bool.and_comm]

theorem mem_enabledDependencies {d : Nat} : d ∈ w.enabledDependencies item ↔
    d ∈ w.dependencies item ∧ w.dependencyIsEnabled item d = true := List.mem_filter

namespace Valid

theorem enabled_nodup (h : w.Valid) (item : Nat) : (w.enabledDependencies item).Nodup :=
  (h.sealedPlan.nodup w.direction item).filter _

theorem irreflexive (h : w.Valid) (item : Nat) : item ∉ w.dependencies item := fun hmem =>
  Nat.lt_irrefl _ (h.sealedPlan.ordered w.direction item item hmem)

/-- A touched dependent is a pending item with the enabled dependency. -/
theorem touches_iff (h : w.Valid) (item dependent : Nat) : w.Touches item (w.dependents item) dependent ↔
    item ∈ w.enabledDependencies dependent ∧ w.stateOf dependent = .pending := by
  rw [Touches, mem_enabledDependencies, and_assoc]
  exact and_congr_left' (h.sealedPlan.dependents_iff w.direction dependent item)

end Valid

/-- An item becomes open. -/
theorem waits_opened (hnodup : ∀ j, (w.enabledDependencies j).Nodup)
    (hsame : ∀ j, w'.enabledDependencies j = w.enabledDependencies j)
    (hclosed : (w.stateOf item).isOpen = false) (hopen : (w'.stateOf item).isOpen = true)
    (hother : ∀ j, j ≠ item → w'.stateOf j = w.stateOf j) (j : Nat) :
    w'.waits j = w.waits j + if item ∈ w.enabledDependencies j then 1 else 0 := by
  rw [waits_eq, waits_eq, hsame]
  apply countP_flip (hnodup j) hclosed hopen
  intro d _ hd
  rw [hother d hd]

theorem waits_congr (hsame : ∀ j, w'.enabledDependencies j = w.enabledDependencies j)
    (hopen : ∀ j, (w'.stateOf j).isOpen = (w.stateOf j).isOpen) (j : Nat) : w'.waits j = w.waits j := by
  rw [waits_eq, waits_eq, hsame]
  congr 1
  funext d
  exact hopen d

theorem getD_set {state : List ItemState} {i : Nat} (hi : i < state.length) (s : ItemState) (j : Nat) :
    (state.set i s)[j]?.getD .absent = if j = i then s else state[j]?.getD .absent := by
  split_ifs with hj
  · rw [hj, List.getElem?_set_self hi]
    rfl
  · rw [List.getElem?_set_ne fun he => hj he.symm]

theorem getElem?_stateOf (hi : item < w.state.length) : w.state[item]? = some (w.stateOf item) := by
  rw [stateOf, List.getElem?_eq_getElem hi]
  rfl

/-! Scheduling. -/

/-- The scheduled items are pending, and nothing was claimed. -/
structure Building (w : DependencyWorklist) (plan : DependencyPlan) (direction : DependencyDirection)
    (disabled : List (Nat × Nat)) (scheduled : List Nat) : Prop extends w.Valid where
  plan_eq : w.plan = plan
  direction_eq : w.direction = direction
  disabled_eq : w.disabledDependencies = disabled
  state_eq : ∀ i, w.stateOf i = if i ∈ scheduled then .pending else .absent

theorem Building.scheduled {plan : DependencyPlan} {direction : DependencyDirection}
    {disabled : List (Nat × Nat)} {scheduled : List Nat}
    (h : w.Building plan direction disabled scheduled) (hitem : item < w.state.length)
    (habsent : w.stateOf item = .absent) :
    let opened := { w with state := w.state.set item .pending, pending := w.pending + 1 }
    let counted := { opened with unresolved := opened.unresolved.set item (opened.waits item) }
    Settles (do
      let w ← (counted.dependents item).foldlM (hold item) counted
      return (true, if w.unresolvedOf item = 0
        then { w with ready := insertKey (w.readyKey item) w.ready } else w))
      (fun r => r.2.Building plan direction disabled (scheduled ++ [item])) fun _ => True := by
  intro opened counted
  have hunresolved : counted.unresolved.length = counted.state.length := by
    rw [List.length_set, List.length_set, h.unresolvedLength, h.length]
  have hstate (j : Nat) : counted.stateOf j = if j = item then .pending else w.stateOf j :=
    getD_set hitem .pending j
  have hwaits (j : Nat) : counted.waits j =
      w.waits j + if item ∈ w.enabledDependencies j then 1 else 0 := by
    apply @waits_opened w counted item h.enabled_nodup (fun _ => rfl) (by rw [habsent]; rfl)
    · rw [hstate, if_pos rfl]
      rfl
    · intro j hj
      rw [hstate, if_neg hj]
  have hcount (j : Nat) : counted.unresolvedOf j =
      if j = item then counted.waits item else w.unresolvedOf j :=
    unresolvedOf_set w.ready (by rw [h.unresolvedLength, ← h.length]; exact hitem) j
  have hpending {j : Nat} (hj : w.stateOf j = .pending) : j ≠ item := by
    rintro rfl
    rw [habsent] at hj
    cases hj
  have hready (j : Nat) (hj : counted.readyKey j ∈ counted.ready) : counted.unresolvedOf j = 0 := by
    obtain ⟨i, hkey, hi, hzero⟩ := (h.ready _).mp hj
    obtain rfl : j = i := congrArg Prod.snd hkey
    rw [hcount, if_neg (hpending hi), h.unresolved j hi, hzero]
  have htouches (j : Nat) : counted.Touches item (counted.dependents item) j ↔
      item ∈ w.enabledDependencies j ∧ w.stateOf j = .pending := by
    have hold := h.toValid.touches_iff item j
    rw [← hold, Touches, Touches, hstate]
    by_cases hj : j = item
    · subst hj
      refine ⟨fun ht => ?_, fun ht => absurd rfl (hpending ht.2.2)⟩
      exact absurd ((h.sealedPlan.dependents_iff w.direction j j).mp ht.1) (h.irreflexive j)
    · rw [if_neg hj]
      rfl
  apply Settles.bind (hold_settles hunresolved hready h.readyNodup item _
    (h.sealedPlan.nodup_dependents w.direction item))
  rintro _ ⟨unresolved, ready, rfl, hlength, hnodup, hcounts, hkeys⟩
  have hunder (j : Nat) (hj : counted.stateOf j = .pending) :
      unresolvedOf { counted with unresolved, ready } j = counted.waits j := by
    rw [hcounts, hcount]
    by_cases he : j = item
    · rw [if_pos he, if_neg, he]
      · rfl
      · exact fun ht => hpending ((htouches j).mp ht).2 he
    · rw [hstate, if_neg he] at hj
      rw [if_neg he, h.unresolved j hj, hwaits]
      congr 1
      exact if_congr ((htouches j).trans (and_iff_left hj)) rfl rfl
  have hready (key : Nat × Nat) : key ∈ ready ↔ ∃ j, key = counted.readyKey j ∧
      counted.stateOf j = .pending ∧ counted.waits j = 0 ∧ j ≠ item := by
    rw [hkeys]
    constructor
    · rintro ⟨hmem, huntouched⟩
      obtain ⟨j, rfl, hj, hzero⟩ := (h.ready key).mp hmem
      have hne := hpending hj
      refine ⟨j, rfl, by rw [hstate, if_neg hne, hj], ?_, hne⟩
      rw [hwaits, hzero, if_neg]
      exact fun hmem => huntouched j ((htouches j).mpr ⟨hmem, hj⟩) rfl
    · rintro ⟨j, rfl, hj, hzero, hne⟩
      rw [hstate, if_neg hne] at hj
      rw [hwaits] at hzero
      refine ⟨(h.ready _).mpr ⟨j, rfl, hj, by omega⟩, fun k hk he => ?_⟩
      obtain rfl : j = k := congrArg Prod.snd he
      rw [if_pos ((htouches j).mp hk).1] at hzero
      omega
  have hfinal (ready' : List (Nat × Nat)) (hnodup' : ready'.Nodup)
      (hkeys' : ∀ key, key ∈ ready' ↔ key ∈ ready ∨ key = counted.readyKey item ∧
        counted.waits item = 0) : Building { counted with unresolved, ready := ready' } plan direction
          disabled (scheduled ++ [item]) := by
    have hself : counted.stateOf item = .pending := by rw [hstate, if_pos rfl]
    have hslot := getElem?_stateOf hitem
    refine ⟨⟨h.sealedPlan, ?_, ?_, hunder, fun key => ?_, hnodup', ?_, ?_⟩, h.plan_eq, h.direction_eq,
      h.disabled_eq, fun i => ?_⟩
    · exact List.length_set.trans h.length
    · rw [hlength]
      exact List.length_set.trans h.unresolvedLength
    · rw [hkeys', hready]
      constructor
      · rintro (⟨j, rfl, hj, hzero, -⟩ | ⟨rfl, hzero⟩)
        · exact ⟨j, rfl, hj, hzero⟩
        · exact ⟨item, rfl, hself, hzero⟩
      · rintro ⟨j, rfl, hj, hzero⟩
        by_cases he : j = item
        · rw [he]
          exact .inr ⟨rfl, he ▸ hzero⟩
        · exact .inl ⟨j, rfl, hj, hzero, he⟩
    · have hcount := countP_set hslot ItemState.isOpen .pending
      rw [habsent] at hcount
      change w.pending + 1 = _
      rw [h.pending]
      exact hcount.symm
    · have hcount := countP_set hslot (· == .running) .pending
      rw [habsent] at hcount
      change w.running = _
      rw [h.running]
      exact hcount.symm
    · change counted.stateOf i = _
      rw [hstate]
      split_ifs with he hmem hmem
      · rfl
      · exact absurd (List.mem_append_right _ (List.mem_singleton.mpr he)) hmem
      · rw [h.state_eq, if_pos]
        exact (List.mem_append.mp hmem).resolve_right fun hi => he (List.mem_singleton.mp hi)
      · rw [h.state_eq, if_neg fun hi => hmem (List.mem_append_left _ hi)]
  have hitemCount := hunder item (by rw [hstate, if_pos rfl])
  change Building (if unresolvedOf { counted with unresolved, ready } item = 0 then _ else _) _ _ _ _
  split_ifs with hzero
  · apply hfinal _ (insertKey_nodup hnodup)
    intro key
    rw [mem_insertKey, or_comm]
    exact or_congr_right ⟨fun hk => ⟨hk, hitemCount.symm.trans hzero⟩, fun hk => hk.1⟩
  · apply hfinal _ hnodup
    intro key
    refine ⟨.inl, fun hk => hk.resolve_right fun hk => hzero (hitemCount.trans hk.2)⟩

theorem schedule_settles {plan : DependencyPlan} {direction : DependencyDirection}
    {disabled : List (Nat × Nat)} {scheduled : List Nat}
    (h : w.Building plan direction disabled scheduled) (item : Nat) :
    Settles (w.schedule item) (fun r => r.2.Building plan direction disabled (scheduled ++ [item]))
      fun _ => True := by
  unfold schedule
  split_ifs with hout hfrontier hscheduled
  · trivial
  · trivial
  · have hmem : item ∈ scheduled := by
      by_contra hnot
      rw [h.state_eq, if_neg hnot] at hscheduled
      exact hscheduled rfl
    refine ⟨h.toValid, h.plan_eq, h.direction_eq, h.disabled_eq, fun i => ?_⟩
    have hsame : i ∈ scheduled ++ [item] ↔ i ∈ scheduled := by
      rw [List.mem_append, List.mem_singleton]
      exact ⟨fun hi => hi.elim id fun he => he ▸ hmem, .inl⟩
    simp only [h.state_eq, hsame]
  · rw [not_not] at hscheduled
    rw [Nat.not_le] at hout
    dsimp only
    split_ifs
    · trivial
    · exact h.scheduled hout hscheduled

theorem worklistMasked_settles {plan : DependencyPlan} (hplan : plan.Sealed)
    (direction : DependencyDirection) (seeds : List Nat) (disabled : List (Nat × Nat)) :
    Settles (plan.worklistMasked direction seeds disabled)
      (fun w => w.Building plan direction disabled seeds) fun _ => True := by
  unfold DependencyPlan.worklistMasked
  split_ifs
  · trivial
  · apply Settles.foldlM fun done (w : DependencyWorklist) => w.Building plan direction disabled done
    · have hstate (i : Nat) : (List.replicate plan.itemCount ItemState.absent)[i]?.getD .absent =
          .absent := by
        rw [List.getElem?_replicate]
        split_ifs <;> rfl
      refine ⟨⟨hplan, List.length_replicate, List.length_replicate, fun i hi => ?_, fun key => ?_,
        List.nodup_nil, ?_, ?_⟩, rfl, rfl, rfl, fun i => ?_⟩
      · cases (hstate i).symm.trans hi
      · constructor
        · intro hmem
          cases hmem
        · rintro ⟨i, -, hi, -⟩
          cases (hstate i).symm.trans hi
      · rw [List.countP_replicate]
        rfl
      · rw [List.count_replicate]
        rfl
      · rw [if_neg List.not_mem_nil]
        exact hstate i
    · intro done seed _ w h
      apply Settles.bind (schedule_settles h seed)
      exact fun _ h => h

/-! Claiming. -/

/-- Items are claimed. -/
def claim (items : List Nat) (state : List ItemState) : List ItemState :=
  items.foldl (fun state item => state.set item .running) state

theorem claim_spec {items : List Nat} (hnodup : items.Nodup) {state : List ItemState}
    (hpending : ∀ i ∈ items, state[i]? = some .pending) :
    (claim items state).length = state.length ∧
    (∀ j, (claim items state)[j]?.getD .absent =
      if j ∈ items then .running else state[j]?.getD .absent) ∧
    (claim items state).countP ItemState.isOpen = state.countP ItemState.isOpen ∧
    (claim items state).count .running = state.count .running + items.length := by
  induction items generalizing state with
  | nil => simp [claim]
  | cons item items ih =>
    obtain ⟨hnew, hrest⟩ := List.nodup_cons.mp hnodup
    have hitem := hpending item List.mem_cons_self
    have hlt : item < state.length := (List.getElem?_eq_some_iff.mp hitem).1
    have hlater : ∀ i ∈ items, (state.set item .running)[i]? = some .pending := by
      intro i hi
      have hne : item ≠ i := by
        rintro rfl
        exact hnew hi
      rw [List.getElem?_set_ne hne]
      exact hpending i (List.mem_cons_of_mem _ hi)
    obtain ⟨hlength, hstate, hopen, hrunning⟩ := ih hrest hlater
    have hcountOpen := countP_set hitem ItemState.isOpen .running
    have hcountRunning := countP_set hitem (· == .running) .running
    refine ⟨hlength.trans List.length_set, fun j => ?_, ?_, ?_⟩
    · refine (hstate j).trans ?_
      rw [getD_set hlt]
      by_cases hj : j ∈ items
      · rw [if_pos hj, if_pos (List.mem_cons_of_mem _ hj)]
      · by_cases he : j = item
        · rw [if_neg hj, if_pos he, if_pos (he ▸ List.mem_cons_self)]
        · rw [if_neg hj, if_neg he, if_neg fun hmem => (List.mem_cons.mp hmem).elim he hj]
    · exact hopen.trans (Nat.add_right_cancel hcountOpen)
    · refine hrunning.trans ?_
      rw [List.length_cons]
      have : (state.set item .running).count .running + 0 = state.count .running + 1 := hcountRunning
      omega

/-- What claiming leaves. -/
structure Claimed (w : DependencyWorklist) (items : List Nat) (w' : DependencyWorklist) : Prop
    extends w'.Valid where
  plan_eq : w'.plan = w.plan
  direction_eq : w'.direction = w.direction
  disabled_eq : w'.disabledDependencies = w.disabledDependencies
  state_eq : ∀ i, w'.stateOf i = if i ∈ items then .running else w.stateOf i
  nodup : items.Nodup
  claimable : ∀ i ∈ items, w.stateOf i = .pending ∧ w.waits i = 0

theorem Valid.claimed_nil (h : w.Valid) : Claimed w [] w :=
  ⟨h, rfl, rfl, rfl, fun _ => (if_neg List.not_mem_nil).symm, List.nodup_nil,
    fun _ hi => absurd hi List.not_mem_nil⟩

theorem Valid.claimed (h : w.Valid) (count : Nat) : Claimed w ((w.ready.take count).map (·.2))
    { w with
      ready := w.ready.drop count
      state := claim ((w.ready.take count).map (·.2)) w.state
      running := w.running + ((w.ready.take count).map (·.2)).length } := by
  have hmem {i : Nat} : i ∈ (w.ready.take count).map (·.2) ↔ w.readyKey i ∈ w.ready.take count := by
    rw [List.mem_map]
    constructor
    · rintro ⟨key, hkey, rfl⟩
      obtain ⟨i, rfl, -⟩ := (h.ready key).mp (List.mem_of_mem_take hkey)
      exact hkey
    · exact fun hkey => ⟨_, hkey, rfl⟩
  have hclaimable (i : Nat) (hi : i ∈ (w.ready.take count).map (·.2)) :
      w.stateOf i = .pending ∧ w.waits i = 0 := by
    obtain ⟨j, hkey, hj⟩ := (h.ready _).mp (List.mem_of_mem_take (hmem.mp hi))
    obtain rfl : i = j := congrArg Prod.snd hkey
    exact hj
  have hnodup : ((w.ready.take count).map (·.2)).Nodup := by
    apply List.Nodup.map_on
    · intro a ha b hb he
      obtain ⟨i, rfl, -⟩ := (h.ready a).mp (List.mem_of_mem_take ha)
      obtain ⟨j, rfl, -⟩ := (h.ready b).mp (List.mem_of_mem_take hb)
      rw [show i = j from he]
    · exact h.readyNodup.sublist (List.take_sublist _ _)
  have hpending (i : Nat) (hi : i ∈ (w.ready.take count).map (·.2)) : w.state[i]? = some .pending := by
    have hstate := (hclaimable i hi).1
    rw [getElem?_stateOf (stateOf_lt (by rw [hstate]; decide)), hstate]
  obtain ⟨hlength, hstate, hopen, hrunning⟩ := claim_spec hnodup hpending
  let claimed : DependencyWorklist := { w with
    ready := w.ready.drop count
    state := claim ((w.ready.take count).map (·.2)) w.state
    running := w.running + ((w.ready.take count).map (·.2)).length }
  have hwaits (j : Nat) : claimed.waits j = w.waits j := by
    refine @waits_congr w claimed (fun _ => rfl) (fun j => ?_) j
    refine (congrArg ItemState.isOpen (hstate j)).trans ?_
    split_ifs with hj
    · rw [(hclaimable j hj).1]
      rfl
    · rfl
  refine ⟨⟨h.sealedPlan, hlength.trans h.length, h.unresolvedLength, fun i hi => ?_, fun key => ?_,
    h.readyNodup.sublist (List.drop_sublist _ _), h.pending.trans hopen.symm, ?_⟩, rfl, rfl, rfl, hstate,
    hnodup, hclaimable⟩
  · rw [hwaits]
    have hold := (hstate i).symm.trans hi
    split_ifs at hold with hmem
    exact h.unresolved i hold
  · have hsplit : key ∈ w.ready ↔ key ∈ w.ready.take count ∨ key ∈ w.ready.drop count := by
      rw [← List.mem_append, List.take_append_drop]
    have hdisjoint : key ∈ w.ready.drop count → key ∉ w.ready.take count := by
      have hall := h.readyNodup
      rw [← List.take_append_drop count w.ready] at hall
      exact fun hdrop htake => (List.nodup_append.mp hall).2.2 key htake key hdrop rfl
    constructor
    · intro hdrop
      obtain ⟨i, rfl, hi, hzero⟩ := (h.ready key).mp (hsplit.mpr (.inr hdrop))
      refine ⟨i, rfl, (hstate i).trans ?_, (hwaits i).trans hzero⟩
      rw [if_neg fun hi => hdisjoint hdrop (hmem.mp hi)]
      exact hi
    · rintro ⟨i, rfl, hi, hzero⟩
      have hold := (hstate i).symm.trans hi
      split_ifs at hold with htaken
      have hkey := (h.ready (w.readyKey i)).mpr ⟨i, rfl, hold, (hwaits i).symm.trans hzero⟩
      exact (hsplit.mp hkey).resolve_left fun htake => htaken (hmem.mpr htake)
  · change w.running + _ = _
    rw [h.running]
    exact hrunning.symm

/-- While an item is open, some item is ready or running. -/
theorem Valid.progress (h : w.Valid) (hopen : w.pending ≠ 0) (hready : w.ready = []) :
    w.running ≠ 0 := by
  rw [h.pending] at hopen
  obtain ⟨s, hs, hsopen⟩ := List.countP_pos_iff.mp (Nat.pos_of_ne_zero hopen)
  obtain ⟨i, hi⟩ := List.mem_iff_getElem?.mp hs
  have hstate : w.stateOf i = s := by rw [stateOf, hi]; rfl
  rw [← hstate] at hsopen
  clear hi hstate hs hopen s
  -- an open item with the least order is pending only if it waits for none
  induction horder : w.plan.order w.direction i using Nat.strong_induction_on generalizing i with
  | _ order ih =>
    cases hstate : w.stateOf i with
    | absent => rw [hstate] at hsopen; cases hsopen
    | complete => rw [hstate] at hsopen; cases hsopen
    | running =>
      rw [h.running]
      have hlt := stateOf_lt (show w.stateOf i ≠ .absent by rw [hstate]; decide)
      have hslot := getElem?_stateOf hlt
      rw [hstate] at hslot
      exact Nat.pos_iff_ne_zero.mp (List.count_pos_iff.mpr (List.mem_of_getElem? hslot))
    | pending =>
      by_cases hzero : w.waits i = 0
      · have hkey := (h.ready _).mpr ⟨i, rfl, hstate, hzero⟩
        rw [hready] at hkey
        cases hkey
      · rw [waits_eq] at hzero
        obtain ⟨d, hd, hdopen⟩ := List.countP_pos_iff.mp (Nat.pos_of_ne_zero hzero)
        have hlt := h.sealedPlan.ordered w.direction i d (mem_enabledDependencies.mp hd).1
        exact ih _ (by omega) d hdopen rfl

/-- Claiming does not fail. -/
theorem claimReadyBounded_settles (h : w.Valid) {limit : Nat} (hlimit : limit ≠ 0) :
    Settles (w.claimReadyBounded limit) (fun r => Claimed w (r.1.getD []) r.2 ∧
      (r.1.getD [] = [] → w.ready = [])) fun _ => False := by
  unfold claimReadyBounded
  rw [if_neg hlimit]
  split_ifs with hpending hready hrunning
  · refine ⟨h.claimed_nil, fun _ => ?_⟩
    rw [List.eq_nil_iff_forall_not_mem]
    intro key hkey
    obtain ⟨i, -, hi, -⟩ := (h.ready key).mp hkey
    have hslot := getElem?_stateOf (stateOf_lt (show w.stateOf i ≠ .absent by rw [hi]; decide))
    have hcount : 0 < w.state.countP ItemState.isOpen :=
      List.countP_pos_iff.mpr ⟨_, List.mem_of_getElem? hslot, by rw [hi]; rfl⟩
    rw [← h.pending] at hcount
    omega
  · exact ⟨h.claimed_nil, fun _ => hready⟩
  · exact hrunning (h.progress hpending hready)
  · refine ⟨h.claimed _, fun hempty => ?_⟩
    rw [Option.getD_some, List.map_eq_nil_iff, List.take_eq_nil_iff] at hempty
    rcases hempty with hzero | hnil
    · have : w.ready.length ≠ 0 := fun hz => hready (List.length_eq_zero_iff.mp hz)
      omega
    · exact hnil

/-! Finishing. -/

structure Finished (w : DependencyWorklist) (item : Nat) (w' : DependencyWorklist) : Prop
    extends w'.Valid where
  plan_eq : w'.plan = w.plan
  direction_eq : w'.direction = w.direction
  disabled_eq : w'.disabledDependencies = w.disabledDependencies
  state_eq : ∀ i, w'.stateOf i = if i = item then .complete else w.stateOf i

/-- A claimed item can be finished. -/
theorem finish_settles (h : w.Valid) (hitem : w.stateOf item = .running) :
    Settles (w.finish item) (Finished w item) fun _ => False := by
  have hlt := stateOf_lt (show w.stateOf item ≠ .absent by rw [hitem]; decide)
  have hslot := getElem?_stateOf hlt
  rw [hitem] at hslot
  unfold finish
  rw [if_neg (Nat.not_le.mpr hlt), if_neg (not_not.mpr hitem)]
  let closed : DependencyWorklist := { w with
    state := w.state.set item .complete
    running := w.running - 1
    pending := w.pending - 1 }
  have hstate (j : Nat) : closed.stateOf j = if j = item then .complete else w.stateOf j :=
    getD_set hlt .complete j
  have hwaits (j : Nat) : w.waits j =
      closed.waits j + if item ∈ w.enabledDependencies j then 1 else 0 := by
    apply @waits_opened closed w item h.enabled_nodup (fun _ => rfl)
    · rw [hstate, if_pos rfl]
      rfl
    · rw [hitem]
      rfl
    · intro j hj
      rw [hstate, if_neg hj]
  have htouches (j : Nat) : closed.Touches item (closed.dependents item) j ↔
      item ∈ w.enabledDependencies j ∧ w.stateOf j = .pending := by
    rw [← h.touches_iff, Touches, Touches, hstate]
    by_cases hj : j = item
    · subst hj
      rw [if_pos rfl]
      refine ⟨fun ht => ?_, fun ht => ?_⟩
      · cases ht.2.2
      · rw [hitem] at ht
        cases ht.2.2
    · rw [if_neg hj]
      rfl
  have hpositive (j : Nat) (hj : closed.Touches item (closed.dependents item) j) :
      closed.unresolvedOf j ≠ 0 := by
    obtain ⟨hmem, hpending⟩ := (htouches j).mp hj
    have hcount := hwaits j
    rw [if_pos hmem] at hcount
    change w.unresolvedOf j ≠ 0
    rw [h.unresolved j hpending]
    omega
  apply (release_settles (w := closed) ((h.unresolvedLength.trans h.length.symm).trans
    List.length_set.symm) h.readyNodup (h.sealedPlan.nodup_dependents w.direction item) hpositive).mono
  rintro _ ⟨unresolved, ready, rfl, hlength, hnodup, hcounts, hkeys⟩
  have hstate' {j : Nat} (hj : closed.stateOf j = .pending) : w.stateOf j = .pending := by
    rw [hstate] at hj
    split_ifs at hj
    exact hj
  refine ⟨⟨h.sealedPlan, List.length_set.trans h.length, hlength.trans h.unresolvedLength,
    fun i hi => ?_, fun key => ?_, hnodup, ?_, ?_⟩, rfl, rfl, rfl, hstate⟩
  · have hcount := hcounts i
    have hold := hstate' hi
    have hclosed : closed.unresolvedOf i = w.waits i := h.unresolved i hold
    rw [hclosed, hwaits i] at hcount
    have hsame : (if closed.Touches item (closed.dependents item) i then 1 else 0) =
        if item ∈ w.enabledDependencies i then 1 else 0 :=
      if_congr ((htouches i).trans (and_iff_left hold)) rfl rfl
    exact Nat.add_right_cancel (hcount.trans (congrArg _ hsame.symm))
  · rw [hkeys]
    constructor
    · rintro (hmem | ⟨j, hj, hone, rfl⟩)
      · obtain ⟨j, rfl, hj, hzero⟩ := (h.ready key).mp hmem
        refine ⟨j, rfl, ?_, ?_⟩
        · have hne : j ≠ item := by
            rintro rfl
            rw [hitem] at hj
            cases hj
          exact ((hstate j).trans (if_neg hne)).trans hj
        · have := hwaits j
          change closed.waits j = 0
          omega
      · obtain ⟨hmem, hpending⟩ := (htouches j).mp hj
        have hcount := hwaits j
        rw [if_pos hmem, ← h.unresolved j hpending] at hcount
        have hclosed : w.unresolvedOf j = 1 := hone
        refine ⟨j, rfl, hj.2.2, ?_⟩
        change closed.waits j = 0
        omega
    · rintro ⟨j, rfl, hj, hzero⟩
      have hpending := hstate' hj
      have hcount := hwaits j
      have hclosed : closed.waits j = 0 := hzero
      rw [hclosed] at hcount
      by_cases hmem : item ∈ w.enabledDependencies j
      · rw [if_pos hmem] at hcount
        exact .inr ⟨j, (htouches j).mpr ⟨hmem, hpending⟩, (h.unresolved j hpending).trans hcount, rfl⟩
      · rw [if_neg hmem] at hcount
        exact .inl ((h.ready _).mpr ⟨j, rfl, hpending, hcount⟩)
  · have hcount := countP_set hslot ItemState.isOpen .complete
    have : (w.state.set item .complete).countP ItemState.isOpen + 1 =
      w.state.countP ItemState.isOpen + 0 := hcount
    change w.pending - 1 = (w.state.set item .complete).countP ItemState.isOpen
    rw [h.pending]
    omega
  · have hcount := countP_set hslot (· == .running) .complete
    have : (w.state.set item .complete).count .running + 1 = w.state.count .running + 0 := hcount
    change w.running - 1 = (w.state.set item .complete).count .running
    rw [h.running]
    omega

/-! Runs. Claims and completions may come in any order. -/

/-- Ready items are claimed, so many at most, or a claimed item is finished. -/
inductive Turn
  | claim (limit : Nat)
  | finish (item : Nat)

/-- A worklist with the items claimed and finished so far. -/
structure Progress where
  worklist : DependencyWorklist
  claimed : List Nat
  finished : List Nat

namespace Progress

def start (worklist : DependencyWorklist) : Progress := ⟨worklist, [], []⟩

def turn (s : Progress) : Turn → Except RuntimeError Progress
  | .claim limit => do
    let (items, worklist) ← s.worklist.claimReadyBounded limit
    return { s with worklist, claimed := s.claimed ++ items.getD [] }
  | .finish item => do
    let worklist ← s.worklist.finish item
    return { s with worklist, finished := s.finished ++ [item] }

/-- What a coordinator asks for: at least one item, or the completion of one it holds. -/
def Allows (s : Progress) : Turn → Prop
  | .claim limit => limit ≠ 0
  | .finish item => item ∈ s.claimed ∧ item ∉ s.finished

/-- The state that an item is in after what was claimed and finished. -/
def stateOf (s : Progress) (seeds : List Nat) (item : Nat) : ItemState :=
  if item ∈ s.finished then .complete
  else if item ∈ s.claimed then .running
  else if item ∈ seeds then .pending
  else .absent

/-- What holds after any turns on a worklist of the seeds. -/
structure Follows (s : Progress) (w : DependencyWorklist) (seeds : List Nat) : Prop where
  valid : s.worklist.Valid
  plan_eq : s.worklist.plan = w.plan
  direction_eq : s.worklist.direction = w.direction
  disabled_eq : s.worklist.disabledDependencies = w.disabledDependencies
  state_eq : ∀ i, s.worklist.stateOf i = s.stateOf seeds i
  claimed_nodup : s.claimed.Nodup
  finished_nodup : s.finished.Nodup
  claimed_subset : s.claimed ⊆ seeds
  finished_subset : s.finished ⊆ s.claimed
  ordered : ∀ i ∈ s.claimed, ∀ d ∈ w.enabledDependencies i, d ∈ seeds → d ∈ s.finished

variable {s s' : Progress} {w : DependencyWorklist} {seeds : List Nat}

theorem enabled_congr {w' : DependencyWorklist} (hplan : w'.plan = w.plan) (hdirection : w'.direction = w.direction)
    (hdisabled : w'.disabledDependencies = w.disabledDependencies) (i : Nat) :
    w'.enabledDependencies i = w.enabledDependencies i := by
  unfold enabledDependencies dependencies
  have henabled : w'.dependencyIsEnabled i = w.dependencyIsEnabled i := by
    funext d
    rw [dependencyIsEnabled, dependencyIsEnabled, hdirection, hdisabled]
  rw [henabled, hplan, hdirection]

theorem stateOf_running {item : Nat} : s.stateOf seeds item = .running ↔ item ∈ s.claimed ∧ item ∉ s.finished := by
  unfold stateOf
  split_ifs with hfinished hclaimed hseed <;> simp [*]

theorem stateOf_pending {item : Nat} (hsubset : s.finished ⊆ s.claimed) :
    s.stateOf seeds item = .pending ↔ item ∈ seeds ∧ item ∉ s.claimed := by
  unfold stateOf
  split_ifs with hfinished hclaimed hseed
  · simp [hsubset hfinished]
  · simp [hclaimed]
  · simp [hclaimed, hseed]
  · simp [hseed]

/-- An item of the seeds that is not open is finished. -/
theorem mem_finished {item : Nat} (hseed : item ∈ seeds) (hclosed : (s.stateOf seeds item).isOpen = false) :
    item ∈ s.finished := by
  by_contra hfinished
  unfold stateOf at hclosed
  rw [if_neg hfinished] at hclosed
  split_ifs at hclosed <;> cases hclosed

theorem follows_start {plan : DependencyPlan} {direction : DependencyDirection} {disabled : List (Nat × Nat)}
    (h : w.Building plan direction disabled seeds) : (start w).Follows w seeds where
  valid := h.toValid
  plan_eq := rfl
  direction_eq := rfl
  disabled_eq := rfl
  state_eq i := by
    rw [start, stateOf, if_neg List.not_mem_nil, if_neg List.not_mem_nil]
    exact h.state_eq i
  claimed_nodup := List.nodup_nil
  finished_nodup := List.nodup_nil
  claimed_subset := List.nil_subset _
  finished_subset := List.nil_subset _
  ordered := fun _ hi => absurd hi List.not_mem_nil

/-- Claimed items were waiting for nothing, so what they depend on is finished. -/
theorem Follows.claim (h : s.Follows w seeds) {items : List Nat} {worklist : DependencyWorklist}
    (hclaimed : Claimed s.worklist items worklist) :
    Follows { s with worklist, claimed := s.claimed ++ items } w seeds := by
  have hpending : ∀ i ∈ items, i ∈ seeds ∧ i ∉ s.claimed := by
    intro i hi
    have hstate := (hclaimed.claimable i hi).1
    rw [h.state_eq] at hstate
    exact (stateOf_pending h.finished_subset).mp hstate
  have hready : ∀ i ∈ items, ∀ d ∈ w.enabledDependencies i, d ∈ seeds → d ∈ s.finished := by
    intro i hi d hd hseed
    have hwaits := (hclaimed.claimable i hi).2
    rw [waits_eq, List.countP_eq_zero, enabled_congr h.plan_eq h.direction_eq h.disabled_eq] at hwaits
    have hclosed := Bool.eq_false_of_not_eq_true (hwaits d hd)
    rw [h.state_eq] at hclosed
    exact mem_finished hseed hclosed
  constructor
  · exact hclaimed.toValid
  · exact hclaimed.plan_eq.trans h.plan_eq
  · exact hclaimed.direction_eq.trans h.direction_eq
  · exact hclaimed.disabled_eq.trans h.disabled_eq
  · intro i
    rw [hclaimed.state_eq, h.state_eq, stateOf, stateOf]
    by_cases hi : i ∈ items
    · have hfinished : i ∉ s.finished := fun hf => (hpending i hi).2 (h.finished_subset hf)
      simp [hi, hfinished]
    · simp [hi]
  · apply List.Nodup.append h.claimed_nodup hclaimed.nodup
    intro i hold hnew
    exact (hpending i hnew).2 hold
  · exact h.finished_nodup
  · exact List.append_subset.mpr ⟨h.claimed_subset, fun i hi => (hpending i hi).1⟩
  · exact fun i hi => List.mem_append_left _ (h.finished_subset hi)
  · intro i hi
    rcases List.mem_append.mp hi with hold | hnew
    · exact h.ordered i hold
    · exact hready i hnew

theorem Follows.finish (h : s.Follows w seeds) {item : Nat} (hclaimed : item ∈ s.claimed)
    (hopen : item ∉ s.finished) {worklist : DependencyWorklist} (hfinished : Finished s.worklist item worklist) :
    Follows { s with worklist, finished := s.finished ++ [item] } w seeds := by
  constructor
  · exact hfinished.toValid
  · exact hfinished.plan_eq.trans h.plan_eq
  · exact hfinished.direction_eq.trans h.direction_eq
  · exact hfinished.disabled_eq.trans h.disabled_eq
  · intro i
    rw [hfinished.state_eq, h.state_eq, stateOf, stateOf]
    by_cases hi : i = item
    · simp [hi]
    · simp [hi]
  · exact h.claimed_nodup
  · apply List.Nodup.append h.finished_nodup (List.nodup_singleton item)
    intro i hold hnew
    rw [List.mem_singleton.mp hnew] at hold
    exact hopen hold
  · exact h.claimed_subset
  · exact List.append_subset.mpr ⟨h.finished_subset, fun i hi => List.mem_singleton.mp hi ▸ hclaimed⟩
  · intro i hi d hd hseed
    exact List.mem_append_left _ (h.ordered i hi d hd hseed)

/-- An allowed turn does not fail. -/
theorem Follows.turn (h : s.Follows w seeds) {t : Turn} (hallowed : s.Allows t) :
    ∃ s', s.turn t = .ok s' ∧ s'.Follows w seeds := by
  cases t with
  | claim limit =>
    have hsettles := claimReadyBounded_settles h.valid hallowed
    cases hclaim : s.worklist.claimReadyBounded limit with
    | error e =>
      rw [hclaim] at hsettles
      exact hsettles.elim
    | ok r =>
      rw [hclaim] at hsettles
      refine ⟨{ s with worklist := r.2, claimed := s.claimed ++ r.1.getD [] }, ?_, h.claim hsettles.1⟩
      rw [Progress.turn, hclaim]
      rfl
  | finish item =>
    have hsettles := finish_settles h.valid ((h.state_eq item).trans (stateOf_running.mpr hallowed))
    cases hfinish : s.worklist.finish item with
    | error e =>
      rw [hfinish] at hsettles
      exact hsettles.elim
    | ok worklist =>
      rw [hfinish] at hsettles
      refine ⟨{ s with worklist, finished := s.finished ++ [item] }, ?_, h.finish hallowed.1 hallowed.2 hsettles⟩
      rw [Progress.turn, hfinish]
      rfl

/-- A turn that does not fail was allowed. -/
theorem Follows.allowed (h : s.Follows w seeds) {t : Turn} (hturn : s.turn t = .ok s') : s.Allows t := by
  cases t with
  | claim limit =>
    obtain ⟨r, hclaim, -⟩ := bind_eq_ok hturn
    intro hzero
    rw [claimReadyBounded, if_pos hzero] at hclaim
    cases hclaim
  | finish item =>
    obtain ⟨worklist, hfinish, -⟩ := bind_eq_ok hturn
    rw [DependencyWorklist.finish] at hfinish
    split_ifs at hfinish with hout hrunning
    · cases hfinish
    · cases hfinish
    · rw [not_not, h.state_eq] at hrunning
      exact stateOf_running.mp hrunning

theorem Follows.run (h : s.Follows w seeds) {turns : List Turn} (hrun : turns.foldlM Progress.turn s = .ok s') :
    s'.Follows w seeds := by
  induction turns generalizing s with
  | nil =>
    obtain rfl := Except.ok.inj hrun
    exact h
  | cons t turns ih =>
    rw [List.foldlM_cons] at hrun
    obtain ⟨next, hturn, hrest⟩ := bind_eq_ok hrun
    obtain ⟨next', hnext, hfollows⟩ := h.turn (h.allowed hturn)
    rw [hturn] at hnext
    obtain rfl := Except.ok.inj hnext
    exact ih hfollows hrest

/-- While an item is not finished, one is held or the next claim gets one. -/
theorem Follows.goes_on (h : s.Follows w seeds) {item : Nat} (hseed : item ∈ seeds) (hopen : item ∉ s.finished)
    (hidle : ∀ i ∈ s.claimed, i ∈ s.finished) {limit : Nat} (hlimit : limit ≠ 0) (hturn : s.turn (.claim limit) = .ok s') :
    s'.claimed ≠ s.claimed := by
  obtain ⟨r, hclaim, hs'⟩ := bind_eq_ok hturn
  obtain rfl := Except.ok.inj hs'
  have hsettles := claimReadyBounded_settles h.valid hlimit
  rw [hclaim] at hsettles
  intro hsame
  have hnone : r.1.getD [] = [] := List.append_right_eq_self.mp hsame
  have hready := hsettles.2 hnone
  have hstate : s.worklist.stateOf item = .pending := by
    rw [h.state_eq]
    exact (stateOf_pending h.finished_subset).mpr ⟨hseed, fun hclaimed => hopen (hidle item hclaimed)⟩
  have hslot := getElem?_stateOf (stateOf_lt (show s.worklist.stateOf item ≠ .absent by rw [hstate]; decide))
  have hpending : s.worklist.pending ≠ 0 := by
    rw [h.valid.pending]
    apply Nat.pos_iff_ne_zero.mp
    exact List.countP_pos_iff.mpr ⟨_, List.mem_of_getElem? hslot, by rw [hstate]; rfl⟩
  have hrunning := h.valid.progress hpending hready
  rw [h.valid.running] at hrunning
  obtain ⟨i, hi⟩ := List.getElem?_of_mem (List.count_pos_iff.mp (Nat.pos_iff_ne_zero.mpr hrunning))
  have hheld : s.worklist.stateOf i = .running := by
    rw [DependencyWorklist.stateOf, hi]
    rfl
  rw [h.state_eq] at hheld
  obtain ⟨hclaimed, hunfinished⟩ := stateOf_running.mp hheld
  exact hunfinished (hidle i hclaimed)

/-- In every run of claims and completions over a plan and its seeds, items are claimed and
finished once, claimed only after the dependencies that were scheduled are finished, no
allowed turn fails, and while an item is open a claim finds one unless one is held. -/
theorem worklist_runs_ordered (itemCount : Nat) (order : List Nat) (dependencies : Nat → List Nat)
    {plan : DependencyPlan} (hplan : DependencyPlan.fromTopologicalOrder itemCount order dependencies = .ok plan)
    (direction : DependencyDirection) (seeds : List Nat) (disabled : List (Nat × Nat)) {w : DependencyWorklist}
    (hw : plan.worklistMasked direction seeds disabled = .ok w) (turns : List Turn) {s : Progress}
    (hrun : turns.foldlM turn (start w) = .ok s) :
    (s.claimed.Nodup ∧ s.claimed ⊆ seeds) ∧ (s.finished.Nodup ∧ s.finished ⊆ s.claimed) ∧
    (∀ i ∈ s.claimed, ∀ d ∈ w.enabledDependencies i, d ∈ seeds → d ∈ s.finished) ∧
    (∀ t, s.Allows t ↔ ∃ s', s.turn t = .ok s') ∧
    ∀ i ∈ seeds, i ∉ s.finished → (∀ j ∈ s.claimed, j ∈ s.finished) → ∀ limit s', s.turn (.claim limit) = .ok s' →
      s'.claimed ≠ s.claimed := by
  have hsealed := ((DependencyPlan.fromTopologicalOrder_settles itemCount order dependencies).ok hplan).1
  have hbuilding := (worklistMasked_settles hsealed direction seeds disabled).ok hw
  have h := (follows_start hbuilding).run hrun
  refine ⟨⟨h.claimed_nodup, h.claimed_subset⟩, ⟨h.finished_nodup, h.finished_subset⟩, h.ordered, ?_, ?_⟩
  · intro t
    constructor
    · intro hallowed
      obtain ⟨s', hturn, -⟩ := h.turn hallowed
      exact ⟨s', hturn⟩
    · intro hturn
      obtain ⟨s', hturn⟩ := hturn
      exact h.allowed hturn
  · intro i hseed hopen hidle limit s' hturn
    exact h.goes_on hseed hopen hidle (h.allowed hturn) hturn

/-- The second item waits for the first. -/
theorem worklist_runs_chain : ∃ plan w s,
    DependencyPlan.fromTopologicalOrder 2 [0, 1] (fun item => List.range item) = .ok plan ∧
    plan.worklistMasked .forward [1, 0] [] = .ok w ∧
    [Turn.claim 2, .finish 0, .claim 2].foldlM turn (start w) = .ok s ∧ s.claimed = [0, 1] ∧ s.finished = [0] ∧
    s.claimed.Nodup :=
  ⟨_, _, _, rfl, rfl, rfl, rfl, rfl, (worklist_runs_ordered 2 [0, 1] (fun item => List.range item) rfl .forward [1, 0] []
    rfl [.claim 2, .finish 0, .claim 2] rfl).1.1⟩

end Progress

end Opto.Runtime.DependencyWorklist
