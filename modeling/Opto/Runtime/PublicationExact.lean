import Opto.Library.Memo
import Opto.Runtime.PublicationTurns

/-!
# Publication in any order

Two runs that end without cancellation have the same outcomes, so they leave the same
rows, summaries and failure, whatever arrived when. A run that fails leaves the rows as
they were.
-/

namespace Opto.Runtime

namespace PublicationCall

variable {R S ι ε π : Type} {call : PublicationCall R S ι ε π} {h h' : History R ε π}
  {c c' : PublicationCoordinator R S ι ε π} {cancels cancels' : Prop}

/-! The loop. -/

structure Ended (call : PublicationCall R S ι ε π) (cancels : Prop) (c : PublicationCoordinator R S ι ε π)
    (h : History R ε π) : Prop where
  tracks : Tracks call c h [] []
  cancelled : c.cancelled = true → cancels
  exhausted : c.cancelled = true ∨ Exhausted call h []

theorem Resting.tracks (hr : Resting call c h) (hempty : c.inFlight = []) : Tracks call c h [] [] := by
  obtain ⟨begun, ht, hheld⟩ := hr
  have hnone : begun = [] := by
    rw [List.eq_nil_iff_forall_not_mem]
    intro j hj
    obtain ⟨entry, hentry, -⟩ := hheld j hj
    rw [hempty] at hentry
    exact List.not_mem_nil hentry
  rw [hnone] at ht
  exact ht

/-- Enough fuel ends the loop. -/
theorem loop_outcome {turn : Nat → Coordinating (Reported ε π) R S ι ε π Bool}
    (mode : PublicationCoordinator R S ι ε π → Prop)
    (hturn : ∀ k c h, mode c → Resting call c h → (c.cancelled = true → cancels) →
      Outcome c (turn k) (fun more c' => mode c' ∧ ∃ h', TurnEnds call cancels c h more c' h') (call.Abandons cancels))
    {fuel k : Nat} (hmode : mode c) (hr : Resting call c h) (hcancelled : c.cancelled = true → cancels)
    (hfuel : 2 * call.seeds.length < progress c h + fuel) :
    Outcome c (loop turn fuel k) (fun ended c' => ended = true ∧ ∃ h', Ended call cancels c' h')
      (call.Abandons cancels) := by
  induction fuel generalizing k c h with
  | zero =>
    have := hr.progress_le
    omega
  | succ fuel ih =>
    unfold loop
    apply Outcome.bind (hturn k c h hmode hr hcancelled)
    · intro more c' hc'
      obtain ⟨hmode', h', hends⟩ := hc'
      cases more with
      | true =>
        have := hends.advances rfl
        exact ih hmode' hends.resting hends.cancelled (by omega)
      | false =>
        obtain ⟨hempty, hexhausted⟩ := hends.ends rfl
        exact ⟨rfl, h', hends.resting.tracks hempty, hends.cancelled, hexhausted⟩
    · exact fun _ _ he => he

theorem tracks_start (call : PublicationCall R S ι ε π) :
    Tracks call (PublicationCoordinator.start call.worklist call.rows call.activation) [] [] [] := by
  obtain ⟨plan, direction, disabled, hbuilding⟩ := call.building
  constructor
  · refine ⟨List.nodup_nil, List.nodup_nil, fun _ hi => absurd hi List.not_mem_nil, ?_⟩
    intro i x hx
    cases hx
  · refine ⟨fun _ _ _ => rfl, fun _ _ => rfl, restores_refl call.calls call.rows, ?_, call.activationLength, rfl, rfl,
      rfl, rfl, rfl⟩
    intro i
    have hnone : ((call.uses i).any fun d => (entriesAt ([] : History R ε π) d).any call.differs) = false := by
      rw [List.any_eq_false]
      intro d _ hd
      cases hd
    rw [isActive, hnone, Bool.or_false]
    rfl
  · exact ⟨hbuilding.toValid, rfl, rfl, rfl, hbuilding.state_eq⟩
  · constructor
    · intro i
      simp [PublicationCoordinator.start]
    · intro i
      simp [PublicationCoordinator.start]
    · intro i
      simp [PublicationCoordinator.start]
    · exact List.nodup_nil
    · intro k i hk
      cases hk
  · exact fun _ hentry => absurd hentry List.not_mem_nil
  · exact List.nodup_nil
  · intro i hi
    cases hi

/-- A run is cancelled at some turn. -/
def Cancels (schedule : Nat → Turn) : Prop := ∃ k, (schedule k).cancelledBefore = true ∨ (schedule k).cancelledAfter = true

theorem coordinate_outcome (call : PublicationCall R S ι ε π) (workerCount : Nat) (schedule : Nat → Turn) {fuel : Nat}
    (hfuel : 2 * call.seeds.length < fuel) :
    Outcome (PublicationCoordinator.start call.worklist call.rows call.activation)
      (loop (fun k => if workerCount ≤ 1 then serialTurn call.calls (schedule k)
        else parallelTurn call.calls workerCount (schedule k)) fuel 1)
      (fun ended c' => ended = true ∧ ∃ h', Ended call (Cancels schedule) c' h') (call.Abandons (Cancels schedule)) := by
  have hr : Resting call (PublicationCoordinator.start call.worklist call.rows call.activation) [] :=
    ⟨[], tracks_start call, fun _ hj => absurd hj List.not_mem_nil⟩
  have hstart : (PublicationCoordinator.start call.worklist call.rows call.activation :
      PublicationCoordinator R S ι ε π).cancelled = true → Cancels schedule := by
    intro hc
    cases hc
  have hbefore (k : Nat) : (schedule k).cancelledBefore = true → Cancels schedule := fun hk => ⟨k, .inl hk⟩
  have hafter (k : Nat) : (schedule k).cancelledAfter = true → Cancels schedule := fun hk => ⟨k, .inr hk⟩
  by_cases hserial : workerCount ≤ 1
  · simp only [if_pos hserial]
    apply loop_outcome (fun c => c.inFlight = []) _ rfl hr hstart
    · exact Nat.lt_of_lt_of_le hfuel (Nat.le_add_left _ _)
    · intro k c h hflight hr hcancelled
      exact serialTurn_outcome hr hflight hcancelled (hbefore k)
  · simp only [if_neg hserial]
    apply loop_outcome (fun _ => True) _ trivial hr hstart
    · exact Nat.lt_of_lt_of_le hfuel (Nat.le_add_left _ _)
    · intro k c h _ hr hcancelled
      apply (parallelTurn_outcome hr hcancelled (by omega) (hbefore k) (hafter k)).mono
      · exact fun _ _ hc' => ⟨trivial, hc'⟩
      · exact fun _ _ he => he

/-! The same outcomes. -/

def ExplainsAt (call : PublicationCall R S ι ε π) (table : Nat → Option (ItemOutcome R ε π)) (i : Nat)
    (x : ItemOutcome R ε π) : Prop :=
  ∃ h : History R ε π, (∀ j, h.lookup j = table j) ∧ call.Explains h i x ∧ x ≠ .discarded

theorem Ended.complete (he : Ended call cancels c h) (hkept : c.cancelled = false) :
    Memo.Complete call.uses (· ∈ call.seeds) (fun x => x.isSettled = true) call.ExplainsAt fun i => h.lookup i where
  explained i x hx := by
    obtain ⟨hseed, hready, hexplains⟩ := he.tracks.flow.explained i x hx
    refine ⟨hseed, hready, h, fun _ => rfl, hexplains, ?_⟩
    rintro rfl
    rw [he.tracks.discards i hx] at hkept
    cases hkept
  maximal i hseed hnone := by
    have hexhausted := he.exhausted.resolve_left (by rw [hkept]; exact Bool.false_ne_true)
    exact hexhausted i hseed hnone List.not_mem_nil

theorem uses_ranked (call : PublicationCall R S ι ε π) (i : Nat) : ∀ d ∈ call.uses i,
    call.worklist.plan.order call.worklist.direction d < call.worklist.plan.order call.worklist.direction i := by
  intro d hd
  obtain ⟨plan, direction, disabled, hbuilding⟩ := call.building
  exact hbuilding.sealedPlan.ordered _ i d (DependencyWorklist.mem_enabledDependencies.mp hd).1

theorem ExplainsAt.unique {table table' : Nat → Option (ItemOutcome R ε π)} {i : Nat} {x x' : ItemOutcome R ε π}
    (hagree : ∀ d ∈ call.uses i, table d = table' d) (hx : call.ExplainsAt table i x) (hx' : call.ExplainsAt table' i x') :
    x = x' := by
  obtain ⟨h, hlookup, hexplains, hkept⟩ := hx
  obtain ⟨h', hlookup', hexplains', hkept'⟩ := hx'
  apply (hexplains.congr _).unique hexplains' hkept hkept'
  intro d hd
  rw [hlookup, hlookup', hagree d hd]

theorem mem_iff_lookup (hkeys : (h.map (·.1)).Nodup) {entry : Nat × ItemOutcome R ε π} :
    entry ∈ h ↔ h.lookup entry.1 = some entry.2 :=
  ⟨lookup_of_mem hkeys, fun hlookup => mem_of_lookup hlookup⟩

/-- The outcomes come in another order only. -/
theorem Ended.perm (he : Ended call cancels c h) (he' : Ended call cancels' c' h') (hkept : c.cancelled = false)
    (hkept' : c'.cancelled = false) : h.Perm h' := by
  have hsame := (he.complete hkept).unique (uses_ranked call)
    (fun _ _ _ _ _ hagree hx hx' => hx.unique hagree hx') (he'.complete hkept')
  rw [List.perm_ext_iff_of_nodup he.tracks.flow.keys.of_map he'.tracks.flow.keys.of_map]
  intro entry
  rw [mem_iff_lookup he.tracks.flow.keys, mem_iff_lookup he'.tracks.flow.keys, hsame]

/-! The same results. -/

theorem mem_effects {item : Nat} {entries : List (Nat × R)} {effect : DependencyEffect R}
    (heffect : effect ∈ call.effects item entries) :
    effect.item = item ∧ call.calls.store.get call.rows effect.row = some effect.previous := by
  obtain ⟨entry, -, hentry⟩ := List.mem_filterMap.mp heffect
  obtain ⟨previous, hprevious, rfl⟩ := Option.map_eq_some_iff.mp hentry
  exact ⟨rfl, hprevious⟩

/-- The journal says what was in each row. -/
theorem mem_journal {effect : DependencyEffect R} (heffect : effect ∈ call.journal h) :
    call.calls.store.get call.rows effect.row = some effect.previous := by
  obtain ⟨entry, -, heffect⟩ := List.mem_flatMap.mp heffect
  exact (mem_effects heffect).2

theorem stabilize_perm (hperm : h.Perm h') : stabilize (call.journal h) = stabilize (call.journal h') := by
  have htotal : Std.Total fun a b : DependencyEffect R =>
      DependencyWorklist.keyLe (a.item, a.row) (b.item, b.row) := by
    constructor
    intro a b
    unfold DependencyWorklist.keyLe
    dsimp only
    omega
  have htrans : IsTrans (DependencyEffect R) fun a b =>
      DependencyWorklist.keyLe (a.item, a.row) (b.item, b.row) := by
    constructor
    intro a b c hab hbc
    unfold DependencyWorklist.keyLe at *
    dsimp only at *
    omega
  apply insertionSort_perm (hperm.flatMap_right _)
  intro a ha b hb hab hba
  unfold DependencyWorklist.keyLe at hab hba
  dsimp only at hab hba
  have hitem : a.item = b.item := by omega
  have hrow : a.row = b.row := by omega
  have hprevious := (mem_journal ha).symm.trans (hrow ▸ mem_journal hb)
  obtain ⟨item, row, previous⟩ := a
  obtain ⟨item', row', previous'⟩ := b
  dsimp only at hitem hrow
  obtain rfl := Option.some.inj hprevious
  rw [hitem, hrow]

/-- The failure of the smallest item that failed. -/
structure Least (h : History R ε π) (reported : Option (Nat × DependencyFailure ε π)) : Prop where
  reports : ∀ i f, (i, .failed f) ∈ h → ∃ j g, reported = some (j, g) ∧ j ≤ i
  reported_mem : ∀ j g, reported = some (j, g) → (j, .failed g) ∈ h

theorem Least.failed {reported : Option (Nat × DependencyFailure ε π)} (hl : Least h reported) (i : Nat)
    (f : DependencyFailure ε π) : Least (h ++ [(i, .failed f)]) (retainStableFailure reported i f) := by
  unfold retainStableFailure
  cases reported with
  | none =>
    constructor
    · intro k g hk
      rcases List.mem_append.mp hk with hold | hnew
      · obtain ⟨j, f', hnone, -⟩ := hl.reports k g hold
        cases hnone
      · cases List.mem_singleton.mp hnew
        exact ⟨_, _, rfl, Nat.le_refl _⟩
    · intro j g hj
      cases hj
      exact List.mem_append_right _ (List.mem_singleton_self _)
  | some first =>
    obtain ⟨j, g⟩ := first
    have hmem := hl.reported_mem j g rfl
    rw [Option.all_some]
    split_ifs with hlt
    · have hlt := of_decide_eq_true hlt
      constructor
      · intro k f' hk
        refine ⟨i, f, rfl, ?_⟩
        rcases List.mem_append.mp hk with hold | hnew
        · obtain ⟨j', g', hfirst, hle⟩ := hl.reports k f' hold
          cases hfirst
          dsimp only at hlt
          omega
        · cases List.mem_singleton.mp hnew
          exact Nat.le_refl _
      · intro k f' hk
        cases hk
        exact List.mem_append_right _ (List.mem_singleton_self _)
    · constructor
      · intro k f' hk
        rcases List.mem_append.mp hk with hold | hnew
        · exact hl.reports k f' hold
        · cases List.mem_singleton.mp hnew
          refine ⟨j, g, rfl, ?_⟩
          rw [decide_eq_true_eq] at hlt
          omega
      · intro k f' hk
        exact List.mem_append_left _ (hl.reported_mem k f' hk)

theorem least_retained (h : History R ε π) : Least h (h.foldl retained none) := by
  induction h using List.reverseRecOn with
  | nil => exact ⟨fun _ _ hi => absurd hi List.not_mem_nil, fun _ _ hj => by cases hj⟩
  | append_singleton h entry ih =>
    obtain ⟨i, x⟩ := entry
    rw [List.foldl_append]
    have hother (hx : ∀ f, x ≠ .failed f) : Least (h ++ [(i, x)]) (h.foldl retained none) := by
      constructor
      · intro k f hk
        rcases List.mem_append.mp hk with hold | hnew
        · exact ih.reports k f hold
        · cases List.mem_singleton.mp hnew
          exact absurd rfl (hx f)
      · exact fun j g hj => List.mem_append_left _ (ih.reported_mem j g hj)
    cases x with
    | failed f => exact ih.failed i f
    | skipped => exact hother fun f hf => by cases hf
    | published entries => exact hother fun f hf => by cases hf
    | discarded => exact hother fun f hf => by cases hf

theorem Least.unique {reported reported' : Option (Nat × DependencyFailure ε π)} (hl : Least h reported)
    (hl' : Least h' reported') (hperm : h.Perm h') (hkeys : (h'.map (·.1)).Nodup) : reported = reported' := by
  cases hr : reported with
  | none =>
    cases hr' : reported' with
    | none => rfl
    | some last =>
      obtain ⟨j, g, hsome, -⟩ := hl.reports last.1 last.2 (hperm.mem_iff.mpr (hl'.reported_mem _ _ hr'))
      rw [hr] at hsome
      cases hsome
  | some first =>
    obtain ⟨i, f⟩ := first
    have hmem := hperm.mem_iff.mp (hl.reported_mem i f hr)
    obtain ⟨j, g, hr', hle⟩ := hl'.reports i f hmem
    have hmem' := hl'.reported_mem j g hr'
    obtain ⟨k, f', hfirst, hle'⟩ := hl.reports j g (hperm.mem_iff.mpr hmem')
    cases hr.symm.trans hfirst
    obtain rfl : i = j := by omega
    have hf : h'.lookup i = some (.failed f) := lookup_of_mem hkeys hmem
    have hg : h'.lookup i = some (.failed g) := lookup_of_mem hkeys hmem'
    cases hf.symm.trans hg
    exact hr'.symm

theorem Kept.same (hk : Kept call c h) (hk' : Kept call c' h') (hlookup : ∀ i, h.lookup i = h'.lookup i) :
    call.calls.store.Same c.rows c'.rows := by
  refine ⟨hk.restores.len.trans hk'.restores.len.symm, ?_⟩
  intro row
  by_cases howned : ∃ i, row ∈ call.calls.plan.ownedRows i
  · obtain ⟨i, hi⟩ := howned
    rw [hk.owned i row hi, hk'.owned i row hi, valueAt, valueAt, entriesAt_congr (hlookup i)]
  · have hnone : ∀ i, row ∉ call.calls.plan.ownedRows i := fun i hi => howned ⟨i, hi⟩
    rw [hk.unowned row hnone, hk'.unowned row hnone]

theorem Kept.execution_eq (hk : Kept call c h) (hk' : Kept call c' h') (hperm : h.Perm h') :
    c.execution = c'.execution := by
  have hsort {xs ys : List Nat} (hxs : xs.Perm ys) : xs.insertionSort (· ≤ ·) = ys.insertionSort (· ≤ ·) :=
    insertionSort_perm hxs fun a _ b _ hab hba => Nat.le_antisymm hab hba
  unfold PublicationCoordinator.execution
  rw [hk.publishedItems_eq, hk'.publishedItems_eq, hk.changedItems_eq, hk'.changedItems_eq, hk.changedRows_eq,
    hk'.changedRows_eq]
  unfold publishedItems changedItems changedRows
  rw [hsort (hperm.filterMap _), hsort ((hperm.filter _).map _), hsort (hperm.flatMap_right _)]

/-! What a call comes to. -/

/-- A run is given up, fails at its end, or succeeds. -/
inductive Concludes (call : PublicationCall R S ι ε π) (cancels : Prop) (effects : Option (List (DependencyEffect R))) :
    PublicationResult R S ε π → Prop
  | abandoned (c : PublicationCoordinator R S ι ε π) (reported : Reported ε π) :
    call.Abandons cancels reported c → Concludes call cancels effects (c.failed call.calls effects reported)
  | failed (c : PublicationCoordinator R S ι ε π) (h : History R ε π) (reported : Reported ε π) :
    Ended call cancels c h → resolveDependencyFailure call.calls c = .error reported →
      Concludes call cancels effects (c.failed call.calls effects reported)
  | succeeded (c : PublicationCoordinator R S ι ε π) (h : History R ε π) :
    Ended call cancels c h → resolveDependencyFailure call.calls c = .ok () →
      Concludes call cancels effects ⟨c.rows, effects.map fun _ => stabilize c.journal, .ok c.execution, c.events⟩

theorem publish_concludes (call : PublicationCall R S ι ε π) (parallelism : Nat) (schedule : Nat → Turn) {fuel : Nat}
    (hfuel : 2 * call.seeds.length < fuel) (effects : Option (List (DependencyEffect R)))
    (hvalid : validatePublicationExecution call.calls call.worklist (call.calls.store.len call.rows) call.activation =
      .ok ()) :
    ∃ r, publishDependencyRows call.calls parallelism schedule fuel call.worklist call.rows call.activation effects =
      some r ∧ Concludes call (Cancels schedule) effects r := by
  unfold publishDependencyRows
  rw [hvalid]
  dsimp only
  have ht := tracks_start call
  by_cases hcancelled : (schedule 0).cancelledBefore = true
  · rw [if_pos hcancelled]
    exact ⟨_, rfl, .abandoned _ _ ⟨ht.kept.restores, ht.told.nodup, ht.told.inOrder, .inl ⟨⟨0, .inl hcancelled⟩, rfl⟩⟩⟩
  · rw [if_neg hcancelled]
    have hloop := coordinate_outcome call (min call.worklist.pending parallelism) schedule hfuel
    unfold Outcome at hloop
    generalize EStateM.run (loop _ fuel 1) _ = result at hloop ⊢
    cases result with
    | error reported c => exact ⟨_, rfl, .abandoned c reported hloop⟩
    | ok ended c =>
      obtain ⟨rfl, h, hended⟩ := hloop
      dsimp only
      cases hresolve : resolveDependencyFailure call.calls c with
      | error reported => exact ⟨_, rfl, .failed c h reported hended hresolve⟩
      | ok _ => exact ⟨_, rfl, .succeeded c h hended hresolve⟩

theorem resolve_ok (hresolve : resolveDependencyFailure call.calls c = .ok ()) : c.failure = none ∧ c.cancelled = false := by
  unfold resolveDependencyFailure at hresolve
  cases hfailure : c.failure with
  | some failure =>
    rw [hfailure] at hresolve
    cases hresolve
  | none =>
    rw [hfailure] at hresolve
    dsimp only at hresolve
    split_ifs at hresolve with hcancelled
    exact ⟨rfl, Bool.eq_false_of_not_eq_true hcancelled⟩

theorem outcomeOf_ne_skipped (s : S) (i : Nat) : call.outcomeOf s i ≠ .skipped := by
  unfold outcomeOf
  cases call.calls.prepare s i >>= call.calls.analyze with
  | error failure => exact fun hskip => by cases hskip
  | ok output =>
    unfold judged
    dsimp only
    split_ifs
    · exact fun hskip => by cases hskip
    · exact fun hskip => by cases hskip

theorem mem_changedItems (hkeys : (h.map (·.1)).Nodup) (i : Nat) :
    i ∈ call.changedItems h ↔ (entriesAt h i).any call.differs = true := by
  rw [changedItems, List.mem_map]
  constructor
  · intro hmem
    obtain ⟨entry, hentry, rfl⟩ := hmem
    obtain ⟨hentry, hdiffers⟩ := List.mem_filter.mp hentry
    rw [entriesAt, (mem_iff_lookup hkeys).mp hentry]
    exact hdiffers
  · intro hany
    cases hlookup : h.lookup i with
    | none =>
      rw [entriesAt, hlookup] at hany
      cases hany
    | some x =>
      rw [entriesAt, hlookup] at hany
      exact ⟨(i, x), List.mem_filter.mpr ⟨mem_of_lookup hlookup, hany⟩, rfl⟩

/-- In a run that succeeds every scheduled item is published or skipped, as it is active or not. -/
theorem Ended.settled (he : Ended call cancels c h) (hresolve : resolveDependencyFailure call.calls c = .ok ()) {i : Nat}
    (hseed : i ∈ call.seeds) : (call.isActive h i = true ∧ ∃ entries, h.lookup i = some (.published entries)) ∨
      call.isActive h i = false ∧ h.lookup i = some .skipped := by
  obtain ⟨hfailure, hkept⟩ := resolve_ok hresolve
  have hsettled : ∀ j x, h.lookup j = some x → x.isSettled = true := by
    intro j x hx
    cases x with
    | skipped => rfl
    | published entries => rfl
    | failed f =>
      obtain ⟨k, g, hfailed, -⟩ := (least_retained h).reports j f (mem_of_lookup hx)
      rw [← he.tracks.kept.failure_eq, hfailure] at hfailed
      cases hfailed
    | discarded =>
      rw [he.tracks.discards j hx] at hkept
      cases hkept
  obtain ⟨x, hx⟩ := (he.complete hkept).total (uses_ranked call) hsettled hseed
  have hexplains := (he.tracks.flow.explained i x hx).2.2
  unfold Explains at hexplains
  split_ifs at hexplains with hactive
  · refine .inl ⟨hactive, ?_⟩
    have hx' := hsettled i x hx
    cases x with
    | skipped =>
      obtain ⟨s, -, hs⟩ := hexplains.resolve_left fun hd => by cases hd
      exact absurd hs.symm (outcomeOf_ne_skipped s i)
    | published entries => exact ⟨entries, hx⟩
    | failed f => cases hx'
    | discarded => cases hx'
  · rw [hexplains] at hx
    exact .inr ⟨Bool.eq_false_of_not_eq_true hactive, hx⟩

end PublicationCall

/-- What a call promises, whatever arrives when, and however it ends. -/
structure Publishes {R S ι ε π : Type} (calls : DependencyCalls R S ι ε π) (worklist : DependencyWorklist)
    (seeds : List Nat) (rows : S) (activation : DependencyActivation) (schedule : Nat → Turn)
    (r : PublicationResult R S ε π) : Prop where
  once : r.events.Nodup
  inOrder : PublicationCall.InOrder worklist.enabledDependencies seeds r.events
  /-- A scheduled item runs and is published where it is active, and is skipped elsewhere. -/
  complete : ∀ execution, r.result = .ok execution → ∀ i ∈ seeds,
    let active := activation.contains i = true ∨ ∃ d ∈ worklist.enabledDependencies i, d ∈ execution.changedItems
    (.ran i ∈ r.events ↔ active) ∧ (.published i ∈ r.events ↔ active) ∧ (.skipped i ∈ r.events ↔ ¬active)
  restored : ∀ reported, r.result = .error reported → calls.store.Same r.rows rows
  /-- What fails is an item, unless the run was cancelled or its arguments do not fit. -/
  failed : validatePublicationExecution calls worklist (calls.store.len rows) activation = .ok () →
    ¬PublicationCall.Cancels schedule → ∀ reported, r.result = .error reported → reported.item ≠ none

namespace PublicationCall

variable {R S ι ε π : Type} {call : PublicationCall R S ι ε π}

theorem Concludes.publishes {schedule : Nat → Turn} {effects : Option (List (DependencyEffect R))}
    {r : PublicationResult R S ε π} (hr : Concludes call (Cancels schedule) effects r) :
    Publishes call.calls call.worklist call.seeds call.rows call.activation schedule r := by
  cases hr with
  | abandoned c reported ha =>
    refine ⟨ha.nodup, ha.inOrder, ?_, fun _ _ => ha.restores.same, ?_⟩
    · intro execution hexecution
      cases hexecution
    · intro _ hkept reported' hreported
      cases hreported
      rcases ha.cause with hcancelled | hpanic
      · exact absurd hcancelled.1 hkept
      · obtain ⟨item, payload, rfl, -⟩ := hpanic
        exact Option.some_ne_none item
  | failed c h reported he hresolve =>
    refine ⟨he.tracks.told.nodup, he.tracks.told.inOrder, ?_, fun _ _ => he.tracks.kept.restores.same, ?_⟩
    · intro execution hexecution
      cases hexecution
    · intro _ hkept reported' hreported
      cases hreported
      unfold resolveDependencyFailure at hresolve
      cases hfailure : c.failure with
      | some failure =>
        rw [hfailure] at hresolve
        cases hresolve
        exact Option.some_ne_none _
      | none =>
        rw [hfailure] at hresolve
        dsimp only at hresolve
        split_ifs at hresolve with hcancelled
        exact absurd (he.cancelled hcancelled) hkept
  | succeeded c h he hresolve =>
    refine ⟨he.tracks.told.nodup, he.tracks.told.inOrder, ?_, ?_, ?_⟩
    · intro execution hexecution i hseed active
      cases hexecution
      have hactive : call.isActive h i = true ↔ active := by
        rw [isActive, Bool.or_eq_true, List.any_eq_true]
        apply or_congr_right
        apply exists_congr
        intro d
        apply and_congr_right
        intro _
        rw [← mem_changedItems he.tracks.flow.keys, ← he.tracks.kept.changedItems_eq]
        exact (List.mem_insertionSort _).symm
      have htold := he.tracks.told
      rw [htold.ran, htold.published, htold.skipped, ← hactive]
      rcases he.settled hresolve hseed with hpublished | hskipped
      · obtain ⟨ha, entries, hlookup⟩ := hpublished
        rw [hlookup, ha]
        simp
      · rw [hskipped.2, hskipped.1]
        simp
    · intro reported hreported
      cases hreported
    · intro _ _ reported hreported
      cases hreported

/-- Without cancellation, and while the rows do not panic, the result does not depend on the schedule. -/
theorem Concludes.unique {cancels cancels' : Prop} {effects : Option (List (DependencyEffect R))}
    {r r' : PublicationResult R S ε π} (hr : Concludes call cancels effects r) (hr' : Concludes call cancels' effects r')
    (hkept : ¬cancels) (hkept' : ¬cancels') (hstore : ∀ payload, ¬DependencyStorePanics call.calls.store payload) :
    call.calls.store.Same r.rows r'.rows ∧ r.effects = r'.effects ∧ r.result = r'.result := by
  have hends {cancels : Prop} {r : PublicationResult R S ε π} (hr : Concludes call cancels effects r) (hkept : ¬cancels) :
      ∃ c h, Ended call cancels c h ∧ c.cancelled = false ∧
        ((∃ failure, c.failure = some failure ∧ r = c.failed call.calls effects ⟨some failure.1, failure.2⟩) ∨
          c.failure = none ∧ r = ⟨c.rows, effects.map fun _ => stabilize c.journal, .ok c.execution, c.events⟩) := by
    cases hr with
    | abandoned c reported ha =>
      rcases ha.cause with hcancelled | hpanic
      · exact absurd hcancelled.1 hkept
      · obtain ⟨item, payload, -, hpanics⟩ := hpanic
        exact absurd hpanics (hstore payload)
    | failed c h reported he hresolve =>
      have hcancelled : c.cancelled = false := Bool.eq_false_of_not_eq_true fun hc => hkept (he.cancelled hc)
      refine ⟨c, h, he, hcancelled, .inl ?_⟩
      unfold resolveDependencyFailure at hresolve
      cases hfailure : c.failure with
      | some failure =>
        rw [hfailure] at hresolve
        cases hresolve
        exact ⟨failure, rfl, rfl⟩
      | none =>
        rw [hfailure, hcancelled] at hresolve
        cases hresolve
    | succeeded c h he hresolve =>
      obtain ⟨hfailure, hcancelled⟩ := resolve_ok hresolve
      exact ⟨c, h, he, hcancelled, .inr ⟨hfailure, rfl⟩⟩
  obtain ⟨c, h, he, hcancelled, hc⟩ := hends hr hkept
  obtain ⟨c', h', he', hcancelled', hc'⟩ := hends hr' hkept'
  have hperm := he.perm he' hcancelled hcancelled'
  have hlookup (i : Nat) : h.lookup i = h'.lookup i :=
    (he.complete hcancelled).unique (uses_ranked call) (fun _ _ _ _ _ hagree hx hx' => hx.unique hagree hx')
      (he'.complete hcancelled') i
  have hkt := he.tracks.kept
  have hkt' := he'.tracks.kept
  have hfailure : c.failure = c'.failure := by
    rw [hkt.failure_eq, hkt'.failure_eq]
    exact (least_retained h).unique (least_retained h') hperm he'.tracks.flow.keys
  rcases hc with hfailed | hdone
  · obtain ⟨failure, hf, rfl⟩ := hfailed
    rcases hc' with hfailed' | hdone'
    · obtain ⟨failure', hf', rfl⟩ := hfailed'
      rw [hf, hf'] at hfailure
      obtain rfl := Option.some.inj hfailure
      exact ⟨hkt.restores.same.trans hkt'.restores.same.symm, rfl, rfl⟩
    · rw [hf, hdone'.1] at hfailure
      cases hfailure
  · obtain ⟨hf, rfl⟩ := hdone
    rcases hc' with hfailed' | hdone'
    · obtain ⟨failure', hf', rfl⟩ := hfailed'
      rw [hf, hf'] at hfailure
      cases hfailure
    · obtain ⟨-, rfl⟩ := hdone'
      refine ⟨hkt.same hkt' hlookup, ?_, ?_⟩
      · dsimp only
        rw [hkt.journal_eq, hkt'.journal_eq, stabilize_perm hperm]
      · dsimp only
        rw [hkt.execution_eq hkt' hperm]

end PublicationCall

theorem activationLength_of_valid {R S ι ε π : Type} {calls : DependencyCalls R S ι ε π} {worklist : DependencyWorklist}
    {rowCount : Nat} {activation : DependencyActivation}
    (hvalid : validatePublicationExecution calls worklist rowCount activation = .ok ()) :
    calls.plan.rowCount = rowCount ∧
      ∀ active, activation.active = some active → active.length = worklist.itemCount := by
  unfold validatePublicationExecution at hvalid
  split_ifs at hvalid with hitems hrows hactivation
  · cases hvalid
  · cases hvalid
  · cases hvalid
  · refine ⟨not_not.mp hrows, ?_⟩
    intro active hactive
    rw [DependencyActivation.itemCount, hactive] at hactivation
    simpa using hactivation

/-- Rows are published once and after what they depend on, a failed run takes them back, and
without cancellation the rows, the summary, the journal and the failure are the same for
every number of workers and every order of arrival. -/
theorem dependency_publication_exact {R S ι ε π : Type} (itemCount : Nat) (order : List Nat)
    (dependencies : Nat → List Nat) {plan : DependencyPlan}
    (hplan : DependencyPlan.fromTopologicalOrder itemCount order dependencies = .ok plan) (direction : DependencyDirection)
    (seeds : List Nat) (disabled : List (Nat × Nat)) {worklist : DependencyWorklist}
    (hworklist : plan.worklistMasked direction seeds disabled = .ok worklist) (calls : DependencyCalls R S ι ε π)
    (hrows : (∃ rowCount, calls.plan = .identity rowCount) ∨
      ∃ items rowCount entries, DependencyPublicationPlan.sparse items rowCount entries = .ok calls.plan)
    (hlocal : calls.PreparesLocally worklist) (rows : S) (activation : DependencyActivation)
    (effects : Option (List (DependencyEffect R))) :
    (∀ parallelism schedule fuel, 2 * seeds.length < fuel →
      ∃ r, publishDependencyRows calls parallelism schedule fuel worklist rows activation effects = some r ∧
        Publishes calls worklist seeds rows activation schedule r) ∧
    ((∀ payload, ¬PublicationCall.DependencyStorePanics calls.store payload) →
      ∀ parallelism parallelism' schedule schedule' fuel fuel' r r', ¬PublicationCall.Cancels schedule →
        ¬PublicationCall.Cancels schedule' → 2 * seeds.length < fuel → 2 * seeds.length < fuel' →
        publishDependencyRows calls parallelism schedule fuel worklist rows activation effects = some r →
        publishDependencyRows calls parallelism' schedule' fuel' worklist rows activation effects = some r' →
        calls.store.Same r.rows r'.rows ∧ r.effects = r'.effects ∧ r.result = r'.result) := by
  have hsealed := ((DependencyPlan.fromTopologicalOrder_settles itemCount order dependencies).ok hplan).1
  have hbuilding := (DependencyWorklist.worklistMasked_settles hsealed direction seeds disabled).ok hworklist
  have hplanSealed : calls.plan.Sealed := by
    rcases hrows with hidentity | hsparse
    · obtain ⟨rowCount, hidentity⟩ := hidentity
      rw [hidentity]
      exact DependencyPublicationPlan.identity_sealed rowCount
    · obtain ⟨items, rowCount, entries, hsparse⟩ := hsparse
      exact (DependencyPublicationPlan.sparse_settles items rowCount entries).ok hsparse
  cases hvalid : validatePublicationExecution calls worklist (calls.store.len rows) activation with
  | error e =>
    have hrun (parallelism : Nat) (schedule : Nat → Turn) (fuel : Nat) :
        publishDependencyRows calls parallelism schedule fuel worklist rows activation effects =
          some ⟨rows, effects, .error ⟨none, .error (calls.fromRuntime e)⟩, []⟩ := by
      rw [publishDependencyRows, hvalid]
    constructor
    · intro parallelism schedule fuel _
      refine ⟨_, hrun parallelism schedule fuel, List.nodup_nil, ?_, ?_, fun _ _ => ⟨rfl, fun _ => rfl⟩, ?_⟩
      · intro k i hk
        cases hk
      · intro execution hexecution
        cases hexecution
      · intro hok
        rw [hvalid] at hok
        cases hok
    · intro _ parallelism parallelism' schedule schedule' fuel fuel' r r' _ _ _ _ hr hr'
      rw [hrun] at hr hr'
      obtain rfl := Option.some.inj hr
      obtain rfl := Option.some.inj hr'
      exact ⟨⟨rfl, fun _ => rfl⟩, rfl, rfl⟩
  | ok _ =>
    obtain ⟨hrowCount, hactivation⟩ := activationLength_of_valid hvalid
    let call : PublicationCall R S ι ε π :=
      ⟨calls, worklist, rows, activation, seeds, hplanSealed, ⟨plan, direction, disabled, hbuilding⟩, hrowCount,
        hactivation, hlocal⟩
    constructor
    · intro parallelism schedule fuel hfuel
      obtain ⟨r, hr, hconcludes⟩ := call.publish_concludes parallelism schedule hfuel effects hvalid
      exact ⟨r, hr, hconcludes.publishes⟩
    · intro hstore parallelism parallelism' schedule schedule' fuel fuel' r r' hkept hkept' hfuel hfuel' hr hr'
      obtain ⟨s, hs, hconcludes⟩ := call.publish_concludes parallelism schedule hfuel effects hvalid
      obtain ⟨s', hs', hconcludes'⟩ := call.publish_concludes parallelism' schedule' hfuel' effects hvalid
      obtain rfl := Option.some.inj (hr.symm.trans hs)
      obtain rfl := Option.some.inj (hr'.symm.trans hs')
      exact hconcludes.unique hconcludes' hkept hkept' hstore

/-! Two items. -/

/-- Each of two items adds up the rows that it reads, its own among them. -/
def sumCalls (store : DependencyRowStore Nat (List Nat) String) (reads : Nat → List Nat) :
    DependencyCalls Nat (List Nat) (Nat × Nat) String String where
  plan := .identity 2
  store
  prepare rows item := .ok (item, (((item :: reads item).filter (· < 2)).map fun row => (store.get rows row).getD 0).sum)
  analyze input := .ok (.row input.1 (input.2 + 1))
  fromRuntime _ := "runtime"

theorem sumCalls_local (store : DependencyRowStore Nat (List Nat) String) {reads : Nat → List Nat}
    {worklist : DependencyWorklist} (hreads : ∀ item, ∀ d ∈ reads item, d ∈ worklist.enabledDependencies item) :
    (sumCalls store reads).PreparesLocally worklist := by
  intro item s t _ hsame
  have hsum : (((item :: reads item).filter (· < 2)).map fun row => (store.get s row).getD 0) =
      ((item :: reads item).filter (· < 2)).map fun row => (store.get t row).getD 0 := by
    apply List.map_congr_left
    intro row hrow
    obtain ⟨hmem, hlt⟩ := List.mem_filter.mp hrow
    have hlt := of_decide_eq_true hlt
    have howned : row ∈ (DependencyPublicationPlan.identity 2).ownedRows row :=
      DependencyPublicationPlan.mem_ownedRows_identity.mpr ⟨rfl, hlt⟩
    rcases List.mem_cons.mp hmem with hitem | hread
    · rw [show store.get s row = store.get t row from hsame row (.inl hitem) row howned]
    · rw [show store.get s row = store.get t row from hsame row (.inr (hreads item row hread)) row howned]
  unfold sumCalls
  dsimp only
  rw [hsum]

def arrivals (order : List Nat) (k : Nat) : Turn := ⟨false, false, order[k]?.getD 0⟩

theorem not_cancels_arrivals (order : List Nat) : ¬PublicationCall.Cancels (arrivals order) := by
  intro hcancels
  obtain ⟨k, hk⟩ := hcancels
  rcases hk with hbefore | hafter
  · cases hbefore
  · cases hafter

def chainWorklist : DependencyWorklist where
  plan := ⟨⟨[[], [0]]⟩, ⟨[[1], []]⟩, [0, 1]⟩
  direction := .forward
  disabledDependencies := []
  state := [.pending, .pending]
  unresolved := [0, 1]
  ready := [(0, 0)]
  pending := 2
  running := 0

def chainCalls : DependencyCalls Nat (List Nat) (Nat × Nat) String String :=
  sumCalls (sliceRowStore Nat String) fun item => if item = 1 then [0] else []

/-- The second item reads the row of the first, and sees what that published. -/
theorem dependency_publication_chain : ∃ r r',
    publishDependencyRows chainCalls 1 (arrivals []) 5 chainWorklist [5, 7] .all (some []) = some r ∧
    publishDependencyRows chainCalls 2 (arrivals [1, 1]) 5 chainWorklist [5, 7] .all (some []) = some r' ∧
    r.rows = [6, 14] ∧ r.effects = some [⟨0, 0, 5⟩, ⟨1, 1, 7⟩] ∧ r.result = r'.result := by
  have hrun : publishDependencyRows chainCalls 1 (arrivals []) 5 chainWorklist [5, 7] .all (some []) =
      some ⟨[6, 14], some [⟨0, 0, 5⟩, ⟨1, 1, 7⟩], .ok ⟨[0, 1], [0, 1], [0, 1]⟩,
        [.ran 0, .published 0, .ran 1, .published 1]⟩ := by
    decide +kernel
  have hplan : DependencyPlan.fromTopologicalOrder 2 [0, 1] (fun item => List.range item) = .ok chainWorklist.plan := rfl
  have hworklist : chainWorklist.plan.worklistMasked .forward [1, 0] [] = .ok chainWorklist := rfl
  have hlocal : chainCalls.PreparesLocally chainWorklist := by
    apply sumCalls_local
    intro item d hd
    split_ifs at hd with hitem
    · rw [hitem, List.mem_singleton.mp hd]
      decide
    · exact absurd hd List.not_mem_nil
  have hquiet : ∀ payload, ¬PublicationCall.DependencyStorePanics chainCalls.store payload := by
    intro payload hpanics
    obtain ⟨rows, row, value, hreplace⟩ := hpanics
    cases hreplace
  obtain ⟨hruns, hsame⟩ := dependency_publication_exact 2 [0, 1] (fun item => List.range item) hplan .forward [1, 0] []
    hworklist chainCalls (.inl ⟨2, rfl⟩) hlocal [5, 7] .all (some [])
  obtain ⟨r', hrun', -⟩ := hruns 2 (arrivals [1, 1]) 5 (by decide)
  have hresults := hsame hquiet 1 2 (arrivals []) (arrivals [1, 1]) 5 5 _ r' (not_cancels_arrivals _)
    (not_cancels_arrivals _) (by decide) (by decide) hrun hrun'
  exact ⟨_, r', hrun, hrun', rfl, rfl, hresults.2.2⟩

/-- Rows that panic whenever one is replaced. -/
def panickingStore : DependencyRowStore Nat (List Nat) String :=
  { sliceRowStore Nat String with
    replace := fun rows row _ => if row < rows.length then .error "row storage" else .ok none
    replace_some := fun rows row value previous changed rows' h => by
      split_ifs at h
      cases h
    replace_none := fun rows row value h => by
      split_ifs at h with hlt
      exact Nat.not_lt.mp hlt }

def pairWorklist : DependencyWorklist where
  plan := ⟨⟨[[], []]⟩, ⟨[[], []]⟩, [0, 1]⟩
  direction := .forward
  disabledDependencies := []
  state := [.pending, .pending]
  unresolved := [0, 0]
  ready := [(0, 0), (1, 1)]
  pending := 2
  running := 0

/-- A panic of the rows ends the run at once, so it is reported for the item whose result came first. -/
theorem row_storage_panic_reported :
    DependencyPlan.fromTopologicalOrder 2 [0, 1] (fun _ => []) = .ok pairWorklist.plan ∧
    pairWorklist.plan.worklistMasked .forward [0, 1] [] = .ok pairWorklist ∧
    (sumCalls panickingStore fun _ => []).PreparesLocally pairWorklist ∧
    ¬PublicationCall.Cancels (arrivals []) ∧ ¬PublicationCall.Cancels (arrivals [1, 1]) ∧
    publishDependencyRows (sumCalls panickingStore fun _ => []) 1 (arrivals []) 5 pairWorklist [5, 7] .all none =
      some ⟨[5, 7], none, .error ⟨some 0, .panic "row storage"⟩, [.ran 0]⟩ ∧
    publishDependencyRows (sumCalls panickingStore fun _ => []) 2 (arrivals [1, 1]) 5 pairWorklist [5, 7] .all none =
      some ⟨[5, 7], none, .error ⟨some 1, .panic "row storage"⟩, [.ran 0, .ran 1]⟩ := by
  refine ⟨rfl, rfl, ?_, not_cancels_arrivals _, not_cancels_arrivals _, by decide +kernel, by decide +kernel⟩
  exact sumCalls_local panickingStore fun _ _ hd => absurd hd List.not_mem_nil

end Opto.Runtime
