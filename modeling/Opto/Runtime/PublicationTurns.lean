import Opto.Runtime.PublicationRuns

/-!
# Turns of a publication

Whatever a turn claims, starts, commits or takes back, the coordinator keeps track of the
outcomes. Every turn that does not end a run has an item started or settled.
-/

namespace Opto.Runtime

/-! Activation. -/

theorem DependencyActivation.contains_activate {activation : DependencyActivation} {item : Nat}
    (hlt : ∀ active, activation.active = some active → item < active.length) (j : Nat) :
    (activation.activate item).contains j = (activation.contains j || decide (j = item)) := by
  obtain ⟨active⟩ := activation
  cases active with
  | none => rfl
  | some active =>
    change (active.set item true)[j]?.getD false = (active[j]?.getD false || decide (j = item))
    by_cases hj : j = item
    · rw [hj, List.getElem?_set_self (hlt active rfl)]
      simp
    · rw [List.getElem?_set_ne fun he => hj he.symm]
      simp [hj]

theorem DependencyActivation.length_activate {activation : DependencyActivation} (item : Nat) {count : Nat}
    (hlength : ∀ active, activation.active = some active → active.length = count) :
    ∀ active, (activation.activate item).active = some active → active.length = count := by
  intro active hactive
  obtain ⟨old, hold, rfl⟩ := Option.map_eq_some_iff.mp hactive
  rw [List.length_set]
  exact hlength old hold

namespace DependencyWorklist

variable {w : DependencyWorklist} {count : Nat} {activation : DependencyActivation}

theorem activate_fold (w : DependencyWorklist) (item : Nat) {dependents : List Nat} (hlt : ∀ d ∈ dependents, d < count)
    (hlength : ∀ active, activation.active = some active → active.length = count) :
    let activated := dependents.foldl (fun activation dependent =>
      if w.dependentIsEnabled item dependent then activation.activate dependent else activation) activation
    (∀ active, activated.active = some active → active.length = count) ∧
      ∀ j, activated.contains j = (activation.contains j || decide (j ∈ dependents ∧ w.dependentIsEnabled item j = true)) := by
  induction dependents generalizing activation with
  | nil =>
    refine ⟨hlength, ?_⟩
    intro j
    simp
  | cons d dependents ih =>
    rw [List.foldl_cons]
    have hrest : ∀ d ∈ dependents, d < count := fun d hd => hlt d (List.mem_cons_of_mem _ hd)
    split_ifs with henabled
    · obtain ⟨hlengths, hcontains⟩ := ih hrest (DependencyActivation.length_activate d hlength)
      refine ⟨hlengths, ?_⟩
      intro j
      rw [hcontains, DependencyActivation.contains_activate]
      · by_cases hj : j = d
        · subst hj
          simp [henabled]
        · simp [hj]
      · intro active hactive
        rw [hlength active hactive]
        exact hlt d List.mem_cons_self
    · obtain ⟨hlengths, hcontains⟩ := ih hrest hlength
      refine ⟨hlengths, ?_⟩
      intro j
      rw [hcontains]
      by_cases hj : j = d
      · subst hj
        simp [henabled]
      · simp [hj]

theorem activateDependents_spec (hw : w.Valid) (item : Nat)
    (hlength : ∀ active, activation.active = some active → active.length = w.itemCount) :
    (∀ active, (w.activateDependents item activation).active = some active → active.length = w.itemCount) ∧
      ∀ j, (w.activateDependents item activation).contains j =
        (activation.contains j || decide (item ∈ w.enabledDependencies j)) := by
  have hlt : ∀ d ∈ w.dependents item, d < w.itemCount := by
    intro d hd
    rw [itemCount, hw.length]
    cases hdirection : w.direction with
    | forward =>
      rw [dependents, hdirection] at hd
      exact hw.sealedPlan.dependency_lt .reverse item d hd
    | reverse =>
      rw [dependents, hdirection] at hd
      exact hw.sealedPlan.dependency_lt .forward item d hd
  obtain ⟨hlengths, hcontains⟩ := activate_fold w item hlt hlength
  refine ⟨hlengths, ?_⟩
  intro j
  refine (hcontains j).trans ?_
  congr 1
  apply decide_eq_decide.mpr
  rw [mem_enabledDependencies]
  exact and_congr_left' (hw.sealedPlan.dependents_iff w.direction j item)

end DependencyWorklist

namespace PublicationCall

variable {R S ι ε π : Type} {call : PublicationCall R S ι ε π} {h h' : History R ε π}
  {c c' : PublicationCoordinator R S ι ε π} {i : Nat} {x : ItemOutcome R ε π}

theorem isActive_snoc (hfresh : h.lookup i = none) (j : Nat) :
    call.isActive (h ++ [(i, x)]) j =
      (call.isActive h j || (x.entries.any call.differs && decide (i ∈ call.uses j))) := by
  rw [isActive, isActive, Bool.or_assoc, Bool.eq_iff_iff]
  simp only [Bool.or_eq_true, Bool.and_eq_true, List.any_eq_true, decide_eq_true_eq, entriesAt_snoc hfresh]
  constructor
  · intro hactive
    rcases hactive with hinitial | hused
    · exact .inl hinitial
    · obtain ⟨d, hd, e, he, hdiffers⟩ := hused
      split_ifs at he with hdi
      · exact .inr (.inr ⟨⟨e, he, hdiffers⟩, hdi ▸ hd⟩)
      · exact .inr (.inl ⟨d, hd, e, he, hdiffers⟩)
  · intro hactive
    rcases hactive with hinitial | hused | hnew
    · exact .inl hinitial
    · obtain ⟨d, hd, e, he, hdiffers⟩ := hused
      refine .inr ⟨d, hd, e, ?_, hdiffers⟩
      rw [if_neg]
      · exact he
      · intro hdi
        rw [hdi, entriesAt_fresh hfresh] at he
        exact List.not_mem_nil he
    · obtain ⟨⟨e, he, hdiffers⟩, hi⟩ := hnew
      refine .inr ⟨i, hi, e, ?_, hdiffers⟩
      rw [if_pos rfl]
      exact he

/-- The rows of a publication and its summary are committed. -/
theorem Kept.publish (hk : Kept call c h) {busy : List Nat} (hworking : Working call c.worklist h busy)
    (hfresh : h.lookup i = none) {entries : List (Nat × R)}
    (hrows : entries.map (·.1) = call.calls.plan.ownedRows i) {itemChanged : Bool}
    (hc : Committed call c i entries itemChanged c') (worklist : DependencyWorklist) (events : List Event) :
    Kept call { c' with
      worklist, events
      publishedItems := c'.publishedItems ++ [i]
      changedItems := if itemChanged then c'.changedItems ++ [i] else c'.changedItems
      activation := if itemChanged then c'.worklist.activateDependents i c'.activation else c'.activation }
      (h ++ [(i, .published entries)]) := by
  have hc' := hc.eq
  have hnone : ∀ row, row ∉ call.calls.plan.ownedRows i → entries.lookup row = none := by
    intro row hrow
    rw [List.lookup_eq_none_iff]
    intro e he
    rw [← hrows] at hrow
    have hne : row ≠ e.1 := fun heq => hrow (heq ▸ List.mem_map_of_mem he)
    simpa using hne
  have hlength : ∀ active, c.activation.active = some active → active.length = c.worklist.itemCount := by
    rw [DependencyWorklist.itemCount, hworking.valid.length, hworking.plan_eq]
    obtain ⟨plan, direction, disabled, hbuilding⟩ := call.building
    rw [← hbuilding.length]
    exact hk.activeLength
  have hactivation := DependencyWorklist.activateDependents_spec hworking.valid i hlength
  have hsame : c'.worklist = c.worklist ∧ c'.activation = c.activation := by
    rw [hc']
    exact ⟨rfl, rfl⟩
  constructor
  · intro j row hrow
    rw [hc.get, valueAt, entriesAt_snoc hfresh]
    split_ifs with hj
    · subst hj
      rw [(hk.sees hfresh).own row hrow]
      rfl
    · rw [hnone row fun hi => hj (call.sealedPlan.exclusive j i row hrow hi), Option.none_or]
      exact hk.owned j row hrow
  · intro row hrow
    rw [hc.get, hnone row (hrow i), Option.none_or]
    exact hk.unowned row hrow
  · exact hc.restores
  · intro j
    rw [isActive_snoc hfresh, ← hk.active]
    change DependencyActivation.contains (if itemChanged then _ else _) j = _
    rw [hsame.1, hsame.2, hc.changed]
    change _ = (_ || (entries.any call.differs && _))
    split_ifs with hchanged
    · rw [hactivation.2, hchanged, hworking.uses_eq]
      rfl
    · rw [Bool.eq_false_of_not_eq_true hchanged]
      simp
  · change ∀ active, DependencyActivation.active (if itemChanged then _ else _) = some active → _
    rw [hsame.1, hsame.2]
    split_ifs with hchanged
    · intro active hactive
      refine (hactivation.1 active hactive).trans ?_
      obtain ⟨plan, direction, disabled, hbuilding⟩ := call.building
      rw [DependencyWorklist.itemCount, DependencyWorklist.itemCount, hworking.valid.length, hworking.plan_eq,
        hbuilding.length]
    · exact hk.activeLength
  · rw [hc']
    change c.publishedItems ++ [i] = _
    rw [hk.publishedItems_eq, publishedItems, publishedItems, List.filterMap_append]
    rfl
  · change (if itemChanged then _ else _) = _
    rw [hc', hc.changed]
    change (if entries.any call.differs then c.changedItems ++ [i] else c.changedItems) = _
    rw [hk.changedItems_eq, changedItems, changedItems, List.filter_append, List.map_append]
    split_ifs with hchanged
    · simp [ItemOutcome.entries, hchanged]
    · simp [ItemOutcome.entries, hchanged]
  · rw [hc']
    change c.changedRows ++ _ = _
    rw [hk.changedRows_eq, changedRows, changedRows, List.flatMap_append]
    simp [ItemOutcome.entries]
  · rw [hc']
    change c.journal ++ _ = _
    rw [hk.journal_eq, journal, journal, List.flatMap_append]
    simp [ItemOutcome.entries]
  · rw [hc', List.foldl_append, ← hk.failure_eq]
    rfl

/-! A run. -/

/-- What a worker was given. -/
def Launched (call : PublicationCall R S ι ε π) (h : History R ε π) (entry : Nat × ι) : Prop :=
  call.isActive h entry.1 = true ∧ ∃ s, call.Sees h entry.1 s ∧ call.calls.prepare s entry.1 = .ok entry.2

/-- Claimed items and items that began are running. -/
structure Tracks (call : PublicationCall R S ι ε π) (c : PublicationCoordinator R S ι ε π) (h : History R ε π)
    (claimed begun : List Nat) : Prop where
  flow : Flow call h (claimed ++ begun)
  kept : Kept call c h
  working : Working call c.worklist h (claimed ++ begun)
  told : Told call c.events h begun
  flying : ∀ entry ∈ c.inFlight, entry.1 ∈ begun ∧ call.Launched h entry
  flyingNodup : (c.inFlight.map (·.1)).Nodup
  discards : ∀ i, h.lookup i = some .discarded → c.cancelled = true

/-- How a run may be given up: it was cancelled, or the rows panicked. -/
structure Abandons (call : PublicationCall R S ι ε π) (cancels : Prop) (reported : Reported ε π)
    (c : PublicationCoordinator R S ι ε π) : Prop where
  restores : Restores call.calls call.rows c.journal c.rows
  nodup : c.events.Nodup
  inOrder : InOrder call.uses call.seeds c.events
  cause : (cancels ∧ reported = ⟨none, .error (call.calls.fromRuntime .cancelled)⟩) ∨
    ∃ item payload, reported = ⟨some item, .panic payload⟩ ∧ DependencyStorePanics call.calls.store payload

section Steps

variable {claimed begun claimed' begun' : List Nat} {cancels : Prop}

theorem Launched.snoc {entry : Nat × ι} (hlaunched : call.Launched h entry) (hready : call.Ready h entry.1)
    (hfresh : h.lookup i = none) (hseed : i ∈ call.seeds) : call.Launched (h ++ [(i, x)]) entry := by
  obtain ⟨hactive, s, hsees, hprepare⟩ := hlaunched
  have hagree := hready.agree (x := x) hfresh hseed
  exact ⟨(isActive_congr hagree).symm.trans hactive, s, hsees.congr hagree, hprepare⟩

/-- One item has an outcome; the rest goes on. -/
theorem Tracks.snoc (ht : Tracks call c h claimed begun) (hi : i ∈ claimed ++ begun) (hx : call.Explains h i x)
    (hidle : ∀ entry ∈ c.inFlight, entry.1 ≠ i) (hnodup : (claimed' ++ begun').Nodup)
    (hbusy : ∀ j, j ∈ claimed' ++ begun' ↔ j ∈ claimed ++ begun ∧ j ≠ i) (hbegun : ∀ j, j ∈ begun' ↔ j ∈ begun ∧ j ≠ i)
    (hskip : x = .skipped ↔ i ∉ begun) (hdiscard : x = .discarded → c.cancelled = true)
    (hkept : Kept call c' (h ++ [(i, x)])) (hworking : Working call c'.worklist (h ++ [(i, x)]) (claimed' ++ begun'))
    (hevents : c'.events = c.events ++ eventOf i x) (hflight : c'.inFlight = c.inFlight)
    (hcancelled : c'.cancelled = c.cancelled) : Tracks call c' (h ++ [(i, x)]) claimed' begun' := by
  obtain ⟨hfresh, hseed, -⟩ := ht.flow.fresh i hi
  constructor
  · exact ht.flow.snoc hi hx hnodup hbusy
  · exact hkept
  · exact hworking
  · rw [hevents]
    exact ht.told.snoc hfresh hskip hbegun
  · intro entry hentry
    rw [hflight] at hentry
    obtain ⟨hmem, hlaunched⟩ := ht.flying entry hentry
    have hready := (ht.flow.fresh entry.1 (List.mem_append_right _ hmem)).2.2
    exact ⟨(hbegun _).mpr ⟨hmem, hidle entry hentry⟩, hlaunched.snoc hready hfresh hseed⟩
  · rw [hflight]
    exact ht.flyingNodup
  · intro j hj
    rw [hcancelled]
    by_cases hji : j = i
    · rw [hji, lookup_snoc_self hfresh] at hj
      exact hdiscard (Option.some.inj hj)
    · rw [lookup_snoc_ne hji] at hj
      exact ht.discards j hj

theorem Tracks.erase_spec (ht : Tracks call c h claimed begun) (hi : i ∈ begun) :
    (claimed ++ begun.erase i).Nodup ∧ (∀ j, j ∈ claimed ++ begun.erase i ↔ j ∈ claimed ++ begun ∧ j ≠ i) ∧
      ∀ j, j ∈ begun.erase i ↔ j ∈ begun ∧ j ≠ i := by
  obtain ⟨hclaimed, hbegun, hdisjoint⟩ := List.nodup_append.mp ht.flow.nodup
  have hmem : ∀ j, j ∈ begun.erase i ↔ j ∈ begun ∧ j ≠ i := by
    intro j
    rw [hbegun.mem_erase_iff]
    exact and_comm
  have hout : i ∉ claimed := fun hc => hdisjoint i hc i hi rfl
  refine ⟨?_, ?_, hmem⟩
  · apply List.nodup_append.mpr ⟨hclaimed, hbegun.erase i, ?_⟩
    intro a ha b hb
    exact hdisjoint a ha b ((hmem b).mp hb).1
  · intro j
    rw [List.mem_append, List.mem_append, hmem]
    constructor
    · intro hj
      rcases hj with hc | hb
      · exact ⟨.inl hc, fun he => hout (he ▸ hc)⟩
      · exact ⟨.inr hb.1, hb.2⟩
    · intro hj
      exact hj.1.imp_right fun hb => ⟨hb, hj.2⟩

/-- An item that began fails. -/
theorem Tracks.fail (ht : Tracks call c h claimed begun) (hi : i ∈ begun) (hidle : ∀ entry ∈ c.inFlight, entry.1 ≠ i)
    {failure : DependencyFailure ε π} (hx : call.Explains h i (.failed failure)) :
    Tracks call { c with failure := retainStableFailure c.failure i failure } (h ++ [(i, .failed failure)]) claimed
      (begun.erase i) := by
  obtain ⟨hnodup, hbusy, hbegun⟩ := ht.erase_spec hi
  have hmem := List.mem_append_right claimed hi
  have hfresh := (ht.flow.fresh i hmem).1
  apply ht.snoc hmem hx hidle hnodup hbusy hbegun
  · constructor
    · intro hskip
      cases hskip
    · exact fun hout => absurd hi hout
  · intro hdiscard
    cases hdiscard
  · exact ht.kept.silent (x := .failed failure) hfresh rfl rfl
  · exact ht.working.leave hmem hfresh rfl hbusy
  · exact (List.append_nil _).symm
  · rfl
  · rfl

/-- A result that comes too late changes nothing. -/
theorem Tracks.discard (ht : Tracks call c h claimed begun) (hi : i ∈ begun) (hidle : ∀ entry ∈ c.inFlight, entry.1 ≠ i)
    (hx : call.Explains h i .discarded) (hcancelled : c.cancelled = true) :
    Tracks call c (h ++ [(i, .discarded)]) claimed (begun.erase i) := by
  obtain ⟨hnodup, hbusy, hbegun⟩ := ht.erase_spec hi
  have hmem := List.mem_append_right claimed hi
  have hfresh := (ht.flow.fresh i hmem).1
  apply ht.snoc hmem hx hidle hnodup hbusy hbegun
  · constructor
    · intro hskip
      cases hskip
    · exact fun hout => absurd hi hout
  · exact fun _ => hcancelled
  · exact ht.kept.silent (x := .discarded) hfresh rfl rfl
  · exact ht.working.leave hmem hfresh rfl hbusy
  · exact (List.append_nil _).symm
  · rfl
  · rfl

/-- The first of the claimed items begins. -/
theorem Tracks.begin (ht : Tracks call c h (i :: claimed) begun) :
    Tracks call { c with events := c.events ++ [.ran i] } h claimed (i :: begun) := by
  have hperm : (claimed ++ i :: begun).Perm (i :: claimed ++ begun) := List.perm_middle
  have hi : i ∈ i :: claimed ++ begun := List.mem_cons_self
  obtain ⟨hfresh, -, hready⟩ := ht.flow.fresh i hi
  have hout : i ∉ begun := by
    intro hb
    exact (List.nodup_cons.mp ht.flow.nodup).1 (List.mem_append_right _ hb)
  constructor
  · exact ⟨ht.flow.keys, hperm.nodup_iff.mpr ht.flow.nodup, fun j hj => ht.flow.fresh j (hperm.mem_iff.mp hj),
      ht.flow.explained⟩
  · exact ht.kept.others
  · refine ⟨ht.working.valid, ht.working.plan_eq, ht.working.direction_eq, ht.working.disabled_eq, ?_⟩
    intro j
    rw [ht.working.state_eq, stateIn, stateIn]
    simp only [hperm.mem_iff]
  · exact ht.told.begin hfresh hout hready
  · intro entry hentry
    obtain ⟨hmem, hlaunched⟩ := ht.flying entry hentry
    exact ⟨List.mem_cons_of_mem _ hmem, hlaunched⟩
  · exact ht.flyingNodup
  · exact ht.discards

/-- Items are claimed that wait for nothing. -/
theorem Tracks.claim (ht : Tracks call c h [] begun) {items : List Nat} {worklist : DependencyWorklist}
    (hclaimed : DependencyWorklist.Claimed c.worklist items worklist) :
    Tracks call { c with worklist } h items begun := by
  have hpending : ∀ i ∈ items, h.lookup i = none ∧ i ∉ begun ∧ i ∈ call.seeds := by
    intro i hi
    have hstate := (hclaimed.claimable i hi).1
    rw [ht.working.state_eq] at hstate
    exact stateIn_pending.mp hstate
  constructor
  · constructor
    · exact ht.flow.keys
    · apply List.nodup_append.mpr ⟨hclaimed.nodup, ht.flow.nodup, ?_⟩
      intro a ha b hb heq
      exact (hpending a ha).2.1 (heq ▸ hb)
    · intro i hi
      rcases List.mem_append.mp hi with hnew | hold
      · refine ⟨(hpending i hnew).1, (hpending i hnew).2.2, ?_⟩
        intro d hd hseed
        have hwaits := (hclaimed.claimable i hnew).2
        rw [DependencyWorklist.waits_eq, List.countP_eq_zero, ht.working.uses_eq] at hwaits
        have hclosed := Bool.eq_false_of_not_eq_true (hwaits d hd)
        rw [ht.working.state_eq] at hclosed
        exact settled_of_closed hseed hclosed
      · exact ht.flow.fresh i hold
    · exact ht.flow.explained
  · exact ht.kept.others
  · exact ht.working.claim hclaimed
  · exact ht.told
  · exact ht.flying
  · exact ht.flyingNodup
  · exact ht.discards

theorem Tracks.running (ht : Tracks call c h claimed begun) (hi : i ∈ claimed ++ begun) :
    c.worklist.stateOf i = .running :=
  (ht.working.state_eq i).trans (stateIn_running hi (ht.flow.fresh i hi).1)

theorem Sees.explains {s : S} (hsees : call.Sees h i s) (hactive : call.isActive h i = true) :
    call.Explains h i (call.outcomeOf s i) := by
  rw [Explains, if_pos hactive]
  exact .inr ⟨s, hsees, rfl⟩

/-- What a worker returns decides the outcome of its item. -/
theorem Launched.explains {input : ι} (hlaunched : call.Launched h (i, input)) {x : ItemOutcome R ε π}
    (hx : ∀ s, call.calls.prepare s i = .ok input → call.outcomeOf s i = x) : call.Explains h i x := by
  obtain ⟨hactive, s, hsees, hprepare⟩ := hlaunched
  rw [← hx s hprepare]
  exact hsees.explains hactive

theorem outcomeOf_ok {s : S} {output : DependencyPublication R}
    (hran : (call.calls.prepare s i >>= call.calls.analyze) = .ok output) : call.outcomeOf s i = call.judged i output := by
  rw [outcomeOf, hran]

theorem outcomeOf_error {s : S} {failure : DependencyFailure ε π}
    (hran : (call.calls.prepare s i >>= call.calls.analyze) = .error failure) : call.outcomeOf s i = .failed failure := by
  rw [outcomeOf, hran]

/-! Steps of the coordinator. -/

theorem commit_outcome (ht : Tracks call c h claimed begun) (hi : i ∈ begun) (hidle : ∀ entry ∈ c.inFlight, entry.1 ≠ i)
    {output : DependencyPublication R} (howns : call.calls.plan.ownsPublication i output = true)
    (hx : call.Explains h i (.published output.intoRows)) :
    Outcome c (commit call.calls i output)
      (fun _ c' => Tracks call c' (h ++ [(i, .published output.intoRows)]) claimed (begun.erase i) ∧
        c'.inFlight = c.inFlight ∧ c'.cancelled = c.cancelled)
      fun f c' => (Restores call.calls call.rows c'.journal c'.rows ∧ c'.events = c.events) ∧
        ∃ payload, f = .panic payload ∧ DependencyStorePanics call.calls.store payload := by
  obtain ⟨hnodup, hbusy, hbegun⟩ := ht.erase_spec hi
  have hmem := List.mem_append_right claimed hi
  have hfresh := (ht.flow.fresh i hmem).1
  have hrows := DependencyPublicationPlan.rows_of_owns howns
  unfold commit
  rw [if_neg (Bool.not_eq_false _ ▸ howns)]
  apply Outcome.bind (commitRows_outcome ht.kept hfresh hrows)
  · intro itemChanged c' hc
    have hc' := hc.eq
    have hworklist : c'.worklist = c.worklist := by rw [hc']
    have hfinish := DependencyWorklist.finish_settles (w := c.worklist) ht.working.valid (ht.running hmem)
    unfold Outcome complete EStateM.run
    dsimp only
    rw [hworklist]
    cases hdone : c.worklist.finish i with
    | error e =>
      rw [hdone] at hfinish
      exact hfinish.elim
    | ok worklist =>
      rw [hdone] at hfinish
      have hkept := ht.kept.publish ht.working hfresh hrows hc worklist (c'.events ++ [.published i])
      rw [hworklist] at hkept
      refine ⟨?_, ?_, ?_⟩
      · apply ht.snoc hmem hx hidle hnodup hbusy hbegun
        · constructor
          · intro hskip
            cases hskip
          · exact fun hout => absurd hi hout
        · intro hdiscard
          cases hdiscard
        · exact hkept
        · exact ht.working.finish hfinish hfresh rfl hbusy
        · rw [hc']
          rfl
        · rw [hc']
        · rw [hc']
      · rw [hc']
      · rw [hc']
  · intro f c' hf
    obtain ⟨⟨done, itemChanged, hc⟩, hpanic⟩ := hf
    refine ⟨⟨hc.restores, ?_⟩, hpanic⟩
    rw [hc.eq]

theorem retain_outcome (ht : Tracks call c h claimed begun) (hi : i ∈ begun) (hidle : ∀ entry ∈ c.inFlight, entry.1 ≠ i)
    {failure : DependencyFailure ε π} (hx : call.Explains h i (.failed failure)) :
    Outcome c (retain i failure)
      (fun _ c' => Tracks call c' (h ++ [(i, .failed failure)]) claimed (begun.erase i) ∧ c'.inFlight = c.inFlight ∧
        c'.cancelled = c.cancelled) (call.Abandons cancels) :=
  ⟨ht.fail hi hidle hx, rfl, rfl⟩

theorem publish_outcome (ht : Tracks call c h claimed begun) (hi : i ∈ begun)
    (hidle : ∀ entry ∈ c.inFlight, entry.1 ≠ i) {output : DependencyPublication R}
    (hx : call.Explains h i (call.judged i output)) :
    Outcome c (publish call.calls i output)
      (fun _ c' => Tracks call c' (h ++ [(i, call.judged i output)]) claimed (begun.erase i) ∧
        c'.inFlight = c.inFlight ∧ c'.cancelled = c.cancelled) (call.Abandons cancels) := by
  unfold judged at hx ⊢
  unfold Outcome publish EStateM.run
  dsimp only
  cases howns : call.calls.plan.ownsPublication i output with
  | false =>
    rw [howns, if_neg Bool.false_ne_true] at hx
    rw [if_neg Bool.false_ne_true]
    have hcommit : (commit call.calls i output).run c = .error (.error (.invalidDependencyPlan
        "worker publication does not match its sealed row ownership")) c := by
      rw [commit, if_pos howns]
      rfl
    unfold EStateM.run at hcommit
    rw [hcommit]
    exact ⟨ht.fail hi hidle hx, rfl, rfl⟩
  | true =>
    rw [howns, if_pos rfl] at hx
    rw [if_pos rfl]
    have hcommit := commit_outcome ht hi hidle howns hx
    unfold Outcome EStateM.run at hcommit
    cases hrun : commit call.calls i output c with
    | ok a c' =>
      rw [hrun] at hcommit
      exact hcommit
    | error f c' =>
      rw [hrun] at hcommit
      obtain ⟨⟨hrestores, hevents⟩, payload, rfl, hpanics⟩ := hcommit
      refine ⟨hrestores, ?_, ?_, .inr ⟨i, payload, rfl, hpanics⟩⟩
      · rw [hevents]
        exact ht.told.nodup
      · rw [hevents]
        exact ht.told.inOrder

theorem skip_outcome (ht : Tracks call c h (i :: claimed) begun) (hactive : call.isActive h i = false) :
    Outcome c (skip call.calls i)
      (fun _ c' => Tracks call c' (h ++ [(i, .skipped)]) claimed begun ∧ c'.inFlight = c.inFlight ∧
        c'.cancelled = c.cancelled) (call.Abandons cancels) := by
  have hmem : i ∈ i :: claimed ++ begun := List.mem_cons_self
  obtain ⟨hfresh, -, -⟩ := ht.flow.fresh i hmem
  obtain ⟨hout, hnodup⟩ := List.nodup_cons.mp ht.flow.nodup
  have hbusy : ∀ j, j ∈ claimed ++ begun ↔ j ∈ i :: claimed ++ begun ∧ j ≠ i := by
    intro j
    rw [List.cons_append, List.mem_cons]
    constructor
    · exact fun hj => ⟨.inr hj, fun he => hout (he ▸ hj)⟩
    · exact fun hj => hj.1.resolve_left hj.2
  have hbegun : i ∉ begun := fun hb => hout (List.mem_append_right _ hb)
  have hfinish := DependencyWorklist.finish_settles (w := c.worklist) ht.working.valid (ht.running hmem)
  unfold Outcome skip EStateM.run
  dsimp only
  cases hdone : c.worklist.finish i with
  | error e =>
    rw [hdone] at hfinish
    exact hfinish.elim
  | ok worklist =>
    rw [hdone] at hfinish
    refine ⟨?_, rfl, rfl⟩
    apply ht.snoc hmem _ _ hnodup hbusy
    · intro j
      constructor
      · exact fun hj => ⟨hj, fun he => hbegun (he ▸ hj)⟩
      · exact fun hj => hj.1
    · exact iff_of_true rfl hbegun
    · intro hdiscard
      cases hdiscard
    · exact (ht.kept.silent (x := .skipped) hfresh rfl rfl).others
    · exact ht.working.finish hfinish hfresh rfl hbusy
    · rfl
    · rfl
    · rfl
    · rw [Explains, if_neg (Bool.not_eq_true _ ▸ hactive)]
    · intro entry hentry he
      exact hbegun (he ▸ (ht.flying entry hentry).1)

theorem Tracks.idle (ht : Tracks call c h (i :: claimed) begun) : ∀ entry ∈ c.inFlight, entry.1 ≠ i := by
  intro entry hentry heq
  have hmem := (ht.flying entry hentry).1
  rw [heq] at hmem
  exact (List.nodup_cons.mp ht.flow.nodup).1 (List.mem_append_right _ hmem)

theorem begin_outcome (ht : Tracks call c h (i :: claimed) begun) :
    Outcome c (begin i) (fun _ c' => Tracks call c' h claimed (i :: begun) ∧ c'.inFlight = c.inFlight ∧
      c'.cancelled = c.cancelled) (call.Abandons cancels) :=
  ⟨ht.begin, rfl, rfl⟩

theorem Tracks.sees (ht : Tracks call c h claimed begun) (hi : i ∈ claimed ++ begun) : call.Sees h i c.rows :=
  ht.kept.sees (ht.flow.fresh i hi).1

/-- The item has an outcome, and the others go on. -/
def Resolves (call : PublicationCall R S ι ε π) (c : PublicationCoordinator R S ι ε π) (h : History R ε π) (i : Nat)
    (claimed begun : List Nat) (c' : PublicationCoordinator R S ι ε π) : Prop :=
  ∃ x, Tracks call c' (h ++ [(i, x)]) claimed begun ∧ c'.inFlight = c.inFlight ∧ c'.cancelled = c.cancelled

theorem serialItem_outcome (ht : Tracks call c h (i :: claimed) begun) {turn : Turn}
    (hcancels : turn.cancelledBefore = true → cancels) :
    Outcome c (serialItem call.calls turn i) (fun _ => Resolves call c h i claimed begun) (call.Abandons cancels) := by
  have hmem : i ∈ i :: claimed ++ begun := List.mem_cons_self
  have hsees := ht.sees hmem
  unfold serialItem
  apply Outcome.get
  rw [ht.kept.active]
  cases hactive : call.isActive h i with
  | false =>
    rw [if_pos rfl]
    apply (skip_outcome ht hactive).mono
    · exact fun _ c' hc' => ⟨.skipped, hc'⟩
    · exact fun _ _ he => he
  | true =>
    rw [if_neg Bool.true_eq_false.mp]
    split_ifs with hcancelled
    · exact ⟨ht.kept.restores, ht.told.nodup, ht.told.inOrder, .inl ⟨hcancels hcancelled, rfl⟩⟩
    · apply Outcome.bind (begin_outcome ht)
      · intro _ c' hc'
        obtain ⟨hc', hflight, hcancelled⟩ := hc'
        have hidle : ∀ entry ∈ c'.inFlight, entry.1 ≠ i := hflight ▸ ht.idle
        have herase : (i :: begun).erase i = begun := List.erase_cons_head ..
        cases hran : call.calls.prepare c.rows i >>= call.calls.analyze with
        | error failure =>
          have hx := hsees.explains hactive
          rw [outcomeOf_error hran] at hx
          apply (retain_outcome hc' List.mem_cons_self hidle hx).mono
          · intro _ c'' hc''
            rw [herase] at hc''
            exact ⟨_, hc''.1, hc''.2.1.trans hflight, hc''.2.2.trans hcancelled⟩
          · exact fun _ _ he => he
        | ok output =>
          have hx := hsees.explains hactive
          rw [outcomeOf_ok hran] at hx
          apply (publish_outcome hc' List.mem_cons_self hidle hx).mono
          · intro _ c'' hc''
            rw [herase] at hc''
            exact ⟨_, hc''.1, hc''.2.1.trans hflight, hc''.2.2.trans hcancelled⟩
          · exact fun _ _ he => he
      · exact fun _ _ he => he

theorem dispatch_outcome (ht : Tracks call c h (i :: claimed) begun) :
    Outcome c (dispatch call.calls i)
      (fun _ c' => Resolves call c h i claimed begun c' ∨
        Tracks call c' h claimed (i :: begun) ∧ (∃ input, c'.inFlight = c.inFlight ++ [(i, input)]) ∧
          c'.cancelled = c.cancelled) (call.Abandons cancels) := by
  have hmem : i ∈ i :: claimed ++ begun := List.mem_cons_self
  have hsees := ht.sees hmem
  unfold dispatch
  apply Outcome.get
  rw [ht.kept.active]
  cases hactive : call.isActive h i with
  | false =>
    rw [if_pos rfl]
    apply (skip_outcome ht hactive).mono
    · exact fun _ c' hc' => .inl ⟨.skipped, hc'⟩
    · exact fun _ _ he => he
  | true =>
    rw [if_neg Bool.true_eq_false.mp]
    apply Outcome.bind (begin_outcome ht)
    · intro _ c' hc'
      obtain ⟨hc', hflight, hcancelled⟩ := hc'
      have hidle : ∀ entry ∈ c'.inFlight, entry.1 ≠ i := hflight ▸ ht.idle
      have herase : (i :: begun).erase i = begun := List.erase_cons_head ..
      cases hprepare : call.calls.prepare c.rows i with
      | error failure =>
        have hx := hsees.explains hactive
        have hran : (call.calls.prepare c.rows i >>= call.calls.analyze) = .error failure := by
          rw [hprepare]
          rfl
        rw [outcomeOf_error hran] at hx
        apply (retain_outcome hc' List.mem_cons_self hidle hx).mono
        · intro _ c'' hc''
          rw [herase] at hc''
          exact .inl ⟨_, hc''.1, hc''.2.1.trans hflight, hc''.2.2.trans hcancelled⟩
        · exact fun _ _ he => he
      | ok input =>
        refine .inr ⟨?_, ⟨input, congrArg (· ++ [(i, input)]) hflight⟩, hcancelled⟩
        constructor
        · exact hc'.flow
        · exact hc'.kept.others
        · exact hc'.working
        · exact hc'.told
        · intro entry hentry
          rcases List.mem_append.mp hentry with hold | hnew
          · exact hc'.flying entry hold
          · rw [List.mem_singleton.mp hnew]
            exact ⟨List.mem_cons_self, hactive, c.rows, hsees, hprepare⟩
        · change ((c'.inFlight ++ [(i, input)]).map (·.1)).Nodup
          rw [List.map_append]
          apply List.Nodup.append hc'.flyingNodup (List.nodup_singleton i)
          intro j hj hji
          obtain ⟨entry, hentry, rfl⟩ := List.mem_map.mp hj
          exact hidle entry hentry (List.mem_singleton.mp hji)
        · exact hc'.discards
    · exact fun _ _ he => he

theorem receive_outcome (ht : Tracks call c h claimed begun) {input : ι} (hi : i ∈ begun)
    (hlaunched : call.Launched h (i, input)) (hidle : ∀ entry ∈ c.inFlight, entry.1 ≠ i) :
    Outcome c (receive call.calls i input) (fun _ => Resolves call c h i claimed (begun.erase i))
      (call.Abandons cancels) := by
  unfold receive
  apply Outcome.get
  cases hanalyze : call.calls.analyze input with
  | error failure =>
    have hx : call.Explains h i (.failed failure) := hlaunched.explains fun s hprepare => by
      apply outcomeOf_error
      rw [hprepare]
      exact hanalyze
    apply (retain_outcome ht hi hidle hx).mono
    · exact fun _ c' hc' => ⟨_, hc'⟩
    · exact fun _ _ he => he
  | ok output =>
    dsimp only
    split_ifs with hcancelled
    · have hx : call.Explains h i .discarded := by
        rw [Explains, if_pos hlaunched.1]
        exact .inl rfl
      exact ⟨_, ht.discard hi hidle hx hcancelled, rfl, rfl⟩
    · have hx : call.Explains h i (call.judged i output) := hlaunched.explains fun s hprepare => by
        apply outcomeOf_ok
        rw [hprepare]
        exact hanalyze
      apply (publish_outcome ht hi hidle hx).mono
      · exact fun _ c' hc' => ⟨_, hc'⟩
      · exact fun _ _ he => he

end Steps

/-! Turns. -/

/-- Between turns the items that began are in flight. -/
def Resting (call : PublicationCall R S ι ε π) (c : PublicationCoordinator R S ι ε π) (h : History R ε π) : Prop :=
  ∃ begun, Tracks call c h [] begun ∧ ∀ j ∈ begun, ∃ entry ∈ c.inFlight, entry.1 = j

/-- Every open item waits for one that is open or failed. -/
def Exhausted (call : PublicationCall R S ι ε π) (h : History R ε π) (begun : List Nat) : Prop :=
  ∀ i ∈ call.seeds, h.lookup i = none → i ∉ begun →
    ∃ d ∈ call.uses i, d ∈ call.seeds ∧ ∀ x, h.lookup d = some x → x.isSettled ≠ true

/-- What is done, in halves. -/
def progress (c : PublicationCoordinator R S ι ε π) (h : History R ε π) : Nat := 2 * h.length + c.inFlight.length

structure TurnEnds (call : PublicationCall R S ι ε π) (cancels : Prop) (c : PublicationCoordinator R S ι ε π)
    (h : History R ε π) (more : Bool) (c' : PublicationCoordinator R S ι ε π) (h' : History R ε π) : Prop where
  resting : Resting call c' h'
  cancelled : c'.cancelled = true → cancels
  advances : more = true → progress c h < progress c' h'
  ends : more = false → c'.inFlight = [] ∧ (c'.cancelled = true ∨ Exhausted call h' [])

section Turns

variable {cancels : Prop} {begun : List Nat}

theorem Resting.progress_le (hr : Resting call c h) : progress c h ≤ 2 * call.seeds.length := by
  obtain ⟨begun, ht, -⟩ := hr
  have hdisjoint : (h.map (·.1) ++ c.inFlight.map (·.1)).Nodup := by
    apply List.Nodup.append ht.flow.keys ht.flyingNodup
    intro i hi hflying
    obtain ⟨entry, hentry, rfl⟩ := List.mem_map.mp hflying
    have hfresh := (ht.flow.fresh entry.1 (ht.flying entry hentry).1).1
    obtain ⟨e, he, heq⟩ := List.mem_map.mp hi
    have := List.lookup_eq_none_iff.mp hfresh e he
    simp [heq] at this
  have hsubset : h.map (·.1) ++ c.inFlight.map (·.1) ⊆ call.seeds := by
    intro i hi
    rcases List.mem_append.mp hi with hdone | hflying
    · obtain ⟨e, he, rfl⟩ := List.mem_map.mp hdone
      exact (ht.flow.explained e.1 e.2 (lookup_of_mem ht.flow.keys he)).1
    · obtain ⟨entry, hentry, rfl⟩ := List.mem_map.mp hflying
      exact (ht.flow.fresh entry.1 (ht.flying entry hentry).1).2.1
  have hlength := (List.subperm_of_subset hdisjoint hsubset).length_le
  rw [List.length_append, List.length_map, List.length_map] at hlength
  rw [progress]
  omega

theorem Tracks.exhausted (ht : Tracks call c h [] begun) (hready : c.worklist.ready = []) : Exhausted call h begun := by
  intro i hseed hfresh hidle
  have hstate : c.worklist.stateOf i = .pending := (ht.working.state_eq i).trans (stateIn_pending.mpr ⟨hfresh, hidle, hseed⟩)
  have hwaits : c.worklist.waits i ≠ 0 := by
    intro hzero
    have hkey := (ht.working.valid.ready (c.worklist.readyKey i)).mpr ⟨i, rfl, hstate, hzero⟩
    rw [hready] at hkey
    exact List.not_mem_nil hkey
  rw [DependencyWorklist.waits_eq, ht.working.uses_eq, ← Nat.pos_iff_ne_zero, List.countP_pos_iff] at hwaits
  obtain ⟨d, hd, hopen⟩ := hwaits
  rw [ht.working.state_eq] at hopen
  refine ⟨d, hd, ?_, ?_⟩
  · unfold stateIn at hopen
    cases hlookup : h.lookup d with
    | some x => exact (ht.flow.explained d x hlookup).1
    | none =>
      rw [hlookup] at hopen
      dsimp only at hopen
      split_ifs at hopen with hbegun hseed
      · exact (ht.flow.fresh d hbegun).2.1
      · exact hseed
      · cases hopen
  · intro x hx hsettled
    rw [stateIn, hx] at hopen
    dsimp only at hopen
    rw [if_pos hsettled] at hopen
    cases hopen

theorem claimReady_outcome (ht : Tracks call c h [] begun) {limit : Nat} (hlimit : limit ≠ 0) :
    Outcome c (claimReady call.calls limit)
      (fun items c' => Tracks call c' h (items.getD []) begun ∧ c'.inFlight = c.inFlight ∧ c'.cancelled = c.cancelled ∧
        (items.getD [] = [] → Exhausted call h begun)) (call.Abandons cancels) := by
  have hsettles := DependencyWorklist.claimReadyBounded_settles ht.working.valid hlimit
  unfold Outcome claimReady EStateM.run
  dsimp only
  cases hclaim : c.worklist.claimReadyBounded limit with
  | error e =>
    rw [hclaim] at hsettles
    exact hsettles.elim
  | ok r =>
    rw [hclaim] at hsettles
    exact ⟨ht.claim hsettles.1, rfl, rfl, fun hnone => ht.exhausted (hsettles.2 hnone)⟩

/-- The claimed items have their outcomes one after the other. -/
theorem serialItems_outcome {items : List Nat} (ht : Tracks call c h items []) {turn : Turn}
    (hcancels : turn.cancelledBefore = true → cancels) :
    Outcome c (items.forM (serialItem call.calls turn))
      (fun _ c' => ∃ h', Tracks call c' h' [] [] ∧ c'.inFlight = c.inFlight ∧ c'.cancelled = c.cancelled ∧
        h'.length = h.length + items.length) (call.Abandons cancels) := by
  apply (Outcome.forM (fun done c' => ∃ h', Tracks call c' h' (items.drop done.length) [] ∧ c'.inFlight = c.inFlight ∧
    c'.cancelled = c.cancelled ∧ h'.length = h.length + done.length) ⟨h, ht, rfl, rfl, rfl⟩ ?_).mono
  · intro _ c' hc'
    rw [List.drop_length] at hc'
    exact hc'
  · exact fun _ _ he => he
  · intro done i rest hsplit c' hc'
    obtain ⟨h', ht', hflight, hcancelled, hlength⟩ := hc'
    have hdrop : items.drop done.length = i :: rest := by rw [← hsplit, List.drop_left]
    have hrest : items.drop (done ++ [i]).length = rest := by
      rw [← hsplit, List.append_cons done i rest, List.drop_left]
    rw [hdrop] at ht'
    rw [hrest]
    apply (serialItem_outcome ht' hcancels).mono
    · intro _ c'' hc''
      obtain ⟨x, ht'', hflight', hcancelled'⟩ := hc''
      refine ⟨h' ++ [(i, x)], ht'', hflight'.trans hflight, hcancelled'.trans hcancelled, ?_⟩
      rw [List.length_append, List.length_append, hlength]
      rfl
    · exact fun _ _ he => he

theorem serialTurn_outcome (hr : Resting call c h) (hflight : c.inFlight = []) (hcancelled : c.cancelled = true → cancels)
    {turn : Turn} (hcancels : turn.cancelledBefore = true → cancels) :
    Outcome c (serialTurn call.calls turn) (fun more c' => c'.inFlight = [] ∧ ∃ h', TurnEnds call cancels c h more c' h')
      (call.Abandons cancels) := by
  obtain ⟨begun, ht, hheld⟩ := hr
  have hnone : begun = [] := by
    rw [List.eq_nil_iff_forall_not_mem]
    intro j hj
    obtain ⟨entry, hentry, -⟩ := hheld j hj
    rw [hflight] at hentry
    exact List.not_mem_nil hentry
  subst hnone
  have hresting {c' : PublicationCoordinator R S ι ε π} {h' : History R ε π} (ht' : Tracks call c' h' [] []) :
      Resting call c' h' := ⟨[], ht', fun _ hj => absurd hj List.not_mem_nil⟩
  unfold serialTurn
  apply Outcome.bind (claimReady_outcome ht Nat.one_ne_zero)
  · intro items c' hc'
    obtain ⟨ht', hflight', hcancelled', hexhausted⟩ := hc'
    split_ifs with hempty
    · rw [hempty] at ht'
      refine ⟨hflight'.trans hflight, h, hresting ht', fun hc => hcancelled (hcancelled' ▸ hc), ?_, ?_⟩
      · intro hmore
        cases hmore
      · exact fun _ => ⟨hflight'.trans hflight, .inr (hexhausted hempty)⟩
    · apply Outcome.bind (serialItems_outcome ht' hcancels)
      · intro _ c'' hc''
        obtain ⟨h'', ht'', hflight'', hcancelled'', hlength⟩ := hc''
        have hempty' := hflight''.trans (hflight'.trans hflight)
        refine ⟨hempty', h'', hresting ht'', fun hc => hcancelled (hcancelled' ▸ hcancelled'' ▸ hc), ?_, ?_⟩
        · intro _
          have hpositive := List.length_pos_iff.mpr hempty
          rw [progress, progress, hempty', hflight]
          omega
        · intro hmore
          cases hmore
      · exact fun _ _ he => he
  · exact fun _ _ he => he

/-- The claimed items are started, or have their outcomes at once. -/
theorem dispatchItems_outcome {items : List Nat} (ht : Tracks call c h items begun)
    (hheld : ∀ j ∈ begun, ∃ entry ∈ c.inFlight, entry.1 = j) :
    Outcome c (items.forM (dispatch call.calls))
      (fun _ c' => ∃ h', Resting call c' h' ∧ c'.cancelled = c.cancelled ∧
        progress c h + items.length ≤ progress c' h' ∧ (items = [] → c' = c ∧ h' = h)) (call.Abandons cancels) := by
  apply (Outcome.forM (fun done c' => ∃ h' begun', Tracks call c' h' (items.drop done.length) begun' ∧
    (∀ j ∈ begun', ∃ entry ∈ c'.inFlight, entry.1 = j) ∧ c'.cancelled = c.cancelled ∧
    progress c h + done.length ≤ progress c' h' ∧ (done = [] → c' = c ∧ h' = h))
    ⟨h, begun, ht, hheld, rfl, Nat.le_refl _, fun _ => ⟨rfl, rfl⟩⟩ ?_).mono
  · intro _ c' hc'
    rw [List.drop_length] at hc'
    obtain ⟨h', begun', ht', hheld', hcancelled, hprogress, hnone⟩ := hc'
    exact ⟨h', ⟨begun', ht', hheld'⟩, hcancelled, hprogress, hnone⟩
  · exact fun _ _ he => he
  · intro done i rest hsplit c' hc'
    obtain ⟨h', begun', ht', hheld', hcancelled, hprogress, -⟩ := hc'
    have hsome : done ++ [i] ≠ [] := List.append_ne_nil_of_right_ne_nil _ (List.cons_ne_nil _ _)
    have hdrop : items.drop done.length = i :: rest := by rw [← hsplit, List.drop_left]
    have hrest : items.drop (done ++ [i]).length = rest := by
      rw [← hsplit, List.append_cons done i rest, List.drop_left]
    rw [hdrop] at ht'
    rw [hrest]
    apply (dispatch_outcome ht').mono
    · intro _ c'' hc''
      rw [List.length_append]
      rcases hc'' with hresolved | hstarted
      · obtain ⟨x, ht'', hflight, hcancelled'⟩ := hresolved
        refine ⟨h' ++ [(i, x)], begun', ht'', hflight ▸ hheld', hcancelled'.trans hcancelled, ?_,
          fun hnil => absurd hnil hsome⟩
        rw [progress, progress] at hprogress
        rw [progress, progress, List.length_append, hflight, List.length_singleton, List.length_singleton]
        omega
      · obtain ⟨ht'', hflight, hcancelled'⟩ := hstarted
        obtain ⟨input, hflight⟩ := hflight
        refine ⟨h', i :: begun', ht'', ?_, hcancelled'.trans hcancelled, ?_, fun hnil => absurd hnil hsome⟩
        · intro j hj
          rw [hflight]
          rcases List.mem_cons.mp hj with hji | hold
          · exact ⟨(i, input), List.mem_append_right _ (List.mem_singleton_self _), hji.symm⟩
          · obtain ⟨entry, hentry, heq⟩ := hheld' j hold
            exact ⟨entry, List.mem_append_left _ hentry, heq⟩
        · rw [progress, progress] at hprogress
          rw [progress, progress, hflight, List.length_append, List.length_singleton, List.length_singleton]
          omega
    · exact fun _ _ he => he

/-- A result leaves the others in flight. -/
theorem Tracks.take (ht : Tracks call c h [] begun) (hheld : ∀ j ∈ begun, ∃ entry ∈ c.inFlight, entry.1 = j)
    {arrival : Nat} {entry : Nat × ι} (hentry : c.inFlight[arrival]? = some entry) (cancelled : Bool)
    (hcancelled : c.cancelled = true → cancelled = true) :
    Tracks call { c with inFlight := c.inFlight.eraseIdx arrival, cancelled } h [] begun ∧
      (∀ other ∈ c.inFlight.eraseIdx arrival, other.1 ≠ entry.1) ∧
      (∀ j ∈ begun.erase entry.1, ∃ other ∈ c.inFlight.eraseIdx arrival, other.1 = j) ∧
      (c.inFlight.eraseIdx arrival).length + 1 = c.inFlight.length := by
  obtain ⟨hlt, heq⟩ := List.getElem?_eq_some_iff.mp hentry
  have hperm : (entry :: c.inFlight.eraseIdx arrival).Perm c.inFlight := by
    rw [← heq]
    exact List.getElem_cons_eraseIdx_perm hlt
  have hkeys : (entry.1 :: (c.inFlight.eraseIdx arrival).map (·.1)).Nodup :=
    (hperm.map fun entry : Nat × ι => entry.1).nodup_iff.mpr ht.flyingNodup
  obtain ⟨hnew, hnodup⟩ := List.nodup_cons.mp hkeys
  have hothers : ∀ other ∈ c.inFlight.eraseIdx arrival, other.1 ≠ entry.1 := by
    intro other hother he
    exact hnew (List.mem_map.mpr ⟨other, hother, he⟩)
  refine ⟨?_, hothers, ?_, hperm.length_eq⟩
  · constructor
    · exact ht.flow
    · exact ht.kept.others
    · exact ht.working
    · exact ht.told
    · exact fun other hother => ht.flying other (List.mem_of_mem_eraseIdx hother)
    · exact hnodup
    · exact fun j hj => hcancelled (ht.discards j hj)
  · intro j hj
    obtain ⟨hne, hmem⟩ := ht.flow.nodup.mem_erase_iff.mp hj
    obtain ⟨other, hother, rfl⟩ := hheld j hmem
    refine ⟨other, ?_, rfl⟩
    rcases List.mem_cons.mp (hperm.mem_iff.mpr hother) with hsame | hmem
    · exact absurd (congrArg Prod.fst hsame) hne
    · exact hmem

theorem arrive_outcome (hr : Resting call c h) (hcancelled : c.cancelled = true → cancels) {turn : Turn}
    (hcancels : turn.cancelledAfter = true → cancels) (claimedAny : Bool) :
    Outcome c (arrive call.calls turn claimedAny)
      (fun more c' => ∃ h', Resting call c' h' ∧ (c'.cancelled = true → cancels) ∧
        (more = true → claimedAny = true ∧ progress c h ≤ progress c' h' ∨ progress c h < progress c' h') ∧
        (more = false → claimedAny = false ∧ c' = c ∧ h' = h ∧ c.inFlight = [])) (call.Abandons cancels) := by
  unfold arrive
  apply Outcome.get
  dsimp only
  cases hentry : c.inFlight[turn.arrival % c.inFlight.length]? with
  | none =>
    have hempty : c.inFlight = [] := by
      by_contra hne
      have := List.getElem?_eq_none_iff.mp hentry
      have := Nat.mod_lt turn.arrival (List.length_pos_iff.mpr hne)
      omega
    exact ⟨h, hr, hcancelled, fun hmore => .inl ⟨hmore, Nat.le_refl _⟩, fun hmore => ⟨hmore, rfl, rfl, hempty⟩⟩
  | some entry =>
    obtain ⟨i, input⟩ := entry
    obtain ⟨begun, ht, hheld⟩ := hr
    obtain ⟨ht', hothers, hheld', hlength⟩ := ht.take hheld hentry (c.cancelled || turn.cancelledAfter) fun hc => by
      rw [hc]
      rfl
    obtain ⟨hi, hlaunched⟩ := ht.flying _ (List.mem_of_getElem? hentry)
    dsimp only
    apply Outcome.set
    apply Outcome.bind (receive_outcome ht' hi hlaunched hothers)
    · intro _ c' hc'
      obtain ⟨x, ht'', hflight, hcancelled'⟩ := hc'
      refine ⟨h ++ [(i, x)], ⟨_, ht'', hflight ▸ hheld'⟩, ?_, ?_, ?_⟩
      · intro hc
        rw [hcancelled'] at hc
        rcases (Bool.or_eq_true _ _).mp hc with hold | hnew
        · exact hcancelled hold
        · exact hcancels hnew
      · intro _
        right
        rw [progress, progress, hflight, List.length_append, List.length_singleton]
        dsimp only
        omega
      · intro hmore
        cases hmore
    · exact fun _ _ he => he

theorem parallelTurn_outcome (hr : Resting call c h) (hcancelled : c.cancelled = true → cancels) {workerCount : Nat}
    (hworkers : workerCount ≠ 0) {turn : Turn} (hbefore : turn.cancelledBefore = true → cancels)
    (hafter : turn.cancelledAfter = true → cancels) :
    Outcome c (parallelTurn call.calls workerCount turn) (fun more c' => ∃ h', TurnEnds call cancels c h more c' h')
      (call.Abandons cancels) := by
  obtain ⟨begun, ht, hheld⟩ := hr
  unfold parallelTurn
  apply Outcome.modify
  apply Outcome.get
  have ht' : Tracks call { c with cancelled := c.cancelled || turn.cancelledBefore } h [] begun := by
    refine ⟨ht.flow, ht.kept.others, ht.working, ht.told, ht.flying, ht.flyingNodup, ?_⟩
    intro i hi
    change (c.cancelled || _) = true
    rw [ht.discards i hi]
    rfl
  have hcancelled' : (c.cancelled || turn.cancelledBefore) = true → cancels := by
    intro hc
    rcases (Bool.or_eq_true _ _).mp hc with hold | hnew
    · exact hcancelled hold
    · exact hbefore hnew
  dsimp only
  split_ifs with hidle
  · apply (arrive_outcome (c := { c with cancelled := c.cancelled || turn.cancelledBefore }) ⟨begun, ht', hheld⟩
      hcancelled' hafter false).mono
    · intro more c' hc'
      obtain ⟨h', hresting, hcancelled'', hmore, hlast⟩ := hc'
      refine ⟨h', hresting, hcancelled'', ?_, ?_⟩
      · intro htrue
        exact (hmore htrue).resolve_left fun hclaimed => Bool.false_ne_true hclaimed.1
      · intro hfalse
        obtain ⟨-, rfl, rfl, hempty⟩ := hlast hfalse
        refine ⟨hempty, ?_⟩
        rcases hidle with hstopped | hfull
        · exact .inl hstopped
        · rw [show c.inFlight = [] from hempty] at hfull
          exact absurd hfull hworkers
    · exact fun _ _ he => he
  · apply Outcome.bind (claimReady_outcome ht' (not_or.mp hidle).2)
    · intro items c' hc'
      obtain ⟨htc, hflight, hcancelledc, hexhausted⟩ := hc'
      have hsame : progress c' h = progress c h := by
        rw [progress, progress, hflight]
      apply Outcome.bind (dispatchItems_outcome htc (hflight ▸ hheld))
      · intro _ c'' hc''
        obtain ⟨h'', hresting, hcancelledd, hprogress, hnone⟩ := hc''
        apply (arrive_outcome hresting (fun hc => hcancelled' (hcancelledc.symm.trans (hcancelledd.symm.trans hc))) hafter _).mono
        · intro more last hlast
          obtain ⟨h₃, hresting', hcancelled'', hmore, hstops⟩ := hlast
          refine ⟨h₃, hresting', hcancelled'', ?_, ?_⟩
          · intro htrue
            rcases hmore htrue with hclaimed | hreceived
            · obtain ⟨hclaimed, hle⟩ := hclaimed
              have hpositive : items.getD [] ≠ [] := by
                intro hempty
                rw [hempty] at hclaimed
                cases hclaimed
              have := List.length_pos_iff.mpr hpositive
              omega
            · omega
          · intro hfalse
            obtain ⟨hclaimed, rfl, rfl, hempty⟩ := hstops hfalse
            have hnil : items.getD [] = [] := by
              rw [Bool.not_eq_false'] at hclaimed
              exact List.isEmpty_iff.mp hclaimed
            obtain ⟨rfl, rfl⟩ := hnone hnil
            refine ⟨hempty, .inr ?_⟩
            have hbegun : begun = [] := by
              rw [List.eq_nil_iff_forall_not_mem]
              intro j hj
              obtain ⟨entry, hentry, -⟩ := hheld j hj
              rw [hflight] at hempty
              rw [show c.inFlight = [] from hempty] at hentry
              exact List.not_mem_nil hentry
            rw [← hbegun]
            exact hexhausted hnil
        · exact fun _ _ he => he
      · exact fun _ _ he => he
    · exact fun _ _ he => he

end Turns

end PublicationCall

end Opto.Runtime
