import Opto.Logic.CanonicalForm
import Opto.Synth.RemovableCone

/-!
# The removable cone is the largest fanout-free cone

The table holds, for every counted node, how often the nodes taken so far refer to it. A
node dies when that is all of its references, so a finished traversal has the largest cone.
-/

namespace Opto.Synth

open Logic MffcScratch

namespace MffcScratch

/-- Slots out of use are listed for the next traversal. -/
def Reusable (s : MffcScratch) : Prop := ∀ slot, s.deltas slot = ⟨0, 0⟩ ∨ slot ∈ s.touched

/-- The table holds `removed`. -/
structure Records (s : MffcScratch) (removed : Nat → Nat) : Prop where
  stored : ∀ slot n, s.occupant slot = some (n + 1) → removed n = (s.deltas slot).decrements
  absent : ∀ n, (∀ slot, s.occupant slot ≠ some (n + 1)) → removed n = 0
  placed : Probing.Placed s.occupant home
  valid : s.Reusable
  budget : s.touched.length ≤ MFFC_NODE_BUDGET

variable {s : MffcScratch} {removed : Nat → Nat} {slot : Fin MFFC_TABLE_CAPACITY} {n : Nat}

theorem reset_deltas (touched : List (Fin MFFC_TABLE_CAPACITY))
    (deltas : Fin MFFC_TABLE_CAPACITY → ReferenceDelta) (slot : Fin MFFC_TABLE_CAPACITY) :
    touched.foldl (fun deltas slot => Function.update deltas slot ⟨0, 0⟩) deltas slot =
      if slot ∈ touched then ⟨0, 0⟩ else deltas slot := by
  induction touched generalizing deltas with
  | nil => rfl
  | cons x touched ih =>
    rw [List.foldl_cons, ih]
    by_cases hx : slot = x
    · subst hx
      simp
    · simp [hx]

theorem Reusable.begin (h : s.Reusable) (root : Nat) : (s.begin root).deltas = fun _ => ⟨0, 0⟩ := by
  funext slot
  apply (reset_deltas s.touched s.deltas slot).trans
  split_ifs with htouched
  · rfl
  · exact (h slot).resolve_right htouched

theorem Reusable.begin_records (h : s.Reusable) (root : Nat) : Records (s.begin root) fun _ => 0 := by
  have hfree : (s.begin root).occupant = fun _ => none := by
    funext slot
    rw [occupant, h.begin]
    rfl
  refine ⟨fun slot n hslot => ?_, fun _ _ => rfl, hfree ▸ Probing.placed_empty home, fun slot => ?_, Nat.zero_le _⟩
  · rw [hfree] at hslot
    cases hslot
  · exact .inl (congrFun (h.begin root) slot)

theorem occupant_of_node (h : (s.deltas slot).node = n + 1) : s.occupant slot = some (n + 1) := by
  rw [occupant, h, if_neg n.succ_ne_zero]

theorem node_of_occupant (h : s.occupant slot = some (n + 1)) : (s.deltas slot).node = n + 1 := by
  rw [occupant] at h
  split_ifs at h
  exact Option.some.inj h

/-- A search of the table ends. -/
theorem Records.probe_total (h : s.Records removed) (key : Nat) :
    ∃ slot, Probing.probe s.occupant key MFFC_TABLE_CAPACITY (home key) = some slot := by
  have htouched (slot : Fin MFFC_TABLE_CAPACITY) (hslot : s.occupant slot ≠ none) : slot ∈ s.touched := by
    refine (h.valid slot).resolve_left fun hzero => hslot ?_
    rw [occupant, hzero]
    rfl
  have hlength : s.touched.length < MFFC_TABLE_CAPACITY := Nat.lt_of_le_of_lt h.budget (by decide)
  obtain ⟨free, hfree⟩ := Probing.exists_free hlength htouched
  exact Probing.probe_total hfree key (home key)

/-- Another entry at the slot that a search for its node ended at. -/
theorem Records.store (h : s.Records removed)
    (hprobe : Probing.probe s.occupant (n + 1) MFFC_TABLE_CAPACITY (home (n + 1)) = some slot)
    {touched : List (Fin MFFC_TABLE_CAPACITY)} (hsub : s.touched ⊆ touched) (hslot : slot ∈ touched)
    (hbudget : touched.length ≤ MFFC_NODE_BUDGET) (count : Nat) (dying : List Nat) :
    Records ⟨Function.update s.deltas slot ⟨n + 1, count⟩, touched, dying⟩ (Function.update removed n count) := by
  have hoccupant : occupant ⟨Function.update s.deltas slot ⟨n + 1, count⟩, touched, dying⟩ =
      Function.update s.occupant slot (some (n + 1)) := by
    funext other
    by_cases hother : other = slot
    · subst hother
      simp [occupant]
    · simp [occupant, hother]
  -- No other slot holds the node.
  have hunique (other : Fin MFFC_TABLE_CAPACITY) (hother : s.occupant other = some (n + 1)) : other = slot :=
    Option.some.inj ((h.placed other (n + 1) hother).symm.trans hprobe)
  constructor
  · intro other i hi
    rw [hoccupant] at hi
    by_cases hother : other = slot
    · subst hother
      rw [Function.update_self, Option.some.injEq, Nat.succ.injEq] at hi
      subst hi
      dsimp only
      rw [Function.update_self, Function.update_self]
    · dsimp only
      rw [Function.update_of_ne hother] at hi ⊢
      by_cases hin : i = n
      · subst hin
        exact absurd (hunique other hi) hother
      · rw [Function.update_of_ne hin]
        exact h.stored other i hi
  · intro i hi
    rw [hoccupant] at hi
    have hin : i ≠ n := by
      rintro rfl
      exact hi slot (Function.update_self ..)
    rw [Function.update_of_ne hin]
    apply h.absent
    intro other hother
    by_cases hslot : other = slot
    · subst hslot
      rcases Probing.probe_found hprobe with hfound | hfound
      · rw [hfound] at hother
        cases hother
      · rw [hfound, Option.some.injEq, Nat.succ.injEq] at hother
        exact hin hother.symm
    · exact hi other (by rw [Function.update_of_ne hslot]; exact hother)
  · rw [hoccupant]
    rcases Probing.probe_found hprobe with hfound | hfound
    · exact h.placed.fill hprobe hfound
    · rw [← hfound, Function.update_eq_self]
      exact h.placed
  · intro other
    by_cases hother : other = slot
    · exact .inr (hother ▸ hslot)
    · dsimp only
      rw [Function.update_of_ne hother]
      exact (h.valid other).imp_right fun hmem => hsub hmem
  · exact hbudget

theorem Records.decrement_outcome (h : s.Records removed) (references : List Nat) (n : Nat) :
    Outcome s (decrement references n)
      (fun dies t => ∃ limit, references[n]? = some limit ∧ dies = decide (removed n + 1 = limit) ∧
        (removed n = 0 ∨ removed n < limit) ∧ t.Records (Function.update removed n (removed n + 1)) ∧
        t.dying = s.dying)
      (fun e t => e ≠ .fuel ∧ (e = .panic → references[n]? = none) ∧ t.Reusable) := by
  apply Outcome.get
  obtain ⟨slot, hprobe⟩ := h.probe_total (n + 1)
  by_cases hkey : 2 ^ 32 ≤ n + 1
  · rw [if_pos hkey]
    exact Outcome.throw ⟨nofun, nofun, h.valid⟩
  rw [if_neg hkey, hprobe]
  cases hlimit : references[n]? with
  | none => exact Outcome.throw ⟨nofun, fun _ => rfl, h.valid⟩
  | some limit =>
    dsimp only
    by_cases hnode : (s.deltas slot).node = n + 1
    · have hstored := h.stored slot n (occupant_of_node hnode)
      rw [if_pos hnode, ← hstored]
      by_cases hfull : 2 ^ 32 ≤ removed n + 1
      · rw [if_pos hfull]
        exact Outcome.throw ⟨nofun, nofun, h.valid⟩
      · rw [if_neg hfull]
        have hslot : slot ∈ s.touched := by
          apply (h.valid slot).resolve_left
          intro hzero
          rw [hzero] at hnode
          cases hnode
        have hrecords := h.store hprobe (List.Subset.refl _) hslot h.budget (removed n + 1) s.dying
        apply Outcome.set
        by_cases hover : limit < removed n + 1
        · rw [if_pos hover]
          exact Outcome.throw ⟨nofun, nofun, hrecords.valid⟩
        · rw [if_neg hover]
          exact Outcome.pure ⟨limit, rfl, rfl, .inr (by omega), hrecords, rfl⟩
    · rw [if_neg hnode]
      have hzero : removed n = 0 := by
        apply h.absent
        apply h.placed.absent hprobe
        apply (Probing.probe_found hprobe).resolve_right
        exact fun hheld => hnode (node_of_occupant hheld)
      by_cases hfull : s.touched.length = MFFC_NODE_BUDGET
      · rw [if_pos hfull]
        exact Outcome.throw ⟨nofun, nofun, h.valid⟩
      · rw [if_neg hfull]
        have hlength : (s.touched ++ [slot]).length ≤ MFFC_NODE_BUDGET := by
          have := h.budget
          rw [List.length_append, List.length_singleton]
          omega
        have hrecords := h.store hprobe (List.subset_append_left ..) (List.mem_append_right _ List.mem_cons_self)
          hlength 1 s.dying
        apply Outcome.set
        refine Outcome.pure ⟨limit, rfl, ?_, .inl hzero, ?_, rfl⟩
        · rw [hzero]
          exact decide_eq_decide.mpr eq_comm
        · rw [hzero]
          exact hrecords

end MffcScratch

/-! The traversal. -/

section

variable (net : LogicNetwork) (references : List Nat) (cut : KCut) (root : Nat)

/-- Gates that are no leaves. -/
def counted (n : Nat) : Bool := !cut.contains n && (net.nodes[n]?.any fun node => node.kind.IsGate)

def weightOf (n : Nat) : Nat := (net.nodes[n]?.map nodeWeight).getD 0

/-- How often the fanins that were seen name a node. -/
def removed (seen : List Nat) (n : Nat) : Nat := if counted net cut n then seen.count n else 0

/-- The cone so far: its nodes were taken from the stack or wait on it. -/
structure Traced (seen taken stack : List Nat) (weight : Nat) (s : MffcScratch) : Prop where
  records : s.Records (removed net cut seen)
  stacked : s.dying.Perm (taken ++ stack)
  nodup : s.dying.Nodup
  top : root ∈ s.dying
  below : ∀ n ∈ s.dying, n ≤ root
  members : ∀ n, n ≠ root → (n ∈ s.dying ↔ counted net cut n = true ∧ 0 < seen.count n ∧
    references[n]? = some (seen.count n))
  weight : weight = (s.dying.map (weightOf net)).sum
  budget : s.dying.length ≤ MFFC_NODE_BUDGET

/-- A traversal that stops early gives up, and leaves the table ready for the next. -/
def GivesUp (e : Stop) (t : MffcScratch) : Prop := e = .abandoned ∧ t.Reusable

end

section

variable {net : LogicNetwork} {references : List Nat} {cut : KCut} {root : Nat}
variable {seen taken stack : List Nat} {weight fanin : Nat} {s : MffcScratch}

theorem removed_uncounted (h : counted net cut fanin = false) :
    removed net cut (seen ++ [fanin]) = removed net cut seen := by
  funext n
  unfold removed
  split_ifs with hn
  · have hne : fanin ≠ n := by
      rintro rfl
      rw [h] at hn
      cases hn
    rw [List.count_append, List.count_singleton, beq_false_of_ne hne]
    rfl
  · rfl

theorem removed_counted (h : counted net cut fanin = true) : removed net cut (seen ++ [fanin]) =
    Function.update (removed net cut seen) fanin (removed net cut seen fanin + 1) := by
  funext n
  by_cases hn : n = fanin
  · subst hn
    rw [Function.update_self, removed, removed, if_pos h, if_pos h, List.count_append]
    simp
  · rw [Function.update_of_ne hn, removed, removed, List.count_append, List.count_singleton,
      beq_false_of_ne (Ne.symm hn)]
    rfl

theorem count_seen (n : Nat) : (seen ++ [fanin]).count n = seen.count n + if fanin = n then 1 else 0 := by
  rw [List.count_append, List.count_singleton]
  simp only [beq_iff_eq]

/-- A fanin that is not counted. -/
theorem Traced.skip (h : Traced net references cut root seen taken stack weight s)
    (hfanin : counted net cut fanin = false) :
    Traced net references cut root (seen ++ [fanin]) taken stack weight s where
  __ := h
  records := by rw [removed_uncounted hfanin]; exact h.records
  members n hn := by
    rw [h.members n hn, count_seen]
    apply and_congr_right
    intro hcounted
    have hne : fanin ≠ n := by
      rintro rfl
      rw [hfanin] at hcounted
      cases hcounted
    rw [if_neg hne, Nat.add_zero]

/-- A fanin with a reference to go has no place in the cone yet. -/
theorem Traced.fresh (h : Traced net references cut root seen taken stack weight s) (hfanin : fanin ≠ root)
    {limit : Nat} (hlimit : references[fanin]? = some limit)
    (hroom : seen.count fanin = 0 ∨ seen.count fanin < limit) : fanin ∉ s.dying := by
  intro hmem
  obtain ⟨-, hpos, hall⟩ := (h.members fanin hfanin).mp hmem
  rw [hlimit, Option.some.injEq] at hall
  omega

theorem members_seen (h : Traced net references cut root seen taken stack weight s) {n : Nat} (hn : n ≠ root)
    (hne : fanin ≠ n) : n ∈ s.dying ↔ counted net cut n = true ∧ 0 < (seen ++ [fanin]).count n ∧
      references[n]? = some ((seen ++ [fanin]).count n) := by
  rw [count_seen, if_neg hne, Nat.add_zero]
  exact h.members n hn

variable {t : MffcScratch}

/-- A fanin that loses a reference and keeps others. -/
theorem Traced.lose (h : Traced net references cut root seen taken stack weight s)
    (hrecords : t.Records (removed net cut (seen ++ [fanin]))) (hdying : t.dying = s.dying)
    (hfresh : fanin ∉ s.dying) (hmore : references[fanin]? ≠ some (seen.count fanin + 1)) :
    Traced net references cut root (seen ++ [fanin]) taken stack weight t where
  records := hrecords
  stacked := hdying ▸ h.stacked
  nodup := hdying ▸ h.nodup
  top := hdying ▸ h.top
  below := hdying ▸ h.below
  members n hn := by
    rw [hdying]
    by_cases hne : fanin = n
    · subst hne
      rw [count_seen, if_pos rfl]
      exact ⟨fun hmem => absurd hmem hfresh, fun hall => absurd hall.2.2 hmore⟩
    · exact members_seen h hn hne
  weight := hdying ▸ h.weight
  budget := hdying ▸ h.budget

/-- A fanin that loses its last reference joins the cone and the stack. -/
theorem Traced.join (h : Traced net references cut root seen taken stack weight s)
    (hrecords : t.Records (removed net cut (seen ++ [fanin]))) (hdying : t.dying = s.dying)
    (hfresh : fanin ∉ s.dying) (hlast : references[fanin]? = some (seen.count fanin + 1))
    (hcounted : counted net cut fanin = true) (hbelow : fanin < root)
    (hbudget : t.dying.length ≠ MFFC_NODE_BUDGET) :
    Traced net references cut root (seen ++ [fanin]) taken (fanin :: stack) (weight + weightOf net fanin)
      { t with dying := t.dying ++ [fanin] } where
  records := ⟨hrecords.stored, hrecords.absent, hrecords.placed, hrecords.valid, hrecords.budget⟩
  stacked := by
    rw [hdying]
    exact (List.perm_append_singleton ..).trans ((h.stacked.cons fanin).trans List.perm_middle.symm)
  nodup := by
    rw [hdying]
    exact h.nodup.append (List.nodup_singleton _) (List.disjoint_singleton.mpr hfresh)
  top := hdying ▸ List.mem_append_left _ h.top
  below n hn := by
    rcases List.mem_append.mp hn with hn | hn
    · exact h.below n (hdying ▸ hn)
    · rw [List.mem_singleton.mp hn]
      exact hbelow.le
  members n hn := by
    rw [hdying, List.mem_append, List.mem_singleton]
    by_cases hne : fanin = n
    · subst hne
      rw [count_seen, if_pos rfl]
      exact ⟨fun _ => ⟨hcounted, Nat.succ_pos _, hlast⟩, fun _ => .inr rfl⟩
    · rw [← members_seen h hn hne]
      exact or_iff_left (Ne.symm hne)
  weight := by
    rw [hdying, List.map_append, List.sum_append, ← h.weight, List.map_singleton, List.sum_singleton]
  budget := by
    have := h.budget
    rw [hdying] at hbudget ⊢
    rw [List.length_append, List.length_singleton]
    omega

theorem visitFanin_outcome (h : Traced net references cut root seen taken stack weight s)
    (hbelow : fanin < root) (hnet : fanin < net.nodeCount) (hrefs : fanin < references.length) :
    Outcome s (visitFanin net references cut (weight, stack) fanin)
      (fun r t => Traced net references cut root (seen ++ [fanin]) taken r.2 r.1 t) GivesUp := by
  unfold visitFanin
  by_cases hcut : cut.contains fanin = true
  · rw [if_pos hcut]
    exact Outcome.pure (h.skip (by rw [counted, hcut]; rfl))
  rw [if_neg hcut]
  have hnode := List.getElem?_eq_getElem hnet
  simp only [hnode]
  by_cases hgate : net.nodes[fanin].kind.IsGate
  · rw [if_pos hgate]
    have hcounted : counted net cut fanin = true := by
      rw [counted, hnode, Bool.eq_false_iff.mpr hcut]
      simpa using hgate
    apply Outcome.bind (h.records.decrement_outcome references fanin)
    · rintro dies t ⟨limit, hlimit, rfl, hroom, hrecords, hdying⟩
      rw [← removed_counted hcounted] at hrecords
      rw [removed, if_pos hcounted] at hroom ⊢
      have hfresh := h.fresh hbelow.ne hlimit hroom
      by_cases hdies : seen.count fanin + 1 = limit
      · rw [if_pos (decide_eq_true hdies)]
        apply Outcome.get
        by_cases hfull : t.dying.length = MFFC_NODE_BUDGET
        · rw [if_pos hfull]
          exact Outcome.throw ⟨rfl, hrecords.valid⟩
        · rw [if_neg hfull]
          have hjoin := h.join hrecords hdying hfresh (hdies ▸ hlimit) hcounted hbelow hfull
          rw [weightOf, hnode] at hjoin
          exact Outcome.set (Outcome.pure hjoin)
      · rw [if_neg (by simpa using hdies)]
        apply Outcome.pure
        apply h.lose hrecords hdying hfresh
        rw [hlimit]
        exact fun hlast => hdies (Option.some.inj hlast).symm
    · intro e t ⟨hfuel, hpanic, hvalid⟩
      refine ⟨?_, hvalid⟩
      cases e with
      | abandoned => rfl
      | fuel => exact absurd rfl hfuel
      | panic =>
        have hnone := hpanic rfl
        rw [List.getElem?_eq_getElem hrefs] at hnone
        cases hnone
  · rw [if_neg hgate]
    refine Outcome.pure (h.skip ?_)
    rw [counted, hnode]
    simp [hgate]

theorem Traced.restack (h : Traced net references cut root seen taken stack weight s) {taken' stack' : List Nat}
    (hperm : (taken ++ stack).Perm (taken' ++ stack')) :
    Traced net references cut root seen taken' stack' weight s where
  __ := h
  stacked := h.stacked.trans hperm

theorem drainCone_outcome (hnet : Topological net.nodes) (hrefs : references.length = net.nodeCount)
    (hroot : root < net.nodeCount) {order : List Nat → List Nat} (horder : ∀ xs, (order xs).Perm xs) {fuel : Nat}
    (h : Traced net references cut root seen taken stack weight s)
    (hseen : seen.Perm (taken.flatMap (faninsOf net))) (hfuel : MFFC_NODE_BUDGET ≤ fuel + taken.length) :
    Outcome s (drainCone net references cut order fuel weight stack)
      (fun weight t => ∃ seen taken, Traced net references cut root seen taken [] weight t ∧
        seen.Perm (taken.flatMap (faninsOf net))) GivesUp := by
  induction fuel generalizing seen taken stack weight s with
  | zero =>
    have hstack : stack = [] := by
      have hlength := h.stacked.length_eq
      have hbudget := h.budget
      rw [List.length_append] at hlength
      exact List.length_eq_zero_iff.mp (by omega)
    subst hstack
    exact Outcome.pure ⟨seen, taken, h, hseen⟩
  | succ fuel ih =>
    rw [drainCone]
    cases hnext : order stack with
    | nil =>
      have hstack := (hnext ▸ horder stack).symm
      rw [List.perm_nil] at hstack
      subst hstack
      exact Outcome.pure ⟨seen, taken, h, hseen⟩
    | cons current pending =>
      have hperm : (taken ++ stack).Perm ((current :: taken) ++ pending) := by
        have hpop := (hnext ▸ horder stack).symm
        exact (hpop.append_left taken).trans List.perm_middle
      have htaken := h.restack hperm
      have hcurrent : current ∈ s.dying := htaken.stacked.mem_iff.mpr List.mem_cons_self
      have hle := h.below current hcurrent
      refine Outcome.bind (Outcome.foldlM (fun done (progress : Nat × List Nat) t =>
        Traced net references cut root (seen ++ done) (current :: taken) progress.2 progress.1 t)
        (by simpa using htaken) ?_) ?_ fun _ _ he => he
      · intro done fanin rest hsplit progress t ht
        have hmem : fanin ∈ faninsOf net current := (horder _).mem_iff.mp (hsplit ▸ by simp)
        have hlt : fanin < current := by
          rw [faninsOf] at hmem
          cases hn : net.nodes[current]? with
          | none => rw [hn] at hmem; cases hmem
          | some node =>
            rw [hn] at hmem
            obtain ⟨f, hf, rfl⟩ := List.mem_map.mp hmem
            exact hnet current node hn f hf
        rw [← List.append_assoc]
        exact visitFanin_outcome ht (by omega) (by omega) (by omega)
      · rintro ⟨weight, stack⟩ t ht
        apply ih ht
        · rw [List.flatMap_cons]
          exact ((horder _).append_left seen).trans (List.perm_append_comm.trans (hseen.append_left _))
        · rw [List.length_cons]
          omega

end

/-! The counts, and the cone. -/

variable {net : LogicNetwork} {roots : List Lit} {references : List Nat} {cut : KCut} {root : Nat}

/-- Whatever a traversal leaves behind, the next one starts from. -/
theorem mffcWeightIn_outcome {s : MffcScratch} (hs : s.Reusable) (hnet : Topological net.nodes)
    (hrefs : references.length = net.nodeCount) (hroot : root < net.nodeCount)
    {order : List Nat → List Nat} (horder : ∀ xs, (order xs).Perm xs) :
    Outcome s (mffcWeightIn net references cut order root)
      (fun weight t => ∃ seen taken, Traced net references cut root seen taken [] weight t ∧
        seen.Perm (taken.flatMap (faninsOf net))) GivesUp := by
  have hnode := List.getElem?_eq_getElem hroot
  have hrun : (mffcWeightIn net references cut order root).run s =
      (drainCone net references cut order MFFC_NODE_BUDGET (nodeWeight net.nodes[root]) [root]).run
        (s.begin root) := by
    simp only [mffcWeightIn, hnode]
    rfl
  have hstart : Traced net references cut root [] [] [root] (nodeWeight net.nodes[root]) (s.begin root) := by
    refine ⟨?_, .refl _, List.nodup_singleton root, List.mem_cons_self, ?_, ?_, ?_, ?_⟩
    · have hzero : removed net cut [] = fun _ => 0 := funext fun n => ite_self 0
      rw [hzero]
      exact hs.begin_records root
    · intro n hn
      exact (List.mem_singleton.mp hn).le
    · intro n hn
      refine ⟨fun hmem => absurd (List.mem_singleton.mp hmem) hn, fun hall => absurd hall.2.1 (Nat.lt_irrefl 0)⟩
    · simp [MffcScratch.begin, weightOf, hnode]
    · simp [MffcScratch.begin, MFFC_NODE_BUDGET]
  have hdrain := drainCone_outcome hnet hrefs hroot horder hstart (.refl _) (Nat.le_refl _)
  unfold Outcome at hdrain ⊢
  rw [hrun]
  exact hdrain

theorem Traced.complete {seen taken : List Nat} {weight : Nat} {s : MffcScratch}
    (h : Traced net references cut root seen taken [] weight s) (hseen : seen.Perm (taken.flatMap (faninsOf net)))
    (hrefs : referenceCounts net roots = some references) :
    FanoutFree.Complete (faninsOf net) (fun n => counted net cut n = true) (roots.map (·.node)) root
      (List.range net.nodeCount) s.dying := by
  intro n hn
  have hperm : seen.Perm (s.dying.flatMap (faninsOf net)) := by
    have hstacked := h.stacked.symm
    rw [List.append_nil] at hstacked
    exact hseen.trans (hstacked.flatMap_right _)
  rw [h.members n hn, hperm.count_eq]
  apply and_congr_right
  intro hcounted
  have hlt : n < net.nodeCount := by
    by_contra hge
    have hnone : net.nodes[n]? = none := List.getElem?_eq_none (Nat.le_of_not_lt hge)
    rw [counted, hnone, Option.any_none, Bool.and_false] at hcounted
    cases hcounted
  rw [(referenceCounts_count hrefs).2 n hlt, mentions, List.count_append, Option.some.injEq]
  exact and_congr_right fun _ => eq_comm

/-- The scratches that traversals leave behind, whether they finish or stop. -/
inductive Served : MffcScratch → Prop
  | new : Served .new
  | finished {s t : MffcScratch} {b : LogicBuilder} {references : List Nat} {cut : KCut} {root weight : Nat} :
      Served s → Reachable b → references.length = b.nodes.length → root < b.nodes.length →
      (mffcWeight b.freeze references cut root).run s = .ok weight t → Served t
  | stopped {s t : MffcScratch} {b : LogicBuilder} {references : List Nat} {cut : KCut} {root : Nat} {e : Stop} :
      Served s → Reachable b → references.length = b.nodes.length → root < b.nodes.length →
      (mffcWeight b.freeze references cut root).run s = .error e t → Served t

theorem Served.valid {s : MffcScratch} (h : Served s) : s.Reusable := by
  induction h with
  | new => exact fun slot => .inl rfl
  | finished _ hb hlength hroot hrun ih =>
    obtain ⟨_, _, htraced, -⟩ := Outcome.ok (mffcWeightIn_outcome ih (ordered_freeze hb.inv).topological hlength hroot
      fun xs => List.Perm.refl (id xs)) hrun
    exact htraced.records.valid
  | stopped _ hb hlength hroot hrun ih =>
    exact (Outcome.error (mffcWeightIn_outcome ih (ordered_freeze hb.inv).topological hlength hroot
      fun xs => List.Perm.refl (id xs)) hrun).2

/-- A traversal that returns leaves the largest fanout-free cone of the root within the cut,
each node once, with its weight, and so does any other order of traversal. It gives up or
returns, after any traversals. -/
theorem cone_exact {b : LogicBuilder} (hb : Reachable b) (hrefs : referenceCounts b.freeze roots = some references)
    (hroot : root < b.nodes.length) (cut : KCut) {s : MffcScratch} (hs : Served s) :
    Outcome s (mffcWeight b.freeze references cut root)
      (fun weight t => t.dying.Nodup ∧
        IsGreatest {cone | FanoutFree.Cone (faninsOf b.freeze) (fun n => counted b.freeze cut n = true)
          (roots.map (·.node)) root cone} {n | n ∈ t.dying} ∧
        weight = (t.dying.map (weightOf b.freeze)).sum ∧
        ∀ order : List Nat → List Nat, (∀ xs, (order xs).Perm xs) → ∀ other, Served other →
          Outcome other (mffcWeightIn b.freeze references cut order root)
            (fun weight' u => weight' = weight ∧ u.dying.Perm t.dying) fun e _ => e = .abandoned)
      fun e _ => e = .abandoned := by
  have hnet := (ordered_freeze hb.inv).topological
  have hlength := (referenceCounts_count hrefs).1
  have hcone {seen taken : List Nat} {weight : Nat} {t : MffcScratch}
      (h : Traced b.freeze references cut root seen taken [] weight t)
      (hseen : seen.Perm (taken.flatMap (faninsOf b.freeze))) :
      IsGreatest {cone | FanoutFree.Cone (faninsOf b.freeze) (fun n => counted b.freeze cut n = true)
        (roots.map (·.node)) root cone} {n | n ∈ t.dying} := by
    have hfanin (i n : Nat) (hn : n ∈ faninsOf b.freeze i) : n < i ∧ i < b.freeze.nodeCount := by
      rw [faninsOf] at hn
      cases hi : b.freeze.nodes[i]? with
      | none => rw [hi] at hn; cases hn
      | some node =>
        rw [hi] at hn
        obtain ⟨f, hf, rfl⟩ := List.mem_map.mp hn
        exact ⟨hnet i node hi f hf, (List.getElem?_eq_some_iff.mp hi).1⟩
    apply (h.complete hseen hrefs).isGreatest (fun n => n)
    · exact fun i n hn => (hfanin i n hn).1
    · exact List.nodup_range
    · exact fun i n hn => List.mem_range.mpr (hfanin i n hn).2
    · exact h.nodup
    · exact fun n hn => List.mem_range.mpr (Nat.lt_of_le_of_lt (h.below n hn) hroot)
    · exact h.top
  apply (mffcWeightIn_outcome hs.valid hnet hlength hroot fun _ => List.Perm.refl _).mono
  · rintro weight t ⟨seen, taken, h, hseen⟩
    refine ⟨h.nodup, hcone h hseen, h.weight, fun order horder other hother => ?_⟩
    apply (mffcWeightIn_outcome hother.valid hnet hlength hroot horder).mono
    · rintro weight' u ⟨seen', taken', h', hseen'⟩
      have hsame := (hcone h' hseen').unique (hcone h hseen)
      have hperm : u.dying.Perm t.dying :=
        (List.perm_ext_iff_of_nodup h'.nodup h.nodup).mpr fun n => Set.ext_iff.mp hsame n
      refine ⟨?_, hperm⟩
      rw [h'.weight, h.weight]
      exact (hperm.map _).sum_eq
    · exact fun _ _ he => he.1
  · exact fun _ _ he => he.1

def inputCut : KCut := ⟨[1, 2, 3], by decide, by decide⟩

/-- Both gates go with the root. -/
theorem triple_cone : ∃ t, (mffcWeight tripleProduct.freeze [0, 1, 1, 1, 1, 1] inputCut 5).run .new = .ok 4 t ∧
    IsGreatest {cone | FanoutFree.Cone (faninsOf tripleProduct.freeze)
      (fun n => counted tripleProduct.freeze inputCut n = true) [5] 5 cone} {n | n ∈ t.dying} := by
  have hrun : ∃ t, (mffcWeight tripleProduct.freeze [0, 1, 1, 1, 1, 1] inputCut 5).run .new = .ok 4 t := ⟨_, rfl⟩
  obtain ⟨t, ht⟩ := hrun
  have hrefs : referenceCounts tripleProduct.freeze [⟨5, false⟩] = some [0, 1, 1, 1, 1, 1] := by decide
  have hcone := cone_exact reachable_tripleProduct hrefs (show 5 < 6 by decide) inputCut .new
  exact ⟨t, ht, (hcone.ok ht).2.1⟩

end Opto.Synth
