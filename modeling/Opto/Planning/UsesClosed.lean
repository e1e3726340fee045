import Opto.Planning.Uses
import Opto.Word.Module

/-!
# What observability reaches

The marks of the walk are closed when its stacks are empty, and the walk never runs short
of fuel: every pop takes one from the entries and the pushes that are left.
-/

namespace Opto.Planning

open Word

namespace ObservabilityWalk

/-- A value is marked or will be popped. -/
def Reaches (s : ObservabilityWalk) (value : Nat) : Prop :=
  Marked s.reachableValues value ∨ value ∈ s.pendingValues

def Observes (s : ObservabilityWalk) (signal : Nat) : Prop :=
  Marked s.observedSignals signal ∨ signal ∈ s.pendingSignals

end ObservabilityWalk

variable {m : WordModule} {rows : ObservabilityRows}

/-- The marks are closed, but for the given connections and read ports and what is pending. -/
structure Walking (m : WordModule) (rows : ObservabilityRows) (signals roots : List Nat)
    (s : ObservabilityWalk) (connects reads : List Nat) : Prop where
  boundary : ∀ g ∈ signals, s.Observes g
  given : ∀ v ∈ roots, v ∈ s.rootValues
  driven : ∀ g c : Nat, Marked s.observedSignals g → c ∈ rows.connectsBySignal.row g →
    Marked s.liveConnects c ∨ c ∈ connects
  driver : ∀ (c : Nat) stored, m.connects[c]? = some stored → Marked s.liveConnects c →
    ∀ v ∈ stored.values, s.Reaches v
  liveLength : s.liveConnects.length = m.connects.length
  read : ∀ g r : Nat, Marked s.observedSignals g → r ∈ rows.memoryReadsBySignal.row g →
    (∃ port, m.memoryReadPorts[r]? = some port ∧ Marked s.observedMemories port.memory) ∨ r ∈ reads
  stored : ∀ k : Nat, Marked s.observedMemories k → ∀ v ∈ rows.memoryValues.row k, v ∈ s.rootValues
  root : ∀ v ∈ s.rootValues, s.Reaches v
  signal : ∀ (v : Nat) reference ty, Marked s.reachableValues v → m.values[v]? = some ⟨.signal reference, ty⟩ →
    s.Observes reference.signal
  operand : ∀ (v o : Nat) ty stored, Marked s.reachableValues v → m.values[v]? = some ⟨.operation o, ty⟩ →
    m.operations[o]? = some stored → ∀ i ∈ stored.kind.inputs, s.Reaches i

/-- An answer leaves the marks closed and has lowered what remains; an error says nothing. -/
abbrev Visits (m : WordModule) (rows : ObservabilityRows) (signals roots : List Nat)
    (r : Except SynthError ObservabilityWalk) (bound : Nat) : Prop :=
  Settles r (fun s => Walking m rows signals roots s [] [] ∧ s.remaining m rows < bound) fun _ => True

namespace Walking

variable {signals roots connects reads : List Nat} {s : ObservabilityWalk} {c r : Nat}

/-- A fresh connection is marked and its values are pushed. -/
theorem visitConnect (h : Walking m rows signals roots s (c :: connects) reads) {connect : Connect}
    (hc : m.connects[c]? = some connect) :
    Walking m rows signals roots (visitConnect m s c) connects reads ∧
      (Planning.visitConnect m s c).remaining m rows = s.remaining m rows := by
  obtain ⟨live, hlive⟩ : ∃ live, s.liveConnects[c]? = some live := by
    have hlt : c < s.liveConnects.length := h.liveLength.symm ▸ (List.getElem?_eq_some_iff.mp hc).1
    exact ⟨_, List.getElem?_eq_getElem hlt⟩
  cases live with
  | true =>
    have hsame : Planning.visitConnect m s c = s := by rw [Planning.visitConnect, hlive]
    rw [hsame]
    refine ⟨{ h with driven := fun g c' hg hrow => ?_ }, rfl⟩
    rcases h.driven g c' hg hrow with hmarked | hmem
    · exact .inl hmarked
    · rcases List.mem_cons.mp hmem with rfl | hmem
      · exact .inl hlive
      · exact .inr hmem
  | false =>
    have hstep : Planning.visitConnect m s c = { s with
        liveConnects := s.liveConnects.set c true
        pendingValues := connect.values.reverse ++ s.pendingValues } := by
      rw [Planning.visitConnect, hlive, hc]
    have hreach (v : Nat) (hv : s.Reaches v) : (Planning.visitConnect m s c).Reaches v := by
      rw [hstep]
      exact hv.imp_right (List.mem_append_right _)
    have hkeep : Walking m rows signals roots (Planning.visitConnect m s c) connects reads := by
      constructor
      · rw [hstep]; exact h.boundary
      · rw [hstep]; exact h.given
      · intro g c' hg hrow
        rw [hstep] at hg ⊢
        rcases h.driven g c' hg hrow with hmarked | hmem
        · exact .inl (hmarked.set c)
        · rcases List.mem_cons.mp hmem with rfl | hmem
          · exact .inl (marked_self hlive)
          · exact .inr hmem
      · intro c' stored hstored hmarked v hv
        rw [hstep] at hmarked
        rcases hmarked.of_set with rfl | hmarked
        · rw [hc] at hstored
          cases hstored
          rw [hstep]
          exact .inr (List.mem_append_left _ (List.mem_reverse.mpr hv))
        · exact hreach v (h.driver c' stored hstored hmarked v hv)
      · rw [hstep, List.length_set]; exact h.liveLength
      · rw [hstep]; exact h.read
      · rw [hstep]; exact h.stored
      · intro v hv
        rw [hstep] at hv
        exact hreach v (h.root v hv)
      · rw [hstep]; exact h.signal
      · intro v o ty stored hv hvalue ho i hi
        rw [hstep] at hv
        exact hreach i (h.operand v o ty stored hv hvalue ho i hi)
    refine ⟨hkeep, ?_⟩
    have hcost := unmarked_set (connectCost m) hlive
    have hvalues : connectCost m c = connect.values.length := by rw [connectCost, hc]; rfl
    rw [hstep]
    simp only [ObservabilityWalk.remaining, List.length_append, List.length_reverse]
    omega

/-- A memory that is read for the first time has the operands of its ports for roots. -/
theorem visitRead (h : Walking m rows signals roots s [] (r :: reads)) :
    Settles (visitRead m rows s r) (fun s' => Walking m rows signals roots s' [] reads ∧
      s'.remaining m rows = s.remaining m rows) fun _ => True := by
  unfold Planning.visitRead
  apply Settles.bind (orInvariant_settles _ _)
  intro port hport
  apply Settles.bind (orInvariant_settles _ _)
  intro observed hobserved
  have hread (flags : List Bool) (hmarked : Marked flags port.memory)
      (hmore : ∀ k, Marked s.observedMemories k → Marked flags k) (g r' : Nat)
      (hg : Marked s.observedSignals g) (hrow : r' ∈ rows.memoryReadsBySignal.row g) :
      (∃ p, m.memoryReadPorts[r']? = some p ∧ Marked flags p.memory) ∨ r' ∈ reads := by
    rcases h.read g r' hg hrow with ⟨p, hp, hk⟩ | hmem
    · exact .inl ⟨p, hp, hmore _ hk⟩
    · rcases List.mem_cons.mp hmem with rfl | hmem
      · exact .inl ⟨port, hport, hmarked⟩
      · exact .inr hmem
  cases observed with
  | true => exact ⟨{ h with read := hread _ hobserved fun _ hk => hk }, rfl⟩
  | false =>
    refine ⟨⟨h.boundary, fun v hv => List.mem_append_left _ (h.given v hv), h.driven, ?_, h.liveLength,
      hread _ (marked_self hobserved) fun k hk => hk.set _, ?_, ?_, h.signal, ?_⟩, ?_⟩
    · intro c' stored hstored hmarked v hv
      exact (h.driver c' stored hstored hmarked v hv).imp_right (List.mem_append_right _)
    · intro k hk v hv
      rcases hk.of_set with rfl | hk
      · exact List.mem_append_right _ hv
      · exact List.mem_append_left _ (h.stored k hk v hv)
    · intro v hv
      rcases List.mem_append.mp hv with hv | hv
      · exact (h.root v hv).imp_right (List.mem_append_right _)
      · exact .inr (List.mem_append_left _ (List.mem_reverse.mpr hv))
    · intro v o ty stored hv hvalue ho i hi
      exact (h.operand v o ty stored hv hvalue ho i hi).imp_right (List.mem_append_right _)
    · have hcost := unmarked_set (fun memory => (rows.memoryValues.row memory).length) hobserved
      simp only [ObservabilityWalk.remaining, List.length_append, List.length_reverse]
      omega

theorem visitConnects (h : Walking m rows signals roots s connects reads)
    (hknown : ∀ c ∈ connects, ∃ connect, m.connects[c]? = some connect) :
    Walking m rows signals roots (connects.foldl (Planning.visitConnect m) s) [] reads ∧
      (connects.foldl (Planning.visitConnect m) s).remaining m rows = s.remaining m rows := by
  induction connects generalizing s with
  | nil => exact ⟨h, rfl⟩
  | cons c connects ih =>
    obtain ⟨connect, hc⟩ := hknown c List.mem_cons_self
    have hstep := h.visitConnect hc
    have hrest := ih hstep.1 fun c' hc' => hknown c' (List.mem_cons_of_mem _ hc')
    exact ⟨hrest.1, hrest.2.trans hstep.2⟩

theorem visitReads (h : Walking m rows signals roots s [] reads) :
    Settles (reads.foldlM (Planning.visitRead m rows) s) (fun s' => Walking m rows signals roots s' [] [] ∧
      s'.remaining m rows = s.remaining m rows) fun _ => True := by
  induction reads generalizing s with
  | nil => exact ⟨h, rfl⟩
  | cons r reads ih =>
    rw [List.foldlM_cons]
    apply Settles.bind h.visitRead
    intro s' ⟨hs', hsame⟩
    apply Settles.mono (ih hs')
    exact fun t ⟨ht, he⟩ => ⟨ht, he.trans hsame⟩

end Walking

variable {signals roots rest : List Nat} {s : ObservabilityWalk} {g v : Nat}

theorem known_row {packed : PackedRows Nat} (hrows : packed.entries = connectEntries m) {c : Nat}
    (hc : c ∈ packed.row g) : ∃ connect, m.connects[c]? = some connect ∧ connect.target.signal = g := by
  rw [PackedRows.mem_row, hrows, connectEntries, List.mem_map] at hc
  obtain ⟨⟨connect, index⟩, hmem, he⟩ := hc
  cases he
  exact ⟨connect, List.mem_zipIdx_iff_getElem?.mp hmem, rfl⟩

theorem visitSignal_visits (h : Walking m rows signals roots s [] []) (hpending : s.pendingSignals = g :: rest)
    (hrows : rows.connectsBySignal.entries = connectEntries m) :
    Visits m rows signals roots (visitSignal m rows { s with pendingSignals := rest } g) (s.remaining m rows) := by
  unfold visitSignal
  apply Settles.bind (orInvariant_settles _ _)
  intro observed hobserved
  -- the popped signal is marked now, whether it was before or not
  have hobserves (flags : List Bool) (hmarked : Marked flags g)
      (hmore : ∀ k, Marked s.observedSignals k → Marked flags k) (k : Nat) (hk : s.Observes k) :
      Marked flags k ∨ k ∈ rest := by
    rcases hk with hk | hk
    · exact .inl (hmore k hk)
    · rw [hpending] at hk
      rcases List.mem_cons.mp hk with rfl | hk
      · exact .inl hmarked
      · exact .inr hk
  have hless : ({ s with pendingSignals := rest } : ObservabilityWalk).remaining m rows < s.remaining m rows := by
    simp only [ObservabilityWalk.remaining, hpending, List.length_cons]
    omega
  cases observed with
  | true =>
    have hsame := hobserves _ hobserved fun _ hk => hk
    refine ⟨{ h with boundary := fun k hk => hsame k (h.boundary k hk), signal := ?_ }, hless⟩
    exact fun v reference ty hv hvalue => hsame _ (h.signal v reference ty hv hvalue)
  | false =>
    have hset := hobserves _ (marked_self hobserved) fun k hk => hk.set g
    have hstart : Walking m rows signals roots
        { s with pendingSignals := rest, observedSignals := s.observedSignals.set g true }
        (rows.connectsBySignal.row g) (rows.memoryReadsBySignal.row g) := by
      refine { h with
        boundary := fun k hk => hset k (h.boundary k hk)
        driven := ?_
        read := ?_
        signal := fun v reference ty hv hvalue => hset _ (h.signal v reference ty hv hvalue) }
      · intro k c hk hrow
        rcases hk.of_set with rfl | hk
        · exact .inr hrow
        · exact .inl ((h.driven k c hk hrow).resolve_right List.not_mem_nil)
      · intro k r hk hrow
        rcases hk.of_set with rfl | hk
        · exact .inr hrow
        · exact .inl ((h.read k r hk hrow).resolve_right List.not_mem_nil)
    have hconnects := hstart.visitConnects fun c hc => (known_row hrows hc).imp fun _ hc => hc.1
    apply Settles.mono hconnects.1.visitReads
    intro t ⟨ht, he⟩
    rw [he, hconnects.2]
    exact ⟨ht, hless⟩

theorem visitValue_visits (h : Walking m rows signals roots s [] []) (hpending : s.pendingValues = v :: rest) :
    Visits m rows signals roots (visitValue m { s with pendingValues := rest } v) (s.remaining m rows) := by
  unfold visitValue
  apply Settles.bind (orInvariant_settles _ _)
  intro reachable hreachable
  have hreaches (flags : List Bool) (hmarked : Marked flags v)
      (hmore : ∀ k, Marked s.reachableValues k → Marked flags k) (k : Nat) (hk : s.Reaches k) :
      Marked flags k ∨ k ∈ rest := by
    rcases hk with hk | hk
    · exact .inl (hmore k hk)
    · rw [hpending] at hk
      rcases List.mem_cons.mp hk with rfl | hk
      · exact .inl hmarked
      · exact .inr hk
  cases reachable with
  | true =>
    have hsame := hreaches _ hreachable fun _ hk => hk
    refine ⟨{ h with
      driver := fun c stored hc hk v hv => hsame v (h.driver c stored hc hk v hv)
      root := fun k hk => hsame k (h.root k hk)
      operand := fun w o ty stored hw hvalue ho i hi => hsame i (h.operand w o ty stored hw hvalue ho i hi) }, ?_⟩
    simp only [ObservabilityWalk.remaining, hpending, List.length_cons]
    omega
  | false =>
    have hset := hreaches _ (marked_self hreachable) fun k hk => hk.set v
    have hcost : unmarked (valueCost m) (s.reachableValues.set v true) + valueCost m v =
      unmarked (valueCost m) s.reachableValues := unmarked_set (valueCost m) hreachable
    apply Settles.bind (orInvariant_settles _ _)
    intro stored hvalue
    -- what the value pushes may be anything that contains its successors
    have hwalk (moreSignals moreValues : List Nat)
        (hsignal : ∀ reference ty, m.values[v]? = some ⟨.signal reference, ty⟩ → reference.signal ∈ moreSignals)
        (hoperand : ∀ o ty stored, m.values[v]? = some ⟨.operation o, ty⟩ → m.operations[o]? = some stored →
          ∀ i ∈ stored.kind.inputs, i ∈ moreValues)
        (hcount : moreSignals.length + moreValues.length = valueCost m v) (t : ObservabilityWalk)
        (ht : t = { s with
          pendingSignals := moreSignals ++ s.pendingSignals
          pendingValues := moreValues ++ rest
          reachableValues := s.reachableValues.set v true }) :
        Walking m rows signals roots t [] [] ∧ t.remaining m rows < s.remaining m rows := by
      subst ht
      have hreach (k : Nat) (hk : s.Reaches k) :
          Marked (s.reachableValues.set v true) k ∨ k ∈ moreValues ++ rest :=
        (hset k hk).imp_right (List.mem_append_right _)
      refine ⟨{ h with
        boundary := fun k hk => (h.boundary k hk).imp_right (List.mem_append_right _)
        driver := fun c stored hc hk w hw => hreach w (h.driver c stored hc hk w hw)
        root := fun k hk => hreach k (h.root k hk)
        signal := ?_
        operand := ?_ }, ?_⟩
      · intro w reference ty hw hstored
        rcases hw.of_set with rfl | hw
        · exact .inr (List.mem_append_left _ (hsignal reference ty hstored))
        · exact (h.signal w reference ty hw hstored).imp_right (List.mem_append_right _)
      · intro w o ty stored hw hstored ho i hi
        rcases hw.of_set with rfl | hw
        · exact .inr (List.mem_append_left _ (hoperand o ty stored hstored ho i hi))
        · exact hreach i (h.operand w o ty stored hw hstored ho i hi)
      · simp only [ObservabilityWalk.remaining, hpending, List.length_cons, List.length_append]
        omega
    obtain ⟨kind, ty⟩ := stored
    cases kind with
    | constant bits =>
      refine hwalk [] [] ?_ ?_ ?_ _ rfl
      · intro reference ty' hstored
        rw [hvalue] at hstored
        cases hstored
      · intro o ty' stored hstored
        rw [hvalue] at hstored
        cases hstored
      · rw [valueCost, hvalue]
        rfl
    | signal reference =>
      refine hwalk [reference.signal] [] ?_ ?_ ?_ _ rfl
      · intro reference' ty' hstored
        rw [hvalue] at hstored
        cases hstored
        exact List.mem_cons_self
      · intro o ty' stored hstored
        rw [hvalue] at hstored
        cases hstored
      · rw [valueCost, hvalue]
        rfl
    | operation o =>
      apply Settles.bind (orInvariant_settles _ _)
      intro operation ho
      refine hwalk [] operation.kind.inputs.reverse ?_ ?_ ?_ _ rfl
      · intro reference' ty' hstored
        rw [hvalue] at hstored
        cases hstored
      · intro o' ty' stored hstored hoperation i hi
        rw [hvalue] at hstored
        cases hstored
        rw [ho] at hoperation
        cases hoperation
        exact List.mem_reverse.mpr hi
      · simp only [valueCost, hvalue, ho, Option.map_some, Option.getD_some, List.length_nil,
          List.length_reverse, Nat.zero_add]

/-- With as much fuel as there are pushes left, the walk stops at empty stacks. -/
theorem observe_settles (hrows : rows.connectsBySignal.entries = connectEntries m) {fuel : Nat}
    (h : Walking m rows signals roots s [] []) (hfuel : s.remaining m rows ≤ fuel) :
    Settles (observe m rows fuel s) (fun t => Walking m rows signals roots t [] [] ∧
      t.pendingSignals = [] ∧ t.pendingValues = []) fun _ => True := by
  induction fuel generalizing s with
  | zero =>
    have hremaining : s.pendingSignals.length + s.pendingValues.length = 0 := by
      unfold ObservabilityWalk.remaining at hfuel
      omega
    have hsignals : s.pendingSignals = [] := List.eq_nil_of_length_eq_zero (by omega)
    have hvalues : s.pendingValues = [] := List.eq_nil_of_length_eq_zero (by omega)
    exact ⟨h, hsignals, hvalues⟩
  | succ fuel ih =>
    rw [observe]
    split
    next signal rest hsignals =>
      apply Settles.bind (visitSignal_visits h hsignals hrows)
      intro t ⟨ht, hless⟩
      exact ih ht (by omega)
    next value rest hsignals hvalues =>
      apply Settles.bind (visitValue_visits h hvalues)
      intro t ⟨ht, hless⟩
      exact ih ht (by omega)
    next hsignals hvalues => exact ⟨h, hsignals, hvalues⟩

/-- The answer contains its roots and is closed. -/
structure Observable (m : WordModule) (observedValues : List Nat) (o : NetlistObservability) : Prop where
  boundary : ∀ g ∈ observedBoundarySignals m, Marked o.observedSignals g
  instances : ∀ v ∈ instanceValues m, v ∈ o.rootValues
  observed : ∀ v ∈ observedValues, v ∈ o.rootValues
  rooted : ∀ connect ∈ m.connects, connect.target.signal ∈ rootBoundarySignals m → connect.value ∈ o.rootValues
  reads : ∀ port ∈ m.memoryReadPorts, Marked o.observedMemories port.memory → ∀ v ∈ port.values, v ∈ o.rootValues
  writes : ∀ port ∈ m.memoryWritePorts, Marked o.observedMemories port.memory → ∀ v ∈ port.values, v ∈ o.rootValues
  root : ∀ v ∈ o.rootValues, Marked o.reachableValues v
  driver : ∀ connect ∈ m.connects, Marked o.observedSignals connect.target.signal →
    Marked o.reachableValues connect.value
  read : ∀ port ∈ m.memoryReadPorts, Marked o.observedSignals port.data → Marked o.observedMemories port.memory
  signal : ∀ (v : Nat) reference ty, Marked o.reachableValues v → m.values[v]? = some ⟨.signal reference, ty⟩ →
    Marked o.observedSignals reference.signal
  operand : ∀ (v o' : Nat) ty stored, Marked o.reachableValues v → m.values[v]? = some ⟨.operation o', ty⟩ →
    m.operations[o']? = some stored → ∀ i ∈ stored.kind.inputs, Marked o.reachableValues i

theorem preserved_boundary (m : WordModule) {g : Nat} (h : g ∈ rootBoundarySignals m) :
    g ∈ observedBoundarySignals m := by
  rw [rootBoundarySignals, List.mem_append] at h
  rw [observedBoundarySignals, List.mem_append]
  apply h.imp_left
  intro hport
  obtain ⟨port, hmem, he⟩ := List.mem_map.mp hport
  exact List.mem_map.mpr ⟨port, List.mem_of_mem_filter hmem, he⟩

theorem row_of_connect {packed : PackedRows Nat} (hrows : packed.entries = connectEntries m) {c : Nat}
    {connect : Connect} (hc : m.connects[c]? = some connect) : c ∈ packed.row connect.target.signal := by
  rw [PackedRows.mem_row, hrows, connectEntries]
  exact List.mem_map.mpr ⟨(connect, c), List.mem_zipIdx_iff_getElem?.mpr hc, rfl⟩

theorem row_of_read {packed : PackedRows Nat} (hrows : packed.entries = memoryReadEntries m) {r : Nat}
    {port : MemoryReadPort} (hr : m.memoryReadPorts[r]? = some port) : r ∈ packed.row port.data := by
  rw [PackedRows.mem_row, hrows, memoryReadEntries]
  exact List.mem_map.mpr ⟨(port, r), List.mem_zipIdx_iff_getElem?.mpr hr, rfl⟩

/-- Nothing is marked at first. -/
theorem Walking.start (m : WordModule) (rows : ObservabilityRows) (roots : List Nat) :
    Walking m rows (observedBoundarySignals m) roots
      { observedSignals := List.replicate m.signals.length false
        reachableValues := List.replicate m.values.length false
        liveConnects := List.replicate m.connects.length false
        observedMemories := List.replicate m.memories.length false
        nonConnectRootValues := roots
        rootValues := roots
        pendingSignals := (observedBoundarySignals m).reverse
        pendingValues := roots.reverse } [] [] where
  boundary _ hg := .inr (List.mem_reverse.mpr hg)
  given _ hv := hv
  driven _ _ hg := absurd hg (not_marked_replicate _)
  driver _ _ _ hc := absurd hc (not_marked_replicate _)
  liveLength := List.length_replicate
  read _ _ hg := absurd hg (not_marked_replicate _)
  stored _ hk := absurd hk (not_marked_replicate _)
  root _ hv := .inr (List.mem_reverse.mpr hv)
  signal _ _ _ hv := absurd hv (not_marked_replicate _)
  operand _ _ _ _ hv := absurd hv (not_marked_replicate _)

theorem netlistObservability_settles (m : WordModule) (observedValues : List Nat) :
    Settles (netlistObservabilityWithValues m observedValues) (Observable m observedValues) fun _ => True := by
  unfold netlistObservabilityWithValues
  apply Settles.bind (packs _ _)
  intro connectsBySignal hconnects
  apply Settles.bind (packs _ _)
  intro memoryReadsBySignal hreads
  apply Settles.bind (packs _ _)
  intro memoryValues hmemory
  apply Settles.bind (Q := fun _ => True) (by cases markRoots _ _ <;> trivial)
  intro rootSignals _
  have hstart := Walking.start m ⟨connectsBySignal, memoryReadsBySignal, memoryValues⟩
    (sortDedup (sortDedup (instanceValues m) ++ observedValues))
  apply Settles.bind (observe_settles hconnects hstart le_rfl)
  intro s ⟨hwalk, hsignals, hvalues⟩
  have hreached (v : Nat) (hv : s.Reaches v) : Marked s.reachableValues v := by
    rw [ObservabilityWalk.Reaches, hvalues] at hv
    exact hv.resolve_right List.not_mem_nil
  have hobserved (g : Nat) (hg : s.Observes g) : Marked s.observedSignals g := by
    rw [ObservabilityWalk.Observes, hsignals] at hg
    exact hg.resolve_right List.not_mem_nil
  have hlive (c : Nat) (connect : Connect) (hc : m.connects[c]? = some connect)
      (hg : Marked s.observedSignals connect.target.signal) : Marked s.liveConnects c :=
    (hwalk.driven _ c hg (row_of_connect hconnects hc)).resolve_right List.not_mem_nil
  -- the values of live connections that are roots besides what the walk has found
  have hrooted (cs : List Nat) (hcs : ∀ c ∈ cs, Marked s.liveConnects c) :
      ∀ v ∈ cs.flatMap fun c => (m.connects[c]?.map (·.values)).getD [], Marked s.reachableValues v := by
    intro v hv
    obtain ⟨c, hc, hv⟩ := List.mem_flatMap.mp hv
    cases hstored : m.connects[c]? with
    | none => rw [hstored] at hv; cases hv
    | some stored =>
      rw [hstored] at hv
      exact hreached v (hwalk.driver c stored hstored (hcs c hc) v hv)
  have hgiven (v : Nat) (hv : v ∈ instanceValues m ∨ v ∈ observedValues) : v ∈ s.rootValues := by
    apply hwalk.given v
    rw [mem_sortDedup, List.mem_append, mem_sortDedup]
    exact hv
  constructor
  · exact fun g hg => hobserved g (hwalk.boundary g hg)
  · intro v hv
    rw [mem_sortDedup, List.mem_append, List.mem_append]
    exact .inl (.inl (hgiven v (.inl hv)))
  · intro v hv
    rw [mem_sortDedup, List.mem_append, List.mem_append]
    exact .inl (.inl (hgiven v (.inr hv)))
  · intro connect hmem hroot
    obtain ⟨c, hc⟩ := List.mem_iff_getElem?.mp hmem
    have hmarked := hlive c connect hc (hobserved _ (hwalk.boundary _ (preserved_boundary m hroot)))
    rw [mem_sortDedup, List.mem_append, List.mem_append]
    refine .inl (.inr (List.mem_flatMap.mpr ⟨c, List.mem_flatMap.mpr ⟨_, hroot, ?_⟩, ?_⟩))
    · exact List.mem_filter.mpr ⟨row_of_connect hconnects hc, decide_eq_true hmarked⟩
    · rw [hc]
      exact List.mem_cons_self
  · intro port hport hmarked v hv
    rw [mem_sortDedup, List.mem_append, List.mem_append]
    refine .inl (.inl (hwalk.stored _ hmarked v ?_))
    rw [PackedRows.mem_row, hmemory, memoryValueEntries]
    exact List.mem_append_left _ (List.mem_flatMap.mpr ⟨port, hport, List.mem_map.mpr ⟨v, hv, rfl⟩⟩)
  · intro port hport hmarked v hv
    rw [mem_sortDedup, List.mem_append, List.mem_append]
    refine .inl (.inl (hwalk.stored _ hmarked v ?_))
    rw [PackedRows.mem_row, hmemory, memoryValueEntries]
    exact List.mem_append_right _ (List.mem_flatMap.mpr ⟨port, hport, List.mem_map.mpr ⟨v, hv, rfl⟩⟩)
  · intro v hv
    rw [mem_sortDedup, List.mem_append, List.mem_append] at hv
    rcases hv with (hv | hv) | hv
    · exact hreached v (hwalk.root v hv)
    · apply hrooted _ _ v hv
      intro c hc
      obtain ⟨g, -, hc⟩ := List.mem_flatMap.mp hc
      exact of_decide_eq_true (List.mem_filter.mp hc).2
    · apply hrooted _ _ v hv
      intro c hc
      have hfilter := (List.mem_filter.mp hc).2
      rw [Bool.and_eq_true] at hfilter
      exact of_decide_eq_true hfilter.1
  · intro connect hmem hg
    obtain ⟨c, hc⟩ := List.mem_iff_getElem?.mp hmem
    exact hreached _ (hwalk.driver c connect hc (hlive c connect hc hg) _ List.mem_cons_self)
  · intro port hport hg
    obtain ⟨r, hr⟩ := List.mem_iff_getElem?.mp hport
    rcases hwalk.read _ r hg (row_of_read hreads hr) with ⟨p, hp, hk⟩ | hmem
    · rw [hr] at hp
      cases hp
      exact hk
    · exact absurd hmem List.not_mem_nil
  · exact fun v reference ty hv hvalue => hobserved _ (hwalk.signal v reference ty hv hvalue)
  · exact fun v o ty stored hv hvalue ho i hi => hreached i (hwalk.operand v o ty stored hv hvalue ho i hi)
where
  packs (rowCount : Nat) (entries : List (Nat × Nat)) :
      Settles (PackedRows.tryPack rowCount entries) (fun rows => rows.entries = entries) fun _ => True := by
    cases h : PackedRows.tryPack rowCount entries with
    | error e => exact trivial
    | ok rows => exact (PackedRows.tryPack_ok h).2

end Opto.Planning
