import Mathlib.Data.List.GetD
import Opto.Library.FanoutFree
import Opto.Library.Growing
import Opto.Logic.CanonicalForm
import Opto.Synth.Balance

/-!
# Balancing keeps functions

A tree has the value of its gate over all operands, in whatever order it joins them, and a
split chain the value of the chain. A node that another one takes in has no other reader,
so every literal that a chain refers to is mapped.
-/

namespace Opto.Synth

open Logic

namespace Balance

/-! What the literals of the new graph stand for under an assignment of the boundary. -/

variable {g : Nat → Bool} {s : Builder}

def Reads (g : Nat → Bool) (b : Builder) (l : Lit) (a : Bool) : Prop :=
  Inv b.graph ∧ Valid b.graph l ∧ networkValue b.graph.freeze g l = a

def growing (g : Nat → Bool) : Growing Builder Panic Lit where
  Good b := Inv b.graph
  Grows b t := Logic.Grows b.graph t.graph
  Reads := Reads g
  Refuses := IsCapacity
  refl := Logic.Grows.refl
  trans := Logic.Grows.trans
  good h := h.inv
  mono hgrows h := by
    have hlater := h.2.1.denotes.grows h.1 hgrows
    exact ⟨hgrows.inv, hlater.valid, (hlater.value g).trans h.2.2⟩
  unique h h' := h.2.2.symm.trans h'.2.2

open Growing

theorem record_emits {l : Lit} {a : Bool} (h : Reads g s l a) (level : Nat) :
    (growing g).Emits s (record l level) fun x t => Reads g t x a := by
  intro hgood
  exact Ensures.modify (Ensures.pure ⟨Logic.Grows.refl hgood, h⟩)

theorem onGraph_emits {m : GraphM Lit} {f : (Nat → Bool) → Bool}
    (h : Ensures s.graph m (Builds s.graph f) IsCapacity) :
    (growing g).Emits s (onGraph m) fun l t => Reads g t l (f g) := by
  intro _
  have hrun : (onGraph m).run s = onGraph m s := rfl
  rw [Ensures, hrun, onGraph]
  rw [Ensures] at h
  cases hm : m.run s.graph with
  | error e =>
    rw [hm] at h
    exact h
  | ok r =>
    rw [hm] at h
    exact ⟨h.1, h.1.inv, h.2.valid, h.2.value g⟩

def Gate.denote : Gate → Bool → Bool → Bool
  | .and => Bool.and
  | .xor => Bool.xor
  | .or => Bool.or

def Gate.unit : Gate → Bool
  | .and => true
  | .xor | .or => false

instance (gate : Gate) : LeftCommutative gate.denote where
  left_comm a b c := by cases gate <;> cases a <;> cases b <;> cases c <;> rfl

theorem Gate.assoc (gate : Gate) (a b c : Bool) :
    gate.denote (gate.denote a b) c = gate.denote a (gate.denote b c) := by
  cases gate <;> cases a <;> cases b <;> cases c <;> rfl

theorem Gate.denote_unit (gate : Gate) (a : Bool) : gate.denote a gate.unit = a := by
  cases gate <;> cases a <;> rfl

theorem emitGate_emits {x y : Lit} {a b : Bool} (gate : Gate) (hx : Reads g s x a) (hy : Reads g s y b) :
    (growing g).Emits s (emitGate gate x y) fun z t => Reads g t z (gate.denote a b) := by
  apply Emits.get
  intro _
  have hgraph : (growing g).Emits s (onGraph (gate.emit x y)) fun z t => Reads g t z (gate.denote a b) := by
    rw [← hx.2.2, ← hy.2.2]
    cases gate with
    | and => exact onGraph_emits (and_builds hx.1 hx.2.1.denotes hy.2.1.denotes)
    | xor => exact onGraph_emits (xor_builds hx.1 hx.2.1.denotes hy.2.1.denotes)
    | or => exact onGraph_emits (or_builds hx.1 hx.2.1.denotes hy.2.1.denotes)
  apply hgraph.bind
  exact fun z t _ hz => record_emits hz _

theorem mux_emits {c x y : Lit} {d a b : Bool} (hc : Reads g s c d) (hx : Reads g s x a) (hy : Reads g s y b) :
    (growing g).Emits s (mux c x y) fun z t => Reads g t z (if d then a else b) := by
  apply Emits.get
  intro _
  have hgraph := onGraph_emits (g := g) (mux_builds hc.1 hc.2.1.denotes hx.2.1.denotes hy.2.1.denotes)
  rw [hc.2.2, hx.2.2, hy.2.2] at hgraph
  apply hgraph.bind
  exact fun z t _ hz => record_emits hz _

theorem constant_emits (value : Bool) :
    (growing g).Emits s (constant value) fun x t => Reads g t x value := by
  intro hgood
  have hd := denotes_constant hgood value
  exact record_emits ⟨hgood, hd.valid, hd.value g⟩ 0 hgood

/-- The graph has no identifier left. -/
def Full (b : Builder) : Prop := 2 ^ 31 ≤ b.graph.nodes.length

theorem Full.mono {t : Builder} (h : Full s) (hgrows : Logic.Grows s.graph t.graph) : Full t :=
  Nat.le_trans h hgrows.nodes.length_le

theorem input_accepted {b : LogicBuilder} (h : b.nodes.length < 2 ^ 31) (origin : Nat) :
    ∃ l t, (LogicBuilder.input origin).run b = .ok l t := by
  have hid : NodeId.fromIndex b.nodes.length = .ok b.nodes.length := if_pos (by omega)
  have hlit : Lit.fromNode b.nodes.length = .ok ⟨b.nodes.length, false⟩ := if_pos (by omega)
  have hlevel : b.nextLevel .input .FALSE .FALSE .FALSE = .ok 0 := rfl
  simp only [LogicBuilder.input, LogicBuilder.push, EStateM.run, bind, EStateM.bind, get, getThe,
    MonadStateOf.get, stateGet_eq, check, hid, hlevel, hlit, pure, EStateM.pure, set, MonadStateOf.set,
    stateSet_eq]
  exact ⟨_, _, rfl⟩

/-- A graph that refuses an input is full. -/
theorem input_refused {b t : LogicBuilder} {origin : Nat} {e : Halt LogicError} (hgrows : Logic.Grows b t)
    (h : (LogicBuilder.input origin).run b = .error e t) : 2 ^ 31 ≤ t.nodes.length := by
  by_contra hlt
  have hle := hgrows.nodes.length_le
  obtain ⟨l, u, hok⟩ := input_accepted (b := b) (by omega) origin
  rw [hok] at h
  cases h

theorem input_emits (origin : Nat) : (growing g).Emits s (input origin) fun r t =>
    (∀ l, r = some l → Reads g t l (g origin)) ∧ (r = none → Full t) := by
  intro hgood
  have hcall := input_denotes hgood origin
  have hrun : (input origin).run s = input origin s := rfl
  unfold Outcome at hcall
  rw [Ensures, hrun, input]
  cases hexec : (Call.input origin).exec.run s.graph with
  | ok l graph =>
    have hinput : (LogicBuilder.input origin).run s.graph = .ok l graph := hexec
    rw [hinput] at hcall
    obtain ⟨hgrows, hd⟩ := hcall
    have hread : Reads g { s with graph } l (g origin) := ⟨hgrows.inv, hd.valid, hd.value g⟩
    exact ⟨hgrows, fun x hx => Option.some.inj hx ▸ hread, fun hnone => by cases hnone⟩
  | error e graph =>
    have hinput : (LogicBuilder.input origin).run s.graph = .error e graph := hexec
    rw [hinput] at hcall
    cases e with
    | fuel => exact absurd rfl hcall.1
    | error e =>
      have hfull : Full { s with graph } := input_refused hcall.2 hinput
      refine ⟨hcall.2, ?_, fun _ => hfull⟩
      intro l hl
      cases hl

/-! Trees. -/

/-- The gate over the values at the heap's slots. -/
def total (gate : Gate) (values : List Bool) (heap : List (Nat × Nat)) : Bool :=
  (heap.map fun entry => values.getD entry.2 false).foldr gate.denote gate.unit

variable {gate : Gate} {values : List Bool}

theorem total_cons (entry : Nat × Nat) (heap : List (Nat × Nat)) :
    total gate values (entry :: heap) = gate.denote (values.getD entry.2 false) (total gate values heap) := rfl

theorem total_perm {heap heap' : List (Nat × Nat)} (h : heap.Perm heap') :
    total gate values heap = total gate values heap' := (h.map _).foldr_eq gate.unit

theorem pushHeap_perm (entry : Nat × Nat) (heap : List (Nat × Nat)) : (pushHeap entry heap).Perm (entry :: heap) :=
  List.perm_orderedInsert ..

/-- A larger store has the same value for the slots of the smaller one. -/
theorem total_append {heap : List (Nat × Nat)} (hslots : ∀ entry ∈ heap, entry.2 < values.length) (more : List Bool) :
    total gate (values ++ more) heap = total gate values heap := by
  unfold total
  congr 1
  apply List.map_congr_left
  intro entry hentry
  exact List.getD_append _ _ _ _ (hslots entry hentry)

theorem stored_reads {store : List Lit} (hstore : List.Forall₂ (Reads g s) store values) {slot : Nat}
    (hslot : slot < store.length) : ∃ l, store[slot]? = some l ∧ Reads g s l (values.getD slot false) := by
  have hl := List.getElem?_eq_getElem hslot
  obtain ⟨a, ha, hread⟩ := exists_of_getElem?_right hstore.flip hl
  refine ⟨_, hl, ?_⟩
  rw [List.getD_eq_getElem?_getD, ha]
  exact hread

theorem combine_single {fuel level slot : Nat} {store : List Lit} (hstore : List.Forall₂ (Reads g s) store values)
    (hslot : slot < store.length) : (growing g).Emits s (combine gate fuel store [(level, slot)]) fun r t =>
      ∃ l, r = some l ∧ Reads g t l (total gate values [(level, slot)]) := by
  obtain ⟨l, hl, hread⟩ := stored_reads hstore hslot
  have hrun : combine gate fuel store [(level, slot)] = pure store[slot]? := by cases fuel <;> rfl
  rw [hrun]
  refine Emits.pure ⟨l, hl, ?_⟩
  rw [total_cons]
  exact (gate.denote_unit _).symm ▸ hread

theorem combine_emits {fuel : Nat} {store : List Lit} {heap : List (Nat × Nat)}
    (hstore : List.Forall₂ (Reads g s) store values) (hslots : ∀ entry ∈ heap, entry.2 < store.length)
    (hfuel : heap.length ≤ fuel + 1) (hheap : heap ≠ []) :
    (growing g).Emits s (combine gate fuel store heap) fun r t =>
      ∃ l, r = some l ∧ Reads g t l (total gate values heap) := by
  induction fuel generalizing s store values heap with
  | zero =>
    match heap, hfuel with
    | [], _ => exact absurd rfl hheap
    | [entry], _ => exact combine_single hstore (hslots entry List.mem_cons_self)
  | succ fuel ih =>
    match heap with
    | [] => exact absurd rfl hheap
    | [entry] => exact combine_single hstore (hslots entry List.mem_cons_self)
    | (x, left) :: (y, right) :: rest =>
      obtain ⟨l, hl, hleft⟩ := stored_reads hstore (hslots (x, left) List.mem_cons_self)
      obtain ⟨r, hr, hright⟩ := stored_reads hstore (hslots (y, right) (List.mem_cons_of_mem _ List.mem_cons_self))
      simp only [combine, hl, hr]
      apply (emitGate_emits gate hleft hright).bind
      intro joined t hgrows hjoined
      apply Emits.get
      intro _
      have hlength := hstore.length_eq
      have hlater : List.Forall₂ (Reads g t) (store ++ [joined])
          (values ++ [gate.denote (values.getD left false) (values.getD right false)]) :=
        List.rel_append (hstore.imp fun _ _ h => (growing g).mono hgrows h) (.cons hjoined .nil)
      have hrest (entry : Nat × Nat) (hentry : entry ∈ rest) : entry.2 < values.length :=
        hlength ▸ hslots entry (List.mem_cons_of_mem _ (List.mem_cons_of_mem _ hentry))
      have hperm := pushHeap_perm (t.level joined, store.length) rest
      apply (ih hlater ?_ ?_ ?_).mono
      · rintro out u - ⟨z, hz, hread⟩
        refine ⟨z, hz, ?_⟩
        rw [total_perm hperm, total_cons, total_append hrest, hlength, List.getD_append_right _ _ _ _ le_rfl,
          Nat.sub_self, List.getD_cons_zero, gate.assoc] at hread
        exact hread
      · intro entry hentry
        rw [List.length_append]
        rcases List.mem_cons.mp (hperm.mem_iff.mp hentry) with rfl | hentry
        · exact Nat.lt_succ_self _
        · exact Nat.lt_succ_of_lt (hlength ▸ hrest entry hentry)
      · rw [hperm.length_eq, List.length_cons]
        simp only [List.length_cons] at hfuel
        omega
      · exact fun hnil => by simpa [hnil] using hperm.length_eq

theorem heap_perm (operands : List Lit) (start : Nat) (heap : List (Nat × Nat)) :
    ((operands.zipIdx start).foldl (fun heap entry => pushHeap (s.level entry.1, entry.2) heap) heap).Perm
      (((operands.zipIdx start).map fun entry => (s.level entry.1, entry.2)) ++ heap) := by
  induction operands generalizing start heap with
  | nil => exact .refl _
  | cons x operands ih =>
    rw [List.zipIdx_cons, List.foldl_cons, List.map_cons, List.cons_append]
    apply (ih (start + 1) _).trans
    exact ((pushHeap_perm _ _).append_left _).trans List.perm_middle

/-- A tree has the value of its gate over the operands. -/
theorem buildTree_emits {operands : List Lit} (hoperands : List.Forall₂ (Reads g s) operands values)
    (hne : operands ≠ []) : (growing g).Emits s (buildTree operands gate) fun r t =>
      ∃ l, r = some l ∧ Reads g t l (values.foldr gate.denote gate.unit) := by
  apply Emits.get
  intro _
  have hperm := heap_perm (s := s) operands 0 []
  rw [List.append_nil] at hperm
  have hlength := hperm.length_eq
  rw [List.length_map, List.length_zipIdx] at hlength
  have htotal : total gate values ((operands.zipIdx).map fun entry => (s.level entry.1, entry.2)) =
      values.foldr gate.denote gate.unit := by
    have hslots : (operands.zipIdx.map fun entry => (s.level entry.1, entry.2)).map
        (fun entry => values.getD entry.2 false) = values := by
      apply List.ext_getElem?
      intro i
      rw [List.getElem?_map, List.getElem?_map, List.getElem?_zipIdx]
      by_cases hi : i < values.length
      · have hv := List.getElem?_eq_getElem hi
        have hi' : i < operands.length := hoperands.length_eq ▸ hi
        have ho := List.getElem?_eq_getElem hi'
        simp [hv, ho, List.getD_eq_getElem?_getD]
      · have hv : values[i]? = none := List.getElem?_eq_none (by omega)
        have ho : operands[i]? = none := List.getElem?_eq_none (by rw [hoperands.length_eq]; omega)
        simp [hv, ho]
    rw [total, hslots]
  rw [← htotal, ← total_perm hperm]
  apply combine_emits hoperands
  · intro entry hentry
    obtain ⟨x, hx, rfl⟩ := List.mem_map.mp (hperm.mem_iff.mp hentry)
    have hlt := List.snd_lt_of_mem_zipIdx hx
    omega
  · omega
  · intro hnil
    rw [hnil] at hlength
    exact hne (List.length_eq_zero_iff.mp hlength.symm)

/-! Priority chains. -/

def prioritize (links : List (Bool × Bool)) (default : Bool) : Bool :=
  links.foldr (fun link rest => if link.1 then link.2 else rest) default

theorem prioritize_append (front back : List (Bool × Bool)) (default : Bool) :
    prioritize (front ++ back) default = prioritize front (prioritize back default) := List.foldr_append

/-- What follows a select that holds does not matter, and a chain of no such select is its default. -/
theorem prioritize_guarded (front : List (Bool × Bool)) (select data default : Bool) :
    prioritize (front ++ [(select, data)]) default =
      if (front ++ [(select, data)]).any (·.1) then prioritize front data else default := by
  induction front with
  | nil => simp [prioritize]
  | cons link front ih =>
    rw [prioritize] at ih ⊢
    obtain ⟨selected, value⟩ := link
    rw [List.cons_append, List.foldr_cons, ih, List.any_cons]
    cases selected <;> rfl

/-- A chain splits at any of its links. -/
theorem prioritize_split {links : List (Bool × Bool)} {middle : Nat} {select data : Bool}
    (hlink : links[middle]? = some (select, data)) (default : Bool) :
    prioritize links default = if (links.take (middle + 1)).any (·.1) then prioritize (links.take middle) data
      else prioritize (links.drop (middle + 1)) default := by
  have htake : links.take (middle + 1) = links.take middle ++ [(select, data)] := by
    rw [List.take_add_one, hlink]
    rfl
  rw [← List.take_append_drop (middle + 1) links, prioritize_append, htake, prioritize_guarded,
    ← htake, List.take_append_drop]

theorem any_eq_foldr (selects : List Bool) : selects.any id = selects.foldr Gate.or.denote Gate.or.unit := by
  induction selects with
  | nil => rfl
  | cons x selects ih =>
    rw [List.any_cons, ih]
    rfl

def ReadsLink (g : Nat → Bool) (s : Builder) (link : Link) (value : Bool × Bool) : Prop :=
  Reads g s link.1 value.1 ∧ Reads g s link.2 value.2

theorem ReadsLink.mono {t : Builder} (hgrows : Logic.Grows s.graph t.graph) {links : List Link}
    {values : List (Bool × Bool)} (h : List.Forall₂ (ReadsLink g s) links values) :
    List.Forall₂ (ReadsLink g t) links values :=
  h.imp fun _ _ hlink => ⟨(growing g).mono hgrows hlink.1, (growing g).mono hgrows hlink.2⟩

theorem buildPriority_emits {fuel : Nat} {links : List Link} {values : List (Bool × Bool)} {default : Lit}
    {d : Bool} (hlinks : List.Forall₂ (ReadsLink g s) links values) (hdefault : Reads g s default d)
    (hfuel : links.length ≤ fuel) :
    (growing g).Emits s (buildPriority fuel links default) fun l t => Reads g t l (prioritize values d) := by
  induction fuel generalizing s links values default d with
  | zero =>
    obtain rfl := List.length_eq_zero_iff.mp (Nat.le_zero.mp hfuel)
    cases hlinks
    exact Emits.pure hdefault
  | succ fuel ih =>
    match links, values, hlinks with
    | [], _, .nil => exact Emits.pure hdefault
    | [_], _, .cons hlink .nil => exact mux_emits hlink.1 hlink.2 hdefault
    | link :: next :: rest, value :: value' :: values, hall =>
      simp only [List.length_cons] at hfuel
      rw [buildPriority]
      apply Emits.get
      intro _
      dsimp only
      split_ifs with hsplit
      · -- The guard holds exactly when one of the first selects does.
        obtain ⟨k, hk⟩ : ∃ k, ((link :: next :: rest).length + 1) / 2 = k + 1 :=
          Nat.exists_eq_succ_of_ne_zero (by simp only [List.length_cons]; omega)
        have hlt : k < (link :: next :: rest).length := by
          simp only [List.length_cons] at hk ⊢
          omega
        have htop := List.getElem?_eq_getElem hlt
        obtain ⟨⟨select, data⟩, hvalue, htopReads⟩ := exists_of_getElem?_right hall.flip htop
        have hselects : List.Forall₂ (Reads g s) (((link :: next :: rest).take (k + 1)).map (·.1))
            (((value :: value' :: values).take (k + 1)).map (·.1)) :=
          List.forall₂_map_left_iff.mpr (List.forall₂_map_right_iff.mpr
            ((List.forall₂_take (k + 1) hall).imp fun _ _ h => h.1))
        rw [hk, Nat.add_sub_cancel, prioritize_split hvalue]
        refine Emits.bind (buildTree_emits hselects (by simp)) ?_
        rintro guard t hgrows ⟨l, rfl, hl⟩
        rw [htop]
        obtain ⟨-, hdata⟩ := htopReads
        have hlater := ReadsLink.mono hgrows hall
        apply (ih (List.forall₂_take k hlater) ((growing g).mono hgrows hdata) ?_).bind
        · intro top u hgrows' htop
          have hlast := ReadsLink.mono hgrows' hlater
          apply (ih (List.forall₂_drop (k + 1) hlast)
            ((growing g).mono hgrows' ((growing g).mono hgrows hdefault)) ?_).bind
          · intro bottom w hgrows'' hbottom
            have hl' := (growing g).mono hgrows'' ((growing g).mono hgrows' hl)
            have hmux := mux_emits hl' ((growing g).mono hgrows'' htop) hbottom
            rw [← any_eq_foldr, List.any_map] at hmux
            exact hmux
          · rw [List.length_drop]
            simp only [List.length_cons] at hlt hk ⊢
            omega
        · rw [List.length_take]
          simp only [List.length_cons] at hlt ⊢
          omega
      · obtain ⟨hlink, hrest⟩ := List.forall₂_cons.mp hall
        apply (ih hrest hdefault (by simp only [List.length_cons]; omega)).bind
        intro tail t hgrows htail
        exact mux_emits ((growing g).mono hgrows hlink.1) ((growing g).mono hgrows hlink.2) htail

/-! Readers. -/

variable {net : LogicNetwork} {roots : List Lit} {references : List Nat} {id n : Nat} {node : Node} {f : Lit}

theorem mem_faninsOf (hnode : net.nodes[id]? = some node) (hf : f ∈ node.fanins) : f.node ∈ faninsOf net id := by
  rw [faninsOf, hnode]
  exact List.mem_map_of_mem hf

/-- A node that one reference is counted for has one reader, through one edge, and is no root. -/
theorem reader_unique (hrefs : referenceCounts net roots = some references) (hone : references[n]? = some 1)
    (hid : n ∈ faninsOf net id) : (faninsOf net id).count n = 1 ∧ n ∉ roots.map (·.node) ∧
      ∀ other, n ∈ faninsOf net other → other = id := by
  obtain ⟨hlength, hcounts⟩ := referenceCounts_count hrefs
  have hlt : n < net.nodeCount := hlength ▸ (List.getElem?_eq_some_iff.mp hone).1
  have hcount : (mentions net roots).count n = 1 := Option.some.inj ((hcounts n hlt).symm.trans hone)
  rw [mentions, List.count_append] at hcount
  have hrange {i : Nat} (hi : n ∈ faninsOf net i) : i ∈ List.range net.nodeCount := by
    rw [faninsOf] at hi
    cases hnode : net.nodes[i]? with
    | none => rw [hnode] at hi; cases hi
    | some node => exact List.mem_range.mpr (List.getElem?_eq_some_iff.mp hnode).1
  have hpos := List.count_pos_iff.mpr hid
  have hself : ([id].flatMap (faninsOf net)).count n ≤ ((List.range net.nodeCount).flatMap (faninsOf net)).count n :=
    (FanoutFree.count_part (List.nodup_singleton id)
      (List.cons_subset.mpr ⟨hrange hid, List.nil_subset _⟩) List.nodup_range).1
  rw [List.flatMap_singleton] at hself
  refine ⟨by omega, List.count_eq_zero.mp (by omega), fun other hother => ?_⟩
  by_contra hne
  have hboth : ([id, other].flatMap (faninsOf net)).count n ≤
      ((List.range net.nodeCount).flatMap (faninsOf net)).count n :=
    (FanoutFree.count_part (by simpa using Ne.symm hne)
      (List.cons_subset.mpr ⟨hrange hid, List.cons_subset.mpr ⟨hrange hother, List.nil_subset _⟩⟩)
      List.nodup_range).1
  have hpos' := List.count_pos_iff.mpr hother
  simp only [List.flatMap_cons, List.flatMap_nil, List.append_nil, List.count_append] at hboth
  omega

/-- Two fanins of one node, through one edge. -/
theorem fanin_unique {f f' : Lit} (hf : f ∈ node.fanins) (hf' : f' ∈ node.fanins) (hsame : f'.node = f.node)
    (hone : (node.fanins.map (·.node)).count f.node = 1) : f' = f := by
  by_contra hne
  have hsub : [f', f].Subperm node.fanins := by
    apply List.subperm_of_subset (by simpa using hne)
    exact List.cons_subset.mpr ⟨hf', List.cons_subset.mpr ⟨hf, List.nil_subset _⟩⟩
  rw [List.count_eq_countP, List.countP_map] at hone
  have hcount := hsub.countP_le ((· == f.node) ∘ (·.node))
  simp [hsame, hone] at hcount

theorem absorbed_spec (h : (absorbed net references)[n]?.getD false = true) : ∃ id, n ∈ absorbs net references id := by
  have hset (xs : List Nat) (done : List Bool) (hmem : (xs.foldl (fun done node => done.set node true) done)[n]?.getD
      false = true) : done[n]?.getD false = true ∨ n ∈ xs := by
    induction xs generalizing done with
    | nil => exact .inl hmem
    | cons x xs ih =>
      rcases ih (done.set x true) hmem with hdone | hxs
      · by_cases hx : x = n
        · exact .inr (hx ▸ List.mem_cons_self)
        · rw [List.getElem?_set_ne hx] at hdone
          exact .inl hdone
      · exact .inr (List.mem_cons_of_mem _ hxs)
  rcases hset _ _ h with hstart | hmem
  · rw [List.getElem?_replicate] at hstart
    split_ifs at hstart <;> cases hstart
  · obtain ⟨id, -, hid⟩ := List.mem_flatMap.mp hmem
    exact ⟨id, hid⟩

theorem muxChainLink_cases {link : Link} {next : Lit} (h : muxChainLink net references node = some (link, next)) :
    node.kind = .mux ∧ continues net references next = true ∧
      (link = (node.fanin0, node.fanin1) ∧ next = node.fanin2 ∨
        link = (node.fanin0.inverted, node.fanin2) ∧ next = node.fanin1) := by
  rw [muxChainLink] at h
  split_ifs at h with hkind helse hthen
  · cases h
    exact ⟨hkind, helse, .inl ⟨rfl, rfl⟩⟩
  · cases h
    exact ⟨hkind, hthen, .inr ⟨rfl, rfl⟩⟩

theorem continues_spec (h : continues net references f = true) :
    f.isInverted = false ∧ references[f.node]? = some 1 ∧ net.kind f.node = some .mux := by
  simpa [continues, and_assoc] using h

theorem chainsInto_spec (h : chainsInto net references id f = true) :
    f.isInverted = false ∧ references[f.node]? = some 1 ∧ net.kind f.node = net.kind id ∧
      (net.kind id = some .and ∨ net.kind id = some .xor) := by
  rw [chainsInto, Bool.and_eq_true, Bool.and_eq_true] at h
  obtain ⟨⟨hinverted, hone⟩, hkinds⟩ := h
  refine ⟨by simpa using hinverted, by simpa using hone, ?_⟩
  split at hkinds
  · next hid hf => exact ⟨hf.trans hid.symm, .inl hid⟩
  · next hid hf => exact ⟨hf.trans hid.symm, .inr hid⟩
  · cases hkinds

theorem fanins_binary (h : node.kind = .and ∨ node.kind = .xor) : node.fanins = [node.fanin0, node.fanin1] := by
  rcases h with h | h <;> simp [Node.fanins, h, NodeKind.arity]

theorem fanins_mux (h : node.kind = .mux) : node.fanins = [node.fanin0, node.fanin1, node.fanin2] := by
  simp [Node.fanins, h, NodeKind.arity]

/-- What is absorbed is a fanin of what absorbs it, and has no other reader. -/
theorem absorbs_spec (h : n ∈ absorbs net references id) : ∃ node f, net.nodes[id]? = some node ∧
    f ∈ node.fanins ∧ f.node = n ∧ references[n]? = some 1 ∧
      (chainsInto net references id f = true ∨ ∃ link, muxChainLink net references node = some (link, f)) := by
  rw [absorbs] at h
  cases hnode : net.nodes[id]? with
  | none => rw [hnode] at h; cases h
  | some node =>
    simp only [hnode] at h
    have hbinary (hkind : node.kind = .and ∨ node.kind = .xor)
        (hmem : n ∈ ([node.fanin0, node.fanin1].filter (chainsInto net references id)).map (·.node)) :
        ∃ f ∈ node.fanins, f.node = n ∧ references[n]? = some 1 ∧ chainsInto net references id f = true := by
      obtain ⟨f, hf, rfl⟩ := List.mem_map.mp hmem
      obtain ⟨hmem, hchain⟩ := List.mem_filter.mp hf
      exact ⟨f, fanins_binary hkind ▸ hmem, rfl, (chainsInto_spec hchain).2.1, hchain⟩
    cases hkind : node.kind with
    | constant | input => rw [hkind] at h; cases h
    | and =>
      obtain ⟨f, hf, hn, hone, hchain⟩ := hbinary (.inl hkind) (by rw [hkind] at h; exact h)
      exact ⟨node, f, rfl, hf, hn, hone, .inl hchain⟩
    | xor =>
      obtain ⟨f, hf, hn, hone, hchain⟩ := hbinary (.inr hkind) (by rw [hkind] at h; exact h)
      exact ⟨node, f, rfl, hf, hn, hone, .inl hchain⟩
    | mux =>
      rw [hkind] at h
      obtain ⟨⟨link, next⟩, hlink, rfl⟩ := List.mem_map.mp h
      have hlink := Option.mem_toList.mp hlink
      obtain ⟨-, hcontinues, hcases⟩ := muxChainLink_cases hlink
      refine ⟨node, next, rfl, ?_, rfl, (continues_spec hcontinues).2.1, .inr ⟨link, hlink⟩⟩
      rw [fanins_mux hkind]
      rcases hcases with ⟨-, rfl⟩ | ⟨-, rfl⟩ <;> simp

/-- The absorbing reader is the only one. -/
theorem absorbed_reader (hrefs : referenceCounts net roots = some references)
    (h : (absorbed net references)[n]?.getD false = true) (hnode : net.nodes[id]? = some node)
    (hread : n ∈ faninsOf net id) : ∃ f ∈ node.fanins, f.node = n ∧ (node.fanins.map (·.node)).count n = 1 ∧
      (chainsInto net references id f = true ∨ ∃ link, muxChainLink net references node = some (link, f)) := by
  obtain ⟨reader, habsorbs⟩ := absorbed_spec h
  obtain ⟨stored, f, hstored, hf, rfl, hone, hcases⟩ := absorbs_spec habsorbs
  have hreader := (reader_unique hrefs hone hread).2.2 reader (mem_faninsOf hstored hf)
  subst hreader
  cases hstored.symm.trans hnode
  refine ⟨f, hf, rfl, ?_, hcases⟩
  have hcount := (reader_unique hrefs hone hread).1
  rwa [faninsOf, hnode] at hcount

theorem root_unabsorbed (hrefs : referenceCounts net roots = some references) (hf : f ∈ roots) :
    (absorbed net references)[f.node]?.getD false = false := by
  by_contra h
  obtain ⟨reader, habsorbs⟩ := absorbed_spec (by simpa using h)
  obtain ⟨node, f', hnode, hf', hsame, hone, -⟩ := absorbs_spec habsorbs
  exact (reader_unique hrefs hone (hsame ▸ mem_faninsOf hnode hf')).2.1 (List.mem_map_of_mem hf)

/-- A fanin that the gate does not take in is built on its own. -/
theorem gate_unabsorbed (hrefs : referenceCounts net roots = some references) (hnode : net.nodes[id]? = some node)
    (hkind : node.kind ≠ .mux) (hf : f ∈ node.fanins) (hchain : chainsInto net references id f = false) :
    (absorbed net references)[f.node]?.getD false = false := by
  by_contra h
  obtain ⟨f', hf', hsame, hone, hcases⟩ := absorbed_reader hrefs (by simpa using h) hnode (mem_faninsOf hnode hf)
  rcases hcases with htaken | ⟨link, hlink⟩
  · rw [fanin_unique hf hf' hsame hone, hchain] at htaken
    cases htaken
  · exact hkind (muxChainLink_cases hlink).1

theorem link_unabsorbed (hrefs : referenceCounts net roots = some references) (hnode : net.nodes[id]? = some node)
    {link : Link} {next : Lit} (hlink : muxChainLink net references node = some (link, next)) :
    (absorbed net references)[link.1.node]?.getD false = false ∧
      (absorbed net references)[link.2.node]?.getD false = false := by
  obtain ⟨hkind, -, hcases⟩ := muxChainLink_cases hlink
  have hfanins := fanins_mux hkind
  have htaken {f : Lit} (hf : f ∈ node.fanins) (h : (absorbed net references)[f.node]?.getD false = true) :
      next.node = f.node ∧ (node.fanins.map (·.node)).count f.node = 1 := by
    obtain ⟨f', -, hsame, hone, hchain | ⟨link', hlink'⟩⟩ :=
      absorbed_reader hrefs h hnode (mem_faninsOf hnode hf)
    · have hid := (chainsInto_spec hchain).2.2.2
      simp [LogicNetwork.kind, hnode, hkind] at hid
    · cases hlink.symm.trans hlink'
      exact ⟨hsame, hone⟩
  have hcontra {f : Lit} (hf : f ∈ node.fanins) (htwice : next.node = f.node →
      2 ≤ (node.fanins.map (·.node)).count f.node) : (absorbed net references)[f.node]?.getD false = false := by
    by_contra h
    obtain ⟨hsame, hone⟩ := htaken hf (by simpa using h)
    have := htwice hsame
    omega
  rw [hfanins] at hcontra
  rcases hcases with ⟨rfl, rfl⟩ | ⟨rfl, rfl⟩
  · refine ⟨hcontra (by simp) fun hsame => ?_, hcontra (by simp) fun hsame => ?_⟩ <;>
      simp [List.count_cons, hsame]
  · refine ⟨hcontra (f := node.fanin0) (by simp) fun hsame => ?_, hcontra (by simp) fun hsame => ?_⟩ <;>
      simp [List.count_cons, hsame]

theorem end_unabsorbed (hrefs : referenceCounts net roots = some references) (hnode : net.nodes[id]? = some node)
    (hkind : node.kind = .mux) (hend : muxChainLink net references node = none) (hf : f ∈ node.fanins) :
    (absorbed net references)[f.node]?.getD false = false := by
  by_contra h
  obtain ⟨f', -, -, -, hchain | ⟨link, hlink⟩⟩ :=
    absorbed_reader hrefs (by simpa using h) hnode (mem_faninsOf hnode hf)
  · have hid := (chainsInto_spec hchain).2.2.2
    simp [LogicNetwork.kind, hnode, hkind] at hid
  · rw [hend] at hlink
    cases hlink

/-! The map so far. -/

/-- Nodes before `id` are mapped to literals of their values, unless they are taken in or the
graph ran full. -/
structure Mapped (g : Nat → Bool) (net : LogicNetwork) (references : List Nat) (id : Nat)
    (remap : List (Option Lit)) (b : Builder) : Prop where
  length : remap.length = net.nodeCount
  reads : ∀ j l, remap[j]?.join = some l → Reads g b l (networkValue net g ⟨j, false⟩)
  mapped : ∀ j < id, (absorbed net references)[j]?.getD false = false →
    (∃ l, remap[j]?.join = some l) ∨ Full b

variable {remap : List (Option Lit)}

theorem Mapped.mono {t : Builder} (h : Mapped g net references id remap s)
    (hgrows : Logic.Grows s.graph t.graph) : Mapped g net references id remap t where
  length := h.length
  reads j l hl := (growing g).mono hgrows (h.reads j l hl)
  mapped j hj hfree := (h.mapped j hj hfree).imp_right fun hfull => hfull.mono hgrows

theorem Mapped.literal (h : Mapped g net references id remap s) {m : Lit} (hm : remapLiteral remap f = some m) :
    Reads g s m (networkValue net g f) := by
  obtain ⟨mapped, hmapped, rfl⟩ := Option.map_eq_some_iff.mp hm
  have hread := h.reads f.node mapped hmapped
  rw [networkValue_phase net g f]
  cases f.isInverted with
  | false => simpa using hread
  | true =>
    refine ⟨hread.1, hread.2.1.inverted, ?_⟩
    rw [Bool.xor_true, ← hread.2.2]
    exact networkValue_inverted ..

theorem Mapped.known (h : Mapped g net references id remap s) (hlt : f.node < id)
    (hfree : (absorbed net references)[f.node]?.getD false = false) :
    (∃ m, remapLiteral remap f = some m) ∨ Full s := by
  apply (h.mapped f.node hlt hfree).imp_left
  rintro ⟨l, hl⟩
  exact ⟨_, by rw [remapLiteral, hl]; rfl⟩

/-! Chains of one gate. -/

def gateOf (node : Node) : Gate := if node.kind = .xor then .xor else .and

/-- A literal that a gate of the chain reads. -/
def Held (net : LogicNetwork) (id : Nat) (f : Lit) : Prop :=
  ∃ holder node, holder ≤ id ∧ net.nodes[holder]? = some node ∧ net.kind holder = net.kind id ∧ f ∈ node.fanins

/-- The gate over the values of some literals. -/
def fold (g : Nat → Bool) (net : LogicNetwork) (gate : Gate) (literals : List Lit) : Bool :=
  (literals.map (networkValue net g)).foldr gate.denote gate.unit

theorem gate_value (hnet : Topological net.nodes) (hnode : net.nodes[id]? = some node)
    (hkind : node.kind = .and ∨ node.kind = .xor) :
    networkValue net g ⟨id, false⟩ = fold g net (gateOf node) [node.fanin1, node.fanin0] := by
  rw [networkValue_node hnet hnode]
  rcases hkind with hkind | hkind
  · simp [fold, gateOf, hkind, Node.denote, Gate.denote, Gate.unit, Bool.and_comm]
  · simp [fold, gateOf, hkind, Node.denote, Gate.denote, Gate.unit, Bool.xor_comm]

theorem fold_append (gate : Gate) (front back : List Lit) :
    fold g net gate (front ++ back) = gate.denote (fold g net gate front) (fold g net gate back) := by
  induction front with
  | nil =>
    have hunit (a : Bool) : gate.denote gate.unit a = a := by cases gate <;> cases a <;> rfl
    exact (hunit _).symm
  | cons f front ih =>
    have hcons (rest : List Lit) : fold g net gate (f :: rest) =
      gate.denote (networkValue net g f) (fold g net gate rest) := rfl
    rw [List.cons_append, hcons, hcons, ih, gate.assoc]

/-- The operands so far and the literals on the stack have the chain's value. -/
structure Expanding (g : Nat → Bool) (net : LogicNetwork) (id : Nat) (gate : Gate) (s : Builder)
    (state : List Lit × Bool) (pending : List Lit) : Prop where
  held : ∀ f ∈ pending, Held net id f
  value : state.2 = true → ∃ values : List Bool, List.Forall₂ (Reads g s) state.1 values ∧
    gate.denote (values.foldr gate.denote gate.unit) (fold g net gate pending) = networkValue net g ⟨id, false⟩
  nonempty : state.2 = true → state.1 ≠ [] ∨ pending ≠ []
  full : state.2 = false → Full s

theorem foldr_append (gate : Gate) (values : List Bool) (a : Bool) :
    (values ++ [a]).foldr gate.denote gate.unit = gate.denote (values.foldr gate.denote gate.unit) a := by
  induction values with
  | nil =>
    have hunit (a : Bool) : gate.denote gate.unit a = a := by cases gate <;> cases a <;> rfl
    exact (gate.denote_unit a).trans (hunit a).symm
  | cons b values ih => rw [List.cons_append, List.foldr_cons, ih, List.foldr_cons, gate.assoc]

theorem expandFanin_step (hnet : Topological net.nodes) (hrefs : referenceCounts net roots = some references)
    (hmapped : Mapped g net references id remap s) (hnode : net.nodes[id]? = some node)
    (hkind : node.kind = .and ∨ node.kind = .xor) {state : List Lit × Bool} {pending : List Lit}
    (h : Expanding g net id (gateOf node) s state (f :: pending)) : ∃ state' pushed,
      expandFanin net references remap id state f = some (state', pushed) ∧
        Expanding g net id (gateOf node) s state' (pushed ++ pending) ∧
        (pushed.map (weight net.nodes)).sum < weight net.nodes f := by
  obtain ⟨holder, reader, hle, hreader, hsame, hf⟩ := h.held f List.mem_cons_self
  have hlt : f.node < holder := hnet holder reader hreader f hf
  have hheld (other : Lit) (hother : other ∈ pending) := h.held other (List.mem_cons_of_mem _ hother)
  have hcons : fold g net (gateOf node) (f :: pending) =
      (gateOf node).denote (networkValue net g f) (fold g net (gateOf node) pending) := rfl
  have hreaderKind : reader.kind = node.kind := by
    simpa [LogicNetwork.kind, hreader, hnode] using hsame
  rw [expandFanin]
  cases hchain : chainsInto net references id f with
  | true =>
    obtain ⟨hpositive, -, hkinds, -⟩ := chainsInto_spec hchain
    obtain ⟨inner, hinner⟩ : ∃ inner, net.nodes[f.node]? = some inner :=
      ⟨_, List.getElem?_eq_getElem (Nat.lt_trans hlt (List.getElem?_eq_some_iff.mp hreader).1)⟩
    have hinnerKind : inner.kind = node.kind := by
      simpa [LogicNetwork.kind, hinner, hnode] using hkinds
    have hgate : gateOf inner = gateOf node := by rw [gateOf, hinnerKind, gateOf]
    have hvalue : networkValue net g f = fold g net (gateOf node) [inner.fanin1, inner.fanin0] := by
      rw [networkValue_phase, hpositive, Bool.xor_false, ← hgate]
      exact gate_value hnet hinner (hinnerKind ▸ hkind)
    have hfanins := fanins_binary (hinnerKind ▸ hkind)
    simp only [if_true, hinner]
    refine ⟨_, _, rfl, ⟨?_, fun ht => ?_, fun ht => .inr (by simp), h.full⟩, ?_⟩
    · intro other hother
      rcases List.mem_append.mp hother with hother | hother
      · refine ⟨f.node, _, by omega, hinner, hkinds, ?_⟩
        rw [hfanins]
        simpa [or_comm] using hother
      · exact hheld other hother
    · obtain ⟨values, hvalues, hfold⟩ := h.value ht
      exact ⟨values, hvalues, by rw [fold_append, ← hvalue, ← hfold, hcons]⟩
    · rw [weight_node hnet hinner, hfanins]
      simp
      omega
  | false =>
    have hholder : chainsInto net references holder f = false := by
      rw [chainsInto, hsame, ← chainsInto]
      exact hchain
    have hfree := gate_unabsorbed hrefs hreader (by rw [hreaderKind]; rcases hkind with h | h <;> simp [h]) hf hholder
    simp only [Bool.false_eq_true, if_false]
    cases hm : remapLiteral remap f with
    | none =>
      refine ⟨_, _, rfl, ⟨hheld, nofun, nofun, fun _ => ?_⟩, weight_pos _ _⟩
      rcases hmapped.known (by omega) hfree with ⟨m, hm'⟩ | hfull
      · rw [hm] at hm'
        cases hm'
      · exact hfull
    | some m =>
      refine ⟨_, _, rfl, ⟨hheld, fun ht => ?_, fun ht => .inl (by simp), h.full⟩, weight_pos _ _⟩
      obtain ⟨values, hvalues, hfold⟩ := h.value ht
      refine ⟨values ++ [networkValue net g f], List.rel_append hvalues (.cons (hmapped.literal hm) .nil), ?_⟩
      rw [List.nil_append, foldr_append, (gateOf node).assoc, ← hcons, hfold]

theorem chainOperands_ok (hnet : Topological net.nodes) (hrefs : referenceCounts net roots = some references)
    (hmapped : Mapped g net references id remap s) (hnode : net.nodes[id]? = some node)
    (hkind : node.kind = .and ∨ node.kind = .xor) : ∃ operands translated,
      chainOperands net references remap id node = some (operands, translated) ∧
        (translated = true → operands ≠ [] ∧ ∃ values, List.Forall₂ (Reads g s) operands values ∧
          values.foldr (gateOf node).denote (gateOf node).unit = networkValue net g ⟨id, false⟩) ∧
        (translated = false → Full s) := by
  have hstart : Expanding g net id (gateOf node) s ([], true) [node.fanin1, node.fanin0] := by
    refine ⟨fun f hf => ⟨id, node, le_rfl, hnode, rfl, ?_⟩, fun _ => ⟨[], .nil, ?_⟩, fun _ => .inr (by simp), fun h => by cases h⟩
    · rw [fanins_binary hkind]
      simpa [or_comm] using hf
    · rw [gate_value hnet hnode hkind]
      exact (fold_append (gateOf node) [] _).symm
  obtain ⟨⟨operands, translated⟩, hdrain, hend⟩ := Worklist.drain_entries
    (Expanding g net id (gateOf node) s) (weight net.nodes)
    (fun _ _ _ h => expandFanin_step hnet hrefs hmapped hnode hkind h) hstart
    (show _ ≤ weight net.nodes node.fanin0 + weight net.nodes node.fanin1 by simp; omega)
  refine ⟨operands, translated, hdrain, fun ht => ?_, hend.full⟩
  obtain ⟨values, hvalues, hvalue⟩ := hend.value ht
  refine ⟨(hend.nonempty ht).resolve_right (by simp), values, hvalues, ?_⟩
  rw [← hvalue]
  exact ((gateOf node).denote_unit _).symm

/-! Chains of multiplexers. -/

def valueLink (g : Nat → Bool) (net : LogicNetwork) (link : Link) : Bool × Bool :=
  (networkValue net g link.1, networkValue net g link.2)

/-- An entry that comes before a node and is built on its own. -/
def Free (net : LogicNetwork) (references : List Nat) (id : Nat) (f : Lit) : Prop :=
  f.node < id ∧ (absorbed net references)[f.node]?.getD false = false

theorem muxLinks_ok (hnet : Topological net.nodes) (hrefs : referenceCounts net roots = some references) {fuel : Nat}
    (hnode : net.nodes[id]? = some node) (hkind : node.kind = .mux) (hfuel : id < fuel) : ∃ links default,
      muxLinks net references fuel id = some (links, default) ∧
        (∀ g, prioritize (links.map (valueLink g net)) (networkValue net g default) = networkValue net g ⟨id, false⟩) ∧
        (∀ link ∈ links, Free net references id link.1 ∧ Free net references id link.2) ∧
        Free net references id default := by
  induction fuel generalizing id node with
  | zero => omega
  | succ fuel ih =>
    have hfanins := fanins_mux hkind
    have hlt (f : Lit) (hf : f ∈ [node.fanin0, node.fanin1, node.fanin2]) : f.node < id :=
      hnet id node hnode f (hfanins ▸ hf)
    have hvalue (g : Nat → Bool) : networkValue net g ⟨id, false⟩ = if networkValue net g node.fanin0 then
        networkValue net g node.fanin1 else networkValue net g node.fanin2 := by
      rw [networkValue_node hnet hnode, Node.denote, hkind]
    rw [muxLinks, hnode]
    dsimp only
    cases hlink : muxChainLink net references node with
    | none =>
      have hfree (f : Lit) (hf : f ∈ [node.fanin0, node.fanin1, node.fanin2]) : Free net references id f :=
        ⟨hlt f hf, end_unabsorbed hrefs hnode hkind hlink (hfanins ▸ hf)⟩
      refine ⟨_, _, rfl, fun g => (hvalue g).symm, fun link hmem => ?_, hfree _ (by simp)⟩
      rw [List.mem_singleton.mp hmem]
      exact ⟨hfree _ (by simp), hfree _ (by simp)⟩
    | some taken =>
      obtain ⟨link, next⟩ := taken
      obtain ⟨-, hcontinues, hcases⟩ := muxChainLink_cases hlink
      obtain ⟨hpositive, -, hnextKind⟩ := continues_spec hcontinues
      obtain ⟨inner, hinner, hinnerKind⟩ := Option.map_eq_some_iff.mp hnextKind
      have hnext : next.node < id := by rcases hcases with ⟨-, rfl⟩ | ⟨-, rfl⟩ <;> exact hlt _ (by simp)
      obtain ⟨links, default, hrest, hrestValue, hlinks, hdefault⟩ := ih hinner hinnerKind (by omega)
      have hlater (f : Lit) (hf : Free net references next.node f) : Free net references id f :=
        ⟨Nat.lt_trans hf.1 hnext, hf.2⟩
      have hbefore : link.1.node < id ∧ link.2.node < id := by
        rcases hcases with ⟨rfl, -⟩ | ⟨rfl, -⟩ <;> exact ⟨hlt node.fanin0 (by simp), hlt _ (by simp)⟩
      have hunabsorbed := link_unabsorbed hrefs hnode hlink
      dsimp only
      rw [hrest]
      refine ⟨_, _, rfl, fun g => ?_, fun other hother => ?_, hlater default hdefault⟩
      · have hnextValue : networkValue net g next = networkValue net g ⟨next.node, false⟩ := by
          rw [networkValue_phase, hpositive, Bool.xor_false]
        have hcons : prioritize ((link :: links).map (valueLink g net)) (networkValue net g default) =
            if networkValue net g link.1 then networkValue net g link.2 else networkValue net g next := by
          rw [hnextValue, ← hrestValue g]
          rfl
        rw [hcons, hvalue]
        rcases hcases with ⟨rfl, rfl⟩ | ⟨rfl, rfl⟩
        · rfl
        · rw [networkValue_inverted]
          cases networkValue net g node.fanin0 <;> rfl
      · rcases List.mem_cons.mp hother with rfl | hother
        · exact ⟨⟨hbefore.1, hunabsorbed.1⟩, ⟨hbefore.2, hunabsorbed.2⟩⟩
        · obtain ⟨hselect, hdata⟩ := hlinks other hother
          exact ⟨hlater _ hselect, hlater _ hdata⟩

theorem remapLinks_ok (hmapped : Mapped g net references id remap s) {links : List Link}
    (hfree : ∀ link ∈ links, Free net references id link.1 ∧ Free net references id link.2) :
    (∃ mapped, links.mapM (remapLink remap) = some mapped ∧
      List.Forall₂ (ReadsLink g s) mapped (links.map (valueLink g net))) ∨
    links.mapM (remapLink remap) = none ∧ Full s := by
  induction links with
  | nil => exact .inl ⟨[], rfl, .nil⟩
  | cons link links ih =>
    obtain ⟨hselect, hdata⟩ := hfree link List.mem_cons_self
    have hfull {f : Lit} (hf : Free net references id f) (hnone : remapLiteral remap f = none) : Full s := by
      rcases hmapped.known hf.1 hf.2 with ⟨m, hm⟩ | hfull
      · rw [hnone] at hm
        cases hm
      · exact hfull
    rw [List.mapM_cons, remapLink]
    cases hs : remapLiteral remap link.1 with
    | none => exact .inr ⟨rfl, hfull hselect hs⟩
    | some select =>
      cases hd : remapLiteral remap link.2 with
      | none => exact .inr ⟨rfl, hfull hdata hd⟩
      | some data =>
        rcases ih fun other hother => hfree other (List.mem_cons_of_mem _ hother) with ⟨mapped, hm, hreads⟩ | ⟨hm, hfull⟩
        · exact .inl ⟨(select, data) :: mapped, by simp [hm], .cons ⟨hmapped.literal hs, hmapped.literal hd⟩ hreads⟩
        · exact .inr ⟨by simp [hm], hfull⟩

/-! The whole pass. -/

theorem balanceNode_emits (hnet : Topological net.nodes) (hrefs : referenceCounts net roots = some references)
    (hmapped : Mapped g net references id remap s) (hnode : net.nodes[id]? = some node) :
    (growing g).Emits s (balanceNode net references remap id node) fun r t =>
      (∀ l, r = some l → Reads g t l (networkValue net g ⟨id, false⟩)) ∧ (r = none → Full t) := by
  have hvalue := networkValue_node hnet hnode g
  have hbuilt {l : Lit} {a : Bool} {t : Builder} (hl : Reads g t l a) (ha : a = networkValue net g ⟨id, false⟩) :
      (∀ m, some l = some m → Reads g t m (networkValue net g ⟨id, false⟩)) ∧ (some l = none → Full t) :=
    ⟨fun m hm => Option.some.inj hm ▸ ha ▸ hl, fun hnone => by cases hnone⟩
  unfold balanceNode
  have hgate (hkind : node.kind = .and ∨ node.kind = .xor) : ∃ operands translated,
      chainOperands net references remap id node = some (operands, translated) ∧
      (growing g).Emits s (if translated then buildTree operands (gateOf node) else pure none)
        fun r t => (∀ l, r = some l → Reads g t l (networkValue net g ⟨id, false⟩)) ∧ (r = none → Full t) := by
    obtain ⟨operands, translated, hoperands, hread, hfull⟩ := chainOperands_ok hnet hrefs hmapped hnode hkind
    refine ⟨operands, translated, hoperands, ?_⟩
    cases translated with
    | false => exact Emits.pure ⟨fun l hl => (by cases hl), fun _ => hfull rfl⟩
    | true =>
      obtain ⟨hne, values, hvalues, hfold⟩ := hread rfl
      apply (buildTree_emits hvalues hne).mono
      rintro r t - ⟨l, rfl, hl⟩
      exact hbuilt hl hfold
  cases hkind : node.kind with
  | constant =>
    apply (constant_emits false).map
    intro l t _ hl
    exact hbuilt hl (by rw [hvalue, Node.denote, hkind])
  | input =>
    rw [hvalue, Node.denote, hkind]
    exact input_emits node.origin
  | and =>
    obtain ⟨operands, translated, hoperands, hand⟩ := hgate (.inl hkind)
    rw [gateOf, hkind] at hand
    rw [hoperands]
    exact hand
  | xor =>
    obtain ⟨operands, translated, hoperands, hxor⟩ := hgate (.inr hkind)
    rw [gateOf, hkind] at hxor
    rw [hoperands]
    exact hxor
  | mux =>
    obtain ⟨links, default, hlinks, hchain, hfree, hdefault⟩ :=
      muxLinks_ok hnet hrefs hnode hkind (Nat.lt_succ_self id)
    rw [hlinks]
    dsimp only
    rcases remapLinks_ok hmapped hfree with ⟨mapped, hm, hreads⟩ | ⟨hm, hfull⟩
    · rw [hm]
      cases hd : remapLiteral remap default with
      | none =>
        refine Emits.pure ⟨fun l hl => (by cases hl), fun _ => ?_⟩
        rcases hmapped.known hdefault.1 hdefault.2 with ⟨m, hm⟩ | hfull
        · rw [hd] at hm
          cases hm
        · exact hfull
      | some d =>
        apply (buildPriority_emits hreads (hmapped.literal hd) le_rfl).map
        intro l t _ hl
        exact hbuilt hl (hchain g)
    · rw [hm]
      exact Emits.pure ⟨fun l hl => (by cases hl), fun _ => hfull⟩

theorem balanceStep_emits (hnet : Topological net.nodes) (hrefs : referenceCounts net roots = some references)
    (hmapped : Mapped g net references id remap s) (hnode : net.nodes[id]? = some node) :
    (growing g).Emits s (balanceStep net references remap (node, id))
      fun remap t => Mapped g net references (id + 1) remap t := by
  unfold balanceStep
  dsimp only
  cases habsorbed : (absorbed net references)[id]?.getD false with
  | true =>
    refine Emits.pure ⟨hmapped.length, hmapped.reads, fun j hj hfree => ?_⟩
    rcases Nat.lt_succ_iff_lt_or_eq.mp hj with hj | rfl
    · exact hmapped.mapped j hj hfree
    · rw [habsorbed] at hfree
      cases hfree
  | false =>
    apply (balanceNode_emits hnet hrefs hmapped hnode).bind
    intro r t hgrows ⟨hread, hfull⟩
    have hlater := hmapped.mono hgrows
    have hid : id < remap.length := hmapped.length ▸ (List.getElem?_eq_some_iff.mp hnode).1
    refine Emits.pure ⟨(List.length_set ..).trans hmapped.length, fun j l hl => ?_, fun j hj hfree => ?_⟩
    · by_cases hj : id = j
      · subst hj
        rw [List.getElem?_set_self hid] at hl
        exact hread l hl
      · rw [List.getElem?_set_ne hj] at hl
        exact hlater.reads j l hl
    · by_cases heq : id = j
      · subst heq
        rw [List.getElem?_set_self hid]
        cases r with
        | none => exact .inr (hfull rfl)
        | some l => exact .inl ⟨l, rfl⟩
      · rw [List.getElem?_set_ne heq]
        exact hlater.mapped j (by omega) hfree

theorem inv_start : Inv (⟨.new, [0]⟩ : Builder).graph := inv_new

theorem balanceLoop_emits (hnet : Topological net.nodes) (hrefs : referenceCounts net roots = some references) :
    (growing g).Emits ⟨.new, [0]⟩ (net.nodes.zipIdx.foldlM (balanceStep net references)
      (List.replicate net.nodeCount none)) fun remap t => Mapped g net references net.nodeCount remap t := by
  have hstart : Mapped g net references 0 (List.replicate net.nodeCount none) ⟨.new, [0]⟩ := by
    refine ⟨List.length_replicate, fun j l hl => ?_, fun j hj => by omega⟩
    rw [List.getElem?_replicate] at hl
    split_ifs at hl <;> cases hl
  have hloop : (growing g).Emits ⟨.new, [0]⟩ (net.nodes.zipIdx.foldlM (balanceStep net references)
      (List.replicate net.nodeCount none)) fun remap t =>
        Mapped g net references net.nodes.zipIdx.length remap t := by
    apply Emits.foldlM (fun done remap t => Mapped g net references done.length remap t) hstart
    intro done x rest hsplit remap t _ hmapped
    have hx : net.nodes.zipIdx[done.length]? = some x := by
      rw [← hsplit, List.getElem?_append_right (Nat.le_refl _), Nat.sub_self]
      rfl
    rw [List.getElem?_zipIdx, Nat.zero_add] at hx
    obtain ⟨node, hnode, rfl⟩ := Option.map_eq_some_iff.mp hx
    rw [List.length_append, List.length_singleton]
    exact balanceStep_emits hnet hrefs hmapped hnode
  rwa [List.length_zipIdx] at hloop

end Balance

open Balance

/-- Balancing keeps the function of every node it maps and maps every root, unless the new
graph has no identifier left. -/
theorem balance_preserves {b : LogicBuilder} (hb : Reachable b) {roots : List Lit}
    (hroots : ∀ r ∈ roots, r.node < b.nodes.length) :
    Settles (balance b.freeze roots) (fun product =>
      Preserves b.freeze product.network product.remap ∧
        ∀ r ∈ roots, (∃ l, remapLiteral product.remap r = some l) ∨ 2 ^ 31 ≤ product.network.nodeCount)
      fun e => e = .capacity ∨ e = .expect "attempt to add with overflow" := by
  have hnet := (ordered_freeze hb.inv).topological
  rw [balance]
  cases hrefs : referenceCounts b.freeze roots with
  | none => exact .inr rfl
  | some references =>
    have hloop : Settles ((b.freeze.nodes.zipIdx.foldlM (balanceStep b.freeze references)
        (List.replicate b.freeze.nodeCount none)).run ⟨.new, [0]⟩)
        (fun r => ∀ g, Mapped g b.freeze references b.freeze.nodeCount r.1 r.2) fun e =>
          e = .capacity ∨ e = .expect "attempt to add with overflow" := by
      refine (Settles.all fun g => ?_).weaken fun e he => .inl he
      exact Settles.mono (balanceLoop_emits hnet hrefs inv_start) fun r h => h.2
    apply hloop.bind
    intro ⟨remap, t⟩ hmapped
    refine ⟨fun i l hl => ?_, fun r hr => ?_⟩
    · refine ⟨((hmapped fun _ => false).reads i l hl).2.1.1, fun g => ?_⟩
      exact ((hmapped g).reads i l hl).2.2
    · exact (hmapped fun _ => false).known (hroots r hr) (root_unabsorbed hrefs hr)

/-- The inner gate of `(a & b) & c` is taken in, and the root keeps its function. -/
theorem tripleProduct_balanced : ∃ product l, balance tripleProduct.freeze [⟨5, false⟩] = .ok product ∧
    product.remap[4]? = some none ∧ remapLiteral product.remap ⟨5, false⟩ = some l ∧
      ∀ g, networkValue product.network g l = networkValue tripleProduct.freeze g ⟨5, false⟩ := by
  have hrows : (balance tripleProduct.freeze [⟨5, false⟩]).toOption.map (fun product =>
      (product.remap[4]?, product.network.nodeCount)) = some (some none, 6) := by decide +kernel
  have hroot : ∀ r ∈ [(⟨5, false⟩ : Lit)], r.node < tripleProduct.nodes.length := by simp [tripleProduct, leaves]
  have h := balance_preserves reachable_tripleProduct hroot
  cases hrun : balance tripleProduct.freeze [⟨5, false⟩] with
  | error e => rw [hrun] at hrows; cases hrows
  | ok product =>
    rw [hrun] at hrows h
    obtain ⟨hrow, hcount⟩ := Prod.mk.inj (Option.some.inj hrows)
    obtain ⟨hpreserves, hroots⟩ := h
    rcases hroots ⟨5, false⟩ List.mem_cons_self with ⟨l, hl⟩ | hfull
    · exact ⟨product, l, rfl, hrow, hl, (hpreserves.literal hl).2⟩
    · omega

end Opto.Synth
