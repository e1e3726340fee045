import Opto.Names.Table

/-!
# Histories of name tables

Tables are cloned, frozen, saved and loaded, and rolled back to checkpoints. A plain list
records the names of each table; a rollback restores the list that was recorded when the
checkpoint was taken. A checkpoint is only two lengths, so the table agrees with its list as
long as rollbacks use the checkpoints that belong to the table.
-/

namespace Opto.Names

open Mapped (NameCheckpoint)

/-- A table with the names that were interned in it and not rolled back, and the checkpoints that
belong to it: those taken on it, or on the table it was copied from before that, and since then
not undercut by a rollback. -/
structure Tracked (τ β : Type) where
  table : NameTable τ β
  log : List String
  marks : List Nat

structure Snapshot where
  checkpoint : NameCheckpoint
  log : List String
deriving DecidableEq

structure World (τ β : Type) where
  tables : List (Tracked τ β)
  snapshots : List Snapshot

inductive Op (β : Type) where
  | create (frozenHasher deltaHasher : β)
  | intern (table : Nat) (name : String)
  | checkpoint (table : Nat)
  | rollback (table snapshot : Nat)
  | freeze (table : Nat) (frozenHasher deltaHasher : β)
  | compact (table : Nat) (shared : Bool)
  | clone (table : Nat)
  | reload (table : Nat) (frozenHasher deltaHasher : β)
  | load (names : List String) (frozenHasher deltaHasher : β)

namespace World

variable {τ β : Type}

def start : World τ β := ⟨[], []⟩

/-- A reported failure changes nothing, a panic ends the run. -/
def settle (w : World τ β) (change : Tracked τ β → List (Tracked τ β)) : Except Failure (Tracked τ β) →
    Except String (World τ β)
  | .ok t => .ok { w with tables := change t }
  | .error (.error _) => .ok w
  | .error (.panic message) => .error message

def update (w : World τ β) (i : Nat) (run : Tracked τ β → Except Failure (Tracked τ β)) : Except String (World τ β) :=
  match w.tables[i]? with
  | none => .ok w
  | some t => w.settle (w.tables.set i) (run t)

def add (w : World τ β) (r : Except Failure (Tracked τ β)) : Except String (World τ β) :=
  w.settle (fun t => w.tables ++ [t]) r

/-- The checkpoints that a rollback does not undercut. -/
def notUndercut (snapshots : List Snapshot) (c : NameCheckpoint) (marks : List Nat) : List Nat :=
  marks.filter fun k => snapshots[k]?.all fun s => s.checkpoint.deltaEntries ≤ c.deltaEntries

variable [HashTable τ Nat] [BuildHasher β]

def step (w : World τ β) : Op β → Except String (World τ β)
  | .create frozenHasher deltaHasher => w.add do
    let table ← NameTable.new frozenHasher deltaHasher
    return ⟨table, [""], []⟩
  | .intern i name => w.update i fun t => do
    let (_, table) ← t.table.intern name
    return ⟨table, if name ∈ t.log then t.log else t.log ++ [name], t.marks⟩
  | .checkpoint i =>
    match w.tables[i]? with
    | none => .ok w
    | some t => .ok ⟨w.tables.set i { t with marks := w.snapshots.length :: t.marks },
        w.snapshots ++ [⟨t.table.checkpoint, t.log⟩]⟩
  | .rollback i k =>
    match w.snapshots[k]? with
    | none => .ok w
    | some s => w.update i fun t => do
      let table ← t.table.rollback s.checkpoint
      return ⟨table, s.log, notUndercut w.snapshots s.checkpoint t.marks⟩
  | .freeze i frozenHasher deltaHasher => w.update i fun t => do
    let table ← t.table.freeze frozenHasher deltaHasher
    return { t with table }
  | .compact i shared => w.update i fun t => do
    let table ← t.table.compact shared
    return { t with table }
  | .clone i =>
    match w.tables[i]? with
    | none => .ok w
    | some t => w.add (.ok t)
  | .reload i frozenHasher deltaHasher =>
    match w.tables[i]? with
    | none => .ok w
    | some t => w.add do
      let names ← t.table.serialize
      let table ← NameTable.deserialize names frozenHasher deltaHasher
      return { t with table }
  | .load names frozenHasher deltaHasher => w.add do
    let table ← NameTable.deserialize names frozenHasher deltaHasher
    return ⟨table, names, []⟩

def run (w : World τ β) (ops : List (Op β)) : Except String (World τ β) := ops.foldlM step w

/-- A rollback that the table accepts uses a checkpoint that belongs to the table. -/
def Follows (w : World τ β) : Op β → Prop
  | .rollback i k => ∀ t s, w.tables[i]? = some t → w.snapshots[k]? = some s →
      t.table.validateCheckpoint s.checkpoint = .ok () → k ∈ t.marks
  | _ => True

inductive Reachable : World τ β → Prop
  | start : Reachable start
  | step {w w' : World τ β} (op : Op β) : Reachable w → w.Follows op → w.step op = .ok w' → Reachable w'

end World

variable {τ β : Type} [HashTable τ Nat] [BuildHasher β]

/-- The table is a bijection between the numbers below its length and the names of the list. -/
structure Refines (t : NameTable τ β) (log : List String) : Prop where
  distinct : log.Nodup
  contiguous : t.entryCount = log.length
  resolve (id : Nat) : t.resolve id = log[id]?
  get (name : String) : t.get name = log.idxOf? name
  intern (id : Nat) (name : String) : log[id]? = some name → t.intern name = .ok (id, t)

theorem Represents.refines {t : NameTable τ β} {u : Mapped.NameTable} (h : Represents t u) : Refines t u.entries := by
  have hnodup : u.entries.Nodup := u.nodup
  have hresolve (id : Nat) : t.resolve id = u.entries[id]? := by
    rw [h.resolve, Mapped.NameTable.resolve_eq]
  have hget (name : String) : t.get name = u.entries.idxOf? name := by
    rw [h.get]
    cases hfound : u.get name with
    | none => rw [List.idxOf?_eq_none_iff.mpr (Mapped.NameTable.get_eq_none hfound)]
    | some id =>
      have hid := Mapped.NameTable.get_eq_some hfound
      rw [Mapped.NameTable.resolve_eq] at hid
      rw [Represents.idxOf?_eq hnodup hid]
  refine ⟨hnodup, h.entryCount, hresolve, hget, fun id name hid => ?_⟩
  rw [NameTable.intern, hget, Represents.idxOf?_eq hnodup hid]

/-! What belongs to a table. -/

/-- While the frozen names are those of the checkpoint, the table goes on from its names. -/
structure Agrees (u : Mapped.NameTable) (s : Snapshot) : Prop where
  frozen_le : s.checkpoint.frozenEntries ≤ u.frozen.length
  extends_log : s.checkpoint.frozenEntries = u.frozen.length →
    s.log.length = s.checkpoint.frozenEntries + s.checkpoint.deltaEntries ∧ s.log <+: u.entries

structure Tracks (snapshots : List Snapshot) (t : Tracked τ β) (u : Mapped.NameTable) : Prop where
  represents : Represents t.table u
  entries : u.entries = t.log
  marks : ∀ k ∈ t.marks, ∃ s, snapshots[k]? = some s ∧ Agrees u s

namespace Tracks

variable {snapshots : List Snapshot} {t : Tracked τ β} {u : Mapped.NameTable}

theorem mono (h : Tracks snapshots t u) (more : List Snapshot) : Tracks (snapshots ++ more) t u := by
  refine ⟨h.represents, h.entries, fun k hk => ?_⟩
  obtain ⟨s, hs, hagrees⟩ := h.marks k hk
  exact ⟨s, by rw [List.getElem?_append_left (List.getElem?_eq_some_iff.mp hs).1, hs], hagrees⟩

theorem intern_entries {u u' : Mapped.NameTable} {name : String} {id : Nat} (h : u.intern name = .ok (id, u')) :
    u'.entries = if name ∈ u.entries then u.entries else u.entries ++ [name] := by
  rw [Mapped.NameTable.intern] at h
  split at h
  · next id' hid =>
    cases h
    have hmem := Mapped.NameTable.get_eq_some hid
    rw [Mapped.NameTable.resolve_eq] at hmem
    rw [if_pos (List.mem_of_getElem? hmem)]
  · next hid =>
    obtain ⟨i, _, hu⟩ := bind_eq_ok h
    cases hu
    rw [if_neg (Mapped.NameTable.get_eq_none hid), Mapped.NameTable.entries, ← List.append_assoc]
    rfl

theorem intern (h : Tracks snapshots t u) (name : String) : Settles (do
    let (_, table) ← t.table.intern name
    return (⟨table, if name ∈ t.log then t.log else t.log ++ [name], t.marks⟩ : Tracked τ β))
    (fun t' => ∃ u', Tracks snapshots t' u') Failure.Reported := by
  have hintern := h.represents.intern name
  apply Settles.bind (hintern.weaken fun e ⟨cause, he, _⟩ => he ▸ trivial)
  intro (id, table) ⟨u', hu', hrepresents⟩
  have hentries := intern_entries hu'
  have hextends := (Mapped.NameTable.intern_ok hu').1
  refine ⟨u', hrepresents, by rw [hentries, h.entries], fun k hk => ?_⟩
  obtain ⟨s, hs, hagrees⟩ := h.marks k hk
  refine ⟨s, hs, hextends.frozen ▸ hagrees.frozen_le, fun hfrozen => ?_⟩
  rw [hextends.frozen] at hfrozen
  obtain ⟨hlength, hlog⟩ := hagrees.extends_log hfrozen
  refine ⟨hlength, hlog.trans ?_⟩
  rw [hentries]
  split_ifs
  · exact List.prefix_rfl
  · exact List.prefix_append _ _

/-- The new checkpoint belongs to the table it is taken on. -/
theorem checkpoint (h : Tracks snapshots t u) : Tracks (snapshots ++ [⟨t.table.checkpoint, t.log⟩])
    { t with marks := snapshots.length :: t.marks } u := by
  have hlater := h.mono [⟨t.table.checkpoint, t.log⟩]
  refine ⟨h.represents, h.entries, fun k hk => ?_⟩
  rcases List.mem_cons.mp hk with rfl | hk
  · refine ⟨_, List.getElem?_concat_length, ?_, fun _ => ?_⟩
    · rw [h.represents.checkpoint]
      exact Nat.le_refl _
    · rw [h.represents.checkpoint, ← h.entries]
      exact ⟨List.length_append, List.prefix_rfl⟩
  · exact hlater.marks k hk

/-- A rollback keeps the names that were there when its checkpoint was taken. -/
theorem rollback_entries {u u' : Mapped.NameTable} {s : Snapshot} (hagrees : Agrees u s)
    (h : u.rollback s.checkpoint = .ok u') :
    u'.entries = s.log ∧ u'.frozen = u.frozen ∧ u.frozen.length = s.checkpoint.frozenEntries ∧
      u'.delta.length = s.checkpoint.deltaEntries := by
  rw [Mapped.NameTable.rollback] at h
  split_ifs at h with hforeign
  cases h
  rw [not_or, not_not, Nat.not_lt] at hforeign
  obtain ⟨hfrozen, hdelta⟩ := hforeign
  obtain ⟨hlength, hlog⟩ := hagrees.extends_log hfrozen.symm
  have htake := List.prefix_iff_eq_take.mp hlog
  refine ⟨?_, rfl, hfrozen, ?_⟩
  · rw [htake, hlength, ← hfrozen, Mapped.NameTable.entries, Mapped.NameTable.entries, List.take_length_add_append]
  · exact List.length_take_of_le hdelta

theorem rollback (h : Tracks snapshots t u) {k : Nat} {s : Snapshot} (hs : snapshots[k]? = some s)
    (hfollows : t.table.validateCheckpoint s.checkpoint = .ok () → k ∈ t.marks) :
    Settles (t.table.rollback s.checkpoint)
      (fun table => table.checkpoint = s.checkpoint ∧
        ∃ u', Tracks snapshots ⟨table, s.log, World.notUndercut snapshots s.checkpoint t.marks⟩ u')
      Failure.Reported := by
  have hrollback := h.represents.rollback s.checkpoint
  have hvalid : ∀ table, t.table.rollback s.checkpoint = .ok table → k ∈ t.marks := by
    intro table htable
    obtain ⟨⟨⟩, hvalidate, _⟩ := bind_eq_ok htable
    exact hfollows hvalidate
  apply (hrollback.weaken fun e ⟨cause, he, _⟩ => he ▸ trivial).self.mono
  intro table ⟨htable, u', hu', hrepresents⟩
  obtain ⟨s', hs', hagrees⟩ := h.marks k (hvalid table htable)
  obtain rfl : s = s' := Option.some.inj (hs.symm.trans hs')
  obtain ⟨hentries, hfrozen, hlength, hdelta⟩ := rollback_entries hagrees hu'
  refine ⟨?_, u', hrepresents, hentries, fun m hm => ?_⟩
  · rw [hrepresents.checkpoint, Mapped.NameTable.checkpoint, hfrozen, hlength, hdelta]
  · obtain ⟨hmark, hkept⟩ := List.mem_filter.mp hm
    obtain ⟨s', hs', hagrees'⟩ := h.marks m hmark
    rw [hs', Option.all_some, decide_eq_true_eq] at hkept
    refine ⟨s', hs', hfrozen ▸ hagrees'.frozen_le, fun hsame => ?_⟩
    rw [hfrozen] at hsame
    obtain ⟨hlog, hprefix⟩ := hagrees'.extends_log hsame
    obtain ⟨hlog', hprefix'⟩ := hagrees.extends_log hlength.symm
    refine ⟨hlog, ?_⟩
    rw [hentries]
    exact List.prefix_of_prefix_length_le hprefix hprefix' (by omega)

/-- The names of the table, all frozen, in another table. -/
theorem refreeze (h : Tracks snapshots t u) {table : NameTable τ β} {u' : Mapped.NameTable}
    (hrepresents : Represents table u') (hentries : u'.entries = u.entries)
    (hfrozen : u.frozen.length ≤ u'.frozen.length) : Tracks snapshots { t with table } u' := by
  refine ⟨hrepresents, hentries.trans h.entries, fun k hk => ?_⟩
  obtain ⟨s, hs, hagrees⟩ := h.marks k hk
  have hle := hagrees.frozen_le
  refine ⟨s, hs, Nat.le_trans hle hfrozen, fun heq => ?_⟩
  rw [hentries]
  exact hagrees.extends_log (by omega)

theorem entries_length (u : Mapped.NameTable) : u.frozen.length ≤ u.entries.length := by
  rw [Mapped.NameTable.entries, List.length_append]
  exact Nat.le_add_right _ _

theorem freeze (h : Tracks snapshots t u) (frozenHasher deltaHasher : β) :
    Settles (do let table ← t.table.freeze frozenHasher deltaHasher; return { t with table })
      (fun t' => ∃ u', Tracks snapshots t' u') Failure.Reported := by
  apply Settles.bind (h.represents.freeze frozenHasher deltaHasher)
  intro table hrepresents
  exact ⟨_, h.refreeze hrepresents (List.append_nil _) (entries_length u)⟩

theorem reload (h : Tracks snapshots t u) (frozenHasher deltaHasher : β) :
    Settles (do
      let names ← t.table.serialize
      let table : NameTable τ β ← NameTable.deserialize names frozenHasher deltaHasher
      return { t with table })
      (fun t' => ∃ u', Tracks snapshots t' u') Failure.Reported := by
  rw [h.represents.serialize]
  apply Settles.bind (Represents.deserialize u.entries frozenHasher deltaHasher)
  intro table ⟨u', hrepresents, hentries, hdelta⟩
  have hfrozen : u.frozen.length ≤ u'.frozen.length := by
    have hle := entries_length u
    rwa [← hentries, Mapped.NameTable.entries, hdelta, List.append_nil] at hle
  exact ⟨u', h.refreeze hrepresents hentries hfrozen⟩

end Tracks

/-! Runs. -/

namespace World

/-- Every table is tracked. -/
def Good (w : World τ β) : Prop := ∀ t ∈ w.tables, ∃ u, Tracks w.snapshots t u

theorem settle_good {w : World τ β} {change : Tracked τ β → List (Tracked τ β)}
    {r : Except Failure (Tracked τ β)} (hw : w.Good)
    (hr : Settles r (fun t => ∀ t' ∈ change t, ∃ u, Tracks w.snapshots t' u) Failure.Reported) :
    ∃ w', w.settle change r = .ok w' ∧ w'.Good := by
  match r with
  | .ok t => exact ⟨_, rfl, hr⟩
  | .error (.error _) => exact ⟨w, rfl, hw⟩

theorem update_good {w : World τ β} {run : Tracked τ β → Except Failure (Tracked τ β)} (hw : w.Good) (i : Nat)
    (hrun : ∀ t u, w.tables[i]? = some t → Tracks w.snapshots t u →
      Settles (run t) (fun t' => ∃ u', Tracks w.snapshots t' u') Failure.Reported) :
    ∃ w', w.update i run = .ok w' ∧ w'.Good := by
  rw [update]
  cases ht : w.tables[i]? with
  | none => exact ⟨w, rfl, hw⟩
  | some t =>
    obtain ⟨u, htracks⟩ := hw t (List.mem_of_getElem? ht)
    apply settle_good hw
    apply (hrun t u ht htracks).mono
    intro t' htracks' x hx
    rcases List.mem_or_eq_of_mem_set hx with hx | rfl
    · exact hw x hx
    · exact htracks'

theorem add_good {w : World τ β} {r : Except Failure (Tracked τ β)} (hw : w.Good)
    (hr : Settles r (fun t => ∃ u, Tracks w.snapshots t u) Failure.Reported) : ∃ w', w.add r = .ok w' ∧ w'.Good := by
  apply settle_good hw
  apply hr.mono
  intro t htracks x hx
  rcases List.mem_append.mp hx with hx | hx
  · exact hw x hx
  · rw [List.mem_singleton.mp hx]
    exact htracks

theorem new_tracks (snapshots : List Snapshot) {table : NameTable τ β} {u : Mapped.NameTable} {names : List String}
    (h : Represents table u) (hentries : u.entries = names) : Tracks snapshots ⟨table, names, []⟩ u :=
  ⟨h, hentries, fun _ hk => absurd hk List.not_mem_nil⟩

theorem step_good {w : World τ β} (hw : w.Good) {op : Op β} (hop : w.Follows op) : ∃ w', w.step op = .ok w' ∧ w'.Good := by
  cases op with
  | create frozenHasher deltaHasher =>
    apply add_good hw
    obtain ⟨table, htable, u, hrepresents, hentries⟩ := Represents.new (τ := τ) frozenHasher deltaHasher
    rw [htable]
    exact ⟨u, new_tracks _ hrepresents hentries⟩
  | intern i name => exact update_good hw i fun t u _ h => h.intern name
  | checkpoint i =>
    simp only [step]
    cases ht : w.tables[i]? with
    | none => exact ⟨w, rfl, hw⟩
    | some t =>
      refine ⟨_, rfl, fun x hx => ?_⟩
      rcases List.mem_or_eq_of_mem_set hx with hx | rfl
      · obtain ⟨u, h⟩ := hw x hx
        exact ⟨u, h.mono _⟩
      · obtain ⟨u, h⟩ := hw t (List.mem_of_getElem? ht)
        exact ⟨u, h.checkpoint⟩
  | rollback i k =>
    simp only [step]
    cases hs : w.snapshots[k]? with
    | none => exact ⟨w, rfl, hw⟩
    | some s =>
      apply update_good hw i
      intro t u ht h
      apply Settles.bind (h.rollback hs (hop t s ht hs))
      exact fun table htable => htable.2
  | freeze i frozenHasher deltaHasher => exact update_good hw i fun t u _ h => h.freeze frozenHasher deltaHasher
  | compact i shared =>
    apply update_good hw i
    intro t u _ h
    obtain ⟨table, htable, hrepresents⟩ := h.represents.compact shared
    rw [htable]
    exact ⟨u, hrepresents, h.entries, h.marks⟩
  | clone i =>
    simp only [step]
    cases ht : w.tables[i]? with
    | none => exact ⟨w, rfl, hw⟩
    | some t => exact add_good hw (hw t (List.mem_of_getElem? ht))
  | reload i frozenHasher deltaHasher =>
    simp only [step]
    cases ht : w.tables[i]? with
    | none => exact ⟨w, rfl, hw⟩
    | some t =>
      obtain ⟨u, h⟩ := hw t (List.mem_of_getElem? ht)
      exact add_good hw (h.reload frozenHasher deltaHasher)
  | load names frozenHasher deltaHasher =>
    apply add_good hw
    apply Settles.bind (Represents.deserialize names frozenHasher deltaHasher)
    intro table ⟨u, hrepresents, hentries, _⟩
    exact ⟨u, new_tracks _ hrepresents hentries⟩

theorem Reachable.good {w : World τ β} (h : Reachable w) : w.Good := by
  induction h with
  | start => exact fun t ht => absurd ht List.not_mem_nil
  | step _ _ hop hstep ih =>
    obtain ⟨w', hw', hgood⟩ := step_good ih hop
    rw [hstep] at hw'
    cases hw'
    exact hgood

end World

/-- While rollbacks use the checkpoints that belong to a table, every table refines its list, and
a checkpoint that the table accepts restores the names and the lengths that it recorded. -/
theorem tables_refine {w : World τ β} (h : w.Reachable) :
    (∀ t ∈ w.tables, Refines t.table t.log) ∧
    (∀ t ∈ w.tables, ∀ k ∈ t.marks, ∀ s, w.snapshots[k]? = some s →
      t.table.validateCheckpoint s.checkpoint = .ok () →
        ∃ table, t.table.rollback s.checkpoint = .ok table ∧ Refines table s.log ∧ table.checkpoint = s.checkpoint) ∧
    ∀ op, w.Follows op → ∃ w', w.step op = .ok w' := by
  have hgood := h.good
  refine ⟨fun t ht => ?_, fun t ht k hk s hs hvalid => ?_, fun op hop => ?_⟩
  · obtain ⟨u, htracks⟩ := hgood t ht
    exact htracks.entries ▸ htracks.represents.refines
  · obtain ⟨u, htracks⟩ := hgood t ht
    have hsettles := htracks.rollback hs fun _ => hk
    cases hrun : t.table.rollback s.checkpoint with
    | error e =>
      have hrollback := htracks.represents.rollback s.checkpoint
      rw [hrun] at hrollback
      obtain ⟨cause, _, hcause⟩ := hrollback
      rw [Mapped.NameTable.rollback] at hcause
      rw [NameTable.validateCheckpoint, htracks.represents.frozen.len, htracks.represents.delta.len] at hvalid
      split_ifs at hvalid hcause
    | ok table =>
      rw [hrun] at hsettles
      obtain ⟨hcheckpoint, u', htracks'⟩ := hsettles
      have hlog : u'.entries = s.log := htracks'.entries
      exact ⟨table, rfl, hlog ▸ htracks'.represents.refines, hcheckpoint⟩
  · obtain ⟨w', hw', _⟩ := World.step_good hgood hop
    exact ⟨w', hw'⟩

/-- All names have the same hash. -/
instance : BuildHasher Unit := ⟨fun _ _ => 0⟩

/-- Worlds whose hash tables are lists. -/
abbrev ListWorld := World (List (UInt64 × Nat)) Unit

open World in
/-- A table is rolled back to where it had one name more than a new one. -/
theorem tables_refine_rolled_back : ∃ (w : ListWorld) (t : _), w.Reachable ∧ w.tables = [t] ∧ t.log = ["", "a"] ∧
    t.marks = [0] ∧ Refines t.table ["", "a"] := by
  have hcreate : Reachable (_ : ListWorld) := Reachable.start.step (.create () ()) trivial rfl
  have hintern := hcreate.step (.intern 0 "a") trivial rfl
  have hmark := hintern.step (.checkpoint 0) trivial rfl
  have hmore := hmark.step (.intern 0 "b") trivial rfl
  have hback := hmore.step (.rollback 0 0) (fun t s ht hs _ => by cases ht; exact List.mem_singleton_self _) rfl
  exact ⟨_, _, hback, rfl, rfl, rfl, (tables_refine hback).1 _ List.mem_cons_self⟩

/-- Two copies of a table freeze a name of their own. The second one accepts the checkpoint of the
first, since as many names are frozen, and keeps its own name. -/
theorem foreign_checkpoint_accepted : ¬∀ (ops : List (Op Unit)) (w : ListWorld), World.start.run ops = .ok w →
    ∀ t ∈ w.tables, Refines t.table t.log := by
  intro h
  have hrun := h [.create () (), .clone 0, .intern 0 "alpha", .freeze 0 () (), .intern 1 "beta", .freeze 1 () (),
    .checkpoint 0, .rollback 1 0] _ rfl _ (List.mem_cons_of_mem _ List.mem_cons_self)
  exact absurd (hrun.resolve 1) (by decide +kernel)

end Opto.Names
