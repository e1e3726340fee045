import Opto.Library.Outcome
import Opto.Names.Store

/-!
# Name tables

A table is a frozen store and a mutable one that goes on where the frozen one ends. It stands
for a frozen list of names and a mutable list after it.
-/

namespace Opto.Names

open Mapped (NameError NameCheckpoint U32_MAX U64_MAX)

structure NameTable (τ β : Type) where
  frozen : NameStore τ β
  delta : NameStore τ β

namespace NameTable

variable {τ β : Type} [HashTable τ Nat] [BuildHasher β]

/-- A new store takes a hasher of its own. -/
def new (frozenHasher deltaHasher : β) : Except Failure (NameTable τ β) :=
  match (NameStore.new 0 frozenHasher).insert "" with
  | .error _ => .error (.panic "the reserved empty name must fit in an empty name table")
  | .ok (_, frozen) => .ok ⟨frozen, .new 1 deltaHasher⟩

def entryCount (t : NameTable τ β) : Nat := t.frozen.len + t.delta.len

def storedBytes (t : NameTable τ β) : Nat := t.frozen.storedBytes + t.delta.storedBytes

/-- Frozen storage that other tables share is left alone. -/
def compact (t : NameTable τ β) (shared : Bool) : Except Failure (NameTable τ β) := do
  let frozen ← if shared then pure t.frozen else t.frozen.compact
  let delta ← t.delta.compact
  return ⟨frozen, delta⟩

def get (t : NameTable τ β) (name : String) : Option Nat :=
  if t.delta.entries.isEmpty then t.frozen.get name else (t.delta.get name).or (t.frozen.get name)

def intern (t : NameTable τ β) (name : String) : Except Failure (Nat × NameTable τ β) :=
  match t.get name with
  | some id => .ok (id, t)
  | none => do
    let (id, delta) ← t.delta.insert name
    return (id, { t with delta })

def checkpoint (t : NameTable τ β) : NameCheckpoint := ⟨t.frozen.len, t.delta.len⟩

def validateCheckpoint (t : NameTable τ β) (c : NameCheckpoint) : Except Failure Unit :=
  if t.frozen.len ≠ c.frozenEntries ∨ t.delta.len < c.deltaEntries then
    .error (.error ⟨"name checkpoint does not belong to the current mutable revision"⟩)
  else .ok ()

def rollback (t : NameTable τ β) (c : NameCheckpoint) : Except Failure (NameTable τ β) := do
  t.validateCheckpoint c
  let delta ← t.delta.truncate c.deltaEntries
  return { t with delta }

def resolve (t : NameTable τ β) (id : Nat) : Option String := (t.frozen.resolve id).or (t.delta.resolve id)

def copyName (kind : String) (store merged : NameStore τ β) (id : Nat) : Except Failure (NameStore τ β) :=
  match store.resolve id with
  | none => .error (.panic s!"{kind} name IDs must be contiguous")
  | some name => do
    let (_, merged) ← merged.insert name
    return merged

def freeze (t : NameTable τ β) (frozenHasher deltaHasher : β) : Except Failure (NameTable τ β) :=
  if t.delta.entries.isEmpty then .ok t
  else do
    let frozenEnd ← t.frozen.endId
    let merged ← (List.range frozenEnd).foldlM (copyName "frozen" t.frozen) (.new 0 frozenHasher)
    let deltaEnd ← t.delta.endId
    let merged ← (List.range' t.delta.firstId (deltaEnd - t.delta.firstId)).foldlM (copyName "delta" t.delta) merged
    let nextId ← merged.endId
    return ⟨merged, .new nextId deltaHasher⟩

/-- The elements of the serialized sequence. -/
def serialize (t : NameTable τ β) : Except Failure (List String) :=
  if U32_MAX < t.entryCount then .error (.error ⟨"out of range integral type conversion attempted"⟩)
  else (List.range t.entryCount).mapM fun raw =>
    match t.resolve raw with
    | none => .error (.error ⟨"name table contains a missing ID"⟩)
    | some name => .ok name

structure Loading (τ β : Type) where
  store : NameStore τ β
  expected : Nat
  storedBytes : Nat

def loadName (s : Loading τ β) (name : String) : Except Failure (Loading τ β) :=
  if s.expected = 0 ∧ name ≠ "" then
    .error (.error ⟨"serialized name table is missing the reserved empty name"⟩)
  else if U64_MAX < s.storedBytes + (utf8 name).length then
    .error (.error ⟨"serialized name table exceeds byte capacity"⟩)
  else do
    let (id, store) ← s.store.insert name
    if id ≠ s.expected then .error (.error ⟨"serialized name table contains duplicate or reordered names"⟩)
    else .ok ⟨store, s.expected + 1, s.storedBytes + (utf8 name).length⟩

def deserialize (names : List String) (frozenHasher deltaHasher : β) : Except Failure (NameTable τ β) := do
  let loaded ← names.foldlM loadName ⟨.new 0 frozenHasher, 0, 0⟩
  if loaded.expected = 0 then .error (.error ⟨"serialized name table is missing the reserved empty name"⟩)
  else do
    let nextId ← loaded.store.endId
    return ⟨loaded.store, .new nextId deltaHasher⟩

end NameTable

/-! What a table stands for. -/

/-- A failure that is reported to the caller. -/
def Failure.Reported : Failure → Prop
  | .error _ => True
  | .panic _ => False

variable {τ β : Type} [HashTable τ Nat] [BuildHasher β]

/-- The table stands for the frozen names and the mutable names after them, of which the empty
name is the first. -/
structure Represents (t : NameTable τ β) (u : Mapped.NameTable) : Prop where
  frozen : Stores t.frozen u.frozen
  delta : Stores t.delta u.delta
  zero : t.frozen.firstId = 0
  next : t.delta.firstId = u.frozen.length
  reserved : u.frozen.head? = some ""

/-- Freezing keeps the names. -/
def frozenNames (u : Mapped.NameTable) : Mapped.NameTable :=
  ⟨u.entries, [], by rw [List.append_nil]; exact u.nodup⟩

namespace Represents

variable {t : NameTable τ β} {u : Mapped.NameTable}

theorem resolve (h : Represents t u) (id : Nat) : t.resolve id = u.resolve id := by
  rw [NameTable.resolve, h.frozen.resolve, h.delta.resolve, h.zero, h.next, Mapped.NameTable.resolve]
  simp only [Nat.not_lt_zero, if_false, Nat.sub_zero]

theorem idxOf?_eq {names : List String} (hnodup : names.Nodup) {name : String} {i : Nat}
    (hi : names[i]? = some name) : names.idxOf? name = some i := by
  obtain ⟨hlt, rfl⟩ := List.getElem?_eq_some_iff.mp hi
  rw [List.idxOf?_eq_some_iff]
  refine ⟨hlt, rfl, fun j hj he => ?_⟩
  have hsame := (List.Nodup.getElem_inj_iff hnodup).mp he
  omega

theorem store_get {s : NameStore τ β} {names : List String} (h : Stores s names) (name : String) :
    s.get name = (names.idxOf? name).map (s.firstId + ·) := by
  by_cases hmem : name ∈ names
  · obtain ⟨i, hi⟩ := List.mem_iff_getElem?.mp hmem
    rw [h.get_at hi, idxOf?_eq h.nodup hi]
    rfl
  · rw [h.get_new hmem, List.idxOf?_eq_none_iff.mpr hmem]
    rfl

theorem delta_isEmpty (h : Represents t u) : t.delta.entries.isEmpty = u.delta.isEmpty := by
  have hlength := h.delta.entries_length
  cases hentries : t.delta.entries <;> cases hnames : u.delta <;> simp_all

theorem get (h : Represents t u) (name : String) : t.get name = u.get name := by
  rw [NameTable.get, Mapped.NameTable.get, store_get h.frozen, store_get h.delta, h.delta_isEmpty, h.zero, h.next]
  simp only [Nat.zero_add, Option.map_id']

theorem entryCount (h : Represents t u) : t.entryCount = u.entries.length := by
  rw [NameTable.entryCount, h.frozen.len, h.delta.len, Mapped.NameTable.entries, List.length_append]

theorem checkpoint (h : Represents t u) : t.checkpoint = u.checkpoint := by
  rw [NameTable.checkpoint, h.frozen.len, h.delta.len, Mapped.NameTable.checkpoint]

theorem checkedId_eq (u : Mapped.NameTable) (name : String) :
    NameStore.checkedId u.frozen.length u.delta.length (arena u.delta).length (utf8 name).length = u.insertId name := by
  have hbytes (names : List String) : (arena names).length = Mapped.NameTable.storedBytes names := by
    rw [arena, List.length_flatMap, Mapped.NameTable.storedBytes]
    rfl
  rw [NameStore.checkedId, Mapped.NameTable.insertId, hbytes, length_utf8]
  split_ifs <;> first | rfl | omega

/-- Interning refines interning in the lists, errors included. -/
theorem intern (h : Represents t u) (name : String) : Settles (t.intern name)
    (fun r => ∃ u', u.intern name = .ok (r.1, u') ∧ Represents r.2 u')
    (fun e => ∃ cause, e = .error cause ∧ u.intern name = .error cause) := by
  have hget := h.get name
  have hcheck := checkedId_eq u name
  rw [← h.next] at hcheck
  rw [NameTable.intern, hget, Mapped.NameTable.intern]
  split
  · next id hid =>
    split
    · next id' hid' =>
      obtain rfl : id = id' := Option.some.inj (hid.symm.trans hid')
      exact ⟨u, rfl, h⟩
    · next hid' => rw [hid] at hid'; cases hid'
  · next hid =>
    have hnew : name ∉ u.delta :=
      fun hmem => Mapped.NameTable.get_eq_none hid (List.mem_append_right _ hmem)
    split
    · next id' hid' => rw [hid] at hid'; cases hid'
    · cases hresult : u.insertId name with
      | error cause =>
        rw [hresult] at hcheck
        rw [h.delta.insert_fails hnew hcheck]
        exact ⟨cause, rfl, rfl⟩
      | ok id =>
        rw [hresult] at hcheck
        obtain ⟨delta, hinsert, hfirst, hdelta⟩ := h.delta.insert_new hnew hcheck
        rw [hinsert]
        exact ⟨_, rfl, h.frozen, hdelta, h.zero, hfirst.trans h.next, h.reserved⟩

/-- Rolling back refines truncation of the mutable list. -/
theorem rollback (h : Represents t u) (c : NameCheckpoint) : Settles (t.rollback c)
    (fun t' => ∃ u', u.rollback c = .ok u' ∧ Represents t' u')
    (fun e => ∃ cause, e = .error cause ∧ u.rollback c = .error cause) := by
  rw [NameTable.rollback, NameTable.validateCheckpoint, h.frozen.len, h.delta.len, Mapped.NameTable.rollback]
  split_ifs with hforeign
  · exact ⟨_, rfl, rfl⟩
  · have hle : c.deltaEntries ≤ u.delta.length := by omega
    obtain ⟨delta, htruncate, hfirst, hdelta⟩ := h.delta.truncate hle
    change Settles (do let delta ← t.delta.truncate c.deltaEntries; return { t with delta }) _ _
    rw [htruncate]
    exact ⟨_, rfl, h.frozen, hdelta, h.zero, hfirst.trans h.next, h.reserved⟩

theorem compact (h : Represents t u) (shared : Bool) : ∃ t', t.compact shared = .ok t' ∧ Represents t' u := by
  obtain ⟨delta, hdelta, hfirst, hstores⟩ := h.delta.compact
  obtain ⟨frozen, hfrozen, hzero, hstores'⟩ := h.frozen.compact
  cases shared with
  | true =>
    refine ⟨⟨t.frozen, delta⟩, ?_, h.frozen, hstores, h.zero, hfirst.trans h.next, h.reserved⟩
    rw [NameTable.compact, hdelta]
    rfl
  | false =>
    refine ⟨⟨frozen, delta⟩, ?_, hstores', hstores, hzero.trans h.zero, hfirst.trans h.next, h.reserved⟩
    rw [NameTable.compact, hdelta, hfrozen]
    rfl

/-! Freezing. -/

theorem insert_settles {s : NameStore τ β} {names : List String} (h : Stores s names) {name : String}
    (hnew : name ∉ names) : Settles (s.insert name)
      (fun r => r.1 = s.firstId + names.length ∧ r.2.firstId = s.firstId ∧ Stores r.2 (names ++ [name]))
      Failure.Reported := by
  cases hcheck : NameStore.checkedId s.firstId names.length (arena names).length (utf8 name).length with
  | error cause =>
    rw [h.insert_fails hnew hcheck]
    trivial
  | ok id =>
    obtain ⟨t, hinsert, hfirst, ht⟩ := h.insert_new hnew hcheck
    rw [hinsert]
    exact ⟨(Stores.checkedId_ok hcheck).1, hfirst, ht⟩

/-- The next name of a store is appended to the merged ones. -/
theorem copyName_settles (kind : String) {store merged : NameStore τ β} {names before : List String} {k : Nat}
    (h : Stores store names) (hmerged : Stores merged (before ++ names.take k)) (hzero : merged.firstId = 0)
    (hnodup : (before ++ names).Nodup) (hk : k < names.length) :
    Settles (NameTable.copyName kind store merged (store.firstId + k))
      (fun m => m.firstId = 0 ∧ Stores m (before ++ names.take (k + 1))) Failure.Reported := by
  have hnew : names[k] ∉ before ++ names.take k := by
    intro hmem
    have hsplit : names = names.take k ++ names[k] :: names.drop (k + 1) := by
      rw [← List.drop_eq_getElem_cons hk, List.take_append_drop]
    rw [hsplit, ← List.append_assoc] at hnodup
    exact List.disjoint_of_nodup_append hnodup hmem List.mem_cons_self
  rw [NameTable.copyName, h.resolve_add, List.getElem?_eq_getElem hk]
  apply Settles.bind (insert_settles hmerged hnew)
  intro (_, m) ⟨_, hfirst, hm⟩
  refine ⟨hfirst.trans hzero, ?_⟩
  rwa [List.take_succ_eq_append_getElem hk, ← List.append_assoc]

theorem copyNames (kind : String) {store merged : NameStore τ β} {names before : List String}
    (h : Stores store names) (hmerged : Stores merged before) (hzero : merged.firstId = 0)
    (hnodup : (before ++ names).Nodup) :
    Settles ((List.range' store.firstId names.length).foldlM (NameTable.copyName kind store) merged)
      (fun m => m.firstId = 0 ∧ Stores m (before ++ names)) Failure.Reported := by
  have hloop : Settles ((List.range' store.firstId names.length).foldlM (NameTable.copyName kind store) merged)
      (fun m => m.firstId = 0 ∧ Stores m (before ++
        names.take (List.range' store.firstId names.length).length)) Failure.Reported := by
    apply Settles.foldlM_split
      (fun (done : List Nat) m => m.firstId = 0 ∧ Stores m (before ++ names.take done.length))
    · exact ⟨hzero, by simpa using hmerged⟩
    · intro done id rest hsplit m ⟨hfirst, hm⟩
      have hsize := congrArg List.length hsplit
      rw [List.length_append, List.length_cons, List.length_range'] at hsize
      have hlt : done.length < names.length := by omega
      have hid : id = store.firstId + done.length := by
        have hat := congrArg (·[done.length]?) hsplit
        simpa [List.getElem?_range', hlt] using hat
      rw [hid, List.length_append, List.length_singleton]
      exact copyName_settles kind h hm hfirst hnodup hlt
  rwa [List.length_range', List.take_length] at hloop

theorem freeze (h : Represents t u) (frozenHasher deltaHasher : β) :
    Settles (t.freeze frozenHasher deltaHasher) (fun t' => Represents t' (frozenNames u)) Failure.Reported := by
  rw [NameTable.freeze, h.delta_isEmpty]
  split_ifs with hempty
  · have hsame : frozenNames u = u := by
      obtain ⟨frozen, delta, nodup⟩ := u
      obtain rfl : delta = [] := List.isEmpty_iff.mp hempty
      simp only [frozenNames, Mapped.NameTable.entries, List.append_nil]
    rw [hsame]
    exact h
  · rw [h.frozen.endId, h.delta.endId, h.zero, Nat.zero_add]
    have hfrozen := copyNames "frozen" h.frozen (stores_new frozenHasher (Nat.zero_le _)) rfl
      (u.nodup.sublist (List.sublist_append_left _ _))
    rw [h.zero, ← List.range_eq_range'] at hfrozen
    apply Settles.bind (E := Failure.Reported) hfrozen
    rintro merged ⟨hzero, hmerged⟩
    have hdelta := copyNames "delta" h.delta hmerged hzero u.nodup
    change Settles ((List.range' t.delta.firstId (t.delta.firstId + u.delta.length - t.delta.firstId)).foldlM
      (NameTable.copyName "delta" t.delta) merged >>= _) _ _
    rw [Nat.add_sub_cancel_left]
    apply Settles.bind hdelta
    rintro merged' ⟨hzero', hmerged'⟩
    rw [hmerged'.endId, hzero', Nat.zero_add]
    have hfits := hmerged'.fits
    refine ⟨hmerged', stores_new deltaHasher (by omega), hzero', rfl, ?_⟩
    have hhead := h.reserved
    change (u.frozen ++ u.delta).head? = some ""
    rw [List.head?_append, hhead]
    rfl

/-! Serialization. -/

theorem mapM_range_read {f : Nat → Except Failure String} {names : List String}
    (hf : ∀ i (hi : i < names.length), f i = .ok names[i]) : (List.range names.length).mapM f = .ok names := by
  induction names generalizing f with
  | nil => rfl
  | cons name names ih =>
    have hrest : (List.range names.length).mapM (f ∘ Nat.succ) = .ok names :=
      ih fun i hi => hf (i + 1) (Nat.succ_lt_succ hi)
    have hshift : ((List.range names.length).map Nat.succ).mapM f = .ok names := by
      rw [List.mapM_map]
      exact hrest
    rw [List.length_cons, List.range_succ_eq_map, List.mapM_cons, hf 0 (Nat.succ_pos _), hshift]
    rfl

theorem serialize (h : Represents t u) : t.serialize = .ok u.entries := by
  have hfits := h.delta.fits
  have hcount : t.entryCount = u.entries.length := h.entryCount
  have hle : ¬U32_MAX < t.entryCount := by
    rw [hcount, Mapped.NameTable.entries, List.length_append]
    have hnext := h.next
    omega
  rw [NameTable.serialize, if_neg hle, hcount]
  apply mapM_range_read
  intro i hi
  rw [h.resolve, Mapped.NameTable.resolve_eq, List.getElem?_eq_getElem hi]

/-- What is loaded are distinct names, the empty one first. -/
structure Loaded (s : NameTable.Loading τ β) (names : List String) : Prop where
  stores : Stores s.store names
  zero : s.store.firstId = 0
  expected : s.expected = names.length
  reserved : names ≠ [] → names.head? = some ""

theorem loadName_settles {s : NameTable.Loading τ β} {names : List String} (h : Loaded s names) (name : String) :
    Settles (NameTable.loadName s name) (fun s' => Loaded s' (names ++ [name])) Failure.Reported := by
  rw [NameTable.loadName]
  split_ifs with hmissing hbytes
  · trivial
  · trivial
  · by_cases hold : name ∈ names
    · obtain ⟨i, hi⟩ := List.mem_iff_getElem?.mp hold
      have hlt := (List.getElem?_eq_some_iff.mp hi).1
      have hne : s.store.firstId + i ≠ s.expected := by
        rw [h.zero, h.expected]
        omega
      rw [h.stores.insert_old hi]
      change Settles (if s.store.firstId + i ≠ s.expected then _ else _) _ _
      rw [if_pos hne]
      trivial
    · apply Settles.bind (insert_settles h.stores hold)
      intro (id, store) ⟨_, hfirst, hstores⟩
      change Settles (if id ≠ s.expected then _ else _) _ _
      split_ifs
      · trivial
      · refine ⟨hstores, hfirst.trans h.zero, ?_, fun _ => ?_⟩
        · rw [List.length_append, List.length_singleton, ← h.expected]
        · cases names with
          | nil =>
            have hempty : name = "" := by
              by_contra hname
              exact hmissing ⟨h.expected, hname⟩
            rw [hempty]
            rfl
          | cons first rest => exact h.reserved (List.cons_ne_nil _ _)

theorem deserialize (names : List String) (frozenHasher deltaHasher : β) :
    Settles (NameTable.deserialize names frozenHasher deltaHasher : Except Failure (NameTable τ β))
      (fun t => ∃ u : Mapped.NameTable, Represents t u ∧ u.entries = names ∧ u.delta = []) Failure.Reported := by
  have hstart : Loaded (⟨.new 0 frozenHasher, 0, 0⟩ : NameTable.Loading τ β) [] :=
    ⟨stores_new frozenHasher (Nat.zero_le _), rfl, rfl, fun h => absurd rfl h⟩
  have hloop : Settles (names.foldlM NameTable.loadName (⟨.new 0 frozenHasher, 0, 0⟩ : NameTable.Loading τ β))
      (fun s => Loaded s names) Failure.Reported :=
    Settles.foldlM (fun done s => Loaded s done) hstart fun done name _ s hs => loadName_settles hs name
  rw [NameTable.deserialize]
  apply Settles.bind hloop
  intro loaded hloaded
  split_ifs with hnone
  · trivial
  · have hfits := hloaded.stores.fits
    have hnonempty : names ≠ [] := by
      intro hnil
      rw [hloaded.expected, hnil] at hnone
      exact hnone rfl
    rw [hloaded.stores.endId, hloaded.zero, Nat.zero_add]
    exact ⟨⟨names, [], by rw [List.append_nil]; exact hloaded.stores.nodup⟩,
      ⟨hloaded.stores, stores_new deltaHasher (by omega), hloaded.zero, rfl, hloaded.reserved hnonempty⟩,
      List.append_nil names, rfl⟩

theorem new (frozenHasher deltaHasher : β) : ∃ t : NameTable τ β, NameTable.new frozenHasher deltaHasher = .ok t ∧
    ∃ u : Mapped.NameTable, Represents t u ∧ u.entries = [""] := by
  have hstart := stores_new (τ := τ) frozenHasher (Nat.zero_le U32_MAX)
  have hcheck : NameStore.checkedId 0 ([] : List String).length (arena []).length (utf8 "").length = .ok 0 := by
    decide
  obtain ⟨frozen, hinsert, hfirst, hstores⟩ := hstart.insert_new (show "" ∉ [] from List.not_mem_nil) hcheck
  refine ⟨⟨frozen, .new 1 deltaHasher⟩, ?_, ⟨[""], [], by simp⟩, ?_, rfl⟩
  · rw [NameTable.new, hinsert]
  · exact ⟨hstores, stores_new deltaHasher (by decide), hfirst, rfl, rfl⟩

end Represents

end Opto.Names
