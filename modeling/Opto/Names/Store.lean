import Opto.Library.HashTable
import Opto.Mapped.Names

/-!
# The storage of names

A store keeps its names one after the other in a byte arena, an entry for each of them and a
hash index of the entries. A store stands for the list of its names: their positions, counted
from its first identifier, are their identifiers.
-/

namespace Opto.Names

open Mapped HashTable

class BuildHasher (β : Type) where
  hashOne : β → String → UInt64

inductive Failure where
  | error (cause : NameError)
  | panic (message : String)
deriving DecidableEq

structure NameEntry where
  start : Nat
  len : Nat
  hash : UInt64
deriving DecidableEq

structure NameStore (τ β : Type) where
  firstId : Nat
  bytes : List UInt8
  entries : List NameEntry
  index : τ
  hashBuilder : β

def utf8 (name : String) : List UInt8 := name.toByteArray.data.toList

def fromUtf8 (bytes : List UInt8) : Option String := String.fromUTF8? bytes.toByteArray

@[simp] theorem length_utf8 (name : String) : (utf8 name).length = name.utf8ByteSize := rfl

@[simp] theorem fromUtf8_utf8 (name : String) : fromUtf8 (utf8 name) = some name := by
  have hbytes : (utf8 name).toByteArray = name.toByteArray := by
    apply ByteArray.ext
    rw [List.data_toByteArray, utf8, Array.toArray_toList]
  rw [fromUtf8, hbytes, String.fromUTF8?, dif_pos name.isValidUTF8]
  rfl

namespace NameStore

variable {τ β : Type} [HashTable τ Nat] [BuildHasher β]

def new (firstId : Nat) (hashBuilder : β) : NameStore τ β := ⟨firstId, [], [], empty, hashBuilder⟩

def len (s : NameStore τ β) : Nat := s.entries.length

def storedBytes (s : NameStore τ β) : Nat := s.bytes.length

def resolve (s : NameStore τ β) (id : Nat) : Option String :=
  if id < s.firstId then none
  else match s.entries[id - s.firstId]? with
    | none => none
    | some entry =>
      if entry.start + entry.len ≤ s.bytes.length then
        fromUtf8 ((s.bytes.drop entry.start).take entry.len)
      else none

def get (s : NameStore τ β) (name : String) : Option Nat :=
  find s.index (BuildHasher.hashOne s.hashBuilder name) fun id => s.resolve id == some name

def endId (s : NameStore τ β) : Except Failure Nat :=
  if U32_MAX < s.entries.length ∨ U32_MAX < s.firstId + s.entries.length then
    .error (.panic "validated name table length must fit in u32")
  else .ok (s.firstId + s.entries.length)

/-- The hash that an entry was stored with, as a growing index asks for it. -/
def storedHash (entries : List NameEntry) (firstId id : Nat) : Option UInt64 :=
  if id < firstId then none else entries[id - firstId]?.map (·.hash)

/-- The capacity checks of an insertion, in the order they are made. -/
def checkedId (firstId count start len : Nat) : Except NameError Nat :=
  if U32_MAX < count then .error (.capacity "name ID")
  else if U32_MAX < firstId + count then .error (.capacity "name ID")
  else if firstId + count = U32_MAX then .error (.capacity "name ID")
  else if U32_MAX < start then .error (.capacity "UTF-8 byte arena")
  else if U32_MAX < len then .error (.capacity "individual name length")
  else if U32_MAX < start + len then .error (.capacity "UTF-8 byte arena")
  else .ok (firstId + count)

def insert (s : NameStore τ β) (name : String) : Except Failure (Nat × NameStore τ β) :=
  match s.get name with
  | some id => .ok (id, s)
  | none =>
    match checkedId s.firstId s.entries.length s.bytes.length (utf8 name).length with
    | .error cause => .error (.error cause)
    | .ok id =>
      let hash := BuildHasher.hashOne s.hashBuilder name
      let entries := s.entries ++ [⟨s.bytes.length, (utf8 name).length, hash⟩]
      match insertUnique s.index hash id (storedHash entries s.firstId) with
      | none => .error (.panic "index out of bounds")
      | some index => .ok (id, { s with bytes := s.bytes ++ utf8 name, entries, index })

def compactStep (s : NameStore τ β) (index : τ) (entry : NameEntry × Nat) : Except Failure τ :=
  match insertUnique index entry.1.hash (s.firstId + entry.2) (storedHash s.entries s.firstId) with
  | none => .error (.panic "index out of bounds")
  | some index => .ok index

def compact (s : NameStore τ β) : Except Failure (NameStore τ β) := do
  let index ← s.entries.zipIdx.foldlM s.compactStep empty
  return { s with index }

def removeLocal (s : NameStore τ β) (index : τ) (position : Nat) : Except Failure τ :=
  match s.entries[position]? with
  | none => .error (.panic "index out of bounds")
  | some entry =>
    match removeEntry index entry.hash (· == s.firstId + position) with
    | none => .error (.panic "name index must contain every stored entry")
    | some (_, index) => .ok index

def byteLen (s : NameStore τ β) (len : Nat) : Nat :=
  if len = 0 then 0 else (s.entries[len - 1]?.map fun entry => entry.start + entry.len).getD 0

def truncate (s : NameStore τ β) (len : Nat) : Except Failure (NameStore τ β) :=
  if len = s.entries.length then .ok s
  else do
    let index ← (List.range' len (s.entries.length - len)).reverse.foldlM s.removeLocal s.index
    return { s with index, entries := s.entries.take len, bytes := s.bytes.take (s.byteLen len) }

end NameStore

/-! What a store stands for. -/

def arena (names : List String) : List UInt8 := names.flatMap utf8

/-- The entries of names that lie one after the other. -/
def layout (hash : String → UInt64) (start : Nat) : List String → List NameEntry
  | [] => []
  | name :: names => ⟨start, (utf8 name).length, hash name⟩ :: layout hash (start + (utf8 name).length) names

section

variable {hash : String → UInt64}

theorem length_layout (start : Nat) (names : List String) : (layout hash start names).length = names.length := by
  induction names generalizing start with
  | nil => rfl
  | cons name names ih => rw [layout, List.length_cons, ih, List.length_cons]

theorem layout_append (start : Nat) (xs ys : List String) :
    layout hash start (xs ++ ys) = layout hash start xs ++ layout hash (start + (arena xs).length) ys := by
  induction xs generalizing start with
  | nil => rfl
  | cons name xs ih =>
    simp only [List.cons_append, layout, ih, arena, List.flatMap_cons, List.length_append, Nat.add_assoc]

theorem getElem?_layout (start : Nat) (names : List String) (i : Nat) :
    (layout hash start names)[i]? =
      names[i]?.map fun name => ⟨start + (arena (names.take i)).length, (utf8 name).length, hash name⟩ := by
  induction names generalizing start i with
  | nil => rfl
  | cons name names ih =>
    cases i with
    | zero => rfl
    | succ i => simp only [layout, List.getElem?_cons_succ, ih, List.take_succ_cons, arena, List.flatMap_cons,
        List.length_append, Nat.add_assoc]

theorem take_layout (start n : Nat) (names : List String) :
    (layout hash start names).take n = layout hash start (names.take n) := by
  induction names generalizing start n with
  | nil => simp [layout]
  | cons name names ih =>
    cases n with
    | zero => rfl
    | succ n => simp only [layout, List.take_succ_cons, ih]

theorem hash_layout (start : Nat) (names : List String) : (layout hash start names).map (·.hash) = names.map hash := by
  induction names generalizing start with
  | nil => rfl
  | cons name names ih => simp only [layout, List.map_cons, ih]

theorem arena_append (xs ys : List String) : arena (xs ++ ys) = arena xs ++ arena ys := List.flatMap_append

/-- The bytes of a name are found where its entry says. -/
theorem arena_slice {names : List String} {i : Nat} {name : String} (hi : names[i]? = some name) :
    ((arena names).drop (arena (names.take i)).length).take (utf8 name).length = utf8 name ∧
      (arena (names.take i)).length + (utf8 name).length ≤ (arena names).length := by
  obtain ⟨hlt, rfl⟩ := List.getElem?_eq_some_iff.mp hi
  have hsplit : arena names = arena (names.take i) ++ (utf8 names[i] ++ arena (names.drop (i + 1))) := by
    conv_lhs => rw [← List.take_append_drop i names, List.drop_eq_getElem_cons hlt]
    rw [arena_append]
    rfl
  rw [hsplit]
  constructor
  · rw [List.drop_left, List.take_left]
  · simp only [List.length_append]
    omega

end

variable {τ β : Type} [HashTable τ Nat] [BuildHasher β]

/-- The store holds the names, in the order of their identifiers. -/
structure Stores (s : NameStore τ β) (names : List String) : Prop where
  bytes : s.bytes = arena names
  entries : s.entries = layout (BuildHasher.hashOne s.hashBuilder) 0 names
  index : Indexes s.index (names.map (BuildHasher.hashOne s.hashBuilder)) s.firstId
  nodup : names.Nodup
  fits : s.firstId + names.length ≤ U32_MAX

theorem stores_new (hashBuilder : β) {firstId : Nat} (hfirst : firstId ≤ U32_MAX) :
    Stores (NameStore.new firstId hashBuilder : NameStore τ β) [] :=
  ⟨rfl, rfl, indexes_empty firstId, List.nodup_nil, hfirst⟩

namespace Stores

variable {s : NameStore τ β} {names : List String} {name : String}

theorem len (h : Stores s names) : s.len = names.length := by
  rw [NameStore.len, h.entries, length_layout]

theorem entries_length (h : Stores s names) : s.entries.length = names.length := h.len

theorem endId (h : Stores s names) : s.endId = .ok (s.firstId + names.length) := by
  have hfits := h.fits
  rw [NameStore.endId, h.entries_length, if_neg (by omega)]

theorem resolve (h : Stores s names) (id : Nat) :
    s.resolve id = if id < s.firstId then none else names[id - s.firstId]? := by
  rw [NameStore.resolve, h.entries, getElem?_layout]
  split_ifs with hid
  · rfl
  · cases hname : names[id - s.firstId]? with
    | none => rfl
    | some name =>
      obtain ⟨hslice, hle⟩ := arena_slice hname
      simp only [Option.map_some, Nat.zero_add, h.bytes, if_pos hle, hslice, fromUtf8_utf8]

theorem resolve_add (h : Stores s names) (i : Nat) : s.resolve (s.firstId + i) = names[i]? := by
  rw [h.resolve, if_neg (by omega), Nat.add_sub_cancel_left]

theorem get_new (h : Stores s names) (hnew : name ∉ names) : s.get name = none := by
  rw [NameStore.get, Option.eq_none_iff_forall_ne_some]
  intro id hid
  obtain ⟨hp, hle, _⟩ := h.index.find_mem hid
  have hname := beq_iff_eq.mp hp
  rw [h.resolve, if_neg (by omega)] at hname
  exact hnew (List.mem_of_getElem? hname)

theorem get_at (h : Stores s names) {i : Nat} (hi : names[i]? = some name) : s.get name = some (s.firstId + i) := by
  have hfound : (s.get name).isSome := by
    apply h.index.find_some (i := i)
    · rw [List.getElem?_map, hi]
      rfl
    · rw [h.resolve_add, hi]
      exact beq_self_eq_true _
  obtain ⟨id, hid⟩ := Option.isSome_iff_exists.mp hfound
  obtain ⟨hp, hle, _⟩ := h.index.find_mem hid
  have hname := beq_iff_eq.mp hp
  rw [h.resolve, if_neg (by omega)] at hname
  obtain ⟨hlt, hi⟩ := List.getElem?_eq_some_iff.mp hi
  obtain ⟨hlt', hj⟩ := List.getElem?_eq_some_iff.mp hname
  have hsame : i = id - s.firstId := (List.Nodup.getElem_inj_iff h.nodup).mp (hi.trans hj.symm)
  rw [hid, hsame, Nat.add_sub_cancel' hle]

/-- The entries know the hashes of all that the index holds. -/
theorem storedHash_entries (h : Stores s names) (rest : List NameEntry) (i : Nat) (hash : UInt64)
    (hi : (names.map (BuildHasher.hashOne s.hashBuilder))[i]? = some hash) :
    NameStore.storedHash (s.entries ++ rest) s.firstId (s.firstId + i) = some hash := by
  rw [← hash_layout 0, ← h.entries, List.getElem?_map] at hi
  obtain ⟨entry, hentry, rfl⟩ := Option.map_eq_some_iff.mp hi
  have hlt := (List.getElem?_eq_some_iff.mp hentry).1
  rw [NameStore.storedHash, if_neg (by omega), Nat.add_sub_cancel_left, List.getElem?_append_left hlt, hentry]
  rfl

theorem insert_old (h : Stores s names) {i : Nat} (hi : names[i]? = some name) :
    s.insert name = .ok (s.firstId + i, s) := by
  rw [NameStore.insert, h.get_at hi]

theorem insert_fails (h : Stores s names) (hnew : name ∉ names) {cause : NameError}
    (hcheck : NameStore.checkedId s.firstId names.length (arena names).length (utf8 name).length = .error cause) :
    s.insert name = .error (.error cause) := by
  rw [NameStore.insert, h.get_new hnew, h.entries_length, h.bytes, hcheck]

theorem checkedId_ok {firstId count start len id : Nat}
    (h : NameStore.checkedId firstId count start len = .ok id) : id = firstId + count ∧ id < U32_MAX := by
  rw [NameStore.checkedId] at h
  split_ifs at h
  cases h
  exact ⟨rfl, by omega⟩

theorem insert_new (h : Stores s names) (hnew : name ∉ names) {id : Nat}
    (hcheck : NameStore.checkedId s.firstId names.length (arena names).length (utf8 name).length = .ok id) :
    ∃ t, s.insert name = .ok (id, t) ∧ t.firstId = s.firstId ∧ Stores t (names ++ [name]) := by
  obtain ⟨rfl, hid⟩ := checkedId_ok hcheck
  obtain ⟨index, hinsert, hindex⟩ := h.index.insert (BuildHasher.hashOne s.hashBuilder name)
    (h.storedHash_entries [⟨s.bytes.length, (utf8 name).length, BuildHasher.hashOne s.hashBuilder name⟩])
  rw [List.length_map] at hinsert
  refine ⟨{ s with
    bytes := s.bytes ++ utf8 name
    entries := s.entries ++ [⟨s.bytes.length, (utf8 name).length, BuildHasher.hashOne s.hashBuilder name⟩]
    index }, ?_, rfl, ?_⟩
  · simp only [NameStore.insert, h.get_new hnew, h.entries_length, ← h.bytes] at hcheck ⊢
    rw [hcheck]
    simp only [hinsert]
  · constructor
    · have hlast : arena [name] = utf8 name := List.append_nil _
      rw [arena_append, hlast, ← h.bytes]
    · rw [layout_append, ← h.entries, ← h.bytes, Nat.zero_add]
      rfl
    · rw [List.map_append]
      exact hindex
    · exact List.nodup_append.mpr ⟨h.nodup, List.nodup_singleton name,
        fun x hx y hy he => hnew (List.mem_singleton.mp hy ▸ he ▸ hx)⟩
    · rw [List.length_append, List.length_singleton]
      exact hid

/-! Compaction. -/

theorem compact (h : Stores s names) : ∃ t, s.compact = .ok t ∧ t.firstId = s.firstId ∧ Stores t names := by
  have hloop : ∀ (done rest : List NameEntry) (index : τ), s.entries = done ++ rest →
      Indexes index (done.map (·.hash)) s.firstId →
        ∃ index', (rest.zipIdx done.length).foldlM s.compactStep index = .ok index' ∧
          Indexes index' (s.entries.map (·.hash)) s.firstId := by
    intro done rest
    induction rest generalizing done with
    | nil =>
      intro index hsplit hindex
      rw [List.append_nil] at hsplit
      exact ⟨index, rfl, hsplit ▸ hindex⟩
    | cons entry rest ih =>
      intro index hsplit hindex
      have hknown : ∀ i hash, (done.map (·.hash))[i]? = some hash →
          NameStore.storedHash s.entries s.firstId (s.firstId + i) = some hash := by
        intro i hash hi
        have hlt := (List.getElem?_eq_some_iff.mp hi).1
        rw [NameStore.storedHash, if_neg (by omega), Nat.add_sub_cancel_left, hsplit,
          List.getElem?_append_left (by simpa using hlt), ← List.getElem?_map]
        exact hi
      obtain ⟨index', hinsert, hindex'⟩ := hindex.insert entry.hash hknown
      rw [List.length_map] at hinsert
      obtain ⟨index'', hrest, hindex''⟩ := ih (done ++ [entry]) index' (by rw [hsplit]; simp)
        (by rw [List.map_append]; exact hindex')
      refine ⟨index'', ?_, hindex''⟩
      rw [List.zipIdx_cons, List.foldlM_cons]
      have hstep : s.compactStep index (entry, done.length) = .ok index' := by
        rw [NameStore.compactStep, hinsert]
      rw [hstep]
      rwa [List.length_append, List.length_singleton] at hrest
  obtain ⟨index, hrun, hindex⟩ := hloop [] s.entries empty rfl (indexes_empty _)
  refine ⟨{ s with index }, ?_, rfl, h.bytes, h.entries, ?_, h.nodup, h.fits⟩
  · rw [NameStore.compact]
    rw [List.length_nil] at hrun
    rw [hrun]
    rfl
  · rw [h.entries, hash_layout] at hindex
    exact hindex

/-! Truncation. -/

theorem removals (h : Stores s names) {n : Nat} (hn : n ≤ names.length) :
    ∃ index, (List.range' n (names.length - n)).reverse.foldlM s.removeLocal s.index = .ok index ∧
      Indexes index ((names.take n).map (BuildHasher.hashOne s.hashBuilder)) s.firstId := by
  obtain ⟨count, hcount⟩ := Nat.exists_eq_add_of_le hn
  have hloop : ∀ (count : Nat) (index : τ), n + count ≤ names.length →
      Indexes index ((names.take (n + count)).map (BuildHasher.hashOne s.hashBuilder)) s.firstId →
        ∃ index', (List.range' n count).reverse.foldlM s.removeLocal index = .ok index' ∧
          Indexes index' ((names.take n).map (BuildHasher.hashOne s.hashBuilder)) s.firstId := by
    intro count
    induction count with
    | zero => exact fun index _ hindex => ⟨index, rfl, hindex⟩
    | succ count ih =>
      intro index hle hindex
      have hlt : n + count < names.length := by omega
      have htake : names.take (n + (count + 1)) = names.take (n + count) ++ [names[n + count]] := by
        rw [← Nat.add_assoc, List.take_succ_eq_append_getElem hlt]
      rw [htake, List.map_append] at hindex
      obtain ⟨index', hremove, hindex'⟩ := Indexes.remove hindex
      rw [List.length_map, List.length_take, Nat.min_eq_left (Nat.le_of_lt hlt)] at hremove
      obtain ⟨index'', hrest, hindex''⟩ := ih index' (Nat.le_of_lt hlt) hindex'
      refine ⟨index'', ?_, hindex''⟩
      rw [List.range'_concat, Nat.one_mul, List.reverse_append, List.reverse_singleton, List.singleton_append,
        List.foldlM_cons]
      have hstep : s.removeLocal index (n + count) = .ok index' := by
        rw [NameStore.removeLocal, h.entries, getElem?_layout, List.getElem?_eq_getElem hlt]
        simp only [Option.map_some, hremove]
      rw [hstep]
      exact hrest
  obtain rfl : names.length - n = count := by omega
  exact hloop _ s.index (by omega) (by rw [← hcount, List.take_length]; exact h.index)

theorem byteLen (h : Stores s names) {n : Nat} (hn : n ≤ names.length) :
    s.byteLen n = (arena (names.take n)).length := by
  rw [NameStore.byteLen]
  split_ifs with hzero
  · rw [hzero]
    rfl
  · have hlt : n - 1 < names.length := by omega
    have htake : names.take n = names.take (n - 1) ++ [names[n - 1]] := by
      rw [← List.take_succ_eq_append_getElem hlt, Nat.sub_add_cancel (by omega)]
    rw [h.entries, getElem?_layout, List.getElem?_eq_getElem hlt, htake, arena_append, List.length_append]
    simp only [Option.map_some, Option.getD_some, Nat.zero_add, arena, List.flatMap_cons, List.flatMap_nil,
      List.append_nil]

theorem truncate (h : Stores s names) {n : Nat} (hn : n ≤ names.length) :
    ∃ t, s.truncate n = .ok t ∧ t.firstId = s.firstId ∧ Stores t (names.take n) := by
  rw [NameStore.truncate, h.entries_length]
  split_ifs with hall
  · rw [hall, List.take_length]
    exact ⟨s, rfl, rfl, h⟩
  · obtain ⟨index, hrun, hindex⟩ := h.removals hn
    refine ⟨{ s with index, entries := s.entries.take n, bytes := s.bytes.take (s.byteLen n) }, ?_, rfl, ?_⟩
    · rw [hrun]
      rfl
    · constructor
      · have hsplit : arena names = arena (names.take n) ++ arena (names.drop n) := by
          rw [← arena_append, List.take_append_drop]
        rw [h.byteLen hn, h.bytes, hsplit, List.take_left]
      · rw [h.entries, take_layout]
      · exact hindex
      · exact h.nodup.sublist (List.take_sublist _ _)
      · have hfits := h.fits
        change s.firstId + (names.take n).length ≤ U32_MAX
        rw [List.length_take]
        omega

end Stores

end Opto.Names
