import Mathlib.Algebra.GroupWithZero.Nat
import Mathlib.Data.List.Nodup

/-!
# Interned names

A name table is a frozen list of names and a mutable one after it; no name is in
it twice. Interning appends to the mutable list, so truncating that list takes
back whatever was interned since a checkpoint.
-/

namespace Opto.Mapped

def U32_MAX : Nat := 2 ^ 32 - 1
def U64_MAX : Nat := 2 ^ 64 - 1

abbrev NameId := Nat

structure NameError where
  message : String
deriving DecidableEq

def NameError.capacity (kind : String) : NameError := ⟨s!"name table exceeds {kind} capacity"⟩

structure NameTable where
  frozen : List String
  delta : List String
  nodup : (frozen ++ delta).Nodup
deriving DecidableEq

structure NameCheckpoint where
  frozenEntries : Nat
  deltaEntries : Nat
deriving DecidableEq

namespace NameTable

def entries (t : NameTable) : List String := t.frozen ++ t.delta

def storedBytes (names : List String) : Nat := (names.map String.utf8ByteSize).sum

def get (t : NameTable) (name : String) : Option NameId :=
  if t.delta.isEmpty then t.frozen.idxOf? name
  else ((t.delta.idxOf? name).map (t.frozen.length + ·)).or (t.frozen.idxOf? name)

def resolve (t : NameTable) (id : NameId) : Option String :=
  t.frozen[id]?.or (if id < t.frozen.length then none else t.delta[id - t.frozen.length]?)

theorem resolve_eq (t : NameTable) (id : NameId) : t.resolve id = t.entries[id]? := by
  rw [resolve, entries]
  rcases Nat.lt_or_ge id t.frozen.length with h | h
  · rw [List.getElem?_append_left h, if_pos h, Option.or_none]
  · rw [List.getElem?_append_right h, if_neg (Nat.not_lt.mpr h), List.getElem?_eq_none h]
    rfl

theorem get_eq_some {t : NameTable} {name : String} {id : NameId} (h : t.get name = some id) :
    t.resolve id = some name := by
  have at_idxOf {names : List String} {i : Nat} (hi : names.idxOf? name = some i) :
      names[i]? = some name := by
    obtain ⟨hlt, hsome, -⟩ := List.idxOf?_eq_some_iff.mp hi
    rw [List.getElem?_eq_getElem hlt, hsome]
  rw [resolve_eq, entries]
  rw [get] at h
  split_ifs at h with hempty
  · have hi := at_idxOf h
    rw [List.getElem?_append_left (List.getElem?_eq_some_iff.mp hi).1]
    exact hi
  · cases hd : t.delta.idxOf? name with
    | some i =>
      rw [hd] at h
      cases h
      rw [List.getElem?_append_right (Nat.le_add_right _ _), Nat.add_sub_cancel_left]
      exact at_idxOf hd
    | none =>
      rw [hd] at h
      have hi := at_idxOf (h : t.frozen.idxOf? name = some id)
      rw [List.getElem?_append_left (List.getElem?_eq_some_iff.mp hi).1]
      exact hi

theorem get_eq_none {t : NameTable} {name : String} (h : t.get name = none) : name ∉ t.entries := by
  rw [get] at h
  rw [entries, List.mem_append, not_or]
  split_ifs at h with hempty
  · exact ⟨List.idxOf?_eq_none_iff.mp h, by rw [List.isEmpty_iff.mp hempty]; exact List.not_mem_nil⟩
  · rw [Option.or_eq_none_iff, Option.map_eq_none_iff] at h
    exact ⟨List.idxOf?_eq_none_iff.mp h.2, List.idxOf?_eq_none_iff.mp h.1⟩

theorem resolve_injective {t : NameTable} {i j : NameId} {name : String} (hi : t.resolve i = some name)
    (hj : t.resolve j = some name) : i = j := by
  rw [resolve_eq] at hi hj
  obtain ⟨hi, hin⟩ := List.getElem?_eq_some_iff.mp hi
  obtain ⟨hj, hjn⟩ := List.getElem?_eq_some_iff.mp hj
  exact (List.Nodup.getElem_inj_iff t.nodup).mp (hin.trans hjn.symm)

/-- The capacity checks of an insertion, in the order they are made. -/
def insertId (t : NameTable) (name : String) : Except NameError NameId :=
  let id := t.frozen.length + t.delta.length
  let start := storedBytes t.delta
  if U32_MAX < t.delta.length then .error (.capacity "name ID")
  else if U32_MAX ≤ id then .error (.capacity "name ID")
  else if U32_MAX < start then .error (.capacity "UTF-8 byte arena")
  else if U32_MAX < name.utf8ByteSize then .error (.capacity "individual name length")
  else if U32_MAX < start + name.utf8ByteSize then .error (.capacity "UTF-8 byte arena")
  else .ok id

def intern (t : NameTable) (name : String) : Except NameError (NameId × NameTable) :=
  match h : t.get name with
  | some id => .ok (id, t)
  | none => do
    let id ← t.insertId name
    .ok (id, ⟨t.frozen, t.delta ++ [name], by
      have hnew := get_eq_none h
      rw [← List.append_assoc]
      exact List.nodup_append.mpr ⟨t.nodup, List.nodup_singleton name,
        fun x hx y hy he => hnew (List.mem_singleton.mp hy ▸ he ▸ hx)⟩⟩)

def checkpoint (t : NameTable) : NameCheckpoint := ⟨t.frozen.length, t.delta.length⟩

def rollback (t : NameTable) (c : NameCheckpoint) : Except NameError NameTable :=
  if t.frozen.length ≠ c.frozenEntries ∨ t.delta.length < c.deltaEntries then
    .error ⟨"name checkpoint does not belong to the current mutable revision"⟩
  else .ok ⟨t.frozen, t.delta.take c.deltaEntries,
    t.nodup.sublist ((List.take_sublist _ _).append_left t.frozen)⟩

/-- What interning any number of names makes of a table. -/
structure Extends (t u : NameTable) : Prop where
  frozen : u.frozen = t.frozen
  delta : t.delta <+: u.delta

namespace Extends

variable {t u v : NameTable}

theorem refl (t : NameTable) : Extends t t := ⟨rfl, List.prefix_rfl⟩

theorem trans (h : Extends t u) (h' : Extends u v) : Extends t v :=
  ⟨h'.frozen.trans h.frozen, h.delta.trans h'.delta⟩

theorem resolve (h : Extends t u) {id : NameId} {name : String} (hid : t.resolve id = some name) :
    u.resolve id = some name := by
  rw [resolve_eq] at hid ⊢
  have hprefix : t.entries <+: u.entries := by
    rw [entries, entries, h.frozen]
    exact List.prefix_append_right_inj _ |>.mpr h.delta
  obtain ⟨rest, hrest⟩ := hprefix
  rw [← hrest, List.getElem?_append_left (List.getElem?_eq_some_iff.mp hid).1]
  exact hid

theorem rollback (h : Extends t u) : u.rollback t.checkpoint = .ok t := by
  have hle : ¬(u.frozen.length ≠ t.frozen.length ∨ u.delta.length < t.delta.length) := by
    rw [h.frozen]
    have := h.delta.length_le
    omega
  rw [NameTable.rollback, checkpoint, if_neg hle]
  obtain ⟨frozen, delta, nodup⟩ := t
  obtain rfl : u.frozen = frozen := h.frozen
  have htake : u.delta.take delta.length = delta := List.prefix_iff_eq_take.mp h.delta |>.symm
  simp only [htake]

end Extends

theorem intern_ok {t u : NameTable} {name : String} {id : NameId}
    (h : t.intern name = .ok (id, u)) : Extends t u ∧ u.resolve id = some name := by
  rw [intern] at h
  split at h
  · cases h
    exact ⟨Extends.refl t, get_eq_some ‹_›⟩
  · cases hid : t.insertId name with
    | error e => rw [hid] at h; cases h
    | ok i =>
      rw [hid] at h
      cases h
      refine ⟨⟨rfl, List.prefix_append _ _⟩, ?_⟩
      have hi : id = (t.frozen ++ t.delta).length := by
        rw [insertId] at hid
        split_ifs at hid
        cases hid
        exact List.length_append.symm
      rw [resolve_eq, entries, ← List.append_assoc, hi, List.getElem?_concat_length]

end NameTable

/-- The Unicode white space characters. -/
def isWhiteSpace (c : Char) : Bool :=
  let n := c.toNat
  (0x9 ≤ n && n ≤ 0xD) || n == 0x20 || n == 0x85 || n == 0xA0 || n == 0x1680 ||
    (0x2000 ≤ n && n ≤ 0x200A) || n == 0x2028 || n == 0x2029 || n == 0x202F || n == 0x205F ||
    n == 0x3000

/-- Whether nothing is left of a name once it is trimmed. -/
def isBlank (name : String) : Bool := name.toList.all isWhiteSpace

end Opto.Mapped
