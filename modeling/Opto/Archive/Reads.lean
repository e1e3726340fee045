import Mathlib.Tactic.Common
import Opto.Archive.DataModel

/-!
# Reading a document is reading its value

The deserializer of a document that spells a value, within the depth limit, simulates the value
read by itself.
-/

namespace Opto.Archive

section

variable {nodes : List Node} {id : Nat} {value : Value}

theorem Spells.content (h : Spells nodes id value) : Spells nodes id value.content := by
  induction value using Value.content.induct with
  | case1 value ih => exact ih (by rwa [Spells] at h)
  | case2 value hvalue => rwa [Value.content.eq_2 _ hvalue]

theorem Value.content_height (value : Value) : value.content.height = value.height := by
  induction value using Value.content.induct with
  | case1 value ih => rw [content, ih, height]
  | case2 value hvalue => rw [content.eq_2 _ hvalue]

theorem Value.content_ne (value inner : Value) : value.content ≠ .newtypeStruct inner := by
  induction value using Value.content.induct with
  | case1 value ih => rwa [content]
  | case2 value hvalue => rw [content.eq_2 _ hvalue]; exact hvalue inner

theorem Value.unwrapped_height (value : Value) : value.unwrapped.height = value.height := by
  cases value <;> rfl

theorem Spells.unwrapped (h : Spells nodes id value) : Spells nodes id value.unwrapped := by
  cases value with
  | newtypeStruct value => rwa [Spells] at h
  | _ => exact h

theorem SpellsFields.length {ids : List Nat} {fields : List Value} (h : SpellsFields nodes ids fields) :
    ids.length = fields.length := by
  induction fields generalizing ids with
  | nil =>
    rw [SpellsFields] at h
    rw [h]
    rfl
  | cons value rest ih =>
    rw [SpellsFields] at h
    obtain ⟨id, tail, rfl, -, htail⟩ := h
    rw [List.length_cons, List.length_cons, ih htail]

theorem SpellsEntries.length {ids : List (Nat × Nat)} {entries : List (Value × Value)}
    (h : SpellsEntries nodes ids entries) : ids.length = entries.length := by
  induction entries generalizing ids with
  | nil =>
    rw [SpellsEntries] at h
    rw [h]
    rfl
  | cons entry rest ih =>
    rw [SpellsEntries] at h
    obtain ⟨first, second, tail, rfl, -, -, htail⟩ := h
    rw [List.length_cons, List.length_cons, ih htail]

end

/-- The variant's shape is the variant's of the value. -/
def SpellsShape (nodes : List Node) (variant : UInt32) : VariantShape → Value → Prop
  | .unit, value => value = .unitVariant variant
  | .newtype node, value => ∃ inner, value = .newtypeVariant variant inner ∧ Spells nodes node inner
  | .sequence fields, value => ∃ kind values, value = .sequenceVariant variant kind values ∧
      SpellsFields nodes fields values

/-- An access of the document stands for the reading of a value. -/
inductive Stands (document : Document) : Access → Reading → Prop
  | value {self : ValueDeserializer} {value : Value} : self.document = document →
    Spells document.nodes self.node value → self.depth + value.height ≤ MAX_NESTING_DEPTH →
      Stands document (.value self) (.value value)
  | sequence {access : SequenceAccess} {rest : List Value} : access.value.document = document →
    SpellsFields document.nodes (access.fields.drop access.next) rest → access.next ≤ access.fields.length →
      access.value.depth + fieldsHeight rest ≤ MAX_NESTING_DEPTH → Stands document (.sequence access) (.sequence rest)
  | map {access : MapValueAccess} {rest : List (Value × Value)} {pending : Option Value} :
    access.value.document = document → SpellsEntries document.nodes (access.entries.drop access.next) rest →
      access.next ≤ access.entries.length → access.value.depth + entriesHeight rest ≤ MAX_NESTING_DEPTH →
        Option.Rel (Spells document.nodes) access.pendingValue pending →
          (∀ value, pending = some value → ∃ key tail, rest = (key, value) :: tail) →
            Stands document (.map access) (.map rest pending)
  | enum {access : ArchiveEnumAccess} {value : Value} : access.value.document = document →
    SpellsShape document.nodes access.variant access.shape value →
      access.value.depth + value.height ≤ MAX_NESTING_DEPTH → Stands document (.enum access) (.enum value)
  | variant {access : ArchiveVariantAccess} {value : Value} {variant : UInt32} : access.value.document = document →
    SpellsShape document.nodes variant access.shape value →
      access.value.depth + value.height ≤ MAX_NESTING_DEPTH → Stands document (.variant access) (.variant value)

/-- Both fail alike, or tell the same and open what stands for it. -/
inductive Tells (document : Document) : Visited → Told → Prop
  | error (e : ArchiveError) : Tells document (.error e) (.error e)
  | ok {called : Visit} {opened : Option Access} {opened' : Option Reading} :
    Option.Rel (Stands document) opened opened' → Tells document (.ok (called, opened)) (.ok (called, opened'))

namespace Tells

variable {document : Document} {visited : Visited} {told : Told} {object : Access} {object' : Reading}

theorem visit (called : Visit) : Tells document (.ok (called, none)) (.ok (called, none)) := .ok .none

theorem shown_eq {called : Visit} {shown : Visit × Option Reading}
    (h : Tells document (.ok (called, none)) (.ok shown)) : shown = (called, none) := by
  cases h with
  | ok hopened =>
    cases hopened
    rfl

theorem reaction (h : Tells document visited told) (hobject : Stands document object object') :
    (Visited.reaction visited object).answer = (Visited.reaction told object').answer ∧
      Stands document (Visited.reaction visited object).object (Visited.reaction told object').object ∧
        Option.Rel (Stands document) (Visited.reaction visited object).opened (Visited.reaction told object').opened := by
  cases h with
  | error e => exact ⟨rfl, hobject, .none⟩
  | ok hopened => exact ⟨rfl, hobject, hopened⟩

end Tells

section

variable {document : Document} {self : ValueDeserializer} {value : Value} {node : Nat} {fields : List Nat}
  {values : List Value}

theorem stored_of_getElem? {stored : Node} (hself : self.document = document)
    (h : document.nodes[self.node]? = some stored) : self.stored = .ok stored := by
  rw [ValueDeserializer.stored, hself, h]
  rfl

theorem child_ok (hdepth : self.depth + 1 ≤ MAX_NESTING_DEPTH) (node : Nat) :
    self.child node = .ok { self with node, depth := self.depth + 1 } := if_pos hdepth

/-- A child's deserializer stands for the child. -/
theorem child_stands (hself : self.document = document) (hspells : Spells document.nodes node value)
    (hdepth : self.depth + (value.height + 1) ≤ MAX_NESTING_DEPTH) :
    ∃ child, self.child node = .ok child ∧ Stands document (.value child) (.value value) := by
  refine ⟨_, child_ok (by omega) node, .value hself hspells ?_⟩
  dsimp only
  omega

theorem seed_tells (hself : self.document = document) (hspells : Spells document.nodes node value)
    (hdepth : self.depth + (value.height + 1) ≤ MAX_NESTING_DEPTH) :
    Tells document (seed self node) (.ok (.nested, some (.value value))) := by
  obtain ⟨child, hchild, hstands⟩ := child_stands hself hspells hdepth
  rw [seed, hchild]
  exact .ok (.some hstands)

theorem visitSome_tells (hself : self.document = document) (hspells : Spells document.nodes node value)
    (hdepth : self.depth + (value.height + 1) ≤ MAX_NESTING_DEPTH) :
    Tells document (self.visitSome node) (.ok (.some, some (.value value))) := by
  obtain ⟨child, hchild, hstands⟩ := child_stands hself hspells hdepth
  rw [ValueDeserializer.visitSome, hchild]
  exact .ok (.some hstands)

theorem visitSeq_tells (hself : self.document = document) (hspells : SpellsFields document.nodes fields values)
    (hdepth : self.depth + fieldsHeight values ≤ MAX_NESTING_DEPTH) :
    Tells document (self.visitSeq fields) (.ok (.seq, some (.sequence values))) :=
  .ok (.some (.sequence hself hspells (Nat.zero_le _) hdepth))

theorem visitMap_tells {entries : List (Nat × Nat)} {values : List (Value × Value)} (hself : self.document = document)
    (hspells : SpellsEntries document.nodes entries values)
    (hdepth : self.depth + entriesHeight values ≤ MAX_NESTING_DEPTH) :
    Tells document (self.visitMap entries) (.ok (.map, some (.map values none))) :=
  .ok (.some (.map hself hspells (Nat.zero_le _) hdepth .none fun _ h => by cases h))

theorem visitEnum_tells {variant : UInt32} {shape : VariantShape} (hself : self.document = document)
    (hspells : SpellsShape document.nodes variant shape value)
    (hdepth : self.depth + value.height ≤ MAX_NESTING_DEPTH) :
    Tells document (self.visitEnum variant shape) (.ok (.enum, some (.enum value))) :=
  .ok (.some (.enum hself hspells hdepth))

/-- The answer to a request other than those that every value takes. -/
def Value.replied (value : Value) (request : Request) : Told :=
  if value.accepts request then .ok (request.owned value.shown.1, value.shown.2) else typeMismatch request.wanted

theorem Value.answer_eq (value : Value) {request : Request} (hnewtype : request ≠ .newtypeStruct)
    (hignored : request ≠ .ignoredAny) : value.answer request = value.content.replied request := by
  cases request <;> first | rfl | contradiction

/-- The requests for the kind of the node. -/
def Node.accepts : Node → Request → Bool
  | _, .any | _, .identifier => true
  | bool _, .bool => true
  | number value, .number kind => value.kind = kind
  | string _, .str | string _, .string => true
  | bytes _, .bytes | bytes _, .byteBuf => true
  | none, .option | some _, .option => true
  | unit, .unit | unit, .unitStruct => true
  | sequence _, .seq | sequence _, .tuple _ | sequence _, .tupleStruct _ | sequence _, .struct _ => true
  | map _, .map => true
  | unitVariant _, .enum _ | newtypeVariant _ _, .enum _ | sequenceVariant _ _, .enum _ => true
  | _, _ => false

open ValueDeserializer in
/-- A node shows itself to the requests that it accepts. -/
theorem replied_tells {stored : Node} (request : Request) (hnewtype : request ≠ .newtypeStruct)
    (hignored : request ≠ .ignoredAny) (hstored : self.stored = .ok stored)
    (haccepts : value.accepts request = stored.accepts request)
    (hshown : Tells document self.deserializeAny (.ok value.shown)) :
    Tells document (self.deserialize request) (value.replied request) := by
  rw [Value.replied, haccepts]
  have hany := hshown
  simp only [deserializeAny, deserializeEnum, hstored] at hshown
  cases request
  case newtypeStruct => exact absurd rfl hnewtype
  case ignoredAny => exact absurd rfl hignored
  case any => cases stored <;> exact hany
  case identifier => cases stored <;> exact hany
  all_goals
    cases stored
    all_goals
      simp only [deserialize, deserializeBool, deserializeNumber, deserializeStr, deserializeString, deserializeText,
        deserializeBytes, deserializeByteBuf, deserializeBinary, deserializeOption, deserializeUnit,
        deserializeUnitStruct, deserializeSeq, deserializeTuple, deserializeTupleStruct, deserializeMap,
        deserializeStruct, deserializeEnum, hstored]
      first
      | exact .error _
      | exact hshown
      | skip
  case number.number kind number =>
    change Tells document (if number.kind = kind then visit (.number number) else typeMismatch kind.method)
      (if decide (number.kind = kind) = true then .ok value.shown else typeMismatch kind.method)
    by_cases hkind : number.kind = kind
    · rw [if_pos hkind, if_pos (decide_eq_true hkind)]
      exact hshown
    · rw [if_neg hkind, if_neg (by simpa using hkind)]
      exact .error _
  case string.string text =>
    rw [hshown.shown_eq]
    exact .visit _
  case byteBuf.bytes data =>
    rw [hshown.shown_eq]
    exact .visit _

/-- At the node of a value, a deserializer tells what the value answers. -/
theorem deserialize_tells (request : Request) (hself : self.document = document)
    (hspells : Spells document.nodes self.node value) (hdepth : self.depth + value.height ≤ MAX_NESTING_DEPTH) :
    Tells document (self.deserialize request) (value.answer request) := by
  by_cases hnewtype : request = .newtypeStruct
  · subst hnewtype
    exact .ok (.some (.value hself hspells.unwrapped (value.unwrapped_height ▸ hdepth)))
  by_cases hignored : request = .ignoredAny
  · subst hignored
    exact .visit _
  rw [value.answer_eq hnewtype hignored]
  have hspells := hspells.content
  have hne := value.content_ne
  rw [← value.content_height] at hdepth
  generalize value.content = content at hspells hne hdepth
  have htells : ∀ stored : Node, document.nodes[self.node]? = some stored →
      content.accepts request = stored.accepts request →
        Tells document self.deserializeAny (.ok content.shown) →
          Tells document (self.deserialize request) (content.replied request) := fun stored hstored haccepts hshown =>
    replied_tells request hnewtype hignored (stored_of_getElem? hself hstored) haccepts hshown
  have hany : ∀ stored : Node, document.nodes[self.node]? = some stored → self.stored = .ok stored :=
    fun stored hstored => stored_of_getElem? hself hstored
  cases content with
  | newtypeStruct inner => exact absurd rfl (hne inner)
  | some inner =>
    rw [Spells] at hspells
    obtain ⟨child, hstored, hchild⟩ := hspells
    apply htells _ hstored (by cases request <;> rfl)
    rw [ValueDeserializer.deserializeAny, hany _ hstored]
    exact visitSome_tells hself hchild hdepth
  | sequence kind fields =>
    rw [Spells] at hspells
    obtain ⟨ids, hstored, hfields⟩ := hspells
    apply htells _ hstored (by cases request <;> rfl)
    rw [ValueDeserializer.deserializeAny, hany _ hstored]
    exact visitSeq_tells hself hfields hdepth
  | map len entries =>
    rw [Spells] at hspells
    obtain ⟨ids, hstored, hentries⟩ := hspells
    apply htells _ hstored (by cases request <;> rfl)
    rw [ValueDeserializer.deserializeAny, hany _ hstored]
    exact visitMap_tells hself hentries hdepth
  | unitVariant variant =>
    rw [Spells] at hspells
    apply htells _ hspells (by cases request <;> rfl)
    rw [ValueDeserializer.deserializeAny, ValueDeserializer.deserializeEnum, hany _ hspells]
    exact visitEnum_tells hself rfl hdepth
  | newtypeVariant variant inner =>
    rw [Spells] at hspells
    obtain ⟨child, hstored, hchild⟩ := hspells
    apply htells _ hstored (by cases request <;> rfl)
    rw [ValueDeserializer.deserializeAny, ValueDeserializer.deserializeEnum, hany _ hstored]
    exact visitEnum_tells hself ⟨inner, rfl, hchild⟩ hdepth
  | sequenceVariant variant kind fields =>
    rw [Spells] at hspells
    obtain ⟨ids, hstored, hfields⟩ := hspells
    apply htells _ hstored (by cases request <;> rfl)
    rw [ValueDeserializer.deserializeAny, ValueDeserializer.deserializeEnum, hany _ hstored]
    exact visitEnum_tells hself ⟨kind, fields, rfl, hfields⟩ hdepth
  | _ =>
    rw [Spells] at hspells
    apply htells _ hspells (by cases request <;> rfl)
    rw [ValueDeserializer.deserializeAny, hany _ hspells]
    exact .visit _

/-! The accesses. -/

variable {access : SequenceAccess} {rest : List Value}

theorem nextElement_tells (h : Stands document (.sequence access) (.sequence rest)) :
    Tells document access.nextElement.1 (nextOf rest).1 ∧
      Stands document (.sequence access.nextElement.2) (nextOf rest).2 := by
  cases h with
  | sequence hself hspells hnext hdepth =>
    cases rest with
    | nil =>
      have hend := hspells
      rw [SpellsFields, List.drop_eq_nil_iff] at hend
      rw [SequenceAccess.nextElement, List.getElem?_eq_none hend]
      exact ⟨.visit _, .sequence hself hspells hnext hdepth⟩
    | cons value rest =>
      rw [SpellsFields] at hspells
      obtain ⟨id, tail, hdrop, hvalue, htail⟩ := hspells
      have hid : access.fields[access.next]? = some id := by
        rw [← List.head?_drop, hdrop, List.head?_cons]
      have htail' : access.fields.drop (access.next + 1) = tail := by rw [← List.tail_drop, hdrop, List.tail_cons]
      rw [fieldsHeight] at hdepth
      rw [SequenceAccess.nextElement, hid]
      refine ⟨seed_tells hself hvalue (by omega), .sequence hself (htail' ▸ htail) ?_ ?_⟩
      · exact (List.getElem?_eq_some_iff.mp hid).1
      · dsimp only
        omega

variable {entries : MapValueAccess} {pairs : List (Value × Value)} {pending : Option Value}

theorem nextKey_tells (h : Stands document (.map entries) (.map pairs pending)) :
    Tells document entries.nextKey.1 (keyOf pairs pending).1 ∧
      Stands document (.map entries.nextKey.2) (keyOf pairs pending).2 := by
  cases h with
  | map hself hspells hnext hdepth hpending hrest =>
    rw [MapValueAccess.nextKey, keyOf.eq_def]
    have hstands := Stands.map hself hspells hnext hdepth hpending hrest
    rcases hfirst : entries.pendingValue with _ | id <;> rw [hfirst] at hpending <;> cases hpending
    · cases pairs with
      | nil =>
        have hend := hspells
        rw [SpellsEntries, List.drop_eq_nil_iff] at hend
        rw [List.getElem?_eq_none hend]
        exact ⟨.visit _, hstands⟩
      | cons pair pairs =>
        obtain ⟨key, value⟩ := pair
        have hentries := hspells
        rw [SpellsEntries] at hentries
        obtain ⟨first, second, tail, hdrop, hkey, hvalue, htail⟩ := hentries
        have hentry : entries.entries[entries.next]? = some (first, second) := by
          rw [← List.head?_drop, hdrop, List.head?_cons]
        have hbound := hdepth
        rw [entriesHeight] at hbound
        rw [hentry]
        refine ⟨seed_tells hself hkey (by omega), .map hself hspells hnext hdepth (.some hvalue) fun v hv => ?_⟩
        obtain rfl := Option.some.inj hv
        exact ⟨key, pairs, rfl⟩
    · exact ⟨.error _, hstands⟩

theorem nextValue_tells (h : Stands document (.map entries) (.map pairs pending)) :
    Tells document entries.nextValue.1 (valueOf pairs pending).1 ∧
      Stands document (.map entries.nextValue.2) (valueOf pairs pending).2 := by
  cases h with
  | map hself hspells hnext hdepth hpending hrest =>
    have hstands := Stands.map hself hspells hnext hdepth hpending hrest
    rw [MapValueAccess.nextValue]
    rcases hfirst : entries.pendingValue with _ | id <;> rw [hfirst] at hpending <;> cases hpending
    · exact ⟨.error _, hstands⟩
    · rename_i value hvalue
      obtain ⟨key, tail, rfl⟩ := hrest value rfl
      rw [SpellsEntries] at hspells
      obtain ⟨first, second, ids, hdrop, -, -, htail⟩ := hspells
      have htail' : entries.entries.drop (entries.next + 1) = ids := by rw [← List.tail_drop, hdrop, List.tail_cons]
      have hlength : entries.next < entries.entries.length := by
        have hdropped := congrArg List.length hdrop
        rw [List.length_drop, List.length_cons] at hdropped
        omega
      rw [entriesHeight] at hdepth
      refine ⟨seed_tells hself hvalue (by omega), .map hself (htail' ▸ htail) hlength ?_ .none fun _ h => by cases h⟩
      dsimp only [List.tail_cons]
      omega

theorem variant_tells {access : ArchiveEnumAccess} (h : Stands document (.enum access) (.enum value)) :
    Tells document access.variantSeed (.ok (.variant value.variantIndex, some (.variant value))) := by
  cases h with
  | enum hself hspells hdepth =>
    have hindex : value.variantIndex = access.variant := by
      cases hshape : access.shape <;> rw [hshape, SpellsShape] at hspells
      · rw [hspells]
        rfl
      · obtain ⟨inner, rfl, -⟩ := hspells
        rfl
      · obtain ⟨kind, values, rfl, -⟩ := hspells
        rfl
    rw [hindex]
    exact .ok (.some (.variant hself hspells hdepth))

/-- An access to a variant tells what shape the variant has. -/
theorem shape_tells {access : ArchiveVariantAccess} (h : Stands document (.variant access) (.variant value)) :
    Tells document access.unitVariant value.asUnitVariant ∧ Tells document access.newtypeVariant value.asNewtypeVariant ∧
      (∀ len, Tells document (access.tupleVariant len) (value.asSequenceVariant "tuple")) ∧
        ∀ fields, Tells document (access.structVariant fields) (value.asSequenceVariant "struct") := by
  cases h with
  | variant hself hspells hdepth =>
    rw [ArchiveVariantAccess.unitVariant, ArchiveVariantAccess.newtypeVariant]
    simp only [ArchiveVariantAccess.tupleVariant, ArchiveVariantAccess.structVariant]
    cases hshape : access.shape <;> rw [hshape, SpellsShape] at hspells
    · rw [hspells]
      exact ⟨.visit _, .error _, fun _ => .error _, fun _ => .error _⟩
    · obtain ⟨inner, rfl, hinner⟩ := hspells
      exact ⟨.error _, seed_tells hself hinner hdepth, fun _ => .error _, fun _ => .error _⟩
    · obtain ⟨kind, values, rfl, hvalues⟩ := hspells
      exact ⟨.error _, .error _, fun _ => visitSeq_tells hself hvalues hdepth,
        fun _ => visitSeq_tells hself hvalues hdepth⟩

theorem sizeHint_tells (h : Stands document (.sequence access) (.sequence rest)) :
    Tells document access.sizeHint (.ok (.sizeHint rest.length, none)) := by
  cases h with
  | sequence hself hspells hnext hdepth =>
    have hlength := hspells.length
    rw [List.length_drop] at hlength
    rw [← hlength]
    exact .visit _

theorem mapSizeHint_tells (h : Stands document (.map entries) (.map pairs pending)) :
    Tells document entries.sizeHint (.ok (.sizeHint pairs.length, none)) := by
  cases h with
  | map hself hspells hnext hdepth hpending hrest =>
    have hlength := hspells.length
    rw [List.length_drop] at hlength
    rw [← hlength]
    exact .visit _

end

/-- The accesses of a document simulate the readings of its value. -/
theorem react_simulates (document : Document) : Simulates (Stands document) Access.react Reading.react := by
  intro object object' operation h
  have hobject := h
  cases operation with
  | deserialize request =>
    cases h with
    | value hself hspells hdepth => exact (deserialize_tells request hself hspells hdepth).reaction hobject
    | _ => exact ⟨rfl, hobject, .none⟩
  | nextElement =>
    cases h with
    | sequence =>
      obtain ⟨htells, hstands⟩ := nextElement_tells hobject
      exact htells.reaction hstands
    | _ => exact ⟨rfl, hobject, .none⟩
  | nextKey =>
    cases h with
    | map =>
      obtain ⟨htells, hstands⟩ := nextKey_tells hobject
      exact htells.reaction hstands
    | _ => exact ⟨rfl, hobject, .none⟩
  | nextValue =>
    cases h with
    | map =>
      obtain ⟨htells, hstands⟩ := nextValue_tells hobject
      exact htells.reaction hstands
    | _ => exact ⟨rfl, hobject, .none⟩
  | sizeHint =>
    cases h with
    | sequence => exact (sizeHint_tells hobject).reaction hobject
    | map => exact (mapSizeHint_tells hobject).reaction hobject
    | _ => exact ⟨rfl, hobject, .none⟩
  | variant =>
    cases h with
    | enum => exact (variant_tells hobject).reaction hobject
    | _ => exact ⟨rfl, hobject, .none⟩
  | unitVariant =>
    cases h with
    | variant => exact (shape_tells hobject).1.reaction hobject
    | _ => exact ⟨rfl, hobject, .none⟩
  | newtypeVariant =>
    cases h with
    | variant => exact (shape_tells hobject).2.1.reaction hobject
    | _ => exact ⟨rfl, hobject, .none⟩
  | tupleVariant len =>
    cases h with
    | variant => exact ((shape_tells hobject).2.2.1 len).reaction hobject
    | _ => exact ⟨rfl, hobject, .none⟩
  | structVariant fields =>
    cases h with
    | variant => exact ((shape_tells hobject).2.2.2 fields).reaction hobject
    | _ => exact ⟨rfl, hobject, .none⟩

end Opto.Archive
