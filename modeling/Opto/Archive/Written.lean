import Opto.Library.Lists
import Opto.Archive.Reads
import Opto.Archive.Tree

/-!
# Documents spell values

The serializer appends nodes that spell its value, and every validated document spells some value
within the depth limit.
-/

namespace Opto.Archive

/-- What holds of a value when it holds of what the value contains. -/
theorem Value.induction {P : Value → Prop} (bool : ∀ b, P (.bool b)) (number : ∀ n, P (.number n))
    (string : ∀ s, P (.string s)) (bytes : ∀ b, P (.bytes b)) (none : P .none) (some : ∀ v, P v → P (.some v))
    (unit : P .unit) (unitStruct : P .unitStruct) (unitVariant : ∀ i, P (.unitVariant i))
    (newtypeStruct : ∀ v, P v → P (.newtypeStruct v)) (newtypeVariant : ∀ i v, P v → P (.newtypeVariant i v))
    (sequence : ∀ kind fields, (∀ v ∈ fields, P v) → P (.sequence kind fields))
    (sequenceVariant : ∀ i kind fields, (∀ v ∈ fields, P v) → P (.sequenceVariant i kind fields))
    (map : ∀ len entries, (∀ e ∈ entries, P e.1 ∧ P e.2) → P (.map len entries)) (v : Value) : P v :=
  @Value.rec P (fun fields => ∀ v ∈ fields, P v) (fun entries => ∀ e ∈ entries, P e.1 ∧ P e.2)
    (fun e => P e.1 ∧ P e.2) bool number string bytes none some unit unitStruct unitVariant newtypeStruct newtypeVariant
    sequence sequenceVariant map (List.forall_mem_nil _) (fun _ _ head tail => List.forall_mem_cons.mpr ⟨head, tail⟩)
    (List.forall_mem_nil _) (fun _ _ head tail => List.forall_mem_cons.mpr ⟨head, tail⟩) (fun _ _ => And.intro) v

section

variable {nodes : List Node} {id : Nat} {value : Value} {ids : List Nat} {values : List Value}
  {pairs : List (Nat × Nat)} {entries : List (Value × Value)}

theorem spellsFields_iff : SpellsFields nodes ids values ↔ List.Forall₂ (Spells nodes) ids values := by
  induction values generalizing ids with
  | nil => rw [SpellsFields, List.forall₂_nil_right_iff]
  | cons value values ih =>
    rw [SpellsFields, List.forall₂_cons_right_iff]
    constructor
    · rintro ⟨id, tail, rfl, hvalue, htail⟩
      exact ⟨id, tail, hvalue, ih.mp htail, rfl⟩
    · rintro ⟨id, tail, hvalue, htail, rfl⟩
      exact ⟨id, tail, rfl, hvalue, ih.mpr htail⟩

theorem spellsEntries_iff : SpellsEntries nodes pairs entries ↔
    List.Forall₂ (fun p e => Spells nodes p.1 e.1 ∧ Spells nodes p.2 e.2) pairs entries := by
  induction entries generalizing pairs with
  | nil => rw [SpellsEntries, List.forall₂_nil_right_iff]
  | cons entry entries ih =>
    rw [SpellsEntries, List.forall₂_cons_right_iff]
    constructor
    · rintro ⟨first, second, tail, rfl, hkey, hvalue, htail⟩
      exact ⟨(first, second), tail, ⟨hkey, hvalue⟩, ih.mp htail, rfl⟩
    · rintro ⟨⟨first, second⟩, tail, ⟨hkey, hvalue⟩, htail, rfl⟩
      exact ⟨first, second, tail, rfl, hkey, hvalue, ih.mpr htail⟩

theorem getElem?_of_prefix {α : Type} {xs ys : List α} {i : Nat} {x : α} (h : xs <+: ys) (hx : xs[i]? = some x) :
    ys[i]? = some x := by
  obtain ⟨zs, rfl⟩ := h
  rw [List.getElem?_append_left (List.getElem?_eq_some_iff.mp hx).1, hx]

/-- More nodes spell the same. -/
theorem Spells.mono {more : List Node} (hmore : nodes <+: more) (h : Spells nodes id value) : Spells more id value := by
  induction value using Value.induction generalizing id with
  | some value ih | newtypeVariant i value ih =>
    rw [Spells] at h ⊢
    obtain ⟨child, hnode, hchild⟩ := h
    exact ⟨child, getElem?_of_prefix hmore hnode, ih hchild⟩
  | newtypeStruct value ih =>
    rw [Spells] at h ⊢
    exact ih h
  | sequence kind fields ih | sequenceVariant i kind fields ih =>
    rw [Spells] at h ⊢
    obtain ⟨ids, hnode, hfields⟩ := h
    refine ⟨ids, getElem?_of_prefix hmore hnode, spellsFields_iff.mpr ?_⟩
    exact forall₂_mono_mem (spellsFields_iff.mp hfields) fun id v hv h => ih v hv h
  | map len entries ih =>
    rw [Spells] at h ⊢
    obtain ⟨ids, hnode, hentries⟩ := h
    refine ⟨ids, getElem?_of_prefix hmore hnode, spellsEntries_iff.mpr ?_⟩
    exact forall₂_mono_mem (spellsEntries_iff.mp hentries) fun p e he h => ⟨(ih e he).1 h.1, (ih e he).2 h.2⟩
  | _ =>
    rw [Spells] at h ⊢
    exact getElem?_of_prefix hmore h

end

/-! Serialization. -/

section

variable {reserve : Nat → Bool} {s : List Node}

/-- What a serialization step gives, whenever it succeeds. -/
abbrev Gives {α : Type} (s : List Node) (m : DocumentSerializer α) (Q : α → List Node → Prop) : Prop :=
  Outcome s m Q fun _ _ => True

theorem Gives.bind {α β : Type} {m : DocumentSerializer α} {k : α → DocumentSerializer β} {Q : α → List Node → Prop}
    {R : β → List Node → Prop} (h : Gives s m Q) (hk : ∀ a t, Q a t → Gives t (k a) R) : Gives s (m >>= k) R :=
  Outcome.bind h hk fun _ _ _ => trivial

theorem reserveFor_gives (count : Nat) (what : String) :
    Gives s (reserveFor reserve count what) fun _ t => t = s := by
  rw [reserveFor]
  split_ifs
  · rfl
  · trivial

theorem push_gives (node : Node) : Gives s (push reserve node) fun id t => s <+: t ∧ t[id]? = some node := by
  have hget : Gives s (get : DocumentSerializer (List Node)) fun nodes t => nodes = s ∧ t = s := ⟨rfl, rfl⟩
  refine hget.bind ?_
  rintro nodes t ⟨rfl, rfl⟩
  refine (reserveFor_gives _ _).bind ?_
  rintro _ t rfl
  exact ⟨List.prefix_append _ _, by rw [List.getElem?_append_right (Nat.le_refl _), Nat.sub_self]; rfl⟩

/-- A node is pushed over what was written before it. -/
theorem push_over {t : List Node} {node : Node} {Q : Nat → List Node → Prop} (hmore : s <+: t)
    (hQ : ∀ id u, s <+: u → t <+: u → u[id]? = some node → Q id u) : Gives t (push reserve node) Q := by
  apply Outcome.mono (push_gives node) _ fun _ _ h => h
  exact fun id u ⟨hu, hnode⟩ => hQ id u (hmore.trans hu) hu hnode

theorem serializeFields_gives {fields : List Value}
    (hfields : ∀ v ∈ fields, ∀ s, Gives s (serialize reserve v) fun id t => s <+: t ∧ Spells t id v) (acc : List Nat) :
    Gives s (serializeFields reserve fields acc) fun ids t =>
      s <+: t ∧ ∃ added, ids = acc ++ added ∧ SpellsFields t added fields := by
  induction fields generalizing s acc with
  | nil =>
    rw [serializeFields]
    exact ⟨List.prefix_rfl, [], (List.append_nil _).symm, by rw [SpellsFields]⟩
  | cons value rest ih =>
    obtain ⟨hvalue, hrest⟩ := List.forall_mem_cons.mp hfields
    rw [serializeFields]
    refine (hvalue s).bind ?_
    rintro id t ⟨ht, hspells⟩
    apply Outcome.mono (ih hrest (acc ++ [id])) _ fun _ _ h => h
    rintro ids u ⟨hu, added, rfl, hadded⟩
    refine ⟨ht.trans hu, id :: added, by rw [List.append_assoc]; rfl, ?_⟩
    rw [SpellsFields]
    exact ⟨id, added, rfl, hspells.mono hu, hadded⟩

theorem serializeEntries_gives {entries : List (Value × Value)}
    (hentries : ∀ e ∈ entries, (∀ s, Gives s (serialize reserve e.1) fun id t => s <+: t ∧ Spells t id e.1) ∧
      ∀ s, Gives s (serialize reserve e.2) fun id t => s <+: t ∧ Spells t id e.2) (acc : List (Nat × Nat)) :
    Gives s (serializeEntries reserve entries ⟨acc, none⟩) fun map t =>
      s <+: t ∧ map.pendingKey = none ∧ ∃ added, map.entries = acc ++ added ∧ SpellsEntries t added entries := by
  induction entries generalizing s acc with
  | nil =>
    rw [serializeEntries]
    exact ⟨List.prefix_rfl, rfl, [], (List.append_nil _).symm, by rw [SpellsEntries]⟩
  | cons entry rest ih =>
    obtain ⟨key, value⟩ := entry
    obtain ⟨⟨hkey, hvalue⟩, hrest⟩ := List.forall_mem_cons.mp hentries
    rw [serializeEntries]
    have hfirst : Gives s (MapSerializer.serializeKey ⟨acc, none⟩ (serialize reserve key)) fun map t =>
        s <+: t ∧ ∃ first, map = ⟨acc, some first⟩ ∧ Spells t first key := by
      refine (hkey s).bind ?_
      rintro first t ⟨ht, hspells⟩
      exact ⟨ht, first, rfl, hspells⟩
    refine hfirst.bind ?_
    rintro _ t ⟨ht, first, rfl, hfirst⟩
    have hsecond : Gives t (MapSerializer.serializeValue ⟨acc, some first⟩ (serialize reserve value)) fun map u =>
        t <+: u ∧ ∃ second, map = ⟨acc ++ [(first, second)], none⟩ ∧ Spells u second value := by
      refine (hvalue t).bind ?_
      rintro second u ⟨hu, hspells⟩
      exact ⟨hu, second, rfl, hspells⟩
    refine hsecond.bind ?_
    rintro _ u ⟨hu, second, rfl, hsecond⟩
    apply Outcome.mono (ih hrest (acc ++ [(first, second)])) _ fun _ _ h => h
    rintro map w ⟨hw, hpending, added, hmap, hadded⟩
    refine ⟨(ht.trans hu).trans hw, hpending, (first, second) :: added, ?_, ?_⟩
    · rw [hmap, List.append_assoc]
      rfl
    · rw [SpellsEntries]
      exact ⟨first, second, added, rfl, hfirst.mono (hu.trans hw), hsecond.mono hw, hadded⟩

/-- The serializer leaves nodes that spell the value. -/
theorem serialize_gives (reserve : Nat → Bool) (value : Value) (s : List Node) :
    Gives s (serialize reserve value) fun id t => s <+: t ∧ Spells t id value := by
  induction value using Value.induction generalizing s with
  | some value ih | newtypeVariant i value ih =>
    rw [serialize]
    refine (ih s).bind ?_
    rintro child t ⟨ht, hchild⟩
    apply push_over ht
    intro id u hu htu hnode
    rw [Spells]
    exact ⟨hu, child, hnode, hchild.mono htu⟩
  | newtypeStruct value ih =>
    rw [serialize]
    apply Outcome.mono (ih s) _ fun _ _ h => h
    intro id t h
    rwa [Spells]
  | sequence kind fields ih | sequenceVariant i kind fields ih =>
    rw [serialize]
    refine (reserveFor_gives _ _).bind ?_
    rintro _ _ rfl
    refine (serializeFields_gives ih []).bind ?_
    rintro written t ⟨ht, ids, heq, hids⟩
    obtain rfl : written = ids := heq
    apply push_over ht
    intro id u hu htu hnode
    rw [Spells]
    refine ⟨hu, written, hnode, spellsFields_iff.mpr ?_⟩
    exact forall₂_mono_mem (spellsFields_iff.mp hids) fun _ _ _ h => h.mono htu
  | map len entries ih =>
    rw [serialize]
    refine (reserveFor_gives _ _).bind ?_
    rintro _ _ rfl
    refine (serializeEntries_gives ih []).bind ?_
    rintro map t ⟨ht, hpending, ids, hmap, hids⟩
    rw [MapSerializer.finish, hpending, hmap]
    apply push_over ht
    intro id u hu htu hnode
    rw [Spells]
    refine ⟨hu, ids, hnode, spellsEntries_iff.mpr ?_⟩
    exact forall₂_mono_mem (spellsEntries_iff.mp hids) fun _ _ _ h => ⟨h.1.mono htu, h.2.mono htu⟩
  | _ =>
    rw [serialize]
    apply push_over List.prefix_rfl
    intro id u hu _ hnode
    rw [Spells]
    exact ⟨hu, hnode⟩

theorem toDocument_spells {value : Value} {document : Document} (h : toDocument reserve value = .ok document) :
    Spells document.nodes document.root value := by
  have hgives := serialize_gives reserve value []
  rw [toDocument] at h
  cases hrun : (serialize reserve value).run [] with
  | ok root nodes =>
    rw [hrun] at h
    obtain rfl := Except.ok.inj h
    exact (hgives.ok hrun).2
  | error e t =>
    rw [hrun] at h
    cases h

end

/-! Validated documents. -/

section

variable {nodes : List Node}

theorem fieldsHeight_le {fields : List Value} {levels : Nat} (h : ∀ v ∈ fields, v.height < levels) :
    fieldsHeight fields ≤ levels := by
  induction fields with
  | nil => exact Nat.zero_le _
  | cons value rest ih =>
    obtain ⟨hvalue, hrest⟩ := List.forall_mem_cons.mp h
    rw [fieldsHeight]
    exact Nat.max_le.mpr ⟨hvalue, ih hrest⟩

theorem entriesHeight_le {entries : List (Value × Value)} {levels : Nat}
    (h : ∀ e ∈ entries, e.1.height < levels ∧ e.2.height < levels) : entriesHeight entries ≤ levels := by
  induction entries with
  | nil => exact Nat.zero_le _
  | cons entry rest ih =>
    obtain ⟨⟨hkey, hvalue⟩, hrest⟩ := List.forall_mem_cons.mp h
    rw [entriesHeight]
    exact Nat.max_le.mpr ⟨Nat.max_le.mpr ⟨hkey, hvalue⟩, ih hrest⟩

theorem forM_ok {ε α : Type} {f : α → Except ε Unit} {xs : List α} (h : xs.forM f = .ok ()) : ∀ x ∈ xs, f x = .ok () := by
  induction xs with
  | nil => exact List.forall_mem_nil _
  | cons x xs ih =>
    obtain ⟨_, hx, hxs⟩ := bind_eq_ok h
    exact List.forall_mem_cons.mpr ⟨hx, ih hxs⟩

/-- The depth check bounds the nesting of the value. -/
theorem checkDepth_height {levels id : Nat} {value : Value} (h : checkDepth Node.children nodes levels id = .ok ())
    (hspells : Spells nodes id value) : value.height < levels := by
  induction levels generalizing id value with
  | zero => cases h
  | succ levels ih =>
    rw [checkDepth] at h
    rw [← value.content_height]
    have hspells := hspells.content
    have hne := value.content_ne
    generalize value.content = content at hspells hne
    have hchildren : ∀ node, nodes[id]? = some node → ∀ c ∈ node.children,
        checkDepth Node.children nodes levels c = .ok () := by
      intro node hnode
      rw [hnode] at h
      exact forM_ok h
    apply Nat.lt_succ_of_le
    cases content with
    | newtypeStruct inner => exact absurd rfl (hne inner)
    | some inner | newtypeVariant i inner =>
      rw [Spells] at hspells
      obtain ⟨child, hnode, hchild⟩ := hspells
      rw [Value.height]
      exact ih (hchildren _ hnode child List.mem_cons_self) hchild
    | sequence kind fields | sequenceVariant i kind fields =>
      rw [Spells] at hspells
      obtain ⟨ids, hnode, hfields⟩ := hspells
      rw [Value.height]
      apply fieldsHeight_le
      intro v hv
      obtain ⟨c, hc, hchild⟩ := exists_of_mem_right (spellsFields_iff.mp hfields) hv
      exact ih (hchildren _ hnode c hc) hchild
    | map len entries =>
      rw [Spells] at hspells
      obtain ⟨ids, hnode, hentries⟩ := hspells
      rw [Value.height]
      apply entriesHeight_le
      intro e he
      obtain ⟨p, hp, hkey, hvalue⟩ := exists_of_mem_right (spellsEntries_iff.mp hentries) he
      have hmem : ∀ c ∈ [p.1, p.2], c ∈ (Node.map ids).children := fun c hc => List.mem_flatMap.mpr ⟨p, hp, hc⟩
      exact ⟨ih (hchildren _ hnode _ (hmem p.1 (by simp))) hkey, ih (hchildren _ hnode _ (hmem p.2 (by simp))) hvalue⟩
    | _ => exact Nat.zero_le _

theorem exists_fields {ids : List Nat} (h : ∀ c ∈ ids, ∃ v, Spells nodes c v) :
    ∃ fields, SpellsFields nodes ids fields := by
  induction ids with
  | nil => exact ⟨[], by rw [SpellsFields]⟩
  | cons id ids ih =>
    obtain ⟨⟨value, hvalue⟩, hrest⟩ := List.forall_mem_cons.mp h
    obtain ⟨fields, hfields⟩ := ih hrest
    exact ⟨value :: fields, by rw [SpellsFields]; exact ⟨id, ids, rfl, hvalue, hfields⟩⟩

theorem exists_entries {pairs : List (Nat × Nat)}
    (h : ∀ p ∈ pairs, (∃ v, Spells nodes p.1 v) ∧ ∃ v, Spells nodes p.2 v) :
    ∃ entries, SpellsEntries nodes pairs entries := by
  induction pairs with
  | nil => exact ⟨[], by rw [SpellsEntries]⟩
  | cons pair pairs ih =>
    obtain ⟨⟨⟨key, hkey⟩, value, hvalue⟩, hrest⟩ := List.forall_mem_cons.mp h
    obtain ⟨entries, hentries⟩ := ih hrest
    exact ⟨(key, value) :: entries, by rw [SpellsEntries]; exact ⟨pair.1, pair.2, pairs, rfl, hkey, hvalue, hentries⟩⟩

/-- In post order, a value is spelled at every node. -/
theorem PostOrder.exists_value (h : PostOrder Node.children nodes) {id : Nat} (hid : id < nodes.length) :
    ∃ value, Spells nodes id value := by
  induction id using Nat.strongRecOn with
  | _ id ih =>
    obtain ⟨node, hnode⟩ : ∃ node, nodes[id]? = some node := ⟨_, List.getElem?_eq_getElem hid⟩
    have hchildren : ∀ c ∈ node.children, ∃ v, Spells nodes c v := fun c hc => by
      have hlt := h.earlier id node hnode c hc
      exact ih c hlt (by omega)
    cases node with
    | bool b => exact ⟨.bool b, by rwa [Spells]⟩
    | number n => exact ⟨.number n, by rwa [Spells]⟩
    | string text => exact ⟨.string text, by rwa [Spells]⟩
    | bytes data => exact ⟨.bytes data, by rwa [Spells]⟩
    | none => exact ⟨.none, by rwa [Spells]⟩
    | unit => exact ⟨.unit, by rwa [Spells]⟩
    | unitVariant i => exact ⟨.unitVariant i, by rwa [Spells]⟩
    | some child =>
      obtain ⟨value, hvalue⟩ := hchildren child List.mem_cons_self
      exact ⟨.some value, by rw [Spells]; exact ⟨child, hnode, hvalue⟩⟩
    | newtypeVariant i child =>
      obtain ⟨value, hvalue⟩ := hchildren child List.mem_cons_self
      exact ⟨.newtypeVariant i value, by rw [Spells]; exact ⟨child, hnode, hvalue⟩⟩
    | sequence ids =>
      obtain ⟨fields, hfields⟩ := exists_fields hchildren
      exact ⟨.sequence .tuple fields, by rw [Spells]; exact ⟨ids, hnode, hfields⟩⟩
    | sequenceVariant i ids =>
      obtain ⟨fields, hfields⟩ := exists_fields hchildren
      exact ⟨.sequenceVariant i .tuple fields, by rw [Spells]; exact ⟨ids, hnode, hfields⟩⟩
    | map pairs =>
      obtain ⟨entries, hentries⟩ : ∃ entries, SpellsEntries nodes pairs entries := by
        apply exists_entries
        intro p hp
        have hmem : ∀ c ∈ [p.1, p.2], c ∈ (Node.map pairs).children := fun c hc => List.mem_flatMap.mpr ⟨p, hp, hc⟩
        exact ⟨hchildren _ (hmem p.1 (by simp)), hchildren _ (hmem p.2 (by simp))⟩
      exact ⟨.map none entries, by rw [Spells]; exact ⟨pairs, hnode, hentries⟩⟩

theorem validateDocument_ok {document : Document} (h : validateDocument document = .ok ()) :
    document.formatVersion = FORMAT_VERSION ∧ PostOrder Node.children document.nodes ∧
      document.root + 1 = document.nodes.length ∧
        checkDepth Node.children document.nodes (MAX_NESTING_DEPTH + 1) document.root = .ok () := by
  obtain ⟨_, hversion, hnodes⟩ := bind_eq_ok h
  refine ⟨?_, checkNodes_ok hnodes⟩
  by_contra hne
  rw [checkVersion, if_pos hne] at hversion
  cases hversion

/-- The root of a validated document stands for each value that is spelled there. -/
theorem root_stands {document : Document} {value : Value} (h : validateDocument document = .ok ())
    (hspells : Spells document.nodes document.root value) :
    Stands document (.value (.new document document.root)) (.value value) := by
  obtain ⟨-, -, -, hdepth⟩ := validateDocument_ok h
  refine .value rfl hspells ?_
  have hheight := checkDepth_height hdepth hspells
  rw [ValueDeserializer.new]
  dsimp only
  omega

/-- A type reads from a validated document what it reads from the value. -/
theorem decode_eq_read {T : Type} {document : Document} {value : Value} (h : validateDocument document = .ok ())
    (hspells : Spells document.nodes document.root value) (deserializeType : Deserialize T) (operations : Nat) :
    decode deserializeType document operations = value.read deserializeType operations :=
  (Session.start_alike (root_stands h hspells)).result deserializeType (react_simulates document) operations

end

end Opto.Archive
