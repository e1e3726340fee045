import Opto.Archive.Written

/-!
# Archives

Bytes that a value was written to are read as the value, and a validated document is one tree that
is read within its bounds. What the type does not ask for stays unread.
-/

namespace Opto.Archive

section

variable {Bytes Archived Word T : Type}

/-- The archived form shows the numbers of the document. -/
def Represents (toNative : Word → Nat) (archived : ArchivedDocument Word) (document : Document) : Prop :=
  archived.formatVersion = document.formatVersion ∧ toNative archived.root = document.root ∧
    archived.nodes.map (archivedChildren toNative) = document.nodes.map Node.children

/-- Written bytes are accessed and read as the document. -/
structure Codec.Faithful (codec : Codec Bytes Archived Word) : Prop where
  reads : ∀ document bytes, codec.toBytes document = .ok bytes →
    ∃ archived, codec.access bytes = .ok archived ∧ Represents codec.toNative (codec.seen archived) document ∧
      codec.deserialize archived = .ok document

/-- On the data model, a type reads what it writes. -/
def Inverse (serializeType : T → Except ArchiveError Value) (deserializeType : Deserialize T) : Prop :=
  ∀ value model, serializeType value = .ok model →
    ∃ operations, model.read deserializeType operations = some (.ok value)

/-- Every deserializer that a client got stands at a node within the depth limit, and no answer
says otherwise. -/
def WithinBounds (document : Document) (session : Session Access Answer) : Prop :=
  (∀ self, .value self ∈ session.objects →
    self.document = document ∧ self.node < document.nodes.length ∧ self.depth ≤ MAX_NESTING_DEPTH) ∧
      ∀ answer ∈ session.answers, answer ≠ .error ⟨"invalid node"⟩ ∧
        answer ≠ .error ⟨"archive nesting depth limit exceeded"⟩

/-- The client's session with a document after some operations. -/
def sessionAfter (deserializeType : Deserialize T) (document : Document) (operations : Nat) :
    Option (Session Access Answer) :=
  (Session.start (Access.value (.new document document.root))).after Access.react deserializeType operations

/-! The two validators agree. -/

section

variable {N N' : Type} {children : N → List Nat} {children' : N' → List Nat} {nodes : List N} {nodes' : List N'}

theorem countParents_congr (h : nodes.map children = nodes'.map children') (index : Nat) (parents : List Nat) :
    countParents children index nodes parents = countParents children' index nodes' parents := by
  induction nodes generalizing nodes' index parents with
  | nil =>
    obtain rfl := List.map_eq_nil_iff.mp h.symm
    rfl
  | cons node nodes ih =>
    obtain ⟨node', rest, rfl, hnode, hrest⟩ := List.map_eq_cons_iff.mp h.symm
    rw [countParents, countParents, hnode]
    congr 1
    funext counted
    exact ih hrest.symm _ _

theorem checkDepth_congr (h : nodes.map children = nodes'.map children') (levels node : Nat) :
    checkDepth children nodes levels node = checkDepth children' nodes' levels node := by
  induction levels generalizing node with
  | zero => rfl
  | succ levels ih =>
    have hnode : nodes[node]?.map children = nodes'[node]?.map children' := by
      rw [← List.getElem?_map, h, List.getElem?_map]
    have hfun : checkDepth children nodes levels = checkDepth children' nodes' levels := funext ih
    rw [checkDepth, checkDepth]
    rcases hfirst : nodes[node]? with _ | first <;> rcases hsecond : nodes'[node]? with _ | second <;>
      rw [hfirst, hsecond] at hnode
    · exact absurd hnode (by simp)
    · exact absurd hnode (by simp)
    · have hchildren : children first = children' second := Option.some.inj hnode
      dsimp only
      rw [hchildren, hfun]

theorem checkNodes_congr (h : nodes.map children = nodes'.map children') (root : Nat) :
    checkNodes children root nodes = checkNodes children' root nodes' := by
  have hlength : nodes.length = nodes'.length := by
    have hmap := congrArg List.length h
    rwa [List.length_map, List.length_map] at hmap
  rw [checkNodes, checkNodes, hlength, countParents_congr h]
  simp only [checkDepth_congr h]

end

theorem validateArchivedDocument_eq {toNative : Word → Nat} {archived : ArchivedDocument Word} {document : Document}
    (h : Represents toNative archived document) :
    validateArchivedDocument toNative archived = validateDocument document := by
  obtain ⟨hversion, hroot, hnodes⟩ := h
  rw [validateArchivedDocument, validateDocument, hversion, hroot, checkNodes_congr hnodes]

/-! Round trips. -/

theorem toBytes_ok {codec : Codec Bytes Archived Word} {reserve : Nat → Bool} {serializeType : T → Except ArchiveError Value}
    {value : T} {bytes : Bytes} (h : toBytes codec reserve serializeType value = .ok bytes) :
    ∃ model document, serializeType value = .ok model ∧ toDocument reserve model = .ok document ∧
      validateDocument document = .ok () ∧ codec.toBytes document = .ok bytes := by
  obtain ⟨model, hmodel, h⟩ := bind_eq_ok h
  obtain ⟨document, hdocument, h⟩ := bind_eq_ok h
  obtain ⟨_, hvalid, hencode⟩ := bind_eq_ok h
  refine ⟨model, document, hmodel, hdocument, hvalid, ?_⟩
  rw [encode] at hencode
  cases hbytes : codec.toBytes document with
  | ok bytes' =>
    rw [hbytes] at hencode
    exact congrArg Except.ok (Except.ok.inj hencode)
  | error e =>
    rw [hbytes] at hencode
    cases hencode

theorem readDocument_ok {codec : Codec Bytes Archived Word} (hcodec : codec.Faithful) {document : Document} {bytes : Bytes}
    (hbytes : codec.toBytes document = .ok bytes) (hvalid : validateDocument document = .ok ()) :
    readDocument codec bytes = .ok document := by
  obtain ⟨archived, haccess, hrepresents, hread⟩ := hcodec.reads document bytes hbytes
  rw [readDocument, haccess]
  dsimp only
  rw [validateArchivedDocument_eq hrepresents, hvalid, hread]
  dsimp only
  rw [hvalid]
  rfl

theorem fromBytes_of_toBytes {codec : Codec Bytes Archived Word} (hcodec : codec.Faithful) {reserve : Nat → Bool}
    {serializeType : T → Except ArchiveError Value} {deserializeType : Deserialize T}
    (hinverse : Inverse serializeType deserializeType) {value : T} {bytes : Bytes}
    (h : toBytes codec reserve serializeType value = .ok bytes) :
    ∃ operations, fromBytes codec deserializeType bytes operations = some (.ok value) := by
  obtain ⟨model, document, hmodel, hdocument, hvalid, hbytes⟩ := toBytes_ok h
  obtain ⟨operations, hread⟩ := hinverse value model hmodel
  refine ⟨operations, ?_⟩
  rw [fromBytes, readDocument_ok hcodec hbytes hvalid]
  dsimp only
  rw [decode_eq_read hvalid (toDocument_spells hdocument), hread]

/-! Bounds. -/

theorem Spells.lt {nodes : List Node} {id : Nat} {value : Value} (h : Spells nodes id value) : id < nodes.length := by
  have hcontent := h.content
  have hne := value.content_ne
  have hlt : ∀ node, nodes[id]? = some node → id < nodes.length := fun node hnode =>
    (List.getElem?_eq_some_iff.mp hnode).1
  generalize value.content = content at hcontent hne
  cases content with
  | newtypeStruct inner => exact absurd rfl (hne inner)
  | some inner | newtypeVariant i inner | sequence kind fields | sequenceVariant i kind fields | map len entries =>
    rw [Spells] at hcontent
    obtain ⟨_, hnode, -⟩ := hcontent
    exact hlt _ hnode
  | _ =>
    rw [Spells] at hcontent
    exact hlt _ hcontent

/-- No answer of a value speaks of nodes or of the depth limit. -/
def Permitted (answer : Answer) : Prop :=
  answer ≠ .error ⟨"invalid node"⟩ ∧ answer ≠ .error ⟨"archive nesting depth limit exceeded"⟩

theorem permitted_ok (called : Visit) : Permitted (.ok called) := ⟨nofun, nofun⟩

theorem mismatch_permitted (name : String) : Permitted (.error ⟨"archive type mismatch for " ++ name⟩) := by
  have hhead : ("archive type mismatch for " ++ name).toList.take 9 = "archive t".toList := by
    rw [String.toList_append, List.take_append_of_le_length (by decide)]
    decide
  constructor <;>
  · intro h
    have hmessage := congrArg ArchiveError.message (Except.error.inj h)
    dsimp only at hmessage
    rw [hmessage] at hhead
    exact absurd hhead (by decide)

theorem answer_permitted (value : Value) (request : Request) (object : Reading) :
    Permitted (Visited.reaction (value.answer request) object).answer := by
  by_cases hnewtype : request = .newtypeStruct
  · subst hnewtype
    exact permitted_ok _
  by_cases hignored : request = .ignoredAny
  · subst hignored
    exact permitted_ok _
  rw [value.answer_eq hnewtype hignored, Value.replied]
  split_ifs
  · exact permitted_ok _
  · exact mismatch_permitted _

theorem react_permitted (object : Reading) (operation : Operation) : Permitted (object.react operation).answer := by
  have hkey : Permitted (.error ⟨"map key requested before pending value"⟩) := ⟨by decide, by decide⟩
  have hvalue : Permitted (.error ⟨"map value requested before key"⟩) := ⟨by decide, by decide⟩
  have hunit : Permitted (.error ⟨"enum variant is not a unit variant"⟩) := ⟨by decide, by decide⟩
  have hnewtype : Permitted (.error ⟨"enum variant is not a newtype variant"⟩) := ⟨by decide, by decide⟩
  have htuple : Permitted (.error ⟨"enum variant is not a " ++ "tuple" ++ " variant"⟩) := ⟨by decide, by decide⟩
  have hstruct : Permitted (.error ⟨"enum variant is not a " ++ "struct" ++ " variant"⟩) := ⟨by decide, by decide⟩
  cases operation with
  | deserialize request =>
    cases object with
    | value value => exact answer_permitted value request _
    | _ => exact permitted_ok _
  | nextElement =>
    cases object with
    | sequence rest => cases rest <;> exact permitted_ok _
    | _ => exact permitted_ok _
  | nextKey =>
    cases object with
    | map rest pending =>
      cases pending with
      | none => cases rest <;> exact permitted_ok _
      | some value => exact hkey
    | _ => exact permitted_ok _
  | nextValue =>
    cases object with
    | map rest pending =>
      cases pending with
      | none => exact hvalue
      | some value => exact permitted_ok _
    | _ => exact permitted_ok _
  | sizeHint => cases object <;> exact permitted_ok _
  | variant => cases object <;> exact permitted_ok _
  | unitVariant =>
    cases object with
    | variant value => cases value <;> first | exact permitted_ok _ | exact hunit
    | _ => exact permitted_ok _
  | newtypeVariant =>
    cases object with
    | variant value => cases value <;> first | exact permitted_ok _ | exact hnewtype
    | _ => exact permitted_ok _
  | tupleVariant len =>
    cases object with
    | variant value => cases value <;> first | exact permitted_ok _ | exact htuple
    | _ => exact permitted_ok _
  | structVariant fields =>
    cases object with
    | variant value => cases value <;> first | exact permitted_ok _ | exact hstruct
    | _ => exact permitted_ok _

theorem sessionAfter_withinBounds {document : Document} (hvalid : validateDocument document = .ok ())
    (deserializeType : Deserialize T) {operations : Nat} {session : Session Access Answer}
    (h : sessionAfter deserializeType document operations = some session) : WithinBounds document session := by
  obtain ⟨-, horder, hroot, -⟩ := validateDocument_ok hvalid
  obtain ⟨value, hvalue⟩ := horder.exists_value (show document.root < document.nodes.length by omega)
  have halike := (Session.start_alike (root_stands hvalid hvalue)).after deserializeType (react_simulates document)
    operations
  rw [sessionAfter] at h
  rw [h] at halike
  cases hreading : (Session.start (Reading.value value)).after Reading.react deserializeType operations with
  | none =>
    rw [hreading] at halike
    cases halike
  | some reading =>
    rw [hreading] at halike
    cases halike with
    | some halike =>
      obtain ⟨hobjects, hanswers⟩ := halike
      constructor
      · intro self hself
        obtain ⟨object, -, hstands⟩ := exists_of_mem_left hobjects hself
        cases hstands with
        | value hdocument hspells hdepth => exact ⟨hdocument, hspells.lt, by omega⟩
      · rw [hanswers]
        exact Session.after_answers react_permitted deserializeType (List.forall_mem_nil _) hreading

end

/-- Archives round trip, and a validated document is one tree that every type reads within bounds,
as it reads the value that the tree spells. -/
theorem archive_sound {Bytes Archived Word T : Type} (codec : Codec Bytes Archived Word) (hcodec : codec.Faithful)
    (reserve : Nat → Bool) (serializeType : T → Except ArchiveError Value) (deserializeType : Deserialize T)
    (hinverse : Inverse serializeType deserializeType) :
    (∀ value bytes, toBytes codec reserve serializeType value = .ok bytes →
      ∃ operations, fromBytes codec deserializeType bytes operations = some (.ok value)) ∧
    ∀ document, validateDocument document = .ok () →
      OneTree Node.children document.nodes document.root ∧
      (∀ (S : Type) (client : Deserialize S) operations session,
        sessionAfter client document operations = some session → WithinBounds document session) ∧
      ∃ model, Spells document.nodes document.root model ∧
        ∀ (S : Type) (client : Deserialize S) operations,
          decode client document operations = model.read client operations := by
  refine ⟨fun value bytes h => fromBytes_of_toBytes hcodec hinverse h, fun document hvalid => ?_⟩
  obtain ⟨-, horder, hroot, -⟩ := validateDocument_ok hvalid
  obtain ⟨model, hmodel⟩ := horder.exists_value (show document.root < document.nodes.length by omega)
  exact ⟨horder.oneTree hroot, fun S client operations session h => sessionAfter_withinBounds hvalid client h,
    model, hmodel, fun S client operations => decode_eq_read hvalid hmodel client operations⟩

/-- A codec whose bytes are the document itself. -/
def plainCodec : Codec Document Document Nat where
  toBytes := .ok
  access := .ok
  seen document := ⟨document.formatVersion, document.root, document.nodes.map fun
    | .some value => .some value
    | .newtypeVariant _ value => .newtypeVariant value
    | .sequence fields => .sequence fields
    | .sequenceVariant _ fields => .sequenceVariant fields
    | .map entries => .map entries
    | _ => .leaf⟩
  toNative := id
  deserialize := .ok

theorem plainCodec_faithful : plainCodec.Faithful := by
  refine ⟨fun document bytes h => ?_⟩
  obtain rfl := Except.ok.inj h
  refine ⟨document, rfl, ⟨rfl, rfl, ?_⟩, rfl⟩
  dsimp only [plainCodec]
  rw [List.map_map]
  apply List.map_congr_left
  intro node _
  cases node <;> simp [archivedChildren, Node.children]

/-- An optional Boolean as its type writes and reads it. -/
def writeOption : Option Bool → Except ArchiveError Value
  | none => .ok .none
  | some value => .ok (.some (.bool value))

def readOption : Deserialize (Option Bool)
  | [] => .inl (0, .deserialize .option)
  | [.ok .none] => .inr (.ok none)
  | [.ok .some] => .inl (1, .deserialize .bool)
  | [.ok .some, .ok (.bool value)] => .inr (.ok (some value))
  | _ => .inr (.error ⟨"invalid type"⟩)

theorem option_inverse : Inverse writeOption readOption := by
  intro value model h
  cases value with
  | none =>
    obtain rfl := Except.ok.inj h
    exact ⟨1, rfl⟩
  | some value =>
    obtain rfl := Except.ok.inj h
    exact ⟨2, rfl⟩

theorem option_round_trip : ∃ operations,
    fromBytes plainCodec readOption ⟨1, 1, [.bool true, .some 0]⟩ operations = some (.ok (some true)) :=
  (archive_sound plainCodec plainCodec_faithful (fun _ => true) writeOption readOption option_inverse).1
    (some true) _ rfl

/-- The client opened a deserializer at every node. -/
def Consumes {T : Type} (deserializeType : Deserialize T) (document : Document) (operations : Nat) : Prop :=
  ∃ session, sessionAfter deserializeType document operations = some session ∧
    ∀ node < document.nodes.length, ∃ self, .value self ∈ session.objects ∧ self.node = node

/-- A pair of bytes as its type reads it: two elements of a tuple. -/
def readPair : Deserialize (UInt8 × UInt8)
  | [] => .inl (0, .deserialize (.tuple 2))
  | [_] => .inl (1, .nextElement)
  | [_, _] => .inl (2, .deserialize (.number .u8))
  | [_, _, _] => .inl (1, .nextElement)
  | [_, _, _, _] => .inl (3, .deserialize (.number .u8))
  | [_, _, .ok (.number (.u8 first)), _, .ok (.number (.u8 second))] => .inr (.ok (first, second))
  | _ => .inr (.error ⟨"invalid type"⟩)

def threeBytes : Document := ⟨1, 3, [.number (.u8 1), .number (.u8 2), .number (.u8 3), .sequence [0, 1, 2]]⟩

/-- A pair is read from a sequence of three bytes; the third is not read. -/
theorem extra_element_unread : ¬∀ (T : Type) (deserializeType : Deserialize T) (document : Document) operations value,
    validateDocument document = .ok () → decode deserializeType document operations = some (.ok value) →
      Consumes deserializeType document operations := by
  intro h
  obtain ⟨session, hsession, hnodes⟩ := h _ readPair threeBytes 5 (1, 2) rfl rfl
  obtain ⟨self, hself, hnode⟩ := hnodes 2 (by decide)
  have hobjects : session.objects = [.value ⟨threeBytes, 3, 0⟩, .sequence ⟨⟨threeBytes, 3, 0⟩, [0, 1, 2], 2⟩,
      .value ⟨threeBytes, 0, 1⟩, .value ⟨threeBytes, 1, 1⟩] := by
    rw [← Option.some.inj hsession]
    rfl
  rw [hobjects] at hself
  simp only [List.mem_cons, Access.value.injEq, List.not_mem_nil, or_false, reduceCtorEq, false_or] at hself
  rcases hself with rfl | rfl | rfl <;> exact absurd hnode (by decide)

end Opto.Archive
