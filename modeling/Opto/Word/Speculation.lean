import Opto.Word.Builders

/-!
# Speculative construction

A checkpoint records how long the arenas and the by-name index of the signals are.
Rolling back truncates them, provided nothing else grew and nothing that stays
refers to what goes. What construction calls append since a checkpoint is taken
back that way, up to index entries of names that were there before.
-/

namespace Opto.Word

open Mapped (NameTable NameCheckpoint NameError NameId)

structure SpeculationCheckpoint where
  identity : Nat
  names : NameCheckpoint
  annotations : Nat
  synthesisDirectives : Nat
  ports : Nat
  values : Nat
  operations : Nat
  signals : Nat
  memories : Nat
  memoryReadPorts : Nat
  memoryWritePorts : Nat
  typeLayouts : Nat
  connects : Nat
  instances : Nat
  namedSignals : Nat
  deriving DecidableEq

def MemoryReadPort.controls (port : MemoryReadPort) : List Nat :=
  match port.timing with
  | .asynchronous => []
  | .synchronous clock enable _ => clock.value :: (enable.map (·.value)).toList

def MemoryWritePort.controls (port : MemoryWritePort) : List Nat :=
  port.clock.value :: (port.enable.map (·.value)).toList ++ (port.mask.map (·.value)).toList

namespace WordModule

variable (m : WordModule) (c : SpeculationCheckpoint)

def speculationCheckpoint : SpeculationCheckpoint where
  identity := m.speculationIdentity
  names := m.names.checkpoint
  annotations := m.annotations.length
  synthesisDirectives := m.synthesisDirectives.length
  ports := m.ports.length
  values := m.values.length
  operations := m.operations.length
  signals := m.signals.length
  memories := m.memories.length
  memoryReadPorts := m.memoryReadPorts.length
  memoryWritePorts := m.memoryWritePorts.length
  typeLayouts := m.typeLayouts.length
  connects := m.connects.length
  instances := m.instances.length
  namedSignals := m.namedSignals.length

def targetRetainsSuffix : AnnotationTarget → Bool
  | .value value => c.values ≤ value
  | .operation operation => c.operations ≤ operation
  | .signal signal => c.signals ≤ signal
  | _ => false

def speculationPrefixRetainsSuffix : Bool :=
  let valueRetains (value : Nat) : Bool := c.values ≤ value
  let signalRetains (signal : Nat) : Bool := c.signals ≤ signal
  m.annotations.any (targetRetainsSuffix c ·.target) ||
    m.synthesisDirectives.any (targetRetainsSuffix c ·.target) ||
    (m.ports.take c.ports).any (signalRetains ·.signal) ||
    ((m.memoryReadPorts.take c.memoryReadPorts).any fun port =>
      signalRetains port.data || (port.address :: port.controls).any valueRetains) ||
    ((m.memoryWritePorts.take c.memoryWritePorts).any fun port =>
      (port.address :: port.data :: port.controls).any valueRetains) ||
    ((m.values.take c.values).any fun value => match value.kind with
      | .operation operation => c.operations ≤ operation
      | .signal reference => signalRetains reference.signal
      | .constant _ => false) ||
    ((m.operations.take c.operations).any fun operation =>
      (operation.result :: operation.kind.inputs).any valueRetains) ||
    ((m.connects.take c.connects).any fun connect =>
      signalRetains connect.target.signal ||
        (connect.value :: (connect.target.dynamic.map (·.offset)).toList).any valueRetains) ||
    m.instances.any (·.connections.any (valueRetains ·.value))

def checkRollback : Except WordError Unit := do
  check (c.identity = m.speculationIdentity)
    "speculation checkpoint belongs to a different module"
  discard <| (m.names.rollback c.names).mapError .name
  check (c.values ≤ m.values.length ∧ c.operations ≤ m.operations.length ∧
      c.signals ≤ m.signals.length ∧ c.memoryReadPorts ≤ m.memoryReadPorts.length ∧
      c.namedSignals ≤ m.namedSignals.length)
    "speculation checkpoint is ahead of the module arenas"
  check (c.annotations = m.annotations.length ∧
      c.synthesisDirectives = m.synthesisDirectives.length ∧ c.ports = m.ports.length ∧
      c.memories = m.memories.length ∧ c.memoryWritePorts = m.memoryWritePorts.length ∧
      c.typeLayouts = m.typeLayouts.length ∧ c.connects = m.connects.length ∧
      c.instances = m.instances.length)
    "speculation changed a non-value arena that rollback cannot undo"
  check (!m.speculationPrefixRetainsSuffix c)
    "speculation rollback would strand a generated object ID"

end WordModule

open WordModule

def rollbackSpeculation (c : SpeculationCheckpoint) : Build Unit := do
  let m ← get
  fromExcept (m.checkRollback c)
  let m := { m with
    values := m.values.take c.values
    operations := m.operations.take c.operations
    memoryReadPorts := m.memoryReadPorts.take c.memoryReadPorts
    signals := m.signals.take c.signals
    namedSignals := m.namedSignals.take c.namedSignals }
  set m
  let names ← fromExcept ((m.names.rollback c.names).mapError .name)
  set ({ m with names } : WordModule)

/-- The calls that construct a module. -/
inductive Construction
  | internName (name : String)
  | addPort (name : String) (direction : PortDirection) (ty : WordType)
  | addWire (name : String) (ty : WordType)
  | addRegisterSignal (name : String) (ty : WordType)
  | addProcessLocalSignal (name : String) (ty : WordType)
  | addGeneratedWire (ty : WordType)
  | addMemory (name : String) (elementType : WordType) (depth : Nat)
  | addMemoryReadPort (port : MemoryReadPort)
  | addMemoryWritePort (port : MemoryWritePort)
  | constant (bits : List BitVal) (ty : WordType)
  | readSignal (signal : Nat)
  | readSignalSlice (signal lsb width : Nat)
  | operation (kind : OpKind)
  | appendMuxBatch (operations : List MuxBatchOperation)
  | connect (target : LValue) (value : Nat)

def Construction.build : Construction → Build Unit
  | .internName name => discard <| Word.internName name
  | .addPort name direction ty => discard <| Word.addPort name direction ty
  | .addWire name ty => discard <| Word.addWire name ty
  | .addRegisterSignal name ty => discard <| Word.addRegisterSignal name ty
  | .addProcessLocalSignal name ty => discard <| Word.addProcessLocalSignal name ty
  | .addGeneratedWire ty => discard <| Word.addGeneratedWire ty
  | .addMemory name elementType depth => discard <| Word.addMemory name elementType depth
  | .addMemoryReadPort port => discard <| Word.addMemoryReadPort port
  | .addMemoryWritePort port => discard <| Word.addMemoryWritePort port
  | .constant bits ty => discard <| Word.constant bits ty
  | .readSignal signal => discard <| Word.readSignal signal
  | .readSignalSlice signal lsb width => discard <| Word.readSignalSlice signal lsb width
  | .operation kind => discard <| addOperation kind
  | .appendMuxBatch operations => discard <| Word.appendMuxBatch operations
  | .connect target value => Word.connect target value

/-- What a call leaves of the module, whether it succeeds or fails. -/
def after {α : Type} (call : Build α) (m : WordModule) : WordModule :=
  match call.run m with
  | .ok _ m' => m'
  | .error _ m' => m'

def construct (m : WordModule) (calls : List Construction) : WordModule :=
  calls.foldl (fun m call => after call.build m) m

/-! What construction calls leave as it is. -/

/-- The index has entries for interned names only. -/
def Indexed (m : WordModule) : Prop :=
  ∀ slot id, denseId m.namedSignals slot = some id → slot < m.names.entries.length

/-- `m'` comes of `m` by appending. -/
structure Grows (m m' : WordModule) : Prop where
  names : NameTable.Extends m.names m'.names
  rest : m' = { m with
    names := m'.names
    ports := m'.ports
    signals := m'.signals
    memories := m'.memories
    memoryReadPorts := m'.memoryReadPorts
    memoryWritePorts := m'.memoryWritePorts
    values := m'.values
    operations := m'.operations
    connects := m'.connects
    namedSignals := m'.namedSignals
    namedMemories := m'.namedMemories }
  ports : m.ports <+: m'.ports
  signals : m.signals <+: m'.signals
  memories : m.memories <+: m'.memories
  memoryReadPorts : m.memoryReadPorts <+: m'.memoryReadPorts
  memoryWritePorts : m.memoryWritePorts <+: m'.memoryWritePorts
  values : m.values <+: m'.values
  operations : m.operations <+: m'.operations
  connects : m.connects <+: m'.connects
  namedMemories : m'.memories.length = m.memories.length → m'.namedMemories = m.namedMemories
  indexed : Indexed m'
  longer : m.namedSignals.length ≤ m'.namedSignals.length
  kept : ∀ slot id, denseId m.namedSignals slot = some id → denseId m'.namedSignals slot = some id
  fresh : ∀ signal ∈ m'.signals.drop m.signals.length, ∀ slot, signal.name = some slot →
    denseId m.namedSignals slot = none ∧ (denseId m'.namedSignals slot).isSome
  only : ∀ slot, (∀ signal ∈ m'.signals.drop m.signals.length, signal.name ≠ some slot) →
    denseId m'.namedSignals slot = denseId m.namedSignals slot

section Grows

variable {m m' m'' : WordModule}

theorem Grows.refl (h : Indexed m) : Grows m m where
  names := .refl _
  rest := rfl
  ports := List.prefix_rfl
  signals := List.prefix_rfl
  memories := List.prefix_rfl
  memoryReadPorts := List.prefix_rfl
  memoryWritePorts := List.prefix_rfl
  values := List.prefix_rfl
  operations := List.prefix_rfl
  connects := List.prefix_rfl
  namedMemories _ := rfl
  indexed := h
  longer := Nat.le_refl _
  kept _ _ h := h
  fresh signal hs := by simp at hs
  only _ _ := rfl

theorem drop_of_prefixes {α : Type} {xs ys zs : List α} (h : xs <+: ys) (h' : ys <+: zs) :
    zs.drop xs.length = ys.drop xs.length ++ zs.drop ys.length := by
  obtain ⟨us, rfl⟩ := h
  obtain ⟨vs, rfl⟩ := h'
  rw [List.append_assoc, List.drop_left, List.drop_left, ← List.append_assoc, List.drop_left]

theorem Grows.trans (h : Grows m m') (h' : Grows m' m'') : Grows m m'' where
  names := h.names.trans h'.names
  rest := by rw [h'.rest, h.rest]
  ports := h.ports.trans h'.ports
  signals := h.signals.trans h'.signals
  memories := h.memories.trans h'.memories
  memoryReadPorts := h.memoryReadPorts.trans h'.memoryReadPorts
  memoryWritePorts := h.memoryWritePorts.trans h'.memoryWritePorts
  values := h.values.trans h'.values
  operations := h.operations.trans h'.operations
  connects := h.connects.trans h'.connects
  namedMemories hlen := by
    have h₁ := h.memories.length_le
    have h₂ := h'.memories.length_le
    rw [h'.namedMemories (by omega), h.namedMemories (by omega)]
  indexed := h'.indexed
  longer := Nat.le_trans h.longer h'.longer
  kept slot id hs := h'.kept slot id (h.kept slot id hs)
  fresh signal hs slot hname := by
    rw [drop_of_prefixes h.signals h'.signals, List.mem_append] at hs
    rcases hs with hs | hs
    · obtain ⟨hnone, hsome⟩ := h.fresh signal hs slot hname
      obtain ⟨id, hid⟩ := Option.isSome_iff_exists.mp hsome
      exact ⟨hnone, by rw [h'.kept slot id hid]; rfl⟩
    · obtain ⟨hnone, hsome⟩ := h'.fresh signal hs slot hname
      refine ⟨?_, hsome⟩
      cases hid : denseId m.namedSignals slot with
      | none => rfl
      | some id => exact absurd (h.kept slot id hid) (by simp [hnone])
  only slot hs := by
    rw [drop_of_prefixes h.signals h'.signals] at hs
    rw [h'.only slot fun signal hm => hs signal (List.mem_append_right _ hm),
      h.only slot fun signal hm => hs signal (List.mem_append_left _ hm)]

/-- Whatever comes of the call, the module has grown. -/
def Growing {α : Type} (call : Build α) : Prop :=
  ∀ m, Indexed m → Outcome m call (fun _ => Grows m) (fun _ => Grows m)

variable {α β : Type}

theorem Growing.pure (a : α) : Growing (Pure.pure a) := fun _ h => Outcome.pure (.refl h)

theorem Growing.bind {call : Build α} {k : α → Build β} (h : Growing call)
    (hk : ∀ a, Growing (k a)) : Growing (call >>= k) := by
  intro m hm
  refine (h m hm).bind (fun a m' hg => ?_) (fun _ _ hg => hg)
  exact (hk a m' hg.indexed).mono (fun _ _ hg' => hg.trans hg') (fun _ _ hg' => hg.trans hg')

theorem Growing.discard {call : Build α} (h : Growing call) :
    Growing (Functor.discard call) :=
  fun m hm => (h m hm).map fun _ _ hg => hg

theorem Growing.fromExcept (r : Except WordError α) : Growing (Word.fromExcept r) := by
  cases r with
  | ok a => exact .pure a
  | error e => exact fun _ h => Outcome.throw (.refl h)

/-- A call that reads the module first. -/
theorem Growing.get {k : WordModule → Build α}
    (h : ∀ m, Indexed m → Outcome m (k m) (fun _ => Grows m) (fun _ => Grows m)) :
    Growing (MonadState.get >>= k) := fun m hm => Outcome.get (h m hm)

theorem outcome_fromExcept {r : Except WordError α} {k : α → Build β} (hm : Indexed m)
    (hk : ∀ a, r = .ok a → Outcome m (k a) (fun _ => Grows m) (fun _ => Grows m)) :
    Outcome m (Word.fromExcept r >>= k) (fun _ => Grows m) (fun _ => Grows m) := by
  cases r with
  | ok a => exact hk a rfl
  | error e => exact Grows.refl hm

/-! Each call. -/

theorem pushValue_growing (kind : ValueKind) (ty : WordType) : Growing (pushValue kind ty) :=
  .get fun m hm => outcome_fromExcept hm fun _ _ =>
    show Grows m { m with values := m.values ++ [⟨kind, ty⟩] } from
      { Grows.refl hm with values := List.prefix_append _ _, rest := rfl }

theorem pushOperation_growing (kind : OpKind) (ty : WordType) :
    Growing (pushOperation kind ty) := by
  refine .get fun m hm => outcome_fromExcept hm fun op _ => ?_
  refine Growing.bind (pushValue_growing (.operation op) ty) (fun result => ?_) m hm
  exact .get fun m hm =>
    show Grows m { m with operations := m.operations ++ [⟨kind, result⟩] } from
      { Grows.refl hm with operations := List.prefix_append _ _, rest := rfl }

theorem addOperation_growing (kind : OpKind) : Growing (addOperation kind) :=
  .get fun m hm => outcome_fromExcept hm fun ty _ => pushOperation_growing kind ty m hm

theorem constant_growing (bits : List BitVal) (ty : WordType) : Growing (constant bits ty) :=
  Growing.bind (.fromExcept _) fun _ => Growing.bind (.fromExcept _) fun _ =>
    pushValue_growing (.constant bits) ty

theorem readSignalSlice_growing (signal lsb width : Nat) :
    Growing (readSignalSlice signal lsb width) := by
  refine .get fun m hm => outcome_fromExcept hm fun signalTy _ => ?_
  refine outcome_fromExcept hm fun _ _ => outcome_fromExcept hm fun _ _ => ?_
  refine outcome_fromExcept hm fun _ _ => outcome_fromExcept hm fun ty _ => ?_
  exact pushValue_growing (.signal ⟨signal, lsb, width⟩) ty m hm

theorem readSignal_growing (signal : Nat) : Growing (readSignal signal) :=
  .get fun m hm => outcome_fromExcept hm fun ty _ => readSignalSlice_growing signal 0 ty.width m hm

theorem appendMuxBatch_growing (operations : List MuxBatchOperation) :
    Growing (appendMuxBatch operations) := by
  refine .get fun m hm => outcome_fromExcept hm fun _ _ => outcome_fromExcept hm fun tys _ => ?_
  exact show Grows m { m with values := m.values ++ _, operations := m.operations ++ _ } from
    { Grows.refl hm with
      values := List.prefix_append _ _
      operations := List.prefix_append _ _
      rest := rfl }

theorem connect_growing (target : LValue) (value : Nat) : Growing (connect target value) := by
  refine .get fun m hm => outcome_fromExcept hm fun _ _ => outcome_fromExcept hm fun _ _ => ?_
  refine outcome_fromExcept hm fun _ _ => outcome_fromExcept hm fun _ _ => ?_
  exact show Grows m { m with connects := m.connects ++ [⟨target, value⟩] } from
    { Grows.refl hm with connects := List.prefix_append _ _, rest := rfl }

theorem addMemoryReadPort_growing (port : MemoryReadPort) : Growing (addMemoryReadPort port) := by
  refine .get fun m hm => outcome_fromExcept hm fun _ _ => outcome_fromExcept hm fun _ _ => ?_
  exact show Grows m { m with memoryReadPorts := m.memoryReadPorts ++ [port] } from
    { Grows.refl hm with memoryReadPorts := List.prefix_append _ _, rest := rfl }

theorem addMemoryWritePort_growing (port : MemoryWritePort) :
    Growing (addMemoryWritePort port) := by
  refine .get fun m hm => outcome_fromExcept hm fun _ _ => outcome_fromExcept hm fun _ _ => ?_
  exact show Grows m { m with memoryWritePorts := m.memoryWritePorts ++ [port] } from
    { Grows.refl hm with memoryWritePorts := List.prefix_append _ _, rest := rfl }

/-! Names, signals and memories. -/

theorem length_le_of_extends {t u : NameTable} (h : NameTable.Extends t u) :
    t.entries.length ≤ u.entries.length := by
  rw [NameTable.entries, NameTable.entries, h.frozen, List.length_append, List.length_append]
  exact Nat.add_le_add_left h.delta.length_le _

theorem grows_names (hm : Indexed m) {names : NameTable}
    (h : NameTable.Extends m.names names) : Grows m { m with names } :=
  { Grows.refl hm with
    names := h
    rest := rfl
    indexed := fun slot id hs => Nat.lt_of_lt_of_le (hm slot id hs) (length_le_of_extends h) }

theorem internName_outcome (m : WordModule) (name : String) :
    Outcome m (internName name)
      (fun id m' => ∃ names, m.names.intern name = .ok (id, names) ∧ m' = { m with names })
      (fun _ m' => m' = m) := by
  refine Outcome.get ?_
  cases h : m.names.intern name with
  | error e => exact Outcome.throw rfl
  | ok r => exact ⟨r.2, rfl, rfl⟩

theorem internName_growing (name : String) : Growing (internName name) := by
  intro m hm
  refine (internName_outcome m name).mono ?_ ?_
  · rintro id m' ⟨names, h, rfl⟩
    exact grows_names hm (NameTable.intern_ok h).1
  · rintro e m' rfl
    exact .refl hm

theorem denseId_append (index : List (Option Nat)) (count slot : Nat) :
    denseId (index ++ List.replicate count none) slot = denseId index slot := by
  rw [denseId, denseId]
  rcases Nat.lt_or_ge slot index.length with h | h
  · rw [List.getElem?_append_left h]
  · rw [List.getElem?_append_right h, List.getElem?_eq_none h, List.getElem?_replicate]
    split_ifs <;> rfl

/-- Where `insertDenseId` writes. -/
def withEntry (index : List (Option Nat)) (name id : Nat) : List (Option Nat) :=
  (index ++ List.replicate (name + 1 - index.length) none).set name (some id)

theorem insertDenseId_ok {index : List (Option Nat)} {name : Nat} (h : denseId index name = none)
    (id : Nat) : insertDenseId index name id = .ok (withEntry index name id) := by
  rw [insertDenseId, denseId_append, h]
  rfl

theorem denseId_withEntry_self (index : List (Option Nat)) (name id : Nat) :
    denseId (withEntry index name id) name = some id := by
  rw [denseId, withEntry, List.getElem?_set_self]
  · rfl
  · rw [List.length_append, List.length_replicate]
    omega

theorem denseId_withEntry_ne {index : List (Option Nat)} {name id slot : Nat} (h : slot ≠ name) :
    denseId (withEntry index name id) slot = denseId index slot := by
  rw [denseId, withEntry, List.getElem?_set_ne (Ne.symm h)]
  exact denseId_append index _ slot

theorem length_withEntry (index : List (Option Nat)) (name id : Nat) :
    index.length ≤ (withEntry index name id).length := by
  rw [withEntry, List.length_set, List.length_append]
  exact Nat.le_add_right _ _

/-- An interned name that no signal had has no entry. -/
theorem unindexed_of_check (hm : Indexed m) {name : String} {id : NameId} {names : NameTable}
    (hcheck : checkSignalName m name = .ok ()) (h : m.names.intern name = .ok (id, names)) :
    denseId m.namedSignals id = none := by
  rw [checkSignalName] at hcheck
  cases hget : m.names.get name with
  | some found =>
    have hintern : m.names.intern name = .ok (found, m.names) := by
      rw [NameTable.intern]
      split
      · next h' => rw [hget] at h'; cases h'; rfl
      · next h' => rw [hget] at h'; cases h'
    cases hintern.symm.trans h
    rw [hget] at hcheck
    cases hd : denseId m.namedSignals id with
    | none => rfl
    | some old => simp [hd, check, Bind.bind, Except.bind] at hcheck
  | none =>
    obtain ⟨hextends, hresolve⟩ := NameTable.intern_ok h
    have hnew := NameTable.get_eq_none hget
    cases hd : denseId m.namedSignals id with
    | none => rfl
    | some old =>
      have hlt := hm id old hd
      obtain ⟨text, htext⟩ : ∃ text, m.names.resolve id = some text :=
        ⟨_, by rw [NameTable.resolve_eq]; exact List.getElem?_eq_getElem hlt⟩
      cases (hextends.resolve htext).symm.trans hresolve
      rw [NameTable.resolve_eq] at htext
      exact absurd (List.mem_of_getElem? htext) hnew

theorem addNamedSignal_growing (name : String) (kind : SignalKind) (ty : WordType) :
    Growing (addNamedSignal name kind ty) := by
  refine .get fun m hm => outcome_fromExcept hm fun _ hcheck => ?_
  refine (internName_outcome m name).bind ?_ fun e m' h => by rw [h]; exact .refl hm
  rintro slot m' ⟨names, hintern, rfl⟩
  have hnames := grows_names hm (NameTable.intern_ok hintern).1
  have hnone := unindexed_of_check hm hcheck hintern
  have hlt : slot < names.entries.length := by
    have hresolve := (NameTable.intern_ok hintern).2
    rw [NameTable.resolve_eq] at hresolve
    exact (List.getElem?_eq_some_iff.mp hresolve).1
  have hpush : Outcome { m with names }
      (pushSignal ⟨some slot, kind, ty, .singleDriver, none⟩)
      (fun id m' => m' = { m with
        names, signals := m.signals ++ [⟨some slot, kind, ty, .singleDriver, none⟩] })
      (fun _ m' => m' = { m with names }) := by
    refine Outcome.get ?_
    cases hid : idFromIndex "signal" m.signals.length with
    | error e => exact Outcome.throw rfl
    | ok id => rfl
  refine hpush.bind ?_ fun e m' h => by rw [h]; exact hnames
  rintro id m' rfl
  have hset : nameSignal slot id = (do
      let m ← get
      let namedSignals ← fromExcept (insertDenseId m.namedSignals slot id)
      set { m with namedSignals }) := rfl
  rw [hset, bind_assoc]
  refine Outcome.get ?_
  simp only [insertDenseId_ok hnone id]
  have hdrop : (m.signals ++ [(⟨some slot, kind, ty, .singleDriver, none⟩ : Signal)]).drop
      m.signals.length = [⟨some slot, kind, ty, .singleDriver, none⟩] := List.drop_left
  exact show Grows m { m with
      names
      signals := m.signals ++ [⟨some slot, kind, ty, .singleDriver, none⟩]
      namedSignals := withEntry m.namedSignals slot id } from
    { hnames with
      rest := rfl
      signals := List.prefix_append _ _
      longer := length_withEntry _ _ _
      indexed := fun other old h => by
        by_cases he : other = slot
        · exact he ▸ hlt
        · rw [denseId_withEntry_ne he] at h
          exact hnames.indexed other old h
      kept := fun other old h => by
        rw [denseId_withEntry_ne fun he => by rw [he, hnone] at h; cases h]
        exact h
      fresh := fun signal hs other hother => by
        rw [hdrop, List.mem_singleton] at hs
        subst hs
        cases hother
        exact ⟨hnone, by rw [denseId_withEntry_self]; rfl⟩
      only := fun other h => by
        refine denseId_withEntry_ne fun he => ?_
        rw [hdrop] at h
        exact h _ List.mem_cons_self (congrArg some he.symm) }

theorem addGeneratedWire_growing (ty : WordType) : Growing (addGeneratedWire ty) := by
  refine .get fun m hm => outcome_fromExcept hm fun id _ => ?_
  have hdrop : (m.signals ++ [(⟨none, .wire, ty, .singleDriver, none⟩ : Signal)]).drop
      m.signals.length = [⟨none, .wire, ty, .singleDriver, none⟩] := List.drop_left
  exact show Grows m { m with
      signals := m.signals ++ [⟨none, .wire, ty, .singleDriver, none⟩] } from
    { Grows.refl hm with
      rest := rfl
      signals := List.prefix_append _ _
      fresh := fun signal hs slot hslot => by
        rw [hdrop, List.mem_singleton] at hs
        subst hs
        cases hslot
      only := fun _ _ => rfl }

theorem addMemory_growing (name : String) (elementType : WordType) (depth : Nat) :
    Growing (addMemory name elementType depth) := by
  refine .get fun m hm => outcome_fromExcept hm fun _ _ => ?_
  refine Growing.bind (internName_growing name) (fun slot => ?_) m hm
  refine .get fun m hm => outcome_fromExcept hm fun id _ => outcome_fromExcept hm fun index _ => ?_
  exact show Grows m { m with
      memories := m.memories ++ [⟨slot, elementType, depth⟩], namedMemories := index } from
    { Grows.refl hm with
      rest := rfl
      memories := List.prefix_append _ _
      namedMemories := fun h => by simp at h }

theorem addPort_growing (name : String) (direction : PortDirection) (ty : WordType) :
    Growing (addPort name direction ty) := by
  refine .get fun m hm => outcome_fromExcept hm fun port _ => ?_
  refine Growing.bind (addNamedSignal_growing name (.port port) ty) (fun signal => ?_) m hm
  refine .get fun m hm => ?_
  cases m.signals[signal]?.bind (·.name) with
  | none => exact Grows.refl hm
  | some slot =>
    exact show Grows m { m with ports := m.ports ++ [⟨slot, direction, signal, ty⟩] } from
      { Grows.refl hm with ports := List.prefix_append _ _, rest := rfl }

theorem Construction.build_growing (call : Construction) : Growing call.build := by
  cases call with
  | internName name => exact (internName_growing name).discard
  | addPort name direction ty => exact (addPort_growing name direction ty).discard
  | addWire name ty => exact (addNamedSignal_growing name .wire ty).discard
  | addRegisterSignal name ty => exact (addNamedSignal_growing name .register ty).discard
  | addProcessLocalSignal name ty => exact (addNamedSignal_growing name .processLocal ty).discard
  | addGeneratedWire ty => exact (addGeneratedWire_growing ty).discard
  | addMemory name elementType depth => exact (addMemory_growing name elementType depth).discard
  | addMemoryReadPort port => exact (addMemoryReadPort_growing port).discard
  | addMemoryWritePort port => exact (addMemoryWritePort_growing port).discard
  | constant bits ty => exact (constant_growing bits ty).discard
  | readSignal signal => exact (readSignal_growing signal).discard
  | readSignalSlice signal lsb width => exact (readSignalSlice_growing signal lsb width).discard
  | operation kind => exact (addOperation_growing kind).discard
  | appendMuxBatch operations => exact (appendMuxBatch_growing operations).discard
  | connect target value => exact connect_growing target value

theorem grows_after {call : Build α} (h : Growing call) (hm : Indexed m) :
    Grows m (after call m) := by
  have hcall := h m hm
  rw [after]
  cases hrun : call.run m with
  | ok a m' => exact hcall.ok hrun
  | error e m' => exact hcall.error hrun

theorem grows_construct (hm : Indexed m) (calls : List Construction) :
    Grows m (construct m calls) := by
  induction calls generalizing m with
  | nil => exact .refl hm
  | cons call calls ih =>
    have hcall := grows_after call.build_growing hm
    exact hcall.trans (ih hcall.indexed)

/-! Rolling back. -/

theorem take_of_prefix {β : Type} {xs ys : List β} (h : xs <+: ys) : ys.take xs.length = xs :=
  (List.prefix_iff_eq_take.mp h).symm

theorem eq_of_prefix {β : Type} {xs ys : List β} (h : xs <+: ys) (hlen : xs.length = ys.length) :
    ys = xs := (h.eq_of_length hlen).symm

theorem check_eq_ok {holds : Bool} {message : String} (h : check holds message = .ok ()) :
    holds = true := by
  rw [check] at h
  split_ifs at h with hh
  exact hh

theorem rollback_accepted {c : SpeculationCheckpoint} {names : NameTable}
    (h : m'.checkRollback c = .ok ()) (hnames : m'.names.rollback c.names = .ok names) :
    (rollbackSpeculation c).run m' = .ok () { m' with
      names
      values := m'.values.take c.values
      operations := m'.operations.take c.operations
      memoryReadPorts := m'.memoryReadPorts.take c.memoryReadPorts
      signals := m'.signals.take c.signals
      namedSignals := m'.namedSignals.take c.namedSignals } := by
  simp only [rollbackSpeculation, EStateM.run, bind, EStateM.bind, get, getThe, MonadStateOf.get,
    stateGet_eq, h, fromExcept, pure, EStateM.pure, set, stateSet_eq, hnames, Except.mapError]

/-- What an accepted rollback leaves of the module that grew since the checkpoint. -/
theorem rollback_grown (h : Grows m m') (haccept : m'.checkRollback m.speculationCheckpoint = .ok ()) :
    (rollbackSpeculation m.speculationCheckpoint).run m' =
      .ok () { m with namedSignals := m'.namedSignals.take m.namedSignals.length } := by
  have hrun := rollback_accepted haccept h.names.rollback
  obtain ⟨_, -, haccept⟩ := bind_eq_ok haccept
  obtain ⟨_, -, haccept⟩ := bind_eq_ok haccept
  obtain ⟨_, -, haccept⟩ := bind_eq_ok haccept
  obtain ⟨_, hlengths, -⟩ := bind_eq_ok haccept
  have hlengths := of_decide_eq_true (check_eq_ok hlengths)
  obtain ⟨-, -, hports, hmemories, hwrites, -, hconnects, -⟩ := hlengths
  rw [hrun, h.rest]
  simp only [speculationCheckpoint, take_of_prefix h.values, take_of_prefix h.operations,
    take_of_prefix h.signals, take_of_prefix h.memoryReadPorts, eq_of_prefix h.ports hports,
    eq_of_prefix h.memories hmemories, eq_of_prefix h.memoryWritePorts hwrites,
    eq_of_prefix h.connects hconnects, h.namedMemories hmemories.symm]

theorem rollback_refused (h : m'.checkRollback c = .error e) :
    (rollbackSpeculation c).run m' = .error e m' := by
  simp only [rollbackSpeculation, EStateM.run, bind, EStateM.bind, get, getThe,
    MonadStateOf.get, stateGet_eq, h, fromExcept, throw, throwThe, MonadExceptOf.throw, stateThrow_eq]

/-- The index up to its old length is the old one unless an old name got an entry. -/
theorem index_restored_iff (h : Grows m m') :
    m'.namedSignals.take m.namedSignals.length = m.namedSignals ↔
      ∀ signal ∈ m'.signals.drop m.signals.length, ∀ name, signal.name = some name →
        m.namedSignals.length ≤ name := by
  have hentry (slot : Nat) (hlt : slot < m.namedSignals.length) :
      denseId m'.namedSignals slot = denseId m.namedSignals slot ↔
        m'.namedSignals[slot]? = m.namedSignals[slot]? := by
    rw [denseId, denseId, List.getElem?_eq_getElem hlt,
      List.getElem?_eq_getElem (Nat.lt_of_lt_of_le hlt h.longer), Option.join_some, Option.join_some,
      Option.some_inj]
  constructor
  · intro htake signal hs name hname
    by_contra hlt
    have hlt := Nat.lt_of_not_le hlt
    obtain ⟨hnone, hsome⟩ := h.fresh signal hs name hname
    have hsame := (hentry name hlt).mpr (by
      conv_rhs => rw [← htake]
      rw [List.getElem?_take_of_lt hlt])
    rw [hsame, hnone] at hsome
    cases hsome
  · intro hclean
    apply List.ext_getElem?
    intro slot
    rcases Nat.lt_or_ge slot m.namedSignals.length with hlt | hge
    · rw [List.getElem?_take_of_lt hlt]
      refine (hentry slot hlt).mp (h.only slot fun signal hs hname => ?_)
      exact absurd (hclean signal hs slot hname) (Nat.not_le.mpr hlt)
    · rw [List.getElem?_eq_none hge, List.getElem?_eq_none]
      rw [List.length_take]
      omega

end Grows

/-- A module starts with an empty index. -/
theorem indexed_new {name : String} {identity : Nat} {m : WordModule}
    (h : WordModule.new name identity = .ok m) : Indexed m := by
  obtain ⟨entry, -, hm⟩ := bind_eq_ok h
  cases hm
  intro slot id hslot
  cases hslot

/-- What a rollback to the checkpoint taken at `m` should leave of `m'`. -/
def RolledBack (m m' : WordModule) : Prop :=
  match (rollbackSpeculation m.speculationCheckpoint).run m' with
  | .ok () restored => restored = m
  | .error _ unchanged => unchanged = m'

instance (m m' : WordModule) : Decidable (RolledBack m m') :=
  match h : (rollbackSpeculation m.speculationCheckpoint).run m' with
  | .ok () restored => decidable_of_iff (restored = m) (by rw [RolledBack, h])
  | .error _ unchanged => decidable_of_iff (unchanged = m') (by rw [RolledBack, h])

/-- Signals added since `m` bear names that its index did not reach. -/
def NamedBeyond (m m' : WordModule) : Prop :=
  ∀ signal ∈ m'.signals.drop m.signals.length, ∀ name ∈ signal.name, m.namedSignals.length ≤ name

instance (m m' : WordModule) : Decidable (NamedBeyond m m') :=
  inferInstanceAs (Decidable (∀ signal ∈ m'.signals.drop m.signals.length, ∀ name ∈ signal.name,
    m.namedSignals.length ≤ name))

theorem rolledBack_iff {m : WordModule} (hm : Indexed m) (calls : List Construction) :
    RolledBack m (construct m calls) ↔
      ((construct m calls).checkRollback m.speculationCheckpoint = .ok () →
        NamedBeyond m (construct m calls)) := by
  have hgrows := grows_construct hm calls
  rw [RolledBack]
  cases hcheck : (construct m calls).checkRollback m.speculationCheckpoint with
  | error e =>
    rw [rollback_refused hcheck]
    constructor
    · intro _ h
      cases h
    · intro _
      rfl
  | ok accepted =>
    rw [rollback_grown hgrows hcheck]
    have hindex := index_restored_iff hgrows
    constructor
    · intro hrestored _
      exact hindex.mp (congrArg WordModule.namedSignals hrestored)
    · intro hbeyond
      have hsame := hindex.mpr (hbeyond rfl)
      exact show { m with namedSignals := _ } = m by rw [hsame]

/-- A new name and an unnamed wire are taken back. -/
theorem wires_rolled_back : ∃ m, WordModule.new "m" 0 = .ok m ∧
    let before := construct m [.addWire "a" (.scalar .twoState)]
    let speculated := construct before
      [.addWire "b" (.scalar .twoState), .addGeneratedWire (.scalar .twoState)]
    speculated.signals.length = 3 ∧ RolledBack before speculated := by
  refine ⟨_, rfl, by decide, ?_⟩
  have hstart := grows_construct (@indexed_new "m" 0 _ rfl) [.addWire "a" (.scalar .twoState)]
  refine (rolledBack_iff hstart.indexed _).mpr fun _ => ?_
  decide

/-- The name of the module was there before the wire that takes it. -/
theorem old_name_survives : ∃ m, WordModule.new "m" 0 = .ok m ∧
    let before := construct m [.addWire "a" (.scalar .twoState)]
    let speculated := construct before [.addWire "m" (.scalar .twoState)]
    let rolled := after (rollbackSpeculation before.speculationCheckpoint) speculated
    ¬ RolledBack before speculated ∧ rolled.signals = before.signals ∧
      denseId rolled.namedSignals 1 = some 1 ∧
      construct rolled [.addWire "m" (.scalar .twoState)] = rolled ∧
      (construct before [.addWire "m" (.scalar .twoState)]).signals.length = 2 := by
  refine ⟨_, rfl, ?_⟩
  decide

end Opto.Word
