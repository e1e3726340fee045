import Opto.Synth.CoverPayload

/-!
# Cover payloads are exact

One function says which bytes belong to a cover without its binding numbers. The writer
produces them, the reader gets the cover back from them, and reads no other bytes.
-/

namespace Opto.Synth.Cover

open Codec
open Mapped (U32_MAX)

/-! The bytes of a cover. -/

def LibraryCoverBinding.isJoint : LibraryCoverBinding → Bool
  | single _ => false
  | joint _ => true

def LibraryCoverCell.portable (cell : LibraryCoverCell) : PortableCoverCell where
  bindingIdentity := cell.bindingIdentity
  truth := cell.truth
  secondTruth := cell.secondTruth
  joint := cell.binding.isJoint
  sources := cell.sources

def LibraryCover.portable (cover : LibraryCover) : PortableCover where
  cells := cover.cells.map LibraryCoverCell.portable
  outputs := cover.outputs

def truthBytes (truth : TruthTable) : List UInt8 := leBytes 8 truth.bits.toNat ++ leBytes 1 truth.inputCount

def jointBytes (joint : Bool) : List UInt8 := leBytes 1 (if joint then 1 else 0)

def secondBytes : Option TruthTable → List UInt8
  | none => leBytes 1 0
  | some truth => leBytes 1 1 ++ truthBytes truth

def sourceNumber : LibraryCoverSource → Nat
  | .constant value => if value then 1 else 0
  | .input _ => 2
  | .cell _ => 3
  | .cellSecond _ => 4

def sourceIndex : LibraryCoverSource → Nat
  | .constant _ => 0
  | .input index | .cell index | .cellSecond index => index.toNat

def sourceBytes (source : LibraryCoverSource) : List UInt8 :=
  leBytes 1 (sourceNumber source) ++ leBytes 8 (sourceIndex source)

def sourcesBytes (sources : List LibraryCoverSource) : List UInt8 :=
  leBytes 8 sources.length ++ sources.flatMap sourceBytes

def identityBytes (identity : List UInt8) : List UInt8 := leBytes 8 identity.length ++ identity

def cellBytes (index : Nat) (cell : PortableCoverCell) : List UInt8 :=
  leBytes 4 index ++ (identityBytes cell.bindingIdentity ++ (truthBytes cell.truth ++ (jointBytes cell.joint ++
    (secondBytes cell.secondTruth ++ sourcesBytes cell.sources))))

def cellsBytes (cells : List PortableCoverCell) : List UInt8 :=
  leBytes 8 cells.length ++ cells.zipIdx.flatMap fun entry => cellBytes entry.2 entry.1

def coverBytes (cover : PortableCover) : List UInt8 :=
  magic ++ (cellsBytes cover.cells ++ sourcesBytes cover.outputs)

/-- A table of the width that cuts are matched at. -/
def Narrow (truth : TruthTable) : Prop := truth.inputCount ≤ MAX_MATCH_INPUTS

def PortableCoverCell.Narrow (cell : PortableCoverCell) : Prop :=
  Cover.Narrow cell.truth ∧ ∀ truth ∈ cell.secondTruth, Cover.Narrow truth

/-- Lengths are machine words. -/
def PortableCoverCell.Sized (cell : PortableCoverCell) : Prop :=
  cell.bindingIdentity.length < 2 ^ 64 ∧ cell.sources.length < 2 ^ 64

def PortableCover.Sized (cover : PortableCover) : Prop :=
  (∀ cell ∈ cover.cells, cell.Sized) ∧ cover.outputs.length < 2 ^ 64

/-! Counts. -/

variable {α : Type}

/-- A count that the bytes of its items back up. -/
theorem reads_counted {resource : String} {least n : Nat} {k : Nat → Decoder SynthError α} {bytes : List UInt8}
    {a : α} (hleast : 0 < least) (hn : n < 2 ^ 64) (hroom : n * least ≤ bytes.length) (hk : Reads (k n) bytes a) :
    Reads (readCount resource least >>= fun count => reserve count least >>= fun _ => k count)
      (leBytes 8 n ++ bytes) a := by
  intro rest reserved
  have hword : n < 256 ^ 8 := hn
  obtain ⟨reserved', hread⟩ := Reads.readLe truncated hword (bytes ++ rest) reserved
  have hguard : ¬(bytes ++ rest).length / least < n := by
    rw [List.length_append]
    have hle : n ≤ bytes.length / least := (Nat.le_div_iff_mul_le hleast).mpr hroom
    have hmono : bytes.length / least ≤ (bytes.length + rest.length) / least :=
      Nat.div_le_div_right (Nat.le_add_right _ _)
    omega
  obtain ⟨reserved'', hrest⟩ := hk rest (reserved' ++ [⟨n, least, (bytes ++ rest).length⟩])
  refine ⟨reserved'', ?_⟩
  rw [List.append_assoc]
  simp only [EStateM.run] at hread hrest
  simp only [EStateM.run, readCount, readU64, Bind.bind, EStateM.bind, hread, get, getThe, MonadStateOf.get,
    stateGet_eq, if_neg hguard]
  exact hrest

theorem decodes_counted {resource : String} {least : Nat} {k : Nat → Decoder SynthError α}
    {Q : α → List UInt8 → Prop}
    (hk : ∀ n < 2 ^ 64, Decodes (k n) fun a bytes => Q a (leBytes 8 n ++ bytes)) :
    Decodes (readCount resource least >>= fun count => reserve count least >>= fun _ => k count) Q := by
  intro tape hsafe
  have hcount : Outcome tape (readCount resource least) (fun n tape' => Safe tape' ∧
      tape.remaining = leBytes 8 n ++ tape'.remaining ∧ n < 2 ^ 64 ∧ n * least ≤ tape'.remaining.length)
      (fun _ tape' => Safe tape') := by
    rw [readCount]
    apply (Decodes.readLe truncated 8 tape hsafe).bind
    · rintro n tape' ⟨hsafe', _, hbytes, rfl, hn⟩
      apply Outcome.get
      split_ifs with hfew
      · exact Outcome.throw hsafe'
      · refine Outcome.pure ⟨hsafe', hbytes, hn, ?_⟩
        calc
          n * least ≤ tape'.remaining.length / least * least := Nat.mul_le_mul_right least (not_lt.mp hfew)
          _ ≤ tape'.remaining.length := Nat.div_mul_le_self _ _
    · exact fun _ _ he => he
  apply hcount.bind
  · intro n tape' ⟨hsafe', hbytes, hn, hroom⟩
    apply Outcome.modify
    have hreserved : Safe { tape' with reserved := tape'.reserved ++ [⟨n, least, tape'.remaining.length⟩] } := by
      intro r hr
      obtain hr | hr := List.mem_append.mp hr
      · exact hsafe' r hr
      · obtain rfl := List.mem_singleton.mp hr
        exact hroom
    apply (hk n hn _ hreserved).mono
    · intro a tape'' ⟨hsafe'', bytes, hrest, hQ⟩
      refine ⟨hsafe'', leBytes 8 n ++ bytes, ?_, hQ⟩
      rw [hbytes, List.append_assoc]
      exact congrArg _ hrest
    · exact fun _ _ he => he
  · exact fun _ _ he => he

/-! Truth tables and tags. -/

theorem reads_truth {truth : TruthTable} (h : Narrow truth) : Reads readTruth (truthBytes truth) truth := by
  have hbits : truth.bits.toNat < 256 ^ 8 := truth.bits.isLt
  have hcount : truth.inputCount < 256 ^ 1 := lt_of_le_of_lt h (by decide)
  apply (Reads.readLe truncated hbits).bind
  have hback : (⟨truth.inputCount, BitVec.ofNat 64 truth.bits.toNat⟩ : TruthTable) = truth := by
    rw [BitVec.ofNat_toNat, BitVec.setWidth_eq]
  have hguard : ¬MAX_MATCH_INPUTS < truth.inputCount := not_lt.mpr h
  rw [← List.append_nil (leBytes 1 _)]
  apply (Reads.readLe truncated hcount).bind
  rw [if_neg hguard, hback]
  exact Reads.pure truth

theorem decodes_truth : Decodes readTruth fun truth bytes => bytes = truthBytes truth ∧ Narrow truth := by
  apply (Decodes.readLe truncated 8).bind
  rintro bits _ ⟨rfl, hbits⟩
  apply (Decodes.readLe truncated 1).bind
  rintro inputCount _ ⟨rfl, _⟩
  split_ifs with hwide
  · exact Decodes.throw _
  · apply Decodes.pure
    have hback : (BitVec.ofNat 64 bits).toNat = bits := by
      rw [BitVec.toNat_ofNat]
      exact Nat.mod_eq_of_lt hbits
    refine ⟨?_, not_lt.mp hwide⟩
    rw [List.append_nil, truthBytes, hback]

theorem reads_joint (joint : Bool) : Reads readJoint (jointBytes joint) joint := by
  rw [← List.append_nil (jointBytes joint)]
  apply (Reads.readLe truncated (by cases joint <;> decide)).bind
  cases joint with
  | false => exact Reads.pure false
  | true => exact Reads.pure true

theorem decodes_joint : Decodes readJoint fun joint bytes => bytes = jointBytes joint := by
  apply (Decodes.readLe truncated 1).bind
  rintro kind _ ⟨rfl, _⟩
  split_ifs with hsingle hjoint
  · apply Decodes.pure
    rw [List.append_nil, hsingle]
    rfl
  · apply Decodes.pure
    rw [List.append_nil, hjoint]
    rfl
  · exact Decodes.throw _

theorem reads_second {second : Option TruthTable} (h : ∀ truth ∈ second, Narrow truth) :
    Reads readSecond (secondBytes second) second := by
  cases second with
  | none =>
    rw [secondBytes, ← List.append_nil (leBytes 1 0)]
    exact (Reads.readLe truncated (by decide)).bind (Reads.pure none)
  | some truth =>
    apply (Reads.readLe truncated (n := 1) (by decide)).bind
    exact (reads_truth (h truth rfl)).map some

theorem decodes_second : Decodes readSecond fun second bytes =>
    bytes = secondBytes second ∧ ∀ truth ∈ second, Narrow truth := by
  apply (Decodes.readLe truncated 1).bind
  rintro marker _ ⟨rfl, _⟩
  split_ifs with hnone hsome
  · apply Decodes.pure
    rw [List.append_nil, hnone]
    exact ⟨rfl, by simp⟩
  · apply decodes_truth.bind
    rintro truth _ ⟨rfl, hnarrow⟩
    apply Decodes.pure
    rw [List.append_nil, hsome]
    exact ⟨rfl, by simpa using hnarrow⟩
  · exact Decodes.throw _

/-! Sources. -/

theorem sourceIndex_lt (source : LibraryCoverSource) : sourceIndex source < 256 ^ 8 := by
  cases source with
  | constant value => exact (by decide : 0 < 256 ^ 8)
  | input index | cell index | cellSecond index => exact index.toNat_lt

theorem sourceOf_number (source : LibraryCoverSource) :
    sourceOf (sourceNumber source) (sourceIndex source) = .ok source := by
  cases source with
  | constant value => cases value <;> rfl
  | input index | cell index | cellSecond index =>
    simp [sourceOf, sourceNumber, sourceIndex]

theorem number_of_sourceOf {kind index : Nat} {source : LibraryCoverSource} (hindex : index < 256 ^ 8)
    (h : sourceOf kind index = .ok source) : kind = sourceNumber source ∧ index = sourceIndex source := by
  have hback : (UInt64.ofNat index).toNat = index := by
    rw [UInt64.toNat_ofNat']
    exact Nat.mod_eq_of_lt hindex
  unfold sourceOf at h
  split_ifs at h with hfalse htrue hinput hcell hsecond
  · obtain rfl := Except.ok.inj h
    exact hfalse
  · obtain rfl := Except.ok.inj h
    exact htrue
  · obtain rfl := Except.ok.inj h
    exact ⟨hinput, hback.symm⟩
  · obtain rfl := Except.ok.inj h
    exact ⟨hcell, hback.symm⟩
  · obtain rfl := Except.ok.inj h
    exact ⟨hsecond, hback.symm⟩

theorem reads_source (source : LibraryCoverSource) : Reads readSource (sourceBytes source) source := by
  have hnumber : sourceNumber source < 256 ^ 1 := by
    cases source with
    | constant value => cases value <;> exact (by decide)
    | input index => exact (by decide : 2 < 256)
    | cell index => exact (by decide : 3 < 256)
    | cellSecond index => exact (by decide : 4 < 256)
  apply (Reads.readLe truncated hnumber).bind
  rw [← List.append_nil (leBytes 8 _)]
  apply (Reads.readLe truncated (sourceIndex_lt source)).bind
  rw [sourceOf_number]
  exact Reads.pure source

theorem decodes_source : Decodes readSource fun source bytes => bytes = sourceBytes source ∧ True := by
  apply (Decodes.readLe truncated 1).bind
  rintro kind _ ⟨rfl, _⟩
  apply (Decodes.readLe truncated 8).bind
  rintro index _ ⟨rfl, hindex⟩
  cases hsource : sourceOf kind index with
  | error e => exact Decodes.throw e
  | ok source =>
    apply Decodes.pure
    obtain ⟨rfl, rfl⟩ := number_of_sourceOf hindex hsource
    rw [List.append_nil]
    exact ⟨rfl, trivial⟩

theorem length_sourceBytes (source : LibraryCoverSource) : (sourceBytes source).length = 9 := by
  rw [sourceBytes, List.length_append, length_leBytes, length_leBytes]

theorem flatMap_zipIdx {α : Type} (encode : α → List UInt8) (xs : List α) (k : Nat) :
    ((xs.zipIdx k).flatMap fun entry => encode entry.1) = xs.flatMap encode := by
  induction xs generalizing k with
  | nil => rfl
  | cons x xs ih => rw [List.zipIdx_cons, List.flatMap_cons, List.flatMap_cons, ih]

theorem le_length_flatMap {α : Type} {encode : α → List UInt8} {least : Nat} {xs : List α}
    (h : ∀ x ∈ xs, least ≤ (encode x).length) : xs.length * least ≤ (xs.flatMap encode).length := by
  induction xs with
  | nil => simp
  | cons x xs ih =>
    obtain ⟨hx, hxs⟩ := List.forall_mem_cons.mp h
    rw [List.flatMap_cons, List.length_append, List.length_cons, Nat.succ_mul, Nat.add_comm]
    exact Nat.add_le_add hx (ih hxs)

theorem reads_sources (resource : String) {sources : List LibraryCoverSource} (h : sources.length < 2 ^ 64) :
    Reads (readSources resource) (sourcesBytes sources) sources := by
  apply reads_counted (by decide) h
  · exact le_length_flatMap fun source _ => (length_sourceBytes source).ge
  · have hread : Reads (timesFrom (fun _ => readSource) 0 sources.length)
        ((sources.zipIdx 0).flatMap fun entry => sourceBytes entry.1) sources :=
      Reads.timesFrom (fun _ => sourceBytes) fun _ source _ => reads_source source
    rwa [flatMap_zipIdx] at hread

theorem decodes_sources (resource : String) : Decodes (readSources resource) fun sources bytes =>
    bytes = sourcesBytes sources ∧ sources.length < 2 ^ 64 := by
  apply decodes_counted
  intro n hn
  apply (Decodes.timesFrom (fun _ => decodes_source) 0 n).mono
  rintro sources _ ⟨rfl, rfl, _⟩
  rw [flatMap_zipIdx]
  exact ⟨rfl, hn⟩

/-! Cells. -/

theorem reads_identity {identity : List UInt8} (h : identity.length < 2 ^ 64) :
    Reads readIdentity (identityBytes identity) identity := by
  apply reads_counted (by decide) h
  · rw [Nat.mul_one]
  · exact Reads.takeBytes truncated identity

theorem decodes_identity : Decodes readIdentity fun identity bytes =>
    bytes = identityBytes identity ∧ identity.length < 2 ^ 64 := by
  apply decodes_counted
  intro n hn
  apply (Decodes.takeBytes truncated n).mono
  rintro identity _ ⟨rfl, rfl⟩
  exact ⟨rfl, hn⟩

theorem reads_cell {index : Nat} {cell : PortableCoverCell} (hindex : index < 2 ^ 32) (hsized : cell.Sized)
    (hnarrow : cell.Narrow) : Reads (readCell index) (cellBytes index cell) cell := by
  have hword : index < 256 ^ 4 := hindex
  apply (Reads.readLe truncated hword).bind
  rw [if_neg (not_not_intro rfl)]
  apply (reads_identity hsized.1).bind
  apply (reads_truth hnarrow.1).bind
  apply (reads_joint cell.joint).bind
  apply (reads_second hnarrow.2).bind
  exact (reads_sources _ hsized.2).map _

theorem decodes_cell (index : Nat) : Decodes (readCell index) fun cell bytes =>
    bytes = cellBytes index cell ∧ index < 2 ^ 32 ∧ cell.Sized ∧ cell.Narrow := by
  apply (Decodes.readLe truncated 4).bind
  rintro position _ ⟨rfl, hposition⟩
  split_ifs with hother
  · exact Decodes.throw _
  obtain rfl : position = index := not_not.mp hother
  apply decodes_identity.bind
  rintro identity _ ⟨rfl, hidentity⟩
  apply decodes_truth.bind
  rintro truth _ ⟨rfl, htruth⟩
  apply decodes_joint.bind
  rintro joint _ rfl
  apply decodes_second.bind
  rintro second _ ⟨rfl, hsecond⟩
  apply (decodes_sources _).bind
  rintro sources _ ⟨rfl, hsources⟩
  apply Decodes.pure
  rw [List.append_nil]
  exact ⟨rfl, hposition, ⟨hidentity, hsources⟩, htruth, hsecond⟩

theorem le_length_cellBytes (index : Nat) (cell : PortableCoverCell) : 31 ≤ (cellBytes index cell).length := by
  have hsecond : 1 ≤ (secondBytes cell.secondTruth).length := by
    cases cell.secondTruth with
    | none => exact (length_leBytes 1 0).ge
    | some truth =>
      rw [secondBytes, List.length_append, length_leBytes]
      exact Nat.le_add_right _ _
  simp only [cellBytes, identityBytes, truthBytes, jointBytes, sourcesBytes, List.length_append, length_leBytes]
  omega

theorem reads_cells {cells : List PortableCoverCell} (hcount : cells.length ≤ 2 ^ 32)
    (hsized : ∀ cell ∈ cells, cell.Sized) (hnarrow : ∀ cell ∈ cells, cell.Narrow) :
    Reads readCells (cellsBytes cells) cells := by
  apply reads_counted (by decide) (by omega)
  · rw [← List.length_zipIdx (i := 0)]
    exact le_length_flatMap fun entry _ => le_length_cellBytes entry.2 entry.1
  · apply Reads.timesFrom cellBytes
    intro i cell hcell
    obtain ⟨hi, rfl⟩ := List.getElem?_eq_some_iff.mp hcell
    rw [Nat.zero_add]
    exact reads_cell (by omega) (hsized _ (List.getElem_mem hi)) (hnarrow _ (List.getElem_mem hi))

theorem decodes_cells : Decodes readCells fun cells bytes => bytes = cellsBytes cells ∧
    cells.length ≤ 2 ^ 32 ∧ ∀ cell ∈ cells, cell.Sized ∧ cell.Narrow := by
  apply decodes_counted
  intro n _
  apply (Decodes.timesFrom decodes_cell 0 n).mono
  rintro cells _ ⟨rfl, rfl, hcells⟩
  refine ⟨rfl, ?_, ?_⟩
  · by_contra! hmany
    have hlast := hcells (cells[2 ^ 32], 2 ^ 32) (List.mem_zipIdx_iff_getElem?.mpr (List.getElem?_eq_getElem hmany))
    exact lt_irrefl _ hlast.1
  · intro cell hcell
    obtain ⟨i, hi, rfl⟩ := List.getElem_of_mem hcell
    exact (hcells (cells[i], i) (List.mem_zipIdx_iff_getElem?.mpr (List.getElem?_eq_getElem hi))).2

/-! Covers. -/

theorem reads_cover {cover : PortableCover} (hcount : cover.cells.length ≤ 2 ^ 32) (hsized : cover.Sized)
    (hnarrow : ∀ cell ∈ cover.cells, cell.Narrow) : decode (coverBytes cover) = .ok cover := by
  obtain ⟨reserved₁, hmagic⟩ := Reads.takeBytes truncated magic (cellsBytes cover.cells ++ sourcesBytes cover.outputs) []
  obtain ⟨reserved₂, hcells⟩ := reads_cells hcount hsized.1 hnarrow (sourcesBytes cover.outputs) reserved₁
  obtain ⟨reserved₃, houtputs⟩ := reads_sources "regional cover-plan output count" hsized.2 [] reserved₂
  rw [List.append_nil] at houtputs
  have hrun : readCover.run ⟨coverBytes cover, []⟩ = .ok cover ⟨[], reserved₃⟩ := by
    change takeBytes truncated 5 ⟨coverBytes cover, []⟩ = _ at hmagic
    simp only [EStateM.run] at hcells houtputs
    simp only [EStateM.run, readCover, Bind.bind, EStateM.bind, hmagic, if_neg (not_not_intro rfl), hcells, houtputs]
    rfl
  rw [decode, hrun]

theorem decodes_cover : Decodes readCover fun cover bytes => bytes = coverBytes cover ∧
    cover.cells.length ≤ 2 ^ 32 ∧ cover.Sized ∧ ∀ cell ∈ cover.cells, cell.Narrow := by
  apply (Decodes.takeBytes truncated 5).bind
  rintro abi _ ⟨rfl, _⟩
  split_ifs with hother
  · exact Decodes.throw _
  rw [not_not.mp hother]
  apply decodes_cells.bind
  rintro cells _ ⟨rfl, hcount, hcells⟩
  apply (decodes_sources _).bind
  rintro outputs _ ⟨rfl, houtputs⟩
  intro tape hsafe
  apply Outcome.get
  split_ifs with hmore
  · exact Outcome.throw hsafe
  · refine ⟨hsafe, [], rfl, ?_, hcount, ⟨fun cell hcell => (hcells cell hcell).1, houtputs⟩,
      fun cell hcell => (hcells cell hcell).2⟩
    rw [List.append_nil]
    rfl

/-- An accepted payload is the bytes of the cover it stands for. -/
theorem bytes_of_decode {payload : List UInt8} {cover : PortableCover} (h : decode payload = .ok cover) :
    payload = coverBytes cover ∧ cover.cells.length ≤ 2 ^ 32 ∧ cover.Sized ∧ ∀ cell ∈ cover.cells, cell.Narrow := by
  have hsafe : Safe ⟨payload, []⟩ := fun _ hr => nomatch hr
  have hends : Outcome ⟨payload, []⟩ readCover (fun _ tape => tape.remaining = []) (fun _ _ => True) := by
    have hany : ∀ (α : Type) (m : Decoder SynthError α) tape, Outcome tape m (fun _ _ => True) (fun _ _ => True) := by
      intro α m tape
      unfold Outcome
      split <;> trivial
    refine (hany _ _ _).bind ?_ fun _ _ he => he
    intro abi tape _
    split_ifs with hother
    · exact Outcome.throw trivial
    refine (hany _ _ _).bind ?_ fun _ _ he => he
    intro cells tape _
    refine (hany _ _ _).bind ?_ fun _ _ he => he
    intro outputs tape _
    apply Outcome.get
    split_ifs with hmore
    · exact Outcome.throw trivial
    · exact Outcome.pure (not_not.mp hmore)
  cases hrun : readCover.run ⟨payload, []⟩ with
  | error e tape =>
    rw [decode, hrun] at h
    exact nomatch h
  | ok cover' tape =>
    rw [decode, hrun] at h
    obtain rfl := Except.ok.inj h
    obtain ⟨_, bytes, hbytes, rfl, hcover⟩ := (decodes_cover ⟨payload, []⟩ hsafe).ok hrun
    rw [hends.ok hrun, List.append_nil] at hbytes
    exact ⟨hbytes, hcover⟩

/-! What the writer produces. -/

theorem leBytes_one (n : Nat) : leBytes 1 n = [UInt8.ofNat n] := rfl

theorem encodeSource_eq (source : LibraryCoverSource) : encodeSource source = sourceBytes source := by
  cases source with
  | constant value => cases value <;> rfl
  | input index | cell index | cellSecond index => rfl

theorem encodeSource_eq_funext : encodeSource = sourceBytes := funext encodeSource_eq

theorem encodeTruth_ok {resource : String} {truth : TruthTable} {bytes : List UInt8} :
    encodeTruth resource truth = .ok bytes ↔ truth.inputCount ≤ U8_MAX ∧ bytes = truthBytes truth := by
  unfold encodeTruth
  split_ifs with hcount
  · constructor
    · intro h
      exact ⟨hcount, (Except.ok.inj h).symm⟩
    · rintro ⟨_, rfl⟩
      rfl
  · constructor
    · exact fun h => nomatch h
    · exact fun h => absurd h.1 hcount

theorem encodeSecond_ok {second : Option TruthTable} {bytes : List UInt8} :
    encodeSecond second = .ok bytes ↔ (∀ truth ∈ second, truth.inputCount ≤ U8_MAX) ∧ bytes = secondBytes second := by
  cases second with
  | none =>
    constructor
    · intro h
      exact ⟨by simp, (Except.ok.inj h).symm⟩
    · rintro ⟨_, rfl⟩
      rfl
  | some truth =>
    rw [encodeSecond]
    constructor
    · intro h
      obtain ⟨table, htable, hrest⟩ := bind_eq_ok h
      obtain ⟨hcount, rfl⟩ := encodeTruth_ok.mp htable
      exact ⟨by simpa using hcount, (Except.ok.inj hrest).symm⟩
    · rintro ⟨hcount, rfl⟩
      rw [encodeTruth_ok.mpr ⟨hcount truth rfl, rfl⟩]
      rfl

/-- Input counts that a byte holds. -/
def LibraryCoverCell.Countable (cell : LibraryCoverCell) : Prop :=
  cell.truth.inputCount ≤ U8_MAX ∧ ∀ truth ∈ cell.secondTruth, truth.inputCount ≤ U8_MAX

theorem encodeCell_ok {payload bytes : List UInt8} {entry : LibraryCoverCell × Nat} :
    encodeCell payload entry = .ok bytes ↔
      (entry.2 ≤ U32_MAX ∧ entry.1.Countable) ∧ bytes = payload ++ cellBytes entry.2 entry.1.portable := by
  have hkind : [entry.1.binding.kind] = jointBytes entry.1.binding.isJoint := by
    cases entry.1.binding <;> rfl
  have hbytes : payload ++ cellBytes entry.2 entry.1.portable = payload ++ (leBytes 4 entry.2 ++
      (leBytes 8 entry.1.bindingIdentity.length ++ (entry.1.bindingIdentity ++ (truthBytes entry.1.truth ++
        ([entry.1.binding.kind] ++ (secondBytes entry.1.secondTruth ++
          (leBytes 8 entry.1.sources.length ++ entry.1.sources.flatMap encodeSource))))))) := by
    rw [hkind, encodeSource_eq_funext]
    simp only [cellBytes, identityBytes, sourcesBytes, LibraryCoverCell.portable, List.append_assoc]
  rw [hbytes]
  unfold encodeCell
  split_ifs with hindex
  · constructor
    · intro h
      obtain ⟨truth, htruth, h⟩ := bind_eq_ok h
      obtain ⟨second, hsecond, h⟩ := bind_eq_ok h
      obtain ⟨hcount, rfl⟩ := encodeTruth_ok.mp htruth
      obtain ⟨hcounts, rfl⟩ := encodeSecond_ok.mp hsecond
      exact ⟨⟨hindex, hcount, hcounts⟩, (Except.ok.inj h).symm⟩
    · rintro ⟨⟨_, hcount, hcounts⟩, rfl⟩
      rw [encodeTruth_ok.mpr ⟨hcount, rfl⟩, encodeSecond_ok.mpr ⟨hcounts, rfl⟩]
      rfl
  · constructor
    · exact fun h => nomatch h
    · exact fun h => absurd h.1.1 hindex

theorem encodeCells_ok {cells : List LibraryCoverCell} {k : Nat} {payload bytes : List UInt8} :
    (cells.zipIdx k).foldlM encodeCell payload = .ok bytes ↔
      (∀ entry ∈ cells.zipIdx k, entry.2 ≤ U32_MAX ∧ entry.1.Countable) ∧
      bytes = payload ++ (cells.zipIdx k).flatMap fun entry => cellBytes entry.2 entry.1.portable := by
  induction cells generalizing k payload with
  | nil =>
    rw [List.zipIdx_nil, List.foldlM_nil, List.flatMap_nil, List.append_nil]
    constructor
    · intro h
      exact ⟨by simp, (Except.ok.inj h).symm⟩
    · rintro ⟨_, rfl⟩
      rfl
  | cons cell cells ih =>
    rw [List.zipIdx_cons, List.foldlM_cons, List.flatMap_cons, List.forall_mem_cons]
    constructor
    · intro h
      obtain ⟨written, hwritten, h⟩ := bind_eq_ok h
      obtain ⟨hcell, rfl⟩ := encodeCell_ok.mp hwritten
      obtain ⟨hcells, rfl⟩ := ih.mp h
      exact ⟨⟨hcell, hcells⟩, List.append_assoc _ _ _⟩
    · rintro ⟨⟨hcell, hcells⟩, rfl⟩
      rw [encodeCell_ok.mpr ⟨hcell, rfl⟩]
      exact ih.mpr ⟨hcells, (List.append_assoc _ _ _).symm⟩

/-- The payload of a cover that can be written is its bytes. -/
theorem payload_ok {cover : LibraryCover} {bytes : List UInt8} :
    cover.payload = .ok bytes ↔ (cover.cells.length ≤ 2 ^ 32 ∧ ∀ cell ∈ cover.cells, cell.Countable) ∧
      bytes = coverBytes cover.portable := by
  have hentries : (∀ entry ∈ cover.cells.zipIdx, entry.2 ≤ U32_MAX ∧ entry.1.Countable) ↔
      cover.cells.length ≤ 2 ^ 32 ∧ ∀ cell ∈ cover.cells, cell.Countable := by
    constructor
    · intro h
      constructor
      · by_contra! hmany
        have hlast := h (cover.cells[2 ^ 32], 2 ^ 32)
          (List.mem_zipIdx_iff_getElem?.mpr (List.getElem?_eq_getElem hmany))
        exact absurd hlast.1 (by decide : ¬2 ^ 32 ≤ U32_MAX)
      · intro cell hcell
        obtain ⟨i, hi, rfl⟩ := List.getElem_of_mem hcell
        exact (h (cover.cells[i], i) (List.mem_zipIdx_iff_getElem?.mpr (List.getElem?_eq_getElem hi))).2
    · rintro ⟨hcount, hcells⟩ ⟨cell, i⟩ hentry
      have hcell := List.mem_zipIdx_iff_getElem?.mp hentry
      obtain ⟨hi, _⟩ := List.getElem?_eq_some_iff.mp hcell
      refine ⟨Nat.le_of_lt_succ ?_, hcells _ (List.mem_of_getElem? hcell)⟩
      exact lt_of_lt_of_le hi hcount
  have hbytes : coverBytes cover.portable = magic ++ leBytes 8 cover.cells.length ++
      (cover.cells.zipIdx.flatMap fun entry => cellBytes entry.2 entry.1.portable) ++
      (leBytes 8 cover.outputs.length ++ cover.outputs.flatMap encodeSource) := by
    rw [encodeSource_eq_funext]
    simp only [coverBytes, cellsBytes, sourcesBytes, LibraryCover.portable, List.length_map, List.zipIdx_map,
      List.flatMap_map, List.append_assoc]
    rfl
  rw [← hentries, hbytes]
  constructor
  · intro h
    obtain ⟨written, hwritten, h⟩ := bind_eq_ok h
    obtain ⟨hcells, rfl⟩ := encodeCells_ok.mp hwritten
    exact ⟨hcells, (Except.ok.inj h).symm⟩
  · rintro ⟨hcells, rfl⟩
    rw [LibraryCover.payload, encodeCells_ok.mpr ⟨hcells, rfl⟩]
    rfl

/-! A cover of the catalog for every portable one. -/

def PortableCoverCell.library (cell : PortableCoverCell) : LibraryCoverCell where
  binding := if cell.joint then .joint 0 else .single 0
  bindingIdentity := cell.bindingIdentity
  truth := cell.truth
  secondTruth := cell.secondTruth
  sources := cell.sources

def PortableCover.library (cover : PortableCover) : LibraryCover where
  cells := cover.cells.map PortableCoverCell.library
  outputs := cover.outputs

theorem PortableCover.portable_library (cover : PortableCover) : cover.library.portable = cover := by
  have hcell : ∀ cell : PortableCoverCell, cell.library.portable = cell := by
    intro cell
    cases cell with
    | mk identity truth second joint sources => cases joint <;> rfl
  have hcells : LibraryCoverCell.portable ∘ PortableCoverCell.library = id := funext hcell
  rw [PortableCover.library, LibraryCover.portable, List.map_map, hcells, List.map_id]

/-! References. -/

variable {S : Type}

/-- The cell outputs and inputs there are, of the cells before the limit. -/
def PortableCover.Refers (cover : PortableCover) (inputCount limit : Nat) : LibraryCoverSource → Prop
  | .constant _ => True
  | .input index => index.toNat < inputCount
  | .cell index => index.toNat < limit ∧ index.toNat < cover.cells.length
  | .cellSecond index => index.toNat < limit ∧ ∃ cell, cover.cells[index.toNat]? = some cell ∧ cell.secondTruth.isSome

def LibraryCoverSource.Exists (inputCount cellCount : Nat) : LibraryCoverSource → Prop
  | constant _ => True
  | input index => index.toNat < inputCount
  | cell index | cellSecond index => index.toNat < cellCount

/-- Outputs name cells that there are, cells only the outputs of the ones before them. -/
structure PortableCover.Closed (cover : PortableCover) (inputCount : Nat) : Prop where
  sources : ∀ entry ∈ cover.cells.zipIdx, ∀ source ∈ entry.1.sources, cover.Refers inputCount entry.2 source
  outputs : ∀ source ∈ cover.outputs, source.Exists inputCount cover.cells.length

theorem assignOutputTarget_settles [DecidableEq S] (targets : CellOutputs S) (cell : Nat) (second : Bool) (target : S) :
    Settles (assignOutputTarget targets cell second target)
      (fun targets' => targets'.length = targets.length ∧ cell < targets.length) fun _ => True := by
  unfold assignOutputTarget
  split
  · trivial
  next slots hslots =>
    obtain ⟨hcell, _⟩ := List.getElem?_eq_some_iff.mp hslots
    split_ifs
    · trivial
    · exact ⟨List.length_set, hcell⟩
    · trivial
    · exact ⟨List.length_set, hcell⟩

theorem assignOutput_settles [DecidableEq S] (constant : Bool → S) (frozen : S → S → SynthError) (inputs : List S)
    (targets : CellOutputs S) (entry : S × LibraryCoverSource) :
    Settles (assignOutput constant frozen inputs targets entry) (fun targets' =>
      targets'.length = targets.length ∧ entry.2.Exists inputs.length targets.length) fun _ => True := by
  have hfrozen : ∀ source, Settles (validateFrozenOutput frozen entry.1 source) (fun _ => True) fun _ => True := by
    intro source
    unfold validateFrozenOutput
    split_ifs <;> trivial
  unfold assignOutput
  split
  next index hindex =>
    rw [hindex]
    exact assignOutputTarget_settles targets index.toNat false entry.1
  next index hindex =>
    rw [hindex]
    exact assignOutputTarget_settles targets index.toNat true entry.1
  next value hvalue =>
    rw [hvalue]
    apply (hfrozen _).bind
    exact fun _ _ => ⟨rfl, trivial⟩
  next index hindex =>
    rw [hindex]
    split
    · trivial
    next source hsource =>
      obtain ⟨hlt, _⟩ := List.getElem?_eq_some_iff.mp hsource
      apply (hfrozen _).bind
      exact fun _ _ => ⟨rfl, hlt⟩

theorem assignOutputs_settles [DecidableEq S] (constant : Bool → S) (frozen : S → S → SynthError) (inputs : List S)
    (entries : List (S × LibraryCoverSource)) (targets : CellOutputs S) :
    Settles (entries.foldlM (assignOutput constant frozen inputs) targets) (fun targets' =>
      targets'.length = targets.length ∧ ∀ entry ∈ entries, entry.2.Exists inputs.length targets.length)
      fun _ => True := by
  apply Settles.foldlM (fun (done : List (S × LibraryCoverSource)) (targets' : CellOutputs S) =>
    targets'.length = targets.length ∧ ∀ entry ∈ done, entry.2.Exists inputs.length targets.length)
  · exact ⟨rfl, by simp⟩
  · intro done entry _ targets' ⟨hlength, hdone⟩
    apply (assignOutput_settles constant frozen inputs targets' entry).mono
    intro targets'' ⟨hlength', hentry⟩
    rw [hlength] at hlength' hentry
    refine ⟨hlength', ?_⟩
    rw [List.forall_mem_append]
    exact ⟨hdone, by simpa using hentry⟩

theorem allocateOutputs_settles (claim : Nat → Bool → Option S → Except SynthError S) (targets : CellOutputs S)
    (entry : PortableCoverCell × Nat) : Settles (allocateOutputs claim targets entry)
      (fun outputs => outputs.2.isSome → entry.1.secondTruth.isSome) fun _ => True := by
  have hclaim : ∀ second slot, Settles (claim entry.2 second slot) (fun _ => True) fun _ => True := by
    intro second slot
    unfold Settles
    split <;> trivial
  unfold allocateOutputs
  split
  · trivial
  · apply (hclaim false _).bind
    intro primary _
    split
    · exact fun h => nomatch h
    next second hsecond =>
      apply (hclaim true _).bind
      intro _ _ _
      rw [hsecond]
      rfl

theorem resolveCoverSource_settles (constant : Bool → S) {cover : PortableCover} {inputs : List S}
    {outputs : CellOutputs S} (houtputs : List.Forall₂ (fun (entry : PortableCoverCell × Nat) outputs =>
      outputs.2.isSome → entry.1.secondTruth.isSome) cover.cells.zipIdx outputs) (limit : Nat)
    (source : LibraryCoverSource) : Settles (resolveCoverSource constant inputs outputs limit source)
      (fun _ => cover.Refers inputs.length limit source) fun _ => True := by
  have hcell : ∀ (index : Nat) (slots : Option S × Option S), outputs[index]? = some slots →
      ∃ cell : PortableCoverCell, cover.cells[index]? = some cell ∧ (slots.2.isSome → cell.secondTruth.isSome) := by
    intro index slots hslots
    obtain ⟨entry, hentry, hsecond⟩ := exists_of_getElem?_right houtputs hslots
    rw [List.getElem?_zipIdx] at hentry
    obtain ⟨cell, hcell, rfl⟩ := Option.map_eq_some_iff.mp hentry
    exact ⟨cell, hcell, hsecond⟩
  cases source with
  | constant value => trivial
  | input index =>
    rw [resolveCoverSource]
    split
    next signal hsignal => exact (List.getElem?_eq_some_iff.mp hsignal).1
    · trivial
  | cell index =>
    rw [resolveCoverSource]
    split_ifs with hlate
    · trivial
    split
    next signal hsignal =>
      obtain ⟨slots, hslots, _⟩ := Option.bind_eq_some_iff.mp hsignal
      obtain ⟨cell, hfound, _⟩ := hcell _ _ hslots
      exact ⟨not_le.mp hlate, (List.getElem?_eq_some_iff.mp hfound).1⟩
    · trivial
  | cellSecond index =>
    rw [resolveCoverSource]
    split_ifs with hlate
    · trivial
    split
    next signal hsignal =>
      obtain ⟨slots, hslots, hsecond⟩ := Option.bind_eq_some_iff.mp hsignal
      obtain ⟨cell, hfound, hjoint⟩ := hcell _ _ hslots
      exact ⟨not_le.mp hlate, cell, hfound, hjoint (by rw [hsecond]; rfl)⟩
    · trivial

theorem resolveReferences_settles [DecidableEq S] (constant : Bool → S) (frozen : S → S → SynthError)
    (claim : Nat → Bool → Option S → Except SynthError S) (cover : PortableCover) (inputs values : List S) :
    Settles (resolveReferences constant frozen claim cover inputs values) (fun _ => cover.Closed inputs.length)
      fun _ => True := by
  unfold resolveReferences
  split_ifs with hlength
  · trivial
  apply (assignOutputs_settles constant frozen inputs _ _).bind
  intro targets ⟨_, hassigned⟩
  rw [List.length_replicate] at hassigned
  apply (Settles.mapM fun entry _ => allocateOutputs_settles claim targets entry).bind
  intro outputs hallocated
  apply (Settles.mapM fun entry _ => Settles.mapM fun source _ =>
    resolveCoverSource_settles constant hallocated entry.2 source).mono
  intro resolved hresolved
  constructor
  · intro entry hentry source hsource
    obtain ⟨signals, _, hsignals⟩ := exists_of_mem_left hresolved hentry
    obtain ⟨_, _, hrefers⟩ := exists_of_mem_left hsignals hsource
    exact hrefers
  · intro source hsource
    rw [← List.map_snd_zip (not_not.mp hlength).le] at hsource
    obtain ⟨entry, hentry, rfl⟩ := List.mem_map.mp hsource
    exact hassigned entry hentry

/-- The codec is exact on tables that are matched; the references it leaves open are settled
when the cover is materialized. -/
theorem cover_payload_exact :
    (∀ (cover : LibraryCover) payload, cover.portable.Sized → (∀ cell ∈ cover.portable.cells, cell.Narrow) →
      cover.payload = .ok payload → decode payload = .ok cover.portable) ∧
    (∀ payload cover, decode payload = .ok cover → (∃ library : LibraryCover, library.portable = cover) ∧
      ∀ library : LibraryCover, library.portable = cover → library.payload = .ok payload) ∧
    (∀ payload, Outcome ⟨payload, []⟩ readCover (fun _ tape => Safe tape) (fun _ tape => Safe tape)) ∧
    ∀ (S : Type) [DecidableEq S] constant frozen claim cover (inputs values : List S),
      Settles (resolveReferences constant frozen claim cover inputs values) (fun _ => cover.Closed inputs.length)
        fun _ => True := by
  refine ⟨?_, ?_, ?_, ?_⟩
  · intro cover payload hsized hnarrow hpayload
    obtain ⟨⟨hcount, _⟩, rfl⟩ := payload_ok.mp hpayload
    refine reads_cover ?_ hsized hnarrow
    rw [LibraryCover.portable, List.length_map]
    exact hcount
  · intro payload cover hdecode
    obtain ⟨rfl, hcount, _, hnarrow⟩ := bytes_of_decode hdecode
    refine ⟨⟨cover.library, cover.portable_library⟩, ?_⟩
    rintro library rfl
    rw [LibraryCover.portable, List.length_map] at hcount
    refine payload_ok.mpr ⟨⟨hcount, ?_⟩, rfl⟩
    intro cell hcell
    obtain ⟨htruth, hsecond⟩ := hnarrow _ (List.mem_map.mpr ⟨cell, hcell, rfl⟩)
    have hwide : MAX_MATCH_INPUTS ≤ U8_MAX := by decide
    exact ⟨htruth.trans hwide, fun truth h => (hsecond truth h).trans hwide⟩
  · intro payload
    have hsafe : Safe ⟨payload, []⟩ := fun _ hr => nomatch hr
    apply (decodes_cover ⟨payload, []⟩ hsafe).mono
    · exact fun _ _ h => h.1
    · exact fun _ _ h => h
  · intro S _ constant frozen claim cover inputs values
    exact resolveReferences_settles constant frozen claim cover inputs values

def sevenInputs : LibraryCover where
  cells := [⟨.single 0, [], ⟨7, 0⟩, none, []⟩]
  outputs := []

/-- A cell whose only source is its own output. -/
def ownSource : LibraryCover where
  cells := [⟨.single 0, [], ⟨1, 0⟩, none, [.cell 0]⟩]
  outputs := []

def notCell : LibraryCover where
  cells := [⟨.single 3, [0x49], ⟨1, 1⟩, none, [.input 0]⟩]
  outputs := [.cell 0]

theorem cover_payload_inverter :
    decode (coverBytes notCell.portable) = .ok notCell.portable ∧ (notCell.portable.library.payload).isOk := by
  have hsized : notCell.portable.Sized :=
    ⟨List.forall_mem_singleton.mpr ⟨(by decide : 1 < 2 ^ 64), (by decide : 1 < 2 ^ 64)⟩, (by decide : 1 < 2 ^ 64)⟩
  have hnarrow : ∀ cell ∈ notCell.portable.cells, cell.Narrow :=
    List.forall_mem_singleton.mpr ⟨(by decide : 1 ≤ 6), fun _ h => nomatch h⟩
  have hread := cover_payload_exact.1 notCell (coverBytes notCell.portable) hsized hnarrow (by decide +kernel)
  refine ⟨hread, ?_⟩
  rw [(cover_payload_exact.2.1 _ _ hread).2 _ (PortableCover.portable_library _)]
  rfl

/-- The writer takes a table that the reader refuses, and the reader a cell that is its own source. -/
theorem wide_or_circular :
    (sevenInputs.payload.toOption.map fun payload => (decode payload).isOk) = some false ∧
    ownSource.payload.toOption.map decode = some (.ok ownSource.portable) ∧ ¬ownSource.portable.Closed 0 := by
  refine ⟨by decide +kernel, by decide +kernel, ?_⟩
  intro h
  have hsource := h.sources _ List.mem_cons_self (.cell 0) List.mem_cons_self
  exact absurd hsource.1 (by decide)

end Opto.Synth.Cover
