import Opto.Formal.CnfExact
import Opto.Logic.CanonicalForm
import Opto.Logic.ProbeExact
import Opto.Logic.Termination
import Opto.Synth.CutSound
import Opto.Synth.SweepSound
import Opto.Mapped.Atomic
import Opto.Mapped.Published
import Opto.Word.Walk
import Opto.Word.Speculation
import Opto.Word.Compact
import Opto.Word.Reachable
import Opto.Word.Compacted
import Opto.Word.Arithmetic
import Opto.Planning.CatalogExact
import Opto.Bitblast.RegionExact
import Opto.Bitblast.DivisionExact
import Opto.Bitblast.Refinement
import Opto.Bitblast.BarrelExact
import Opto.Bitblast.OneHotExact
import Opto.Bitblast.DynamicExact
import Opto.Synth.ConeExact
import Opto.Synth.BalanceSound
import Opto.Runtime.PublicationExact
import Opto.Transient.LoopRuns
import Opto.Word.TransferSound
import Opto.Word.AlignmentSound
import Opto.Library.Budget
import Opto.Library.Traversal
import Opto.Logic.GateGrowth
import Opto.Frontend.ControlSound
import Opto.Frontend.ValueSound
import Opto.Frontend.ArenaRuns
import Opto.Liberty.Format
import Opto.Library.Session
import Opto.Archive.Tree
import Opto.Archive.Serializer
import Opto.Archive.Deserializer
import Opto.Archive.DataModel
import Opto.Archive.Reads
import Opto.Archive.Written
import Opto.Archive.RoundTrip
import Opto.Planning.DemandSound
import Opto.Bitblast.InsertExact
import Opto.Names.Runs
import Opto.Paged.Runs
import Opto.Rows.Runs
import Opto.Mapped.NamesUnique
import Opto.Synth.CoverExact
import Opto.Synth.SweepSignatures
