import Opto.Mapped.Atomic
import Opto.Mapped.NamingExact

/-!
# Names of a published netlist

When publication leaves the names of cells and nested instances, and those of nets, unique.
-/

namespace Opto.Mapped

open MappedNetlist Ordinals

variable {n : MappedNetlist} {isSyntheticCell isSyntheticNet : String → Bool} {cellStem netStem : String}

def nested : MappedNetlist where
  generation := 0
  editRevision := 0
  published := false
  name := 0
  names := ⟨["top", "__opto_region_0", "TIE", "U1", "sub"], [], by decide⟩
  nets := []
  liveNetCount := 0
  ports := []
  portNets := []
  cells := [⟨⟨1, 2, none, 0, 0⟩, true, 0⟩]
  liveCellCount := 1
  connections := []
  pinOwners := []
  pinLinks := []
  netPins := []
  designInstances := [⟨3, 4, 0, 0⟩]
  designConnections := []
  designConnectionSignals := []
  constantDrivers := []
  externalNets := []

end Opto.Mapped
