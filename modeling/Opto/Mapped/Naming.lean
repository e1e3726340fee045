import Opto.Library.Ordinals
import Opto.Mapped.Publication

/-!
# Publication names

Before it is published a netlist trades the names that the mapper made up for short numbered
ones. The numbers go on from the highest one that a name to be kept has.
-/

namespace Opto.Mapped

open Ordinals

/-- A slot as the scan sees it: whether it lives, and its name. -/
abbrev NamedSlot := Bool × Option String

namespace MappedNetlist

variable (n : MappedNetlist)

def netSlots : List NamedSlot := n.nets.map fun slot => (slot.live, slot.name.bind n.names.resolve)

end MappedNetlist

open MappedNetlist

end Opto.Mapped
