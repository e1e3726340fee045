import Opto.Mapped.Naming
import Opto.Mapped.Published

/-!
# Which names publication leaves unique

The passes replace the names of the synthetic slots by numbered ones that no name to be kept
has. What the cells of the netlist get is not compared with the names of nested instances.
-/

namespace Opto.Mapped

open MappedNetlist Ordinals

/-! The slots. -/

section

variable (isSynthetic : String → Bool) (stem : String)

variable {isSynthetic stem}

end

/-! The name table. -/

theorem NameTable.Extends.resolve_eq_of_isSome {t u : NameTable} (h : NameTable.Extends t u) {id : NameId}
    (hid : (t.resolve id).isSome) : u.resolve id = t.resolve id := by
  obtain ⟨name, hname⟩ := Option.isSome_iff_exists.mp hid
  rw [hname, h.resolve hname]

structure Resolving (n : MappedNetlist) : Prop where
  cells : ∀ slot ∈ n.cells, (n.names.resolve slot.cell.name).isSome
  nets : ∀ slot ∈ n.nets, ∀ name, slot.name = some name → (n.names.resolve name).isSome
  instances : ∀ row ∈ n.designInstances, (n.names.resolve row.name).isSome

def instanceNames (n : MappedNetlist) : List (Option String) := n.designInstances.map fun row => n.names.resolve row.name

section

variable {n : MappedNetlist} {names : NameTable}

theorem Resolving.extends (hn : Resolving n) (h : n.names.Extends names) : Resolving { n with names } := by
  refine ⟨fun slot hslot => ?_, fun slot hslot name hname => ?_, fun row hrow => ?_⟩
  · exact (h.resolve_eq_of_isSome (hn.cells slot hslot)).symm ▸ hn.cells slot hslot
  · exact (h.resolve_eq_of_isSome (hn.nets slot hslot name hname)).symm ▸ hn.nets slot hslot name hname
  · exact (h.resolve_eq_of_isSome (hn.instances row hrow)).symm ▸ hn.instances row hrow

variable (isSynthetic : String → Bool) (stem : String)

variable {isSynthetic stem}

end

end Opto.Mapped
