import Mathlib.Data.List.Nodup
import Mathlib.Data.List.Range

/-!
# Names with ordinals

A numbered name is a stem and a decimal ordinal. Reading ordinals back from names tells from
which number on the numbered names of a stem are free.
-/

namespace Opto.Ordinals

/-- What follows a plus sign. -/
def unsigned : List Char → List Char
  | '+' :: rest => rest
  | text => text

/-- Reads a number up to a limit; a plus sign may stand before its digits. -/
def parse (limit : Nat) (text : List Char) : Option Nat :=
  if unsigned text = [] ∨ (unsigned text).any (fun c => !c.isDigit) then none
  else if limit < Nat.ofDigitChars 10 (unsigned text) 0 then none
  else some (Nat.ofDigitChars 10 (unsigned text) 0)

variable {limit : Nat} {stem : String}

end Opto.Ordinals
