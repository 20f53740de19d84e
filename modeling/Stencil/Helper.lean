import Stencil.Entries
import Stencil.Text.Quoted
import Stencil.Value

/-! Functions that templates call by name. A helper that fails says why. -/

namespace Stencil

abbrev Helper :=
  List Value → Except String Value

namespace Helper
open Text.Quoted

/-- The form in which messages show a helper that a template has found. -/
def inspect (name : String) : String :=
  "HelperRef \x7b name: " ++ quote name ++ " \x7d"

/-- The form in which messages show a table of helpers: the names, in the order of their code
points. -/
def inspectTable (helpers : Entries Helper) : String :=
  let names := helpers.keys.mergeSort fun a b => decide (a ≤ b)
  "HelperRegistry \x7b helpers: [" ++ ", ".intercalate (names.map quote) ++ "] \x7d"

/-- Enters all helpers in turn. -/
def registerAll (helpers : Entries Helper) (more : List (String × Helper)) : Entries Helper :=
  more.foldl (fun table (name, helper) => table.insert name helper) helpers

end Helper

end Stencil
