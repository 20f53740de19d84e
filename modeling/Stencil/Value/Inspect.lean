import Stencil.Text.Quoted
import Stencil.Value

/-! The form in which messages show a value, with its kind and all that is in it. -/

namespace Stencil.Value
open Number Text.Quoted

mutual

def inspect : Value → String
  | .null => "Null"
  | .bool b => "Bool(" ++ (if b then "true" else "false") ++ ")"
  | .int n => "I64(" ++ Notation.integer n.toInt ++ ")"
  | .float x => "F64(" ++ Notation.message.write x ++ ")"
  | .str s => "Str(" ++ quote s ++ ")"
  | .list items => "List([" ++ ", ".intercalate (inspectItems items) ++ "])"
  | .map entries => "Map(\x7b" ++ ", ".intercalate (inspectEntries entries) ++ "\x7d)"
termination_by structural v => v

def inspectItems : List Value → List String
  | [] => []
  | item :: rest => inspect item :: inspectItems rest
termination_by structural items => items

def inspectEntries : List (String × Value) → List String
  | [] => []
  | (key, value) :: rest => (quote key ++ ": " ++ inspect value) :: inspectEntries rest
termination_by structural entries => entries

end

end Stencil.Value
