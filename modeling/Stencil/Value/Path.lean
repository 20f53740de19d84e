import Stencil.Value

/-! Dotted paths into a value. Each part names an entry of a map or a position in a list; a value of
another kind has nothing inside. -/

namespace Stencil.Value
open Number

def step? (v : Value) (part : List Char) : Option Value :=
  match v with
  | .map entries => Entries.get? (String.ofList part) entries
  | .list items => (Reading.index? part).bind (items[·]?)
  | _ => none

def walk? (v : Value) (parts : List (List Char)) : Option Value :=
  parts.foldlM step? v

def get? (v : Value) (path : String) : Option Value :=
  v.walk? (path.toList.splitOn '.')

end Stencil.Value
