import Stencil.Scope
import Stencil.Text.Mark

/-! Operands of conditions and of helper calls: a literal, or a name to be read from the scope. -/

namespace Stencil
open Text.Mark

inductive Operand where
  | literal (value : Value)
  | reference (accessor : Accessor)

namespace Operand

/-- The text between two equal quotes. -/
def unquote? (token : List Char) : Option (List Char) :=
  match token with
  | mark :: rest =>
    if isMark mark && rest.getLast? = some mark then some rest.dropLast else none
  | [] => none

/-- Quotes make a text, digits and points a number, three words stand for themselves, and all else is
a name. -/
def parse (token : String) : Except UnknownVariable Operand :=
  match unquote? token.toList with
  | some s => .ok (.literal (.str (String.ofList s)))
  | none =>
    match Value.ofLiteral? token with
    | some number => .ok (.literal number)
    | none =>
      match token with
      | "true" => .ok (.literal (.bool true))
      | "false" => .ok (.literal (.bool false))
      | "null" => .ok (.literal .null)
      | name => (Accessor.parse name).map .reference

def resolve (scope : Scope) : Operand → Value
  | .literal value => value
  | .reference accessor => scope.resolve accessor

end Operand

end Stencil
