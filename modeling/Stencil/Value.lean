import Stencil.Entries
import Stencil.Number.Notation
import Stencil.Number.Reading
import Stencil.Text.Blank

/-! The values a template works with, and how each is taken as a truth value, as a number and as the
text it puts on the page. -/

namespace Stencil
open Number Text.Blank

inductive Value where
  | null
  | bool (b : Bool)
  | int (n : Int64)
  | float (x : Float)
  | str (s : String)
  | list (items : List Value)
  | map (entries : List (String × Value))

namespace Value

def isNull : Value → Bool
  | .null => true
  | _ => false

/-- Null, false, zero, what is no number and the empty text do not hold. -/
def truthy : Value → Bool
  | .null => false
  | .bool b => b
  | .int n => n != 0
  | .float x => x != 0 && !x.isNaN
  | .str s => !s.isEmpty
  | .list _ | .map _ => true

/-- The value taken as a number. A text is read without the blanks around it, and is zero if nothing
else is there. -/
def number? : Value → Option Float
  | .null => some 0
  | .bool b => some (if b then 1 else 0)
  | .int n => some (Float.ofInt n.toInt)
  | .float x => some x
  | .str s =>
    let digits := trim s.toList
    if digits.isEmpty then some 0 else Reading.float? digits
  | .list _ | .map _ => none

mutual

/-- Null and maps leave nothing on the page. -/
def display : Value → String
  | .null => ""
  | .bool b => if b then "true" else "false"
  | .int n => Notation.integer n.toInt
  | .float x => Notation.page.write x
  | .str s => s
  | .list items => ",".intercalate (displayItems items)
  | .map _ => ""
termination_by structural v => v

def displayItems : List Value → List String
  | [] => []
  | item :: rest => display item :: displayItems rest
termination_by structural items => items

end

/-- The whole number, if 64 bits hold it. -/
def ofInt? (n : Int) : Option Value :=
  if Int64.minValue.toInt ≤ n ∧ n ≤ Int64.maxValue.toInt then some (.int (Int64.ofInt n)) else none

/-- A number written with digits and points only. It is a whole number if there is no point and 64
bits hold it. -/
def ofLiteral? (s : String) : Option Value :=
  let digits := s.toList
  if !Reading.isPlain digits then none
  else
    let whole := if digits.contains '.' then none else ofInt? (Reading.natural digits)
    whole <|> (Reading.decimal? digits).map .float

end Value

end Stencil
