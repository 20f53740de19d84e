import Stencil.Value

/-! Comparing values. Three equalities: `equal` compares values as data, `looseEq` takes unlike
values as numbers first, `strictEq` never does. `compare?` orders two texts by code point and
all else as numbers; what is no number stands in no order. -/

namespace Stencil.Value

mutual

/-- Whole numbers and floats are different data. Entries of maps are equal in any order. -/
def equal : Value → Value → Bool
  | .null, .null => true
  | .bool a, .bool b => a == b
  | .int a, .int b => a == b
  | .float a, .float b => a == b
  | .str a, .str b => a == b
  | .list xs, .list ys => equalItems xs ys
  | .map m, .map n => equalEntries m n
  | _, _ => false
termination_by structural v => v

def equalItems : List Value → List Value → Bool
  | [], [] => true
  | x :: xs, y :: ys => equal x y && equalItems xs ys
  | _, _ => false
termination_by structural items => items

/-- Each entry finds a partner of its name with an equal value, and no partner is left over. -/
def equalEntries : List (String × Value) → List (String × Value) → Bool
  | [], n => n.isEmpty
  | (key, value) :: rest, n =>
    match Entries.takeOut? key n with
    | some (partner, others) => equal value partner && equalEntries rest others
    | none => false
termination_by structural entries => entries

end

/-- What `===` tells apart before it looks at the value. -/
inductive Kind where
  | null
  | bool
  | number
  | str
  | list
  | map
deriving DecidableEq, Repr

def kind : Value → Kind
  | .null => .null
  | .bool _ => .bool
  | .int _ | .float _ => .number
  | .str _ => .str
  | .list _ => .list
  | .map _ => .map

def isContainer : Value → Bool
  | .list _ | .map _ => true
  | _ => false

def equalNumbers (a b : Value) : Bool :=
  match a.number?, b.number? with
  | some x, some y => x == y
  | _, _ => false

/-- Null equals only null. -/
def looseEq (a b : Value) : Bool :=
  match a, b with
  | .null, .null => true
  | .null, _ | _, .null => false
  | .str s, .str t => s == t
  | .bool p, .bool q => p == q
  | a, b => if a.isContainer || b.isContainer then equal a b else equalNumbers a b

def strictEq (a b : Value) : Bool :=
  if a.kind = b.kind then
    match a.kind with
    | .number => equalNumbers a b
    | _ => equal a b
  else false

def compareNumbers? (x y : Float) : Option Ordering :=
  if x < y then some .lt
  else if y < x then some .gt
  else if x == y then some .eq
  else none

def compare? (a b : Value) : Option Ordering :=
  match a, b with
  | .str s, .str t => some (compare s t)
  | a, b => do compareNumbers? (← a.number?) (← b.number?)

end Stencil.Value
