import Stencil.Value.Comparison

/-! The eight relations a condition can put between two values. -/

namespace Stencil

inductive Relation where
  | lt
  | gt
  | le
  | ge
  | eq
  | strictEq
  | ne
  | strictNe
deriving DecidableEq, Repr

namespace Relation

def ofSymbol? (s : String) : Option Relation :=
  match s with
  | "<" => some .lt
  | ">" => some .gt
  | "<=" => some .le
  | ">=" => some .ge
  | "==" => some .eq
  | "===" => some .strictEq
  | "!=" => some .ne
  | "!==" => some .strictNe
  | _ => none

/-- The name under which messages speak of the relation. -/
def name : Relation → String
  | .lt => "Lt"
  | .gt => "Gt"
  | .le => "Le"
  | .ge => "Ge"
  | .eq => "Eq"
  | .strictEq => "StrictEq"
  | .ne => "Ne"
  | .strictNe => "StrictNe"

/-- The four orderings fail between values that stand in no order. -/
def holds (r : Relation) (a b : Value) : Bool :=
  match r with
  | .lt => Value.compare? a b == some .lt
  | .gt => Value.compare? a b == some .gt
  | .le => Value.compare? a b == some .lt || Value.compare? a b == some .eq
  | .ge => Value.compare? a b == some .gt || Value.compare? a b == some .eq
  | .eq => Value.looseEq a b
  | .strictEq => Value.strictEq a b
  | .ne => !Value.looseEq a b
  | .strictNe => !Value.strictEq a b

end Relation

end Stencil
