import Stencil.Value.Arithmetic

/-! The four arithmetic operators. -/

namespace Stencil

inductive Operator where
  | add
  | sub
  | mul
  | div
deriving DecidableEq, Repr

namespace Operator

def ofSymbol? (s : String) : Option Operator :=
  match s with
  | "+" => some .add
  | "-" => some .sub
  | "*" => some .mul
  | "/" => some .div
  | _ => none

/-- The name under which messages speak of the operator. -/
def name : Operator → String
  | .add => "Add"
  | .sub => "Sub"
  | .mul => "Mul"
  | .div => "Div"

def apply : Operator → Value → Value → Value
  | .add => Value.add
  | .sub => Value.sub
  | .mul => Value.mul
  | .div => Value.div

/-- Binds terms into a sum. -/
def additive : Operator → Bool
  | .add | .sub => true
  | .mul | .div => false

/-- Binds factors into a term. -/
def multiplicative : Operator → Bool
  | .mul | .div => true
  | .add | .sub => false

end Operator

end Stencil
