import Stencil.Value

/-! Arithmetic on values. Whole numbers stay exact as long as 64 bits hold the result; otherwise, and
for all other values, the operation is done on floats, where a value that is no number counts as NaN.
Only `add` knows texts: it joins what the two sides display. -/

namespace Stencil.Value
open Number

def magnitude (v : Value) : Float :=
  v.number?.getD (0 / 0)

/-- The whole number if 64 bits hold it, otherwise the float. -/
def exactly (n : Int) (rounded : Float) : Value :=
  (ofInt? n).getD (.float rounded)

def combine (exact : Int → Int → Int) (rounded : Float → Float → Float) : Value → Value → Value
  | .int a, .int b =>
    exactly (exact a.toInt b.toInt) (rounded (Float.ofInt a.toInt) (Float.ofInt b.toInt))
  | a, b => .float (rounded a.magnitude b.magnitude)

def add : Value → Value → Value
  | .str s, b => .str (s ++ b.display)
  | a, .str t => .str (a.display ++ t)
  | a, b => combine (· + ·) (· + ·) a b

def sub : Value → Value → Value :=
  combine (· - ·) (· - ·)

def mul : Value → Value → Value :=
  combine (· * ·) (· * ·)

/-- A quotient is a float even of whole numbers. -/
def div (a b : Value) : Value :=
  .float (a.magnitude / b.magnitude)

def neg : Value → Value
  | .int n => exactly (-n.toInt) (-Float.ofInt n.toInt)
  | v => .float (-v.magnitude)

/-- A text of digits and points takes part in arithmetic as a float, if it can be read as one. -/
def numeral : Value → Value
  | .str s =>
    if Reading.isPlain s.toList then ((Reading.decimal? s.toList).map .float).getD (.str s)
    else .str s
  | v => v

end Stencil.Value
