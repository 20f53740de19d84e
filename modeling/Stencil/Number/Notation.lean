import Stencil.Number.Shortest

/-! Decimal notations of a binary number: the digits are the shortest ones, a `Notation` says how
they are set out. -/

namespace Stencil.Number
open Shortest

structure Notation where
  /-- Whether a number with this exponent of its leading digit is written without an exponent. -/
  positional : Int → Bool
  /-- Whether a whole number keeps a point and a zero. -/
  pointed : Bool
  /-- Whether the sign of a negative zero is written. -/
  signedZero : Bool
  infinity : String

namespace Notation

/-- Numbers on a page are never written with an exponent. -/
def page : Notation :=
  ⟨fun _ => true, false, false, "Infinity"⟩

/-- In messages a number can be told from a whole one, and the very large and the very small ones
have an exponent. -/
def message : Notation :=
  ⟨fun lead => -5 < lead && lead < 16, true, true, "inf"⟩

def sign (negative : Bool) : String :=
  if negative then "-" else ""

def integer (n : Int) : String :=
  sign (n < 0) ++ String.ofList (Nat.toDigits 10 n.natAbs)

/-- The digits with zeros up to the point. -/
def spread (n : Notation) (d : Decimal) : String :=
  let digits := Nat.toDigits 10 d.digits
  let whole (s : List Char) : String := String.ofList s ++ if n.pointed then ".0" else ""
  match d.exponent with
  | .ofNat zeros => whole (digits ++ List.replicate zeros '0')
  | .negSucc places =>
    let padded := List.replicate (places + 2 - digits.length) '0' ++ digits
    let cut := padded.length - (places + 1)
    String.ofList (padded.take cut ++ '.' :: padded.drop cut)

/-- One digit before the point, and the power of ten. -/
def powered (d : Decimal) : String :=
  let digits := Nat.toDigits 10 d.digits
  let power : Int := d.exponent + (digits.length - 1 : Nat)
  String.ofList (digits.take 1 ++ (if digits.length = 1 then [] else '.' :: digits.drop 1))
    ++ "e" ++ integer power

def magnitude (n : Notation) (d : Decimal) : String :=
  if n.positional (d.exponent + ((Nat.toDigits 10 d.digits).length - 1 : Nat)) then n.spread d
  else powered d

def write (n : Notation) (x : Float) : String :=
  match x.toModel.unpack with
  | .notANumber => "NaN"
  | .infinity s => sign (s == .negative) ++ n.infinity
  | .zero s => sign (n.signedZero && s == .negative) ++ n.spread ⟨0, 0⟩
  | .finite s m q _ => sign (s == .negative) ++ n.magnitude (shortest m q)

end Notation

end Stencil.Number
