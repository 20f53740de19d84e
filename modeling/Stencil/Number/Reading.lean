/-! Numbers written in decimal. Digits are the ten ASCII digits; a number too large or too small for a
float is read as an infinity or as a zero. -/

namespace Stencil.Number.Reading

def isPlain (s : List Char) : Bool :=
  !s.isEmpty && s.all fun c => c.isDigit || c == '.'

/-- The value of a text of digits. -/
def natural (digits : List Char) : Nat :=
  Nat.ofDigitChars 10 digits 0

/-- One or more digits and nothing else. -/
def natural? (s : List Char) : Option Nat :=
  if !s.isEmpty && s.all Char.isDigit then some (natural s) else none

/-- Takes a sign off: whether it is a minus, and what it stands before. -/
def signed (s : List Char) : Bool × List Char :=
  match s with
  | '-' :: rest => (true, rest)
  | '+' :: rest => (false, rest)
  | rest => (false, rest)

/-- A power of ten after the digits, zero if none is written. -/
def exponent? (s : List Char) : Option Int :=
  match s with
  | [] => some 0
  | e :: rest =>
    if e = 'e' || e = 'E' then
      let (minus, digits) := signed rest
      (natural? digits).map fun n => if minus then -n else n
    else none

/-- The digits after a point, and what follows them. -/
def fraction (s : List Char) : List Char × List Char :=
  match s with
  | '.' :: rest => (rest.takeWhile Char.isDigit, rest.dropWhile Char.isDigit)
  | rest => ([], rest)

/-- The float nearest to `coefficient · 10^power`. -/
def scientific (coefficient : Nat) (power : Int) : Float :=
  Float.ofScientific coefficient (power < 0) power.natAbs

/-- Digits with at most one point among them, at least one digit, and perhaps a power of ten. -/
def decimal? (s : List Char) : Option Float :=
  let whole := s.takeWhile Char.isDigit
  let (places, rest) := fraction (s.dropWhile Char.isDigit)
  if whole.isEmpty && places.isEmpty then none
  else (exponent? rest).map fun power => scientific (natural (whole ++ places)) (power - places.length)

/-- Also the words for infinity and for what is no number, in any case. -/
def magnitude? (s : List Char) : Option Float :=
  let word := String.ofList (s.map Char.toLower)
  if word = "inf" || word = "infinity" then some (1 / 0)
  else if word = "nan" then some (0 / 0)
  else decimal? s

def float? (s : List Char) : Option Float :=
  let (minus, rest) := signed s
  (magnitude? rest).map fun x => if minus then -x else x

/-- A position in a list: digits, perhaps after a plus. -/
def index? (s : List Char) : Option Nat :=
  match s with
  | '+' :: digits => natural? digits
  | digits => natural? digits

end Stencil.Number.Reading
