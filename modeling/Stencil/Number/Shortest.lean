/-! The shortest decimal of a binary number. A positive number `m · 2^q` held with 53 bits stands for
all reals that round to it; among the decimals in that interval with the fewest digits the nearest is
taken, and of two equally near the greater. `shortest` looks for it on ever finer decimal grids, in
exact arithmetic: on each grid only the two neighbours of the number can be the answer. -/

namespace Stencil.Number.Shortest

/-- The number `digits · 10^exponent`. -/
structure Decimal where
  digits : Nat
  exponent : Int
deriving DecidableEq, Repr

/-- A positive binary number and the ends of its interval, all in quarters of `2^exponent`. -/
structure Interval where
  low : Nat
  mid : Nat
  high : Nat
  exponent : Int
  ends : Bool
deriving Repr

/-- The reals that round to `m · 2^q`. Half a unit lies on each side, but below a power of two the
numbers are twice as dense. The ends round to the even neighbour. -/
def Interval.around (m : Nat) (q : Int) : Interval where
  low := if m = 1 <<< 52 ∧ -1074 < q then 4 * m - 1 else 4 * m - 2
  mid := 4 * m
  high := 4 * m + 2
  exponent := q - 2
  ends := m % 2 = 0

/-- How many grid steps of `10^grid` a quarter is: a numerator and a denominator. -/
def scale (quarter grid : Int) : Nat × Nat :=
  (Nat.pow 2 quarter.toNat * Nat.pow 10 (-grid).toNat,
    Nat.pow 2 (-quarter).toNat * Nat.pow 10 grid.toNat)

/-- The point of the grid `10^grid` that lies in the interval, the nearer one if there are two. -/
def Interval.pick (i : Interval) (grid : Int) : Option Nat :=
  let (num, den) := scale i.exponent grid
  let inside (c : Nat) : Bool :=
    if i.ends then i.low * num ≤ c * den && c * den ≤ i.high * num
    else i.low * num < c * den && c * den < i.high * num
  let below := i.mid * num / den
  if inside below then
    if inside (below + 1) && (2 * below + 1) * den ≤ 2 * (i.mid * num) then some (below + 1)
    else some below
  else if inside (below + 1) then some (below + 1)
  else none

/-- The exponent of the leading decimal digit of `num / den`. -/
def leading (num den : Nat) : Int :=
  if den ≤ num then (Nat.toDigits 10 (num / den)).length - 1
  else
    let zeros := (Nat.toDigits 10 (den / num)).length
    if den ≤ num * Nat.pow 10 (zeros - 1) then 1 - zeros else -zeros

/-- The first grid with a point in the interval, each ten times as fine as the one before. Seventeen
digits always suffice, so the last answer is never needed. -/
def Interval.search (i : Interval) : Nat → Int → Decimal
  | 0, grid =>
    let (num, den) := scale i.exponent grid
    ⟨i.mid * num / den, grid⟩
  | rounds + 1, grid =>
    match i.pick grid with
    | some digits => ⟨digits, grid⟩
    | none => i.search rounds (grid - 1)

/-- The first grid is one above the leading digit, for numbers just below a power of ten. -/
def shortest (m : Nat) (q : Int) : Decimal :=
  let i := Interval.around m q
  let (num, den) := scale i.exponent 0
  i.search 18 (leading (i.mid * num) den + 1)

end Stencil.Number.Shortest
