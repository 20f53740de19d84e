/-! Floats of 32 bits among those of 64 bits. -/

namespace Stencil.Number.Binary32

/-- `2^exponent`, for exponents from -1022 to 1023. -/
def power (exponent : Int) : Float :=
  Float.ofBits (UInt64.ofNat (exponent + 1023).toNat <<< 52)

/-- The same number with 64 bits. A finite one is a whole number times a power of two, and neither
the factors nor their product need rounding. -/
def widen (x : Float32) : Float :=
  match x.toModel.unpack with
  | .notANumber => 0 / 0
  | .infinity s => if s == .negative then -(1 / 0) else 1 / 0
  | .zero s => if s == .negative then -0 else 0
  | .finite s m q _ =>
    let magnitude := Float.ofNat m * power q
    if s == .negative then -magnitude else magnitude

end Stencil.Number.Binary32
