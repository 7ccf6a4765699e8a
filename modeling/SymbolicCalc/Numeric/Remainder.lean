import SymbolicCalc.Numeric.Binary64

/-!
# The remainder of a truncated division

`remainder x y` is `x - q * y`, where `q` is the quotient of `x` and `y` without its fractional part. It
is exact: both numbers are whole multiples of one unit, so the remainder is that of two natural numbers,
with the sign of `x`.
-/

namespace SymbolicCalc

namespace Binary64

/-- The remainder of `x` divided by `y`, with the sign of `x`. An operand that is not a number is the result.
There is no remainder if `x` is infinite or `y` is zero; an infinite `y` leaves `x` as it is. -/
def remainder (x y : Binary64) : Binary64 :=
  match x.magnitude, y.magnitude with
  | .nan, _ => x
  | _, .nan => y
  | .infinite, _ => nan true
  | .finite _, .infinite => x
  | .finite m, .finite n =>
    if unitsOf n = 0 then nan true
    else ofOrdinal x.negative (nearestOrdinal (unitsOf m % unitsOf n) 1)

end Binary64

end SymbolicCalc
