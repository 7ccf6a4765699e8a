import SymbolicCalc.Arithmetic
import SymbolicCalc.Numeric.Decimal
import SymbolicCalc.Numeric.Remainder

/-!
# Arithmetic of doubles

The operators round once, as the standard for binary floating point has it, and the functions are those
of the mathematical library. Zero has a sign, but the two zeros are the same number.

A result that is not a number has a sign too. It is the first operand that is not a number, and if all
operands are numbers it has a minus sign. The absolute value, the sign and the odd powers of what is not a
number are not a number either, and have no minus sign.
-/

namespace SymbolicCalc

namespace Binary64

/-! ## Constants -/

/-- The double closest to a decimal, with a sign. -/
def ofDecimal (isNegative : Bool) (d : Decimal) : Binary64 :=
  ofOrdinal isNegative d.ordinal

/-- The number 0, without a minus sign. -/
def zero : Binary64 := ofDecimal false ⟨0, 0⟩

/-- The number 1. -/
def one : Binary64 := ofDecimal false ⟨1, 0⟩

/-- The double closest to Euler's number. -/
def euler : Binary64 := ofDecimal false ⟨2718281828459045, -15⟩

/-- The double closest to pi. -/
def pi : Binary64 := ofDecimal false ⟨3141592653589793, -15⟩

/-- The double closest to the natural logarithm of 10. -/
def lnTen : Binary64 := ofDecimal false ⟨2302585092994046, -15⟩

/-! ## Machine arithmetic -/

/-- The double as the machine calculates with it. -/
def toFloat (x : Binary64) : Float :=
  .ofBits (.ofNat (x.magnitude.bits + if x.negative then 2 ^ 63 else 0))

/-- The double that a calculation on `operands` gives. -/
def ofResult (operands : List Binary64) (result : Float) : Binary64 :=
  if result.isNaN then (operands.find? isNan).getD (nan true)
  else ofOrdinal (2 ^ 63 ≤ result.toBits.toNat) (result.toBits.toNat % 2 ^ 63)

/-- The double that a function of the machine gives for `x`. -/
def lift (f : Float → Float) (x : Binary64) : Binary64 :=
  ofResult [x] (f x.toFloat)

/-- The double that an operator of the machine gives for `x` and `y`. -/
def lift₂ (op : Float → Float → Float) (x y : Binary64) : Binary64 :=
  ofResult [x, y] (op x.toFloat y.toFloat)

/-! ## Operators and functions -/

/-- Whether a double is an odd integer: an odd multiple of the `2 ^ 1074` units of the number 1. -/
def isOdd (x : Binary64) : Bool :=
  match x.magnitude with
  | .finite ordinal => unitsOf ordinal % 2 ^ 1075 = 2 ^ 1074
  | _ => false

/-- The power of a double. -/
def pow (x y : Binary64) : Binary64 :=
  if x.isNan && y.isOdd then nan false else lift₂ Float.pow x y

/-- The value of an operator on doubles. -/
def operate : Operator → Binary64 → Binary64 → Binary64
  | .add => lift₂ (· + ·)
  | .sub => lift₂ (· - ·)
  | .mul => lift₂ (· * ·)
  | .div => lift₂ (· / ·)
  | .mod => remainder
  | .pow => pow

/-- The double without its sign. -/
def abs (x : Binary64) : Binary64 :=
  ⟨false, x.magnitude⟩

/-- The sign of a double: 1 with its sign, but zero for both zeros, and not a number if the double is none. -/
def sign (x : Binary64) : Binary64 :=
  if x.isNan then nan false else if x.isZero then zero else ⟨x.negative, one.magnitude⟩

/-- The value of a function on doubles. -/
def apply : Elementary → Binary64 → Binary64
  | .sqrt => lift Float.sqrt
  | .exp => lift Float.exp
  | .ln => lift Float.log
  | .log10 => lift Float.log10
  | .sign => sign
  | .abs => abs
  | .sin => lift Float.sin
  | .cos => lift Float.cos
  | .tan => lift Float.tan
  | .cot => lift fun x => 1 / x.tan
  | .asin => lift Float.asin
  | .acos => lift Float.acos
  | .atan => lift Float.atan
  | .sinh => lift Float.sinh
  | .cosh => lift Float.cosh
  | .tanh => lift Float.tanh

/-! ## Domains -/

/-- Whether a magnitude is that of a number from -1 to 1. -/
def Magnitude.atMostOne : Magnitude → Bool
  | .finite ordinal => ordinal ≤ Decimal.ordinal ⟨1, 0⟩
  | _ => false

/-- Whether a double belongs to a domain. What is not a number belongs to every domain. -/
def inside (domain : Domain) (x : Binary64) : Bool :=
  x.isNan ||
    match domain with
    | .everywhere => true
    | .nonnegative => x.isZero || x.aboveZero
    | .positive => x.aboveZero
    | .unitInterval => x.magnitude.atMostOne

instance : Arithmetic Binary64 where
  zero := zero
  one := one
  two := ofDecimal false ⟨2, 0⟩
  half := ofDecimal false ⟨5, -1⟩
  minusOne := ofDecimal true ⟨1, 0⟩
  lnTen := lnTen
  same := same
  operate := operate
  apply := apply
  inside := inside

end Binary64

end SymbolicCalc
