import SymbolicCalc.Operator
import SymbolicCalc.Elementary

/-!
# Arithmetic

Trees are evaluated, folded and differentiated over any type of numbers that has the six operators, the
elementary functions and a handful of constants. Doubles are one such type; exact numbers are others.
-/

namespace SymbolicCalc

/-- Numbers that expressions can be evaluated in. -/
class Arithmetic (K : Type) where
  zero : K
  one : K
  two : K
  half : K
  minusOne : K
  lnTen : K
  /-- Whether two numbers are equal as numbers. -/
  same : K → K → Bool
  /-- The value of an operator. -/
  operate : Operator → K → K → K
  /-- The value of a function, whatever its domain. -/
  apply : Elementary → K → K
  /-- Whether a number belongs to a domain. -/
  inside : Domain → K → Bool

/-- Whether a function is defined for an argument. -/
def Arithmetic.defined {K : Type} [Arithmetic K] (f : Elementary) (x : K) : Bool :=
  Arithmetic.inside f.domain x

end SymbolicCalc
