import SymbolicCalc.Numeric.Binary64

/-!
# Decimals and the doubles closest to them

A decimal is a coefficient times a power of ten. It is read as the double closest to it, and a double is
written as the decimal with the fewest digits that is read as that double: of two such decimals the
closer one, and the larger one if both are equally close. That the decimal is read back as the double is
`ordinal_shortest`, see `SymbolicCalc.Numeric.DecimalLaws`.
-/

namespace SymbolicCalc

/-- The number `coefficient * 10 ^ exponent`. -/
structure Decimal where
  /-- The digits, as a number. -/
  coefficient : Nat
  /-- The power of ten they are multiplied by. -/
  exponent : Int
deriving DecidableEq, Repr

namespace Decimal

open Binary64

/-- The ordinal of the double closest to a decimal. The first three cases give what the last one would
give, without its powers of ten: zero, a decimal of at least `10 ^ 401`, and one below `10 ^ -400`. -/
def ordinal (d : Decimal) : Nat :=
  if d.coefficient = 0 then 0
  else if 400 < d.exponent then infinityOrdinal
  else if d.exponent + (d.coefficient.log2 / 3 + 1 : Nat) < -400 then 0
  else if 0 ≤ d.exponent then nearestOrdinal (d.coefficient * 10 ^ d.exponent.toNat * 2 ^ 1074) 1
  else nearestOrdinal (d.coefficient * 2 ^ 1074) (10 ^ (-d.exponent).toNat)

/-- The double with the given ordinal, as a decimal with all its digits: a unit is
`5 ^ 1074 * 10 ^ -1074`. -/
def exact (n : Nat) : Decimal :=
  ⟨unitsOf n * 5 ^ 1074, -1074⟩

/-- The number of decimal digits of a number that is not zero. The estimate falls short of the logarithm to
base ten by less than one, for any number of up to 60000 bits. -/
def digitCount (n : Nat) : Nat :=
  let estimate := n.log2 * 30102 / 100000
  if 10 ^ (estimate + 1) ≤ n then estimate + 2 else estimate + 1

/-- The decimals with `digits` digits next to `whole * 10 ^ -1074`, below (or equal) and above, in the
order in which they are preferred: the closer one first, and the larger one first if both are equally
close. Here `length` is the number of digits of `whole`. -/
def neighbours (whole length digits : Nat) : List Decimal :=
  let step := 10 ^ (length - digits)
  let exponent := (length - digits : Nat) - (1074 : Int)
  let below : Decimal := ⟨whole / step, exponent⟩
  let above : Decimal :=
    if whole / step + 1 = 10 ^ digits then ⟨1, exponent + digits⟩ else ⟨whole / step + 1, exponent⟩
  if step ≤ 2 * (whole % step) then [above, below] else [below, above]

/-- The shortest decimal that is read as the double with ordinal `n`. A search up to seventeen digits
always ends; the decimal with all digits closes the definition. -/
def shortest (n : Nat) : Decimal :=
  if n = 0 then ⟨0, 0⟩
  else
    let whole := unitsOf n * 5 ^ 1074
    let length := digitCount whole
    ((List.range 17).findSome? fun digits =>
      (neighbours whole length (digits + 1)).find? fun d => d.ordinal = n).getD (exact n)

/-- The digits of a decimal in positional notation, without an exponent. A point is written only if
digits follow it. -/
def positional (d : Decimal) : List Char :=
  if 0 ≤ d.exponent then Nat.toDigits 10 (d.coefficient * 10 ^ d.exponent.toNat)
  else
    let places := (-d.exponent).toNat
    Nat.toDigits 10 (d.coefficient / 10 ^ places) ++
      '.' :: (Nat.toDigits 10 (d.coefficient % 10 ^ places)).leftpad places '0'

end Decimal

end SymbolicCalc
