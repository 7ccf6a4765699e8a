/-!
# Doubles as ordinals

The doubles that are not negative, listed from zero upwards, are numbered by their bit patterns: the
double with ordinal `n` has the bits of `n`, and infinity has the first ordinal after the finite ones.
Every finite double is a whole number of units of `2 ^ -1074`, so its value, and every comparison of a
value with a quotient of natural numbers, is exact in `Nat`.

`nearestOrdinal` is the other way round: the ordinal of the double closest to a quotient of natural
numbers, where of two doubles at the same distance the one with the even ordinal is taken.

A double is then a sign with an ordinal, or with one of the two magnitudes beyond the finite ones.
-/

namespace SymbolicCalc

-- Powers of natural numbers are the core library's throughout, also where algebra is imported and has another
-- instance for them.
attribute [scoped instance (high), default_instance (high + 1)] instPowNat

namespace Binary64

/-- The ordinal of infinity. The ordinals below it are those of the finite doubles. -/
def infinityOrdinal : Nat := 0x7FF0000000000000

/-- The exponent of the power of two that the double with this ordinal is a multiple of, in units. -/
def scaleOf (ordinal : Nat) : Nat :=
  ordinal / 2 ^ 52 - 1

/-- The value of the double with this ordinal, in units of `2 ^ -1074`. -/
def unitsOf (ordinal : Nat) : Nat :=
  (ordinal - scaleOf ordinal * 2 ^ 52) * 2 ^ scaleOf ordinal

/-- The integer closest to `num / den`; of two equally close ones the even one. -/
def roundHalfEven (num den : Nat) : Nat :=
  let floor := num / den
  let rest := 2 * (num % den)
  if rest < den then floor
  else if den < rest then floor + 1
  else floor + floor % 2

/-- The ordinal of the double closest to `num / den` units, where a quotient beyond the largest finite
double counts as infinity. -/
def nearestOrdinal (num den : Nat) : Nat :=
  let scale := (num / den).log2 - 52
  min (roundHalfEven num (den * 2 ^ scale) + scale * 2 ^ 52) infinityOrdinal

/-- What a double is, apart from its sign. -/
inductive Magnitude
  | nan
  | infinite
  /-- The finite double with this ordinal. -/
  | finite (ordinal : Fin infinityOrdinal)
deriving DecidableEq, Repr

/-- The magnitude with this ordinal, where every ordinal that is not finite counts as infinity. -/
def Magnitude.ofOrdinal (ordinal : Nat) : Magnitude :=
  if h : ordinal < infinityOrdinal then .finite ⟨ordinal, h⟩ else .infinite

/-- The bits of a double without its sign. -/
def Magnitude.bits : Magnitude → Nat
  | .nan => infinityOrdinal + 2 ^ 51
  | .infinite => infinityOrdinal
  | .finite ordinal => ordinal

end Binary64

/-- A double: a magnitude with a sign. There are two zeros, and also two doubles that are not a number, one
with each sign. -/
structure Binary64 where
  /-- Whether the sign is a minus sign. -/
  negative : Bool
  /-- The double without its sign. -/
  magnitude : Binary64.Magnitude
deriving DecidableEq, Repr

namespace Binary64

/-- The double with this sign and this ordinal. -/
def ofOrdinal (isNegative : Bool) (ordinal : Nat) : Binary64 :=
  ⟨isNegative, .ofOrdinal ordinal⟩

/-- The infinity with this sign. -/
def infinity (isNegative : Bool) : Binary64 :=
  ⟨isNegative, .infinite⟩

/-- The double with this sign that is not a number. -/
def nan (isNegative : Bool) : Binary64 :=
  ⟨isNegative, .nan⟩

/-- Whether a double is not a number. -/
def isNan (x : Binary64) : Bool :=
  x.magnitude = .nan

/-- Whether a double is one of the two zeros. -/
def isZero (x : Binary64) : Bool :=
  x.magnitude = .ofOrdinal 0

/-- Whether a double is a number less than zero. -/
def belowZero (x : Binary64) : Bool :=
  x.negative && !x.isNan && !x.isZero

/-- Whether a double is a number greater than zero. -/
def aboveZero (x : Binary64) : Bool :=
  !x.negative && !x.isNan && !x.isZero

/-- Whether two doubles are the same number. The two zeros are, and what is not a number is not even the same
as itself. -/
def same (x y : Binary64) : Bool :=
  !x.isNan && (x = y || x.isZero && y.isZero)

end Binary64

end SymbolicCalc
