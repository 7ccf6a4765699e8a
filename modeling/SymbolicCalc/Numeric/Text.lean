import SymbolicCalc.Numeric.Decimal

/-!
# The text of a number

A number is written with the fewest digits that read back as the same double, always in positional
notation, with a sign where the sign bit is set. It is read from decimal digits with an optional point
and an optional exponent, or from one of the words for infinity and for the double that is not a number,
in any letter case.
-/

namespace SymbolicCalc

namespace Number

open Binary64

/-- The text of a number. -/
def text (x : Binary64) : String :=
  let sign := if x.negative then "-" else ""
  match x.magnitude with
  | .nan => "NaN"
  | .infinite => sign ++ "inf"
  | .finite n => sign ++ String.ofList (Decimal.shortest n).positional

/-- Why a text is not a number. -/
inductive ReadError
  | empty
  /-- The text has none of the forms of a number. -/
  | malformed
deriving DecidableEq, Repr

/-- The explanation of a reading error. -/
def ReadError.message : ReadError → String
  | .empty => "cannot parse float from empty string"
  | .malformed => "invalid float literal"

/-- Whether a text is the given word in any letter case. -/
def isWord (word : String) (cs : List Char) : Bool :=
  cs.map Char.toLower == word.toList

/-- Splits off the sign of a text: whether it is a minus sign, and the text after it. A text without a
sign counts as positive. -/
def splitSign : List Char → Bool × List Char
  | '-' :: cs => (true, cs)
  | '+' :: cs => (false, cs)
  | cs => (false, cs)

/-- A sequence of one or more digits, as a number. -/
def readDigits (cs : List Char) : Option Nat :=
  if cs.isEmpty || !cs.all Char.isDigit then none else some (Nat.ofDigitChars 10 cs 0)

/-- The exponent that a text ends with: nothing, or an `e` followed by digits with an optional sign. -/
def readExponent : List Char → Option Int
  | [] => some 0
  | c :: cs =>
    if c = 'e' || c = 'E' then
      let (isNegative, digits) := splitSign cs
      (readDigits digits).map fun n => if isNegative then -(n : Int) else n
    else none

/-- The decimal that a text without a sign spells: digits with at most one point among or around them,
then an optional exponent. -/
def readDecimal (cs : List Char) : Option Decimal :=
  let whole := cs.takeWhile Char.isDigit
  let (fraction, rest) :=
    match cs.dropWhile Char.isDigit with
    | '.' :: rest => (rest.takeWhile Char.isDigit, rest.dropWhile Char.isDigit)
    | rest => ([], rest)
  (readDigits (whole ++ fraction)).bind fun coefficient =>
    (readExponent rest).map fun exponent => ⟨coefficient, exponent - fraction.length⟩

/-- The number that a text spells. -/
def read (cs : List Char) : Except ReadError Binary64 :=
  if cs.isEmpty then .error .empty
  else
    let (isNegative, body) := splitSign cs
    if isWord "inf" body || isWord "infinity" body then .ok (infinity isNegative)
    else if isWord "nan" body then .ok (nan isNegative)
    else
      match readDecimal body with
      | some d => .ok (ofOrdinal isNegative d.ordinal)
      | none => .error .malformed

end Number

end SymbolicCalc
