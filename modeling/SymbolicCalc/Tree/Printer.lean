import SymbolicCalc.Tree.Basic
import SymbolicCalc.Numeric.Text

/-!
# The text of an expression

Every operator is printed with its operands in parentheses, so the text reads back as the same tree. A
constant is printed with a point; one that has no literal of its own is printed as an operation that has
it as its value, also in parentheses.
-/

namespace SymbolicCalc

/-- The tree of an expression over doubles. -/
abbrev Expression := Tree Binary64

namespace Expression

open Binary64

/-- The digits of a finite double without its sign, with at least one place after the point. -/
def literalChars (ordinal : Nat) : List Char :=
  let digits := (Decimal.shortest ordinal).positional
  if digits.contains '.' then digits else digits ++ ['.', '0']

/-- The text of a constant. A zero is printed without its sign. -/
def constantChars (value : Binary64) : List Char :=
  match value.magnitude with
  | .nan => "(0.0/0.0)".toList
  | .infinite => if value.negative then "(0.0-(1.0/0.0))".toList else "(1.0/0.0)".toList
  | .finite n =>
    if value.negative && n.val != 0 then '(' :: '-' :: literalChars n ++ [')'] else literalChars n

/-- The text of an expression, character by character. -/
def chars : Expression → List Char
  | .const value => constantChars value
  | .var name => name.toList
  | .binary op left right => '(' :: chars left ++ op.symbol :: chars right ++ [')']
  | .call f arg => f.name.toList ++ '(' :: chars arg ++ [')']

/-- The text of an expression. -/
def text (t : Expression) : String :=
  String.ofList (chars t)

end Expression

end SymbolicCalc
