import SymbolicCalc.Tree.Printer
import SymbolicCalc.Numeric.Doubles

/-!
# Expressions in LaTeX

Quotients become fractions and exponents are raised, so they need no parentheses inside. An operand of
the other operators is put in parentheses if it binds more loosely than the operator, if it is a right
operand that binds equally tightly under an operator that does not associate, or if it is a negative
constant.
-/

namespace SymbolicCalc

namespace Expression

/-- A group, which is invisible. -/
def latexGroup (body : String) : String :=
  "\x7b" ++ body ++ "\x7d"

/-- A body in parentheses that grow with it. -/
def latexParens (body : String) : String :=
  "\\left(" ++ body ++ "\\right)"

/-- The text of a constant. -/
def latexConstant (value : Binary64) : String :=
  if value = Binary64.pi then "\\pi" else Number.text value

/-- The sign that stands between the operands of an operator written on one line. -/
def latexSign : Operator → String
  | .add => " + "
  | .sub => " - "
  | .mul => " \\cdot "
  | _ => " \\bmod "

/-- The function applied to the text of its argument. -/
def latexCall (f : Elementary) (arg : String) : String :=
  match f with
  | .sqrt => "\\sqrt" ++ latexGroup arg
  | .abs => "\\left|" ++ arg ++ "\\right|"
  | .exp => "e^" ++ latexGroup arg
  | .ln => "\\ln" ++ latexParens arg
  | .log10 => "\\log_" ++ latexGroup "10" ++ latexParens arg
  | .sign => "\\operatorname" ++ latexGroup "sign" ++ latexParens arg
  | .asin => "\\arcsin" ++ latexParens arg
  | .acos => "\\arccos" ++ latexParens arg
  | .atan => "\\arctan" ++ latexParens arg
  | f => "\\" ++ f.name ++ latexParens arg

/-- The side of an operator that an operand stands on. -/
inductive Side
  | left
  | right
deriving DecidableEq, Repr

/-- Whether an operand of the operator `parent` needs parentheses. -/
def needsParens (parent : Operator) (side : Side) : Expression → Bool
  | .binary op _ _ =>
    op.tier < parent.tier ||
      (op.tier = parent.tier && side = .right && parent ≠ .add && parent ≠ .mul)
  | .const value => value.belowZero
  | _ => false

/-- Whether the base of a power stands without parentheses. -/
def isPlainBase : Expression → Bool
  | .var _ => true
  | .const value => value.isZero || value.aboveZero
  | _ => false

/-- An expression in LaTeX. -/
def latex : Expression → String
  | .const value => latexConstant value
  | .var name => name
  | .call f arg => latexCall f (latex arg)
  | .binary op left right =>
    match op with
    | .div => "\\frac" ++ latexGroup (latex left) ++ latexGroup (latex right)
    | .pow =>
      (if isPlainBase left then latex left else latexParens (latex left)) ++ "^" ++
        latexGroup (latex right)
    | op =>
      (if needsParens op .left left then latexParens (latex left) else latex left) ++
        latexSign op ++
        (if needsParens op .right right then latexParens (latex right) else latex right)

end Expression

end SymbolicCalc
