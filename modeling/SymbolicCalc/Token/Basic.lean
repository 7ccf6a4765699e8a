import SymbolicCalc.Operator
import SymbolicCalc.Span
import SymbolicCalc.Text.Lowercase

/-!
# Tokens

The smallest parts of an expression: operators, parentheses and words. A word is whatever stands between
these; what it means is found out later, from its lower case.
-/

namespace SymbolicCalc

/-- What a token is by its shape. -/
inductive TokenKind
  | operator (op : Operator)
  | openParen
  | closeParen
  /-- A number or a name. -/
  | word
deriving DecidableEq, Repr

/-- A token and where it stands. -/
structure Token where
  /-- The part of the source text that the token is. -/
  span : Span
  /-- What the token is. -/
  kind : TokenKind
  /-- The text of the token, as written. -/
  lexeme : String
deriving DecidableEq, Repr

/-- Symbols have no letter case. -/
theorem Operator.lowercase_symbol (op : Operator) :
    Text.lowercase (String.singleton op.symbol) = String.singleton op.symbol := by
  cases op <;> decide +kernel

namespace Token

/-- The text of a token in lower case. -/
def normalized (token : Token) : String :=
  Text.lowercase token.lexeme

/-- Whether the token is an opening parenthesis. -/
def isOpenParen (token : Token) : Bool :=
  token.kind = .openParen

/-- Whether the token is a closing parenthesis. -/
def isCloseParen (token : Token) : Bool :=
  token.kind = .closeParen

end Token

end SymbolicCalc
