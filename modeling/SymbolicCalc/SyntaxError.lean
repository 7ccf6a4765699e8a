import SymbolicCalc.Span

/-!
# Why a source text is not an expression

The causes that a text is refused for, with the places they are found at.
-/

namespace SymbolicCalc

/-- What a token needs around it. -/
inductive Arity
  /-- A constant or a variable has no operands. -/
  | leaf
  /-- A function has one argument, on its right. -/
  | unary
  /-- An operator has an operand on its right. -/
  | binary
  /-- Parentheses hold an expression that an operator joins to its neighbours. -/
  | group
deriving DecidableEq, Repr

/-- Why a text is not an expression. -/
inductive SyntaxError
  /-- The text, all of which is given, holds nothing but blanks. -/
  | empty (whole : Span)
  /-- A closing parenthesis has no opening one. -/
  | extraClose (place : Span)
  /-- The opening parentheses at these places are never closed. The count says how many they are. -/
  | unclosed (places : List Span) (count : Nat)
  /-- A token has no meaning. The suggestions are known names that are spelled like it. -/
  | unknown (place : Span) (word : String) (suggestions : List String)
  /-- A token has operands that it cannot have, or lacks one that it needs. -/
  | arity (place : Span) (lexeme : String) (expected : Arity)
deriving DecidableEq, Repr

/-- The places that an error is found at. -/
def SyntaxError.spans : SyntaxError → List Span
  | .empty whole => [whole]
  | .extraClose place => [place]
  | .unclosed places _ => places
  | .unknown place _ _ => [place]
  | .arity place _ _ => [place]

end SymbolicCalc
