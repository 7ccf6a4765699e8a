import SymbolicCalc.SyntaxError
import SymbolicCalc.Numeric.Text
import SymbolicCalc.Tree.Eval
import SymbolicCalc.Tree.Derivative

/-!
# Explaining errors

Every error is explained by a message, a label for each place in the source text, and most often a help
text that says what to do about it. Errors of evaluation and differentiation have no place of their own;
their label speaks of the whole expression.
-/

namespace SymbolicCalc

/-- The explanation of an error. -/
structure Diagnostic where
  message : String
  spans : List Span
  /-- What to say at each of the places. -/
  labels : List String
  /-- What to do about it. -/
  help : Option String

/-- What a token needs, in words. -/
def Arity.requirement : Arity → String
  | .leaf => "takes no operands"
  | .unary => "takes exactly one argument to its right"
  | .binary => "needs an operand to its right"
  | .group => "must enclose an expression joined to its neighbors by an operator"

/-- How to give a token what it needs. -/
def Arity.advice : Arity → String
  | .leaf | .group => "join neighboring terms with an operator"
  | .unary => "write function calls as `name(argument)`"
  | .binary => "add an expression after the operator"

/-- A name as it is quoted in a message. -/
def quoted (name : String) : String :=
  "`" ++ name ++ "`"

/-- How to replace an unknown word, given the names that are spelled like it. -/
def suggestionHelp (word : String) : List String → String
  | [] => s!"pass {quoted word} as a variable name when compiling, if it is meant to be a variable"
  | [name] => s!"did you mean {quoted name}?"
  | names => "did you mean one of these? " ++ ", ".intercalate (names.map quoted)

namespace SyntaxError

/-- What is wrong with a source text. -/
def message : SyntaxError → String
  | .empty _ => "cannot compile an empty expression"
  | .extraClose _ => "unexpected closing parenthesis"
  | .unclosed _ 1 => "unclosed parenthesis"
  | .unclosed _ count => s!"{count} unclosed parentheses"
  | .unknown _ word _ => s!"unknown token {quoted word}"
  | .arity _ lexeme _ => s!"wrong number of operands for {quoted lexeme}"

/-- What to say at each place that an error is found at. -/
def labels : SyntaxError → List String
  | .empty _ => ["add an expression here"]
  | .extraClose _ => ["this parenthesis has no matching `(`"]
  | .unclosed _ count => List.replicate count "this parenthesis is not closed"
  | .unknown _ _ _ => ["this token"]
  | .arity _ lexeme expected => [quoted lexeme ++ " " ++ expected.requirement]

/-- What to do about an error. -/
def help : SyntaxError → Option String
  | .empty _ => none
  | .extraClose _ => some "remove it, or add an opening parenthesis `(` somewhere before it"
  | .unclosed _ _ => some "add a closing parenthesis `)` somewhere after this"
  | .unknown _ word suggestions => some (suggestionHelp word suggestions)
  | .arity _ _ expected => some expected.advice

/-- The explanation of an error in a source text. -/
def diagnostic (e : SyntaxError) : Diagnostic :=
  ⟨e.message, e.spans, e.labels, e.help⟩

end SyntaxError

/-- Why an expression has no value, in words. -/
def EvalError.reason : EvalError Binary64 → String
  | .unbound name => s!"{quoted name} has no value"
  | .outside f arg => s!"{quoted f.name} is not defined for the argument {Number.text arg}"

/-- How to give an expression a value. -/
def EvalError.help : EvalError Binary64 → String
  | .unbound name => s!"bind a value to it, for example: {name} = <value>"
  | .outside f _ => s!"{quoted f.name} is only defined for {f.domain.description}"

/-- The explanation of an error of evaluation. -/
def EvalError.diagnostic (e : EvalError Binary64) : Diagnostic where
  message := "cannot evaluate expression: " ++ e.reason
  spans := []
  labels := ["while evaluating this expression"]
  help := some e.help

/-- The explanation of an error of differentiation. -/
def DerivativeError.diagnostic : DerivativeError → Diagnostic
  | .unsupported op => {
      message := s!"cannot differentiate the {quoted (String.singleton op.symbol)} operator"
      spans := []
      labels := ["this expression"]
      help := some
        "only expressions built from + - * / ^ and the built-in functions can be differentiated" }

/-- Whatever can go wrong with an expression. -/
inductive ExpressionError
  | source (cause : SyntaxError)
  | evaluation (cause : EvalError Binary64)
  | differentiation (cause : DerivativeError)
deriving DecidableEq, Repr

/-- The explanation of an error. -/
def ExpressionError.diagnostic : ExpressionError → Diagnostic
  | .source cause => cause.diagnostic
  | .evaluation cause => cause.diagnostic
  | .differentiation cause => cause.diagnostic

/-- The line that a report of an error starts with. -/
def Diagnostic.headline (d : Diagnostic) : String :=
  "Error: " ++ d.message

/-- The place in a source text that a report of an error points at: the start of its first span. A text
without characters has no place to point at. -/
def Diagnostic.location? (d : Diagnostic) (source : String) : Option Location :=
  if source.isEmpty then none
  else d.spans.head?.map fun span => Location.ofOffset source span.start

end SymbolicCalc
