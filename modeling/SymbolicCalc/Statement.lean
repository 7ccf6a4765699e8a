import SymbolicCalc.Text.Alphabetic
import SymbolicCalc.Text.Blank
import SymbolicCalc.Text.Numeric

/-!
# Statements

A statement is one line of input. It is an expression to evaluate, an assignment `name = expression`, or a
command that starts with a colon: `:d name expression`, `:s expression` or `:latex expression`. White space
around the parts does not matter. A line whose part before the first equals sign is not a name is an
expression as a whole.
-/

namespace SymbolicCalc

/-- What a line of input asks for. The texts are parts of the line. -/
inductive Statement
  /-- Evaluate an expression and bind its value to a name. -/
  | assign (name expr : String)
  /-- Print the simplified derivative of an expression by a variable. -/
  | derivative (name expr : String)
  | simplify (expr : String)
  | latex (expr : String)
  | evaluate (expr : String)
deriving DecidableEq, Repr

/-- Which command a line fails to spell. -/
inductive UsageError
  | derivative
  | simplify
  | latex
  | unknownCommand
deriving DecidableEq, Repr

/-- The forms that a line should have had. -/
def UsageError.forms : UsageError → String
  | .derivative => ":d <variable> <expression>"
  | .simplify => ":s <expression>"
  | .latex => ":latex <expression>"
  | .unknownCommand => ":d <variable> <expression> | :s <expression> | :latex <expression>"

/-- The message for a line that fails to spell a command. -/
def UsageError.message (e : UsageError) : String :=
  "usage: " ++ e.forms

namespace Statement

/-- Whether a character may continue a name. -/
def continuesName (c : Char) : Bool :=
  Text.isAlphabetic c || Text.isNumeric c || c = '_'

/-- Whether a text can name a variable: a letter or an underscore, followed by letters, numerals and
underscores. -/
def isIdentifier : List Char → Bool
  | [] => false
  | c :: cs => (Text.isAlphabetic c || c = '_') && cs.all continuesName

/-- The statement that a colon starts, with the given name and arguments. -/
def ofColon (name args : List Char) : Except UsageError Statement :=
  if name = ['d'] then
    match Text.cutAt Text.isBlank args with
    | some (word, rest) =>
      let expr := Text.trim rest
      if isIdentifier word && !expr.isEmpty then
        .ok (.derivative (String.ofList word) (String.ofList expr))
      else .error .derivative
    | none => .error .derivative
  else if name = ['s'] then
    if args.isEmpty then .error .simplify else .ok (.simplify (String.ofList args))
  else if name = ['l', 'a', 't', 'e', 'x'] then
    if args.isEmpty then .error .latex else .ok (.latex (String.ofList args))
  else .error .unknownCommand

/-- The statement of a line that no colon starts. -/
def ofPlain (cs : List Char) : Statement :=
  match Text.cutAt (· = '=') cs with
  | some (before, after) =>
    let name := Text.trim before
    if isIdentifier name then .assign (String.ofList name) (String.ofList (Text.trim after))
    else .evaluate (String.ofList cs)
  | none => .evaluate (String.ofList cs)

/-- The statement that a line spells. -/
def parse (line : String) : Except UsageError Statement :=
  match Text.trim line.toList with
  | ':' :: rest =>
    let (name, args) := (Text.cutAt Text.isBlank rest).getD (rest, [])
    ofColon name (Text.trim args)
  | cs => .ok (ofPlain cs)

end Statement

end SymbolicCalc
