import SymbolicCalc.Diagnostic
import SymbolicCalc.Expression
import SymbolicCalc.Statement
import SymbolicCalc.Tree.Latex

/-!
# The calculator

A calculator runs statements one after the other. Its state is the values given to variables so far, and
every name with a value may be used in an expression. Only an assignment that succeeds changes the state.
-/

namespace SymbolicCalc

/-- The state of a calculator between two statements. -/
structure Calculator where
  /-- The values given so far. -/
  values : Valuation

/-- Why a line fails. -/
inductive LineError
  /-- Its expression, given as written, is in error. -/
  | expression (source : String) (cause : ExpressionError)
  /-- It starts like a command but does not spell one. -/
  | usage (cause : UsageError)
deriving DecidableEq, Repr

/-- The message for a line that fails. -/
def LineError.message : LineError → String
  | .expression _ cause => cause.diagnostic.message
  | .usage cause => cause.message

namespace Calculator

/-- A step on the expression written as `source`, its error turned by `wrap` into one of the line. -/
def inSource {ε α : Type} (source : String) (wrap : ε → ExpressionError) (result : Except ε α) :
    Except LineError α :=
  result.mapError fun e => .expression source (wrap e)

/-- The expression written as `source`, which may use the names with values and those in `extra`. -/
def compile (state : Calculator) (source : String) (extra : List String) :
    Except LineError Expression :=
  inSource source .source (Expression.compile source (state.values.names ++ extra))

/-- The value of the expression written as `source`. -/
def evaluate (state : Calculator) (source : String) : Except LineError Binary64 := do
  let t ← state.compile source []
  inSource source .evaluation (t.evaluate state.values)

/-- The folded form of an expression written as `source`. -/
def simplify (source : String) (t : Expression) : Except LineError Expression :=
  inSource source .evaluation t.simplified

/-- Does what a statement asks for: the state after it, and the text to print. -/
def execute (state : Calculator) : Statement → Except LineError (Calculator × String)
  | .assign name source => do
    let value ← state.evaluate source
    return (⟨state.values.add name value⟩, Text.lowercase name ++ " = " ++ Number.text value)
  | .derivative name source => do
    let t ← state.compile source [name]
    let t' ← inSource source .differentiation (t.differentiate name)
    let result ← simplify source t'
    return (state, result.text)
  | .simplify source => do
    let t ← state.compile source []
    let result ← simplify source t
    return (state, result.text)
  | .latex source => do
    let t ← state.compile source []
    return (state, t.latex)
  | .evaluate source => do
    let value ← state.evaluate source
    return (state, Number.text value)

/-- Reads and executes a line: the state after it, and the text to print. -/
def step (state : Calculator) (line : String) : Except LineError (Calculator × String) := do
  let statement ← (Statement.parse line).mapError LineError.usage
  state.execute statement

/-- Runs a line: the state after it, which is the state before it if the line fails, and the text to print
or the error. -/
def run (state : Calculator) (line : String) : Calculator × Except LineError String :=
  match state.step line with
  | .ok (state', output) => (state', .ok output)
  | .error e => (state, .error e)

/-- Runs some lines in order: the state after them, and what each of them gives. -/
def runAll (state : Calculator) : List String → Calculator × List (Except LineError String)
  | [] => (state, [])
  | line :: lines =>
    let (state', result) := state.run line
    let (state'', results) := state'.runAll lines
    (state'', result :: results)

/-! ## Laws -/

theorem run_output (state : Calculator) (line : String) :
    (state.run line).2 = (state.step line).map (·.2) := by
  unfold run
  cases state.step line with
  | ok result => rfl
  | error e => rfl

end Calculator

end SymbolicCalc
