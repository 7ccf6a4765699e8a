import SymbolicCalc.Tree.Derivative
import SymbolicCalc.Tree.Fold
import SymbolicCalc.Tree.OfTokens
import SymbolicCalc.Valuation

/-!
# Expressions

An expression is compiled from a source text and the names of its variables. It can then be evaluated
with values for the variables, simplified, and differentiated.
-/

namespace SymbolicCalc

namespace Expression

/-- The expression that a source text spells with the names in scope. -/
def compileIn (scope : Scope) (source : String) : Except SyntaxError Expression := do
  let tokens ← tokenize source
  let ranked ← RankedToken.ofTokens scope tokens
  ofRanked ranked

/-- The expression that a source text spells, which may use the given variables in any letter case. -/
def compile (source : String) (names : List String) : Except SyntaxError Expression :=
  compileIn (.ofVariables names) source

/-- The value of an expression with the given values for its variables. -/
def evaluate (t : Expression) (ρ : Valuation) : Except (EvalError Binary64) Binary64 :=
  t.eval ρ.get?

/-- Folds an expression in place. If folding fails, the expression stays as it was. -/
def simplify : ExceptT (EvalError Binary64) (StateM Expression) Unit := do
  let t ← get
  let t' ← MonadExcept.ofExcept t.simplified
  set t'

/-- The derivative of an expression by a variable, whose name may be in any letter case. -/
def differentiate (t : Expression) (name : String) : Except DerivativeError Expression :=
  t.derivative (Text.lowercase name)

/-- The names of the variables of an expression, in increasing order. -/
def variableNames (t : Expression) : List String :=
  t.freeVars.names

end Expression

end SymbolicCalc
