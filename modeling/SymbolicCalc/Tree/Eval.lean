import SymbolicCalc.Tree.Basic

/-!
# Evaluation

A tree is evaluated from the left to the right, and every operand is evaluated before the operator. The
first variable without a value, or the first call outside the domain of its function, ends the evaluation.
-/

namespace SymbolicCalc

/-- Why a tree has no value. -/
inductive EvalError (K : Type)
  /-- A variable has no value. -/
  | unbound (name : String)
  /-- A function is not defined for its argument. -/
  | outside (f : Elementary) (arg : K)
deriving DecidableEq, Repr

variable {K : Type} [Arithmetic K]

/-- The value of a function, on its domain. -/
def Elementary.value (f : Elementary) (x : K) : Except (EvalError K) K :=
  if Arithmetic.defined f x then .ok (Arithmetic.apply f x) else .error (.outside f x)

namespace Tree

/-- The value of a tree, where `value?` gives the values of the variables. -/
def eval (value? : String → Option K) : Tree K → Except (EvalError K) K
  | .const value => .ok value
  | .var name =>
    match value? name with
    | some value => .ok value
    | none => .error (.unbound name)
  | .binary op left right => do
    let x ← left.eval value?
    let y ← right.eval value?
    return Arithmetic.operate op x y
  | .call f arg => do
    let x ← arg.eval value?
    f.value x

/-- The value of a tree when no variable has a value. -/
def evalClosed (t : Tree K) : Except (EvalError K) K :=
  t.eval fun _ => none

end Tree

end SymbolicCalc
