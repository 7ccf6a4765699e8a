import SymbolicCalc.Arithmetic
import SymbolicCalc.NameMap

/-!
# Expression trees

An expression is a tree of operators and function calls over constants and variables. Trees are compared
constant by constant for identity, so over doubles a zero differs from the negative zero and a constant
that is not a number is equal to itself.
-/

namespace SymbolicCalc

/-- An expression over the numbers `K`. -/
inductive Tree (K : Type)
  | const (value : K)
  | var (name : String)
  | binary (op : Operator) (left right : Tree K)
  | call (f : Elementary) (arg : Tree K)
deriving DecidableEq, Repr

namespace Tree

variable {K : Type}

instance [Arithmetic K] : Inhabited (Tree K) := ⟨.const Arithmetic.zero⟩

/-- The constant 0. -/
def zero [Arithmetic K] : Tree K :=
  .const Arithmetic.zero

/-- The constant 1. -/
def one [Arithmetic K] : Tree K :=
  .const Arithmetic.one

/-- The value of a constant. -/
def constant? : Tree K → Option K
  | .const value => some value
  | _ => none

/-- Whether the tree is a constant that is the same number as `value`. -/
def isConstant [Arithmetic K] (value : K) : Tree K → Bool
  | .const other => Arithmetic.same other value
  | _ => false

/-- Whether the tree is the constant 0, of either sign. -/
def isZero [Arithmetic K] (t : Tree K) : Bool :=
  t.isConstant Arithmetic.zero

/-- Whether the tree is the constant 1. -/
def isOne [Arithmetic K] (t : Tree K) : Bool :=
  t.isConstant Arithmetic.one

/-! ## Variables -/

/-- The names of `seen` and of the variables of the tree. -/
def collect (seen : NameSet) : Tree K → NameSet
  | .const _ => seen
  | .var name => seen.add name
  | .binary _ left right => right.collect (left.collect seen)
  | .call _ arg => arg.collect seen

/-- The names of the variables of the tree. -/
def freeVars (t : Tree K) : NameSet :=
  t.collect .empty

/-- Whether the tree has a variable of the given name. -/
def dependsOn (name : String) : Tree K → Bool
  | .const _ => false
  | .var other => other = name
  | .binary _ left right => left.dependsOn name || right.dependsOn name
  | .call _ arg => arg.dependsOn name

/-- Whether the tree has no variables. -/
def isClosed : Tree K → Bool
  | .const _ => true
  | .var _ => false
  | .binary _ left right => left.isClosed && right.isClosed
  | .call _ arg => arg.isClosed

end Tree

end SymbolicCalc
