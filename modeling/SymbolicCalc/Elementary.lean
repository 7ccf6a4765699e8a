/-!
# Elementary functions

The functions of one argument that an expression may call. Each has one name it is printed with, and
some have further spellings that are read as well. A function is defined on its domain; the argument
that is not a number belongs to every domain.
-/

namespace SymbolicCalc

/-- Where a function is defined. -/
inductive Domain
  | everywhere
  | nonnegative
  | positive
  | unitInterval
deriving DecidableEq, Repr

/-- The arguments of a domain in words. -/
def Domain.description : Domain → String
  | .everywhere => "all arguments"
  | .nonnegative => "arguments greater than or equal to zero"
  | .positive => "positive arguments"
  | .unitInterval => "arguments between -1 and 1"

/-- A function of one argument. Angles are in radians. -/
inductive Elementary
  | sqrt
  | exp
  | ln
  | log10
  | sign
  | abs
  | sin
  | cos
  | tan
  | cot
  | asin
  | acos
  | atan
  | sinh
  | cosh
  | tanh
deriving DecidableEq, Repr

namespace Elementary

/-- Every function. -/
def all : List Elementary :=
  [sqrt, exp, ln, log10, sign, abs, sin, cos, tan, cot, asin, acos, atan, sinh, cosh, tanh]

/-- The name that a function is printed with. -/
def name : Elementary → String
  | sqrt => "sqrt"
  | exp => "exp"
  | ln => "ln"
  | log10 => "log10"
  | sign => "sign"
  | abs => "abs"
  | sin => "sin"
  | cos => "cos"
  | tan => "tan"
  | cot => "cot"
  | asin => "asin"
  | acos => "acos"
  | atan => "atan"
  | sinh => "sinh"
  | cosh => "cosh"
  | tanh => "tanh"

/-- Further spellings that are read as a function. -/
def aliases : List (String × Elementary) :=
  [("log", log10), ("tg", tan), ("ctg", cot), ("arcsin", asin), ("arccos", acos), ("arctg", atan),
   ("sh", sinh), ("ch", cosh), ("th", tanh)]

/-- Every spelling of every function. -/
def spellings : List (String × Elementary) :=
  all.map (fun f => (f.name, f)) ++ aliases

/-- The function with the given spelling, which has to be in lower case. -/
def ofSpelling? (text : String) : Option Elementary :=
  spellings.lookup text

/-- The arguments that a function is defined for. -/
def domain : Elementary → Domain
  | sqrt => .nonnegative
  | ln | log10 => .positive
  | asin | acos => .unitInterval
  | _ => .everywhere

@[simp] theorem ofSpelling?_name (f : Elementary) : ofSpelling? f.name = some f := by
  cases f <;> decide

end Elementary

end SymbolicCalc
