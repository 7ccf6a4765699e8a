import SymbolicCalc.Tree.Basic

/-!
# Symbolic differentiation

The derivative of a tree is a tree, made by the rule for each operator and function. The rules put their
results together by the five constructors of a `Builder`. The builder `pruned` leaves out terms that are
zero and factors that are one, so that derivatives stay readable; the builder `plain` leaves out nothing.
A part that does not depend on the variable has the derivative 0, whatever it is made of.
-/

namespace SymbolicCalc

/-- Why a tree has no derivative. -/
inductive DerivativeError
  /-- There is no rule for the operator. -/
  | unsupported (op : Operator)
deriving DecidableEq, Repr

/-- The ways in which the rules of differentiation put trees together. -/
structure Builder (K : Type) where
  product : List (Tree K) → Tree K
  sum : Tree K → Tree K → Tree K
  difference : Tree K → Tree K → Tree K
  quotient : Tree K → Tree K → Tree K
  power : Tree K → Tree K → Tree K

namespace Builder

variable {K : Type} [Arithmetic K]

/-- The product of some factors, grouped to the left. -/
def multiply : List (Tree K) → Tree K
  | [] => .one
  | factor :: factors => factors.foldl (.binary .mul) factor

/-- The builder that writes every operator down. -/
def plain : Builder K where
  product := multiply
  sum := .binary .add
  difference := .binary .sub
  quotient := .binary .div
  power := .binary .pow

/-- The builder that leaves out what does not change the value: a product with a factor zero is zero, and
factors one, terms zero, denominators one and exponents one are dropped. -/
def pruned : Builder K where
  product factors :=
    if factors.any Tree.isZero then .zero else multiply (factors.filter fun t => !t.isOne)
  sum a b :=
    if a.isZero then if b.isZero then .zero else b
    else if b.isZero then a else .binary .add a b
  difference a b :=
    if a.isZero then if b.isZero then .zero else .binary .sub .zero b
    else if b.isZero then a else .binary .sub a b
  quotient a b :=
    if a.isZero then .zero else if b.isOne then a else .binary .div a b
  power a b :=
    if b.isOne then a else .binary .pow a b

end Builder

namespace Tree

variable {K : Type} [Arithmetic K]

/-- The square of a tree. -/
def square (build : Builder K) (u : Tree K) : Tree K :=
  build.power u (.const Arithmetic.two)

/-- The derivative of a function, taken at the argument `u`. -/
def outerDerivative (build : Builder K) (f : Elementary) (u : Tree K) : Tree K :=
  let minusOne : Tree K := .const Arithmetic.minusOne
  match f with
  | .sqrt => build.quotient (.const Arithmetic.half) (.call .sqrt u)
  | .exp => .call .exp u
  | .ln => build.quotient .one u
  | .log10 => build.quotient .one (.binary .mul u (.const Arithmetic.lnTen))
  | .sign => .zero
  | .abs => .call .sign u
  | .sin => .call .cos u
  | .cos => .binary .mul minusOne (.call .sin u)
  | .tan => build.quotient .one (square build (.call .cos u))
  | .cot => build.quotient minusOne (square build (.call .sin u))
  | .asin => build.quotient .one (.call .sqrt (build.difference .one (square build u)))
  | .acos => build.quotient minusOne (.call .sqrt (build.difference .one (square build u)))
  | .atan => build.quotient .one (build.sum .one (square build u))
  | .sinh => .call .cosh u
  | .cosh => .call .sinh u
  | .tanh => build.quotient .one (square build (.call .cosh u))

/-- The exponent `n - 1` of the power rule: a number for a number, and a difference otherwise. -/
def reducedExponent : Tree K → Tree K
  | .const n => .const (Arithmetic.operate .sub n Arithmetic.one)
  | n => .binary .sub n .one

/-- The derivative `n * f ^ (n - 1) * f'` of a power whose exponent does not depend on the variable. -/
def powerRule (build : Builder K) (f n f' : Tree K) : Tree K :=
  build.product [n, build.power f n.reducedExponent, f']

/-- The derivative `f ^ g * (g' * ln f + g * (f' / f))` of a power in general. -/
def exponentialRule (build : Builder K) (f g f' g' : Tree K) : Tree K :=
  build.product
    [.binary .pow f g,
      build.sum (build.product [g', .call .ln f]) (build.product [g, build.quotient f' f])]

/-- The derivative of a tree by the variable `v`, put together by `build`. -/
def derivativeWith (build : Builder K) (v : String) : Tree K → Except DerivativeError (Tree K)
  | .const _ => .ok .zero
  | .var name => .ok (if name = v then .one else .zero)
  | .binary op f g =>
    if !(f.dependsOn v || g.dependsOn v) then .ok .zero
    else
      match op with
      | .add => do
        return build.sum (← f.derivativeWith build v) (← g.derivativeWith build v)
      | .sub => do
        return build.difference (← f.derivativeWith build v) (← g.derivativeWith build v)
      | .mul => do
        let f' ← f.derivativeWith build v
        let g' ← g.derivativeWith build v
        return build.sum (build.product [f', g]) (build.product [f, g'])
      | .div => do
        let f' ← f.derivativeWith build v
        let g' ← g.derivativeWith build v
        return build.quotient (build.difference (build.product [f', g]) (build.product [f, g']))
          (square build g)
      | .mod => .error (.unsupported .mod)
      | .pow =>
        if g.dependsOn v then do
          let g' ← g.derivativeWith build v
          let f' ← f.derivativeWith build v
          return exponentialRule build f g f' g'
        else do
          return powerRule build f g (← f.derivativeWith build v)
  | .call f u =>
    if !u.dependsOn v then .ok .zero
    else do
      return build.product [outerDerivative build f u, ← u.derivativeWith build v]

/-- The derivative of a tree by the variable `v`. -/
def derivative (v : String) (t : Tree K) : Except DerivativeError (Tree K) :=
  t.derivativeWith .pruned v

end Tree

end SymbolicCalc
