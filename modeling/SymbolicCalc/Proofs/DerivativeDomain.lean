import SymbolicCalc.Proofs.DoubleDerivative
import SymbolicCalc.Proofs.Variables

/-!
# Where derivatives are defined

Differentiation copies parts of a tree and applies further functions to them. Most of these are defined
everywhere, or for the argument of the function they come from. The exceptions are the logarithm of the base of a
power whose exponent depends on the variable, and the root in the derivatives of the inverse sine and cosine, which
is taken of `1 - u ^ 2`. So without such powers, and with `1 - u ^ 2` not below zero where `u` lies between -1
and 1, a derivative has a value wherever the tree has one.
-/

namespace SymbolicCalc

open Arithmetic (same operate inside defined)

variable {K : Type} [Arithmetic K]

/-- What is asked of the numbers, so that derivatives have values. -/
structure DomainLaws (K : Type) [Arithmetic K] : Prop where
  everywhere (x : K) : inside .everywhere x = true
  one_ne_zero : same (Arithmetic.one : K) Arithmetic.zero = false
  two_ne_one : same (Arithmetic.two : K) Arithmetic.one = false
  one_sub_square {u : K} (hu : inside .unitInterval u = true) :
    inside .nonnegative (operate .sub Arithmetic.one (operate .pow u Arithmetic.two)) = true

namespace Tree

/-- The tree has a value. -/
def Evaluates (value? : String → Option K) (t : Tree K) : Prop :=
  ∃ x, t.eval value? = .ok x

variable {value? : String → Option K} {t d u left right : Tree K} {op : Operator} {f : Elementary} {v : String}

theorem evaluates_const (c : K) : Evaluates value? (.const c) :=
  ⟨c, rfl⟩

theorem evaluates_binary :
    Evaluates value? (.binary op left right) ↔ left.Evaluates value? ∧ right.Evaluates value? := by
  constructor
  · rintro ⟨z, hz⟩
    obtain ⟨x, y, hx, hy, -⟩ := eval_binary_eq_ok.1 hz
    exact ⟨⟨x, hx⟩, ⟨y, hy⟩⟩
  · rintro ⟨⟨x, hx⟩, ⟨y, hy⟩⟩
    exact ⟨operate op x y, eval_binary_eq_ok.2 ⟨x, y, hx, hy, rfl⟩⟩

/-- A call has a value where its argument has one for which the function is defined. -/
theorem evaluates_call :
    Evaluates value? (.call f u) ↔ ∃ x, u.eval value? = .ok x ∧ defined f x = true := by
  constructor
  · rintro ⟨z, hz⟩
    obtain ⟨x, hx, hvalue⟩ := bind_eq_ok.1 hz
    by_cases hdefined : defined f x = true
    · exact ⟨x, hx, hdefined⟩
    · rw [Elementary.value, if_neg hdefined] at hvalue
      cases hvalue
  · rintro ⟨x, hx, hdefined⟩
    refine ⟨Arithmetic.apply f x, bind_eq_ok.2 ⟨x, hx, ?_⟩⟩
    rw [Elementary.value, if_pos hdefined]

theorem operatorWise_evaluates : OperatorWise (Evaluates value? : Tree K → Prop) where
  const := evaluates_const
  binary _ := evaluates_binary

/-- A function that is defined everywhere may be applied to whatever has a value. -/
theorem Evaluates.call (laws : DomainLaws K) (hf : f.domain = .everywhere) (hu : u.Evaluates value?) :
    Evaluates value? (.call f u) := by
  obtain ⟨x, hx⟩ := hu
  refine evaluates_call.2 ⟨x, hx, ?_⟩
  rw [defined, hf]
  exact laws.everywhere x

/-- The root of `1 - u ^ 2` has a value where the inverse sine and cosine of `u` have one. -/
theorem Evaluates.sqrt_one_sub_square (laws : DomainLaws K) (hf : f.domain = .unitInterval)
    (hcall : Evaluates value? (.call f u)) :
    Evaluates value? (.call .sqrt (Builder.pruned.difference .one (square .pruned u))) := by
  obtain ⟨x, hx, hdefined⟩ := evaluates_call.1 hcall
  rw [defined, hf] at hdefined
  rw [square_pruned laws.two_ne_one, one_sub_square_pruned laws.one_ne_zero]
  have hsquare : (square .plain u).eval value? = .ok (operate .pow x Arithmetic.two) :=
    eval_binary_eq_ok.2 ⟨x, _, hx, rfl, rfl⟩
  have hdifference : (Builder.plain.difference .one (square .plain u)).eval value? = .ok _ :=
    eval_binary_eq_ok.2 ⟨_, _, rfl, hsquare, rfl⟩
  exact evaluates_call.2 ⟨_, hdifference, laws.one_sub_square hdefined⟩

/-- Where a call has a value, the derivative of its function has one for the same argument. -/
theorem Evaluates.outerDerivative (laws : DomainLaws K) (hcall : Evaluates value? (.call f u)) :
    Evaluates value? (outerDerivative .pruned f u) := by
  have hP : OperatorWise (Evaluates value? : Tree K → Prop) := operatorWise_evaluates
  have hu : u.Evaluates value? := by
    obtain ⟨x, hx, -⟩ := evaluates_call.1 hcall
    exact ⟨x, hx⟩
  have hconst (c : K) : Evaluates value? (.const c) := evaluates_const c
  cases f with
  | sign => exact hconst _
  | exp => exact hcall
  | abs => exact hu.call laws rfl
  | sin => exact hu.call laws rfl
  | sinh => exact hu.call laws rfl
  | cosh => exact hu.call laws rfl
  | cos => exact evaluates_binary.2 ⟨hconst _, hu.call laws rfl⟩
  | sqrt => exact hP.quotient (hconst _) hcall
  | ln => exact hP.quotient (hconst _) hu
  | log10 => exact hP.quotient (hconst _) (evaluates_binary.2 ⟨hu, hconst _⟩)
  | tan => exact hP.quotient (hconst _) (hP.square (hu.call laws rfl))
  | cot => exact hP.quotient (hconst _) (hP.square (hu.call laws rfl))
  | tanh => exact hP.quotient (hconst _) (hP.square (hu.call laws rfl))
  | atan => exact hP.quotient (hconst _) (hP.sum (hconst _) (hP.square hu))
  | asin => exact hP.quotient (hconst _) (hcall.sqrt_one_sub_square laws rfl)
  | acos => exact hP.quotient (hconst _) (hcall.sqrt_one_sub_square laws rfl)

/-- No power of the tree has an exponent that depends on the variable. -/
def ConstantExponents (v : String) (t : Tree K) : Prop :=
  t.Everywhere fun s => ∀ base exponent, s = .binary .pow base exponent → exponent.dependsOn v = false

theorem Evaluates.derivative (laws : DomainLaws K) (hexponents : t.ConstantExponents v)
    (hd : t.derivative v = .ok d) (ht : t.Evaluates value?) : d.Evaluates value? := by
  refine operatorWise_evaluates.differentiates (.of_derivativeWith hd) ?_ ?_ ht
  · intro f u hcall
    obtain ⟨x, hx, -⟩ := evaluates_call.1 hcall
    exact ⟨⟨x, hx⟩, hcall.outerDerivative laws⟩
  · intro p s hs base exponent heq hdepends
    rw [hexponents p s hs base exponent heq] at hdepends
    cases hdepends

/-- A derivative has no other variables than the tree. -/
theorem mem_names_of_derivative (hd : t.derivative v = .ok d) {name : String} (hname : name ∈ d.freeVars.names) :
    name ∈ t.freeVars.names := by
  have huses : d.UsesOnly fun name => t.dependsOn name = true :=
    UsesOnly.differentiates (.of_derivativeWith hd) fun _ h => h
  exact mem_names_freeVars.2 (huses name (mem_names_freeVars.1 hname))

end Tree

/-! ## Doubles -/

namespace Binary64

variable {power : Binary64 → Binary64 → Binary64}

/-- The arithmetic of doubles satisfies the laws, if the power function squares the numbers from -1 to 1 to numbers
of which none exceeds one, and what is not a number to what is not a number. -/
theorem domainLaws
    (hsquare : ∀ u, u.magnitude.atMostOne = true →
      inside .nonnegative (operate .sub one (power u (ofDecimal false ⟨2, 0⟩))) = true)
    (hnan : ∀ u, u.isNan = true → (power u (ofDecimal false ⟨2, 0⟩)).isNan = true) :
    @DomainLaws Binary64 (arithmeticWith power) := by
  let := arithmeticWith power
  constructor
  case everywhere =>
    intro x
    exact Bool.or_true x.isNan
  case one_ne_zero =>
    show same one zero = false
    decide +kernel
  case two_ne_one =>
    show same (ofDecimal false ⟨2, 0⟩) one = false
    decide +kernel
  case one_sub_square =>
    intro u hu
    rcases (Bool.or_eq_true _ _).mp hu with hu | hu
    · have hdifference : (operate .sub one (power u (ofDecimal false ⟨2, 0⟩))).isNan = true := by
        by_contra hnumber
        rw [Bool.not_eq_true] at hnumber
        have hoperand := (calculates_sub.isNan_operands hnumber).2
        exact absurd ((hnan u hu).symm.trans hoperand) (by decide)
      show inside .nonnegative (operate .sub one (power u (ofDecimal false ⟨2, 0⟩))) = true
      rw [inside, hdifference, Bool.true_or]
    · exact hsquare u hu

/-- If no power of an expression has an exponent that depends on the variable, the derivative has no further
variables, and it has a value wherever the expression has one. -/
theorem evaluates_derivative
    (hsquare : ∀ u, u.magnitude.atMostOne = true →
      inside .nonnegative (operate .sub one (power u (ofDecimal false ⟨2, 0⟩))) = true)
    (hnan : ∀ u, u.isNan = true → (power u (ofDecimal false ⟨2, 0⟩)).isNan = true)
    {t d : Expression} {v : String} (hexponents : t.ConstantExponents v) :
    letI := arithmeticWith power
    t.derivative v = .ok d →
      (∀ name ∈ d.freeVars.names, name ∈ t.freeVars.names) ∧
        ∀ (value? : String → Option Binary64) x, t.eval value? = .ok x → ∃ y, d.eval value? = .ok y := by
  let := arithmeticWith power
  intro hd
  refine ⟨fun name hname => Tree.mem_names_of_derivative hd hname, fun value? x hx => ?_⟩
  exact Tree.Evaluates.derivative (domainLaws hsquare hnan) hexponents hd ⟨x, hx⟩

/-- The power function of the library, with squares settled: what is not a number is its own square, and the square
of a number from -1 to 1 is one where it would exceed one. -/
def powerWithSquares (x y : Binary64) : Binary64 :=
  if y = ofDecimal false ⟨2, 0⟩ ∧ x.isNan = true then x
  else if y = ofDecimal false ⟨2, 0⟩ ∧ x.magnitude.atMostOne = true ∧
      ¬inside .nonnegative (operate .sub one (pow x y)) = true then one
  else pow x y

/-- The square of the inverse sine. Its derivative is `2 * asin x * (1 / sqrt (1 - x ^ 2))`. -/
def squareOfAsin : Expression :=
  .binary .pow (.call .asin (.var "x")) (.const (ofDecimal false ⟨2, 0⟩))

/-- The derivative has a value at 1, where the root is that of zero. -/
theorem evaluates_derivative_squareOfAsin :
    letI := arithmeticWith powerWithSquares
    ∃ d : Expression, squareOfAsin.ConstantExponents "x" ∧ squareOfAsin.derivative "x" = .ok d ∧
      d.freeVars.names = ["x"] ∧ (∃ x, squareOfAsin.eval (fun _ => some one) = .ok x) ∧
      ∃ y, d.eval (fun _ => some one) = .ok y := by
  let := arithmeticWith powerWithSquares
  have hsquare (u : Binary64) (hu : u.magnitude.atMostOne = true) :
      inside .nonnegative (operate .sub one (powerWithSquares u (ofDecimal false ⟨2, 0⟩))) = true := by
    have hnumber : u.isNan = false := by
      by_contra hnan
      rw [Bool.not_eq_false, isNan, decide_eq_true_eq] at hnan
      rw [hnan] at hu
      cases hu
    by_cases hinside : inside .nonnegative (operate .sub one (pow u (ofDecimal false ⟨2, 0⟩))) = true
    · have hpower : powerWithSquares u (ofDecimal false ⟨2, 0⟩) = pow u (ofDecimal false ⟨2, 0⟩) := by
        simp [powerWithSquares, hnumber, hinside]
      rw [hpower]
      exact hinside
    · have hpower : powerWithSquares u (ofDecimal false ⟨2, 0⟩) = one := by
        simp [powerWithSquares, hnumber, hu, hinside]
      rw [hpower]
      decide +kernel
  have hnan (u : Binary64) (hu : u.isNan = true) :
      (powerWithSquares u (ofDecimal false ⟨2, 0⟩)).isNan = true := by
    rw [powerWithSquares, if_pos ⟨rfl, hu⟩]
    exact hu
  have hexponents : squareOfAsin.ConstantExponents "x" := by
    simp [Tree.ConstantExponents, squareOfAsin, Tree.everywhere_binary, Tree.everywhere_call,
      Tree.everywhere_const, Tree.everywhere_var, Tree.dependsOn]
  have hasin : Tree.Evaluates (fun _ => some one) (.call .asin (.var "x") : Expression) :=
    Tree.evaluates_call.2 ⟨one, rfl, by decide +kernel⟩
  obtain ⟨x, hx⟩ : squareOfAsin.Evaluates fun _ => some one :=
    Tree.evaluates_binary.2 ⟨hasin, Tree.evaluates_const _⟩
  have hd : squareOfAsin.derivative "x" =
      .ok (.binary .mul (.binary .mul (.const (ofDecimal false ⟨2, 0⟩)) (.call .asin (.var "x")))
        (.binary .div .one (.call .sqrt (.binary .sub .one
          (.binary .pow (.var "x") (.const (ofDecimal false ⟨2, 0⟩))))))) := by
    decide +kernel
  obtain ⟨-, hvalues⟩ := evaluates_derivative hsquare hnan hexponents hd
  exact ⟨_, hexponents, hd, by decide, ⟨x, hx⟩, hvalues _ x hx⟩

end Binary64

namespace Expression

open Binary64

/-- The same for the power function that expressions are evaluated with. -/
theorem exists_evaluate_differentiate
    (hsquare : ∀ u : Binary64, u.magnitude.atMostOne = true →
      Binary64.inside .nonnegative (Binary64.operate .sub one (pow u (ofDecimal false ⟨2, 0⟩))) = true)
    (hnan : ∀ u, u.isNan = true → (pow u (ofDecimal false ⟨2, 0⟩)).isNan = true) {t d : Expression} {name : String}
    (hexponents : t.ConstantExponents (Text.lowercase name)) (hd : t.differentiate name = .ok d) :
    ∀ ρ x, t.evaluate ρ = .ok x → ∃ y, d.evaluate ρ = .ok y := by
  have laws : DomainLaws Binary64 := arithmeticWith_pow ▸ domainLaws hsquare hnan
  intro ρ x hx
  exact Tree.Evaluates.derivative laws hexponents hd ⟨x, hx⟩

end Expression

end SymbolicCalc
