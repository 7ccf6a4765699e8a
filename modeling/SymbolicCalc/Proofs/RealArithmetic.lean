import SymbolicCalc.Tree.Eval
import Mathlib.Analysis.SpecialFunctions.Log.Base
import Mathlib.Analysis.SpecialFunctions.Pow.Real
import Mathlib.Analysis.SpecialFunctions.Trigonometric.Arctan
import Mathlib.Analysis.SpecialFunctions.Trigonometric.Inverse

/-!
# Trees over the real numbers

Real numbers are one more arithmetic, in which nothing is rounded. The operators of the real numbers are
total, so a quotient by zero has a value there; `Defined` says that no operator and no function of a tree is
taken outside of its domain. Where a tree is defined, its evaluation gives its value.
-/

namespace SymbolicCalc

open Classical in
/-- The arithmetic of the real numbers. -/
noncomputable instance : Arithmetic ℝ where
  zero := 0
  one := 1
  two := 2
  half := 1 / 2
  minusOne := -1
  lnTen := Real.log 10
  same x y := decide (x = y)
  operate
    | .add, x, y => x + y
    | .sub, x, y => x - y
    | .mul, x, y => x * y
    | .div, x, y => x / y
    | .mod, x, y => x - (if 0 ≤ x / y then (⌊x / y⌋ : ℝ) else ⌈x / y⌉) * y
    | .pow, x, y => x ^ y
  apply
    | .sqrt, x => √x
    | .exp, x => Real.exp x
    | .ln, x => Real.log x
    | .log10, x => Real.log x / Real.log 10
    | .sign, x => SignType.sign x
    | .abs, x => |x|
    | .sin, x => Real.sin x
    | .cos, x => Real.cos x
    | .tan, x => Real.tan x
    | .cot, x => Real.cot x
    | .asin, x => Real.arcsin x
    | .acos, x => Real.arccos x
    | .atan, x => Real.arctan x
    | .sinh, x => Real.sinh x
    | .cosh, x => Real.cosh x
    | .tanh, x => Real.tanh x
  inside
    | .everywhere, _ => true
    | .nonnegative, x => decide (0 ≤ x)
    | .positive, x => decide (0 < x)
    | .unitInterval, x => decide (-1 ≤ x ∧ x ≤ 1)

/-- The operands that an operator is defined for. A negative base has powers for integer exponents only. -/
def Operator.DefinedFor (op : Operator) (x y : ℝ) : Prop :=
  match op with
  | .add | .sub | .mul => True
  | .div | .mod => y ≠ 0
  | .pow => 0 < x ∨ x = 0 ∧ 0 ≤ y ∨ x < 0 ∧ ∃ n : ℤ, y = n

/-- The arguments that a function is defined for. -/
def Elementary.DefinedFor (f : Elementary) (x : ℝ) : Prop :=
  match f with
  | .sqrt => 0 ≤ x
  | .ln | .log10 => 0 < x
  | .asin | .acos => -1 ≤ x ∧ x ≤ 1
  | .tan => Real.cos x ≠ 0
  | .cot => Real.sin x ≠ 0
  | _ => True

theorem Elementary.defined_eq_true {f : Elementary} {x : ℝ} (h : f.DefinedFor x) :
    Arithmetic.defined f x = true := by
  cases f with
  | sqrt => exact decide_eq_true h
  | ln => exact decide_eq_true h
  | log10 => exact decide_eq_true h
  | asin => exact decide_eq_true h
  | acos => exact decide_eq_true h
  | _ => rfl

/-- Every real number has powers with natural exponents. -/
theorem Operator.definedFor_pow_natCast (x : ℝ) (n : ℕ) : Operator.pow.DefinedFor x n := by
  rcases lt_trichotomy x 0 with hx | hx | hx
  · exact .inr (.inr ⟨hx, n, rfl⟩)
  · exact .inr (.inl ⟨hx, Nat.cast_nonneg n⟩)
  · exact .inl hx

namespace Tree

/-- The value of a tree where the variables have the values `ρ`, whether or not its functions are defined. -/
def valueAt {K : Type} [Arithmetic K] (ρ : String → K) : Tree K → K
  | .const c => c
  | .var name => ρ name
  | .binary op left right => Arithmetic.operate op (left.valueAt ρ) (right.valueAt ρ)
  | .call f arg => Arithmetic.apply f (arg.valueAt ρ)

/-- Every operator and every function of the tree is defined for its operands. -/
def Defined (ρ : String → ℝ) : Tree ℝ → Prop
  | .const _ => True
  | .var _ => True
  | .binary op left right =>
    left.Defined ρ ∧ right.Defined ρ ∧ op.DefinedFor (left.valueAt ρ) (right.valueAt ρ)
  | .call f arg => arg.Defined ρ ∧ f.DefinedFor (arg.valueAt ρ)

variable {ρ : String → ℝ} {t : Tree ℝ}

/-- A tree that is defined evaluates to its value. -/
theorem eval_eq_valueAt (h : t.Defined ρ) :
    t.eval (fun name => some (ρ name)) = .ok (t.valueAt ρ) := by
  induction t with
  | const c => rfl
  | var name => rfl
  | binary op left right ihleft ihright =>
    obtain ⟨hleft, hright, -⟩ := h
    rw [eval, ihleft hleft, ihright hright]
    rfl
  | call f arg ih =>
    obtain ⟨harg, hf⟩ := h
    rw [eval, ih harg]
    show f.value (arg.valueAt ρ) = _
    rw [Elementary.value, if_pos (Elementary.defined_eq_true hf)]
    rfl

/-! ## One variable -/

variable {v : String}

/-- A tree without the variable has the same value for all values of the variable. -/
theorem valueAt_update (h : t.dependsOn v = false) (x : ℝ) :
    t.valueAt (Function.update ρ v x) = t.valueAt ρ := by
  induction t with
  | const c => rfl
  | var name =>
    have hne : name ≠ v := by simpa [dependsOn] using h
    simp [valueAt, hne]
  | binary op left right ihleft ihright =>
    rw [dependsOn, Bool.or_eq_false_iff] at h
    rw [valueAt, valueAt, ihleft h.1, ihright h.2]
  | call f arg ih => rw [valueAt, valueAt, ih h]

/-- A tree without the variable is defined or not for all values of the variable alike. -/
theorem defined_update_iff (h : t.dependsOn v = false) (x : ℝ) :
    t.Defined (Function.update ρ v x) ↔ t.Defined ρ := by
  induction t with
  | const c => exact Iff.rfl
  | var name => exact Iff.rfl
  | binary op left right ihleft ihright =>
    rw [dependsOn, Bool.or_eq_false_iff] at h
    rw [Defined, Defined, ihleft h.1, ihright h.2, valueAt_update h.1, valueAt_update h.2]
  | call f arg ih =>
    have harg : arg.dependsOn v = false := h
    rw [Defined, Defined, ih harg, valueAt_update harg]

end Tree

end SymbolicCalc
