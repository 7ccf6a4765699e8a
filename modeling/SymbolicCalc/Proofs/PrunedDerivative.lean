import SymbolicCalc.Proofs.DerivativeRules
import SymbolicCalc.Tree.Eval
import Mathlib.Data.List.Forall2

/-!
# What pruning leaves out

The derivative that the plain builder puts together writes every operator down, and the pruned one leaves out
terms that are zero and factors that are one. Where the plain derivative is a number, the pruned derivative is
the same number: a factor zero takes a whole product with it, with all that is undefined in it, but then the
product was zero if it was a number at all.

Of the numbers no more is asked than the laws below. They hold of doubles up to the sign of zero, which is what
`same` disregards. Pruned trees never become the argument of a function or a denominator, where that sign
could be seen.
-/

namespace SymbolicCalc

open Arithmetic (same operate)

variable {K : Type} [Arithmetic K]

/-- The value is a number, that is, the same as itself. -/
def IsNumber (x : K) : Prop :=
  same x x = true

/-- The operator gives `z`, if it gives a number at all. -/
def Gives (op : Operator) (x y z : K) : Prop :=
  IsNumber (operate op x y) → same (operate op x y) z = true

/-- The laws of arithmetic that justify what pruning leaves out. -/
structure PruningLaws (K : Type) [Arithmetic K] : Prop where
  symm {x y : K} : same x y = true → same y x = true
  trans {x y z : K} : same x y = true → same y z = true → same x z = true
  one_ne_zero : same (Arithmetic.one : K) Arithmetic.zero = false
  two_ne_one : same (Arithmetic.two : K) Arithmetic.one = false
  /-- What is not a number is not made one by the four operations. -/
  operands {op : Operator} {x y : K} : op ∈ [.add, .sub, .mul, .div] →
    IsNumber (operate op x y) → IsNumber x ∧ IsNumber y
  congr {op : Operator} {x x' y y' : K} : op ∈ [.add, .sub, .mul] →
    same x x' = true → same y y' = true → Gives op x y (operate op x' y')
  congr_div {x x' y : K} : same x x' = true → Gives .div x y (operate .div x' y)
  zero_add {x y : K} : same x Arithmetic.zero = true → Gives .add x y y
  add_zero {x y : K} : same y Arithmetic.zero = true → Gives .add x y x
  sub_zero {x y : K} : same y Arithmetic.zero = true → Gives .sub x y x
  zero_mul {x y : K} : same x Arithmetic.zero = true → Gives .mul x y Arithmetic.zero
  mul_zero {x y : K} : same y Arithmetic.zero = true → Gives .mul x y Arithmetic.zero
  one_mul {x y : K} : same x Arithmetic.one = true → Gives .mul x y y
  mul_one {x y : K} : same y Arithmetic.one = true → Gives .mul x y x
  zero_div {x y : K} : same x Arithmetic.zero = true → Gives .div x y Arithmetic.zero
  div_one {x y : K} : same y Arithmetic.one = true → Gives .div x y x
  pow_one {x y : K} : same y Arithmetic.one = true → Gives .pow x y x

/-- Where the tree `a` has a number for its value, the tree `b` has the same. -/
def Keeps (value? : String → Option K) (a b : Tree K) : Prop :=
  ∀ x, a.eval value? = .ok x → IsNumber x → ∃ y, b.eval value? = .ok y ∧ same x y = true

namespace Tree

variable {value? : String → Option K} {op : Operator} {a a' b b' c : Tree K} {k : K}

theorem eval_binary_eq_ok {z : K} :
    (binary op a b).eval value? = .ok z ↔
      ∃ x y, a.eval value? = .ok x ∧ b.eval value? = .ok y ∧ operate op x y = z := by
  rw [eval, bind_eq_ok]
  constructor
  · rintro ⟨x, hx, h⟩
    obtain ⟨y, hy, h⟩ := bind_eq_ok.1 h
    cases h
    exact ⟨x, y, hx, hy, rfl⟩
  · rintro ⟨x, y, hx, hy, rfl⟩
    exact ⟨x, hx, bind_eq_ok.2 ⟨y, hy, rfl⟩⟩

theorem isConstant_eq_true_iff : a.isConstant k = true ↔ ∃ c, a = .const c ∧ same c k = true := by
  constructor
  · intro h
    cases a with
    | const c => exact ⟨c, rfl, h⟩
    | var name => cases h
    | binary op l r => cases h
    | call f u => cases h
  · rintro ⟨c, rfl, h⟩
    exact h

/-! ## Values that are kept -/

theorem Keeps.refl (a : Tree K) : Keeps value? a a :=
  fun x hx hnumber => ⟨x, hx, hnumber⟩

theorem Keeps.trans (laws : PruningLaws K) (hab : Keeps value? a b) (hbc : Keeps value? b c) :
    Keeps value? a c := by
  intro x hx hnumber
  obtain ⟨y, hy, hxy⟩ := hab x hx hnumber
  obtain ⟨z, hz, hyz⟩ := hbc y hy (laws.trans (laws.symm hxy) hxy)
  exact ⟨z, hz, laws.trans hxy hyz⟩

/-- Sums, differences and products keep what their operands keep. -/
theorem Keeps.binary (laws : PruningLaws K) (hop : op ∈ [.add, .sub, .mul]) (ha : Keeps value? a a')
    (hb : Keeps value? b b') : Keeps value? (.binary op a b) (.binary op a' b') := by
  intro z hz hnumber
  obtain ⟨x, y, hx, hy, rfl⟩ := eval_binary_eq_ok.1 hz
  obtain ⟨hxnumber, hynumber⟩ := laws.operands (List.mem_append_left [.div] hop) hnumber
  obtain ⟨x', hx', hxx'⟩ := ha x hx hxnumber
  obtain ⟨y', hy', hyy'⟩ := hb y hy hynumber
  exact ⟨_, eval_binary_eq_ok.2 ⟨x', y', hx', hy', rfl⟩, laws.congr hop hxx' hyy' hnumber⟩

theorem Keeps.numerator (laws : PruningLaws K) (ha : Keeps value? a a') (b : Tree K) :
    Keeps value? (.binary .div a b) (.binary .div a' b) := by
  intro z hz hnumber
  obtain ⟨x, y, hx, hy, rfl⟩ := eval_binary_eq_ok.1 hz
  obtain ⟨hxnumber, -⟩ := laws.operands (by decide) hnumber
  obtain ⟨x', hx', hxx'⟩ := ha x hx hxnumber
  exact ⟨_, eval_binary_eq_ok.2 ⟨x', y, hx', hy, rfl⟩, laws.congr_div hxx' hnumber⟩

/-- A constant on the right may be dropped, if with it the operator gives its left operand. -/
theorem Keeps.drop_right (hb : b.isConstant k = true)
    (law : ∀ {x y : K}, same y k = true → Gives op x y x) : Keeps value? (.binary op a b) a := by
  intro z hz hnumber
  obtain ⟨x, y, hx, hy, rfl⟩ := eval_binary_eq_ok.1 hz
  obtain ⟨c, rfl, hc⟩ := isConstant_eq_true_iff.1 hb
  cases hy
  exact ⟨x, hx, law hc hnumber⟩

theorem Keeps.drop_left (ha : a.isConstant k = true)
    (law : ∀ {x y : K}, same x k = true → Gives op x y y) : Keeps value? (.binary op a b) b := by
  intro z hz hnumber
  obtain ⟨x, y, hx, hy, rfl⟩ := eval_binary_eq_ok.1 hz
  obtain ⟨c, rfl, hc⟩ := isConstant_eq_true_iff.1 ha
  cases hx
  exact ⟨y, hy, law hc hnumber⟩

/-- A constant that is zero keeps being zero. -/
theorem Keeps.of_isZero (h : a.isZero = true) : Keeps value? a .zero := by
  intro x hx hnumber
  obtain ⟨c, rfl, hc⟩ := isConstant_eq_true_iff.1 h
  cases hx
  exact ⟨Arithmetic.zero, rfl, hc⟩

/-- What takes the value zero makes a product or a quotient with it on the left zero. -/
theorem Keeps.zero_of_left (laws : PruningLaws K) (hop : op ∈ [.add, .sub, .mul, .div])
    (ha : Keeps value? a .zero)
    (law : ∀ {x y : K}, same x Arithmetic.zero = true → Gives op x y Arithmetic.zero) :
    Keeps value? (.binary op a b) .zero := by
  intro z hz hnumber
  obtain ⟨x, y, hx, hy, rfl⟩ := eval_binary_eq_ok.1 hz
  obtain ⟨zero, hzero, hsame⟩ := ha x hx (laws.operands hop hnumber).1
  cases hzero
  exact ⟨_, rfl, law hsame hnumber⟩

theorem Keeps.zero_of_right (laws : PruningLaws K) (hb : b.isZero = true) :
    Keeps value? (.binary .mul a b) .zero := by
  intro z hz hnumber
  obtain ⟨x, y, hx, hy, rfl⟩ := eval_binary_eq_ok.1 hz
  obtain ⟨c, rfl, hc⟩ := isConstant_eq_true_iff.1 hb
  cases hy
  exact ⟨_, rfl, laws.mul_zero hc hnumber⟩

/-! ## Products of several factors -/

variable {factors factors' : List (Tree K)}

theorem Keeps.foldl_mul (laws : PruningLaws K) (ha : Keeps value? a a')
    (h : List.Forall₂ (Keeps value?) factors factors') :
    Keeps value? (factors.foldl (.binary .mul) a) (factors'.foldl (.binary .mul) a') := by
  induction h generalizing a a' with
  | nil => exact ha
  | cons hfactor _ ih => exact ih (Keeps.binary laws (by decide) ha hfactor)

theorem Keeps.foldl_mul_left (laws : PruningLaws K) (ha : Keeps value? a a') (factors : List (Tree K)) :
    Keeps value? (factors.foldl (.binary .mul) a) (factors.foldl (.binary .mul) a') :=
  Keeps.foldl_mul laws ha (List.forall₂_same.2 fun factor _ => Keeps.refl factor)

theorem Keeps.multiply (laws : PruningLaws K) (h : List.Forall₂ (Keeps value?) factors factors') :
    Keeps value? (Builder.multiply factors) (Builder.multiply factors') := by
  cases h with
  | nil => exact Keeps.refl .one
  | cons hfactor hrest => exact Keeps.foldl_mul laws hfactor hrest

/-- From a zero on, a product stays zero. -/
theorem Keeps.foldl_mul_zero (laws : PruningLaws K) (ha : Keeps value? a .zero)
    (factors : List (Tree K)) : Keeps value? (factors.foldl (.binary .mul) a) .zero := by
  induction factors generalizing a with
  | nil => exact ha
  | cons factor factors ih =>
    exact ih (Keeps.zero_of_left laws (by decide) ha laws.zero_mul)

theorem Keeps.foldl_mul_zero_of_any (laws : PruningLaws K) (h : factors.any isZero = true) :
    Keeps value? (factors.foldl (.binary .mul) a) .zero := by
  induction factors generalizing a with
  | nil => cases h
  | cons factor factors ih =>
    rw [List.any_cons, Bool.or_eq_true] at h
    rcases h with hzero | hrest
    · exact Keeps.foldl_mul_zero laws (Keeps.zero_of_right laws hzero) factors
    · exact ih hrest

theorem Keeps.multiply_zero (laws : PruningLaws K) (h : factors.any isZero = true) :
    Keeps value? (Builder.multiply factors) .zero := by
  cases factors with
  | nil => cases h
  | cons factor factors =>
    rw [List.any_cons, Bool.or_eq_true] at h
    rcases h with hzero | hrest
    · exact Keeps.foldl_mul_zero laws (Keeps.of_isZero hzero) factors
    · exact Keeps.foldl_mul_zero_of_any laws hrest

/-- A product that begins with one is the product of the other factors. -/
theorem Keeps.multiply_of_isOne (laws : PruningLaws K) (ha : a.isOne = true) :
    Keeps value? (Builder.multiply (a :: factors)) (Builder.multiply factors) := by
  cases factors with
  | nil =>
    intro x hx hnumber
    obtain ⟨c, rfl, hc⟩ := isConstant_eq_true_iff.1 ha
    cases hx
    exact ⟨Arithmetic.one, rfl, hc⟩
  | cons factor factors =>
    exact Keeps.foldl_mul_left laws (Keeps.drop_left ha laws.one_mul) factors

theorem Keeps.foldl_mul_filter (laws : PruningLaws K) (a : Tree K) (factors : List (Tree K)) :
    Keeps value? (factors.foldl (.binary .mul) a)
      ((factors.filter fun t => !t.isOne).foldl (.binary .mul) a) := by
  induction factors generalizing a with
  | nil => exact Keeps.refl a
  | cons factor factors ih =>
    by_cases hone : factor.isOne = true
    · rw [List.filter_cons_of_neg (by simp [hone])]
      refine Keeps.trans laws ?_ (ih a)
      exact Keeps.foldl_mul_left laws (Keeps.drop_right hone laws.mul_one) factors
    · rw [List.filter_cons_of_pos (by simp [hone])]
      exact ih (.binary .mul a factor)

theorem Keeps.multiply_filter (laws : PruningLaws K) (factors : List (Tree K)) :
    Keeps value? (Builder.multiply factors) (Builder.multiply (factors.filter fun t => !t.isOne)) := by
  induction factors with
  | nil => exact Keeps.refl .one
  | cons factor factors ih =>
    by_cases hone : factor.isOne = true
    · rw [List.filter_cons_of_neg (by simp [hone])]
      exact Keeps.trans laws (Keeps.multiply_of_isOne laws hone) ih
    · rw [List.filter_cons_of_pos (by simp [hone])]
      exact Keeps.foldl_mul_filter laws factor factors

/-! ## What the two builders give -/

theorem Keeps.product (laws : PruningLaws K) (h : List.Forall₂ (Keeps value?) factors factors') :
    Keeps value? (Builder.plain.product factors) (Builder.pruned.product factors') := by
  refine Keeps.trans laws (Keeps.multiply laws h) ?_
  show Keeps value? _ (if factors'.any isZero then .zero
    else Builder.multiply (factors'.filter fun t => !t.isOne))
  by_cases hzero : factors'.any isZero = true
  · rw [if_pos hzero]
    exact Keeps.multiply_zero laws hzero
  · rw [if_neg hzero]
    exact Keeps.multiply_filter laws factors'

theorem Keeps.product_pair (laws : PruningLaws K) (ha : Keeps value? a a') (hb : Keeps value? b b') :
    Keeps value? (Builder.plain.product [a, b]) (Builder.pruned.product [a', b']) :=
  Keeps.product laws (.cons ha (.cons hb .nil))

theorem Keeps.sum (laws : PruningLaws K) (ha : Keeps value? a a') (hb : Keeps value? b b') :
    Keeps value? (Builder.plain.sum a b) (Builder.pruned.sum a' b') := by
  refine Keeps.trans laws (Keeps.binary laws (by decide) ha hb) ?_
  show Keeps value? _ (if a'.isZero then if b'.isZero then .zero else b'
    else if b'.isZero then a' else .binary .add a' b')
  by_cases hza : a'.isZero = true
  · have hdrop : Keeps value? (.binary .add a' b') b' := Keeps.drop_left hza laws.zero_add
    rw [if_pos hza]
    by_cases hzb : b'.isZero = true
    · rw [if_pos hzb]
      exact Keeps.trans laws hdrop (Keeps.of_isZero hzb)
    · rw [if_neg hzb]
      exact hdrop
  · rw [if_neg hza]
    by_cases hzb : b'.isZero = true
    · rw [if_pos hzb]
      exact Keeps.drop_right hzb laws.add_zero
    · rw [if_neg hzb]
      exact Keeps.refl _

/-- The first term of a difference is never dropped alone, only replaced by the constant zero. -/
theorem Keeps.difference (laws : PruningLaws K) (ha : Keeps value? a a') (hb : Keeps value? b b') :
    Keeps value? (Builder.plain.difference a b) (Builder.pruned.difference a' b') := by
  refine Keeps.trans laws (Keeps.binary laws (by decide) ha hb) ?_
  show Keeps value? _ (if a'.isZero then if b'.isZero then .zero else .binary .sub .zero b'
    else if b'.isZero then a' else .binary .sub a' b')
  by_cases hza : a'.isZero = true
  · rw [if_pos hza]
    by_cases hzb : b'.isZero = true
    · rw [if_pos hzb]
      exact Keeps.trans laws (Keeps.drop_right hzb laws.sub_zero) (Keeps.of_isZero hza)
    · rw [if_neg hzb]
      exact Keeps.binary laws (by decide) (Keeps.of_isZero hza) (Keeps.refl b')
  · rw [if_neg hza]
    by_cases hzb : b'.isZero = true
    · rw [if_pos hzb]
      exact Keeps.drop_right hzb laws.sub_zero
    · rw [if_neg hzb]
      exact Keeps.refl _

theorem Keeps.quotient (laws : PruningLaws K) (ha : Keeps value? a a') (b : Tree K) :
    Keeps value? (Builder.plain.quotient a b) (Builder.pruned.quotient a' b) := by
  refine Keeps.trans laws (Keeps.numerator laws ha b) ?_
  show Keeps value? _ (if a'.isZero then .zero else if b.isOne then a' else .binary .div a' b)
  by_cases hzero : a'.isZero = true
  · rw [if_pos hzero]
    exact Keeps.zero_of_left laws (by decide) (Keeps.of_isZero hzero) laws.zero_div
  · rw [if_neg hzero]
    by_cases hone : b.isOne = true
    · rw [if_pos hone]
      exact Keeps.drop_right hone laws.div_one
    · rw [if_neg hone]
      exact Keeps.refl _

theorem Keeps.power (laws : PruningLaws K) (a b : Tree K) :
    Keeps value? (Builder.plain.power a b) (Builder.pruned.power a b) := by
  show Keeps value? _ (if b.isOne then a else .binary .pow a b)
  by_cases hone : b.isOne = true
  · rw [if_pos hone]
    exact Keeps.drop_right hone laws.pow_one
  · rw [if_neg hone]
    exact Keeps.refl _

/-! ## The rules -/

theorem square_pruned (htwo : same (Arithmetic.two : K) Arithmetic.one = false) (u : Tree K) :
    square .pruned u = square .plain u := by
  have hone : ¬(Tree.const (Arithmetic.two : K)).isOne = true := by
    rw [Bool.not_eq_true]
    exact htwo
  exact if_neg hone

/-- A sum or a difference of one and a square is written down by both builders. -/
theorem one_add_square_pruned (hone : same (Arithmetic.one : K) Arithmetic.zero = false) (u : Tree K) :
    Builder.pruned.sum .one (square .plain u) = Builder.plain.sum .one (square .plain u) := by
  have hzero : ¬(Tree.one : Tree K).isZero = true := by
    rw [Bool.not_eq_true]
    exact hone
  exact (if_neg hzero).trans (if_neg Bool.false_ne_true)

theorem one_sub_square_pruned (hone : same (Arithmetic.one : K) Arithmetic.zero = false) (u : Tree K) :
    Builder.pruned.difference .one (square .plain u) =
      Builder.plain.difference .one (square .plain u) := by
  have hzero : ¬(Tree.one : Tree K).isZero = true := by
    rw [Bool.not_eq_true]
    exact hone
  exact (if_neg hzero).trans (if_neg Bool.false_ne_true)

/-- The derivative of a function has one operator that may be pruned, a quotient at its root. -/
theorem Keeps.outerDerivative (laws : PruningLaws K) (f : Elementary) (u : Tree K) :
    Keeps value? (Tree.outerDerivative .plain f u) (Tree.outerDerivative .pruned f u) := by
  unfold Tree.outerDerivative
  simp only [square_pruned laws.two_ne_one, one_add_square_pruned laws.one_ne_zero,
    one_sub_square_pruned laws.one_ne_zero]
  cases f with
  | exp | sign | abs | sin | cos | sinh | cosh => exact Keeps.refl _
  | sqrt | ln | log10 | tan | cot | asin | acos | atan | tanh => exact Keeps.quotient laws (Keeps.refl _) _

theorem Keeps.powerRule (laws : PruningLaws K) (f n : Tree K) (h : Keeps value? a a') :
    Keeps value? (Tree.powerRule .plain f n a) (Tree.powerRule .pruned f n a') :=
  Keeps.product laws (.cons (Keeps.refl n) (.cons (Keeps.power laws f _) (.cons h .nil)))

theorem Keeps.exponentialRule (laws : PruningLaws K) (f g : Tree K) (ha : Keeps value? a a')
    (hb : Keeps value? b b') :
    Keeps value? (Tree.exponentialRule .plain f g a b) (Tree.exponentialRule .pruned f g a' b') := by
  refine Keeps.product_pair laws (Keeps.refl _) (Keeps.sum laws ?_ ?_)
  · exact Keeps.product_pair laws hb (Keeps.refl _)
  · exact Keeps.product_pair laws (Keeps.refl g) (Keeps.quotient laws ha f)

/-- Every derivative of the pruned builder has its counterpart by the plain builder. -/
theorem Differentiates.exists_plain (laws : PruningLaws K) {v : String} {f d : Tree K}
    (h : Differentiates .pruned v f d) :
    ∃ u, Differentiates .plain v f u ∧ ∀ value?, Keeps value? u d := by
  induction h with
  | independent h => exact ⟨.zero, .independent h, fun _ => Keeps.refl _⟩
  | var => exact ⟨.one, .var, fun _ => Keeps.refl _⟩
  | add h _ _ ihf ihg =>
    obtain ⟨f', hf, hkf⟩ := ihf
    obtain ⟨g', hg, hkg⟩ := ihg
    exact ⟨_, .add h hf hg, fun value? => Keeps.sum laws (hkf value?) (hkg value?)⟩
  | sub h _ _ ihf ihg =>
    obtain ⟨f', hf, hkf⟩ := ihf
    obtain ⟨g', hg, hkg⟩ := ihg
    exact ⟨_, .sub h hf hg, fun value? => Keeps.difference laws (hkf value?) (hkg value?)⟩
  | mul h _ _ ihf ihg =>
    obtain ⟨f', hf, hkf⟩ := ihf
    obtain ⟨g', hg, hkg⟩ := ihg
    refine ⟨_, .mul h hf hg, fun value? => Keeps.sum laws ?_ ?_⟩
    · exact Keeps.product_pair laws (hkf value?) (Keeps.refl _)
    · exact Keeps.product_pair laws (Keeps.refl _) (hkg value?)
  | div h _ _ ihf ihg =>
    obtain ⟨f', hf, hkf⟩ := ihf
    obtain ⟨g', hg, hkg⟩ := ihg
    refine ⟨_, .div h hf hg, fun value? => ?_⟩
    rw [square_pruned laws.two_ne_one]
    refine Keeps.quotient laws (Keeps.difference laws ?_ ?_) _
    · exact Keeps.product_pair laws (hkf value?) (Keeps.refl _)
    · exact Keeps.product_pair laws (Keeps.refl _) (hkg value?)
  | exponential h _ _ ihf ihg =>
    obtain ⟨f', hf, hkf⟩ := ihf
    obtain ⟨g', hg, hkg⟩ := ihg
    exact ⟨_, .exponential h hf hg, fun value? =>
      Keeps.exponentialRule laws _ _ (hkf value?) (hkg value?)⟩
  | power hbase h _ ihf =>
    obtain ⟨f', hf, hkf⟩ := ihf
    exact ⟨_, .power hbase h hf, fun value? => Keeps.powerRule laws _ _ (hkf value?)⟩
  | @chain f u _ h _ ih =>
    obtain ⟨u', hu, hku⟩ := ih
    exact ⟨_, .chain h hu, fun value? =>
      Keeps.product_pair laws (Keeps.outerDerivative laws f u) (hku value?)⟩

end Tree

/-- Where the unpruned derivative is a number, the derivative is the same number. -/
theorem PruningLaws.keeps_derivative (laws : PruningLaws K) {v : String} {f d : Tree K}
    (h : f.derivative v = .ok d) :
    ∃ u, f.derivativeWith .plain v = .ok u ∧ ∀ value?, Keeps value? u d := by
  obtain ⟨u, hu, hkeeps⟩ := (Tree.Differentiates.of_derivativeWith h).exists_plain laws
  exact ⟨u, hu.derivativeWith_eq, hkeeps⟩

end SymbolicCalc
