import SymbolicCalc.Expression
import SymbolicCalc.Proofs.DoubleOperators
import SymbolicCalc.Proofs.PrunedDerivative

/-!
# Pruned derivatives over doubles

Doubles satisfy the laws that pruning relies on. All of them but one are laws of the four operations, which
round as the standard has it. The last, that the first power of a number is the number, is a law of the
mathematical library, whose power function is therefore left open here.
-/

namespace SymbolicCalc

namespace Binary64

open Float.Model

/-- The arithmetic of doubles with another power function. -/
@[reducible] def arithmeticWith (power : Binary64 → Binary64 → Binary64) : Arithmetic Binary64 where
  zero := zero
  one := one
  two := Arithmetic.two
  half := Arithmetic.half
  minusOne := Arithmetic.minusOne
  lnTen := lnTen
  same := same
  operate
    | .pow => power
    | op => operate op
  apply := apply
  inside := inside

theorem arithmeticWith_pow : arithmeticWith pow = instArithmetic := by
  have hoperate : (arithmeticWith pow).operate = operate := by
    funext op
    cases op <;> rfl
  exact congrArg (fun operate => { instArithmetic with operate }) hoperate

variable {power : Binary64 → Binary64 → Binary64}

theorem arithmeticWith_operate {op : Operator} (hop : op ≠ .pow) (x y : Binary64) :
    (arithmeticWith power).operate op x y = operate op x y := by
  cases op with
  | pow => exact absurd rfl hop
  | _ => rfl

/-! ## Laws of the operations -/

section

variable {x x' y y' : Binary64} {op : Operator}

theorem isNan_operands_of_mem (hop : op ∈ [.add, .sub, .mul, .div]) (h : (operate op x y).isNan = false) :
    x.isNan = false ∧ y.isNan = false := by
  cases op with
  | add => exact calculates_add.isNan_operands h
  | sub => exact calculates_sub.isNan_operands h
  | mul => exact calculates_mul.isNan_operands h
  | div => exact calculates_div.isNan_operands h
  | mod | pow => simp at hop

theorem same_operate_of_mem (hop : op ∈ [.add, .sub, .mul]) (hx : same x x' = true) (hy : same y y' = true)
    (h : (operate op x y).isNan = false) : same (operate op x y) (operate op x' y') = true := by
  have hx := SameUnpacked.of_same hx
  have hy := SameUnpacked.of_same hy
  cases op with
  | add => exact calculates_add.same_operate (zeroBlind_add _ _ _ _ hx hy) h
  | sub => exact calculates_sub.same_operate (zeroBlind_sub _ _ _ _ hx hy) h
  | mul => exact calculates_mul.same_operate (zeroBlind_mul _ _ _ _ hx hy) h
  | div | mod | pow => simp at hop

theorem same_div_of_same (hx : same x x' = true) (y : Binary64) (h : (operate .div x y).isNan = false) :
    same (operate .div x y) (operate .div x' y) = true :=
  calculates_div.same_operate (sameUnpacked_div_left (.of_same hx) _) h

/-! ### Zero -/

theorem zero_add_same (hx : same x zero = true) (h : (operate .add x y).isNan = false) :
    same (operate .add x y) y = true := by
  obtain ⟨s, hs⟩ := unpacked_of_same_zero hx
  exact calculates_add.same_of_unpacked (hs ▸ zero_add_unpacked s _) h

theorem add_zero_same (hy : same y zero = true) (h : (operate .add x y).isNan = false) :
    same (operate .add x y) x = true := by
  obtain ⟨s, hs⟩ := unpacked_of_same_zero hy
  exact calculates_add.same_of_unpacked (hs ▸ add_zero_unpacked _ s) h

theorem sub_zero_same (hy : same y zero = true) (h : (operate .sub x y).isNan = false) :
    same (operate .sub x y) x = true := by
  obtain ⟨s, hs⟩ := unpacked_of_same_zero hy
  exact calculates_sub.same_of_unpacked (hs ▸ sub_zero_unpacked _ s) h

theorem zero_mul_same (hx : same x zero = true) (h : (operate .mul x y).isNan = false) :
    same (operate .mul x y) zero = true := by
  obtain ⟨s, hs⟩ := unpacked_of_same_zero hx
  exact calculates_mul.same_zero (hs ▸ zero_mul_unpacked s _) h

theorem mul_zero_same (hy : same y zero = true) (h : (operate .mul x y).isNan = false) :
    same (operate .mul x y) zero = true := by
  obtain ⟨s, hs⟩ := unpacked_of_same_zero hy
  exact calculates_mul.same_zero (hs ▸ mul_zero_unpacked _ s) h

theorem zero_div_same (hx : same x zero = true) (h : (operate .div x y).isNan = false) :
    same (operate .div x y) zero = true := by
  obtain ⟨s, hs⟩ := unpacked_of_same_zero hx
  exact calculates_div.same_zero (hs ▸ zero_div_unpacked s _) h

/-! ### One -/

theorem one_mul_same (hx : same x one = true) (h : (operate .mul x y).isNan = false) :
    same (operate .mul x y) y = true := by
  have heq := one_mul_unpacked y
  rw [← unpacked_of_same_one hx] at heq
  exact calculates_mul.same_of_unpacked (.inl heq) h

theorem mul_one_same (hy : same y one = true) (h : (operate .mul x y).isNan = false) :
    same (operate .mul x y) x = true := by
  have heq := mul_one_unpacked x
  rw [← unpacked_of_same_one hy] at heq
  exact calculates_mul.same_of_unpacked (.inl heq) h

theorem div_one_same (hy : same y one = true) (h : (operate .div x y).isNan = false) :
    same (operate .div x y) x = true := by
  have heq := div_one_unpacked x
  rw [← unpacked_of_same_one hy] at heq
  exact calculates_div.same_of_unpacked (.inl heq) h

theorem pow_one_same (hpower : ∀ x, Agree (power x one) x) (hy : same y one = true)
    (h : (power x y).isNan = false) : same (power x y) x = true := by
  obtain rfl := eq_one_of_same hy
  rcases hpower x with heq | ⟨hnan, -⟩
  · rw [heq] at h ⊢
    exact same_iff.2 ⟨h, .inl rfl⟩
  · rw [hnan] at h
    cases h

end

/-! ## The derivative -/

/-- The arithmetic of doubles justifies pruning, if the power function knows first powers. -/
theorem pruningLaws (hpower : ∀ x, Agree (power x one) x) :
    @PruningLaws Binary64 (arithmeticWith power) := by
  let := arithmeticWith power
  have hnumber {x : Binary64} (h : IsNumber x) : x.isNan = false := (same_iff.1 h).1
  have hself {x : Binary64} (h : x.isNan = false) : IsNumber x := same_iff.2 ⟨h, .inl rfl⟩
  have hne {op : Operator} {ops : List Operator} (hop : op ∈ ops) (hpow : .pow ∉ ops) : op ≠ .pow := by
    rintro rfl
    exact hpow hop
  exact
    { symm := same_symm
      trans := same_trans
      one_ne_zero := show same one zero = false by decide +kernel
      two_ne_one := show same (ofDecimal false ⟨2, 0⟩) one = false by decide +kernel
      operands := fun {op x y} hop h => by
        rw [arithmeticWith_operate (hne hop (by decide))] at h
        exact (isNan_operands_of_mem hop (hnumber h)).imp hself hself
      congr := fun {op x x' y y'} hop hx hy => by
        unfold Gives
        rw [arithmeticWith_operate (hne hop (by decide)), arithmeticWith_operate (hne hop (by decide))]
        exact fun h => same_operate_of_mem hop hx hy (hnumber h)
      congr_div := fun hx h => same_div_of_same hx _ (hnumber h)
      zero_add := fun hx h => zero_add_same hx (hnumber h)
      add_zero := fun hy h => add_zero_same hy (hnumber h)
      sub_zero := fun hy h => sub_zero_same hy (hnumber h)
      zero_mul := fun hx h => zero_mul_same hx (hnumber h)
      mul_zero := fun hy h => mul_zero_same hy (hnumber h)
      one_mul := fun hx h => one_mul_same hx (hnumber h)
      mul_one := fun hy h => mul_one_same hy (hnumber h)
      zero_div := fun hx h => zero_div_same hx (hnumber h)
      div_one := fun hy h => div_one_same hy (hnumber h)
      pow_one := fun hy h => pow_one_same hpower hy (hnumber h) }

/-- Where the unpruned derivative of an expression is a number, so in particular where it is finite, the
derivative has a value, and it is the same number. -/
theorem eval_derivative_eq_plain (hpower : ∀ x, Agree (power x one) x) {f d : Expression} {v : String} :
    letI := arithmeticWith power
    f.derivative v = .ok d →
      ∃ u, f.derivativeWith .plain v = .ok u ∧
        ∀ (value? : String → Option Binary64) x, u.eval value? = .ok x → x.isNan = false →
          ∃ y, d.eval value? = .ok y ∧ same x y = true := by
  let := arithmeticWith power
  intro h
  obtain ⟨u, hu, hkeeps⟩ := (pruningLaws hpower).keeps_derivative h
  exact ⟨u, hu, fun value? x hx hnumber => hkeeps value? x hx (same_iff.2 ⟨hnumber, .inl rfl⟩)⟩

/-- The power function of the library, with first powers settled. -/
def powerWithFirst (x y : Binary64) : Binary64 :=
  if y = one then x else pow x y

/-- The square of a variable. Its derivative is `2 * x`, and unpruned `2 * x ^ 1 * 1`. -/
def squareOfX : Expression :=
  .binary .pow (.var "x") (.const (ofDecimal false ⟨2, 0⟩))

theorem eval_derivative_eq_plain_squareOfX :
    letI := arithmeticWith powerWithFirst
    ∃ u d : Expression, squareOfX.derivativeWith .plain "x" = .ok u ∧ squareOfX.derivative "x" = .ok d ∧
      u ≠ d ∧ u.eval (fun _ => some (ofDecimal false ⟨3, 0⟩)) = .ok (ofDecimal false ⟨6, 0⟩) ∧
      ∃ y, d.eval (fun _ => some (ofDecimal false ⟨3, 0⟩)) = .ok y ∧
        same (ofDecimal false ⟨6, 0⟩) y = true := by
  let := arithmeticWith powerWithFirst
  have hpower (x : Binary64) : Agree (powerWithFirst x one) x := .inl (if_pos rfl)
  have hplain : squareOfX.derivativeWith .plain "x" =
      .ok (.binary .mul (.binary .mul (.const (ofDecimal false ⟨2, 0⟩))
        (.binary .pow (.var "x") (.const one))) .one) := by
    decide +kernel
  have hpruned : squareOfX.derivative "x" =
      .ok (.binary .mul (.const (ofDecimal false ⟨2, 0⟩)) (.var "x")) := by
    decide +kernel
  have hvalue : operate .mul (operate .mul (ofDecimal false ⟨2, 0⟩)
      (powerWithFirst (ofDecimal false ⟨3, 0⟩) one)) one = ofDecimal false ⟨6, 0⟩ := by
    decide +kernel
  obtain ⟨u, hu, hkeeps⟩ := eval_derivative_eq_plain hpower hpruned
  obtain rfl := Except.ok.inj (hplain.symm.trans hu)
  have heval := congrArg (Except.ok (ε := EvalError Binary64)) hvalue
  exact ⟨_, _, hu, hpruned, by decide, heval, hkeeps _ _ heval (by decide +kernel)⟩

end Binary64

namespace Expression

open Binary64

/-- The same for the power function that expressions are evaluated with. -/
theorem evaluate_differentiate_eq_plain (hpow : ∀ x, Agree (pow x one) x) {t d : Expression}
    {name : String} (h : t.differentiate name = .ok d) :
    ∃ u : Expression, t.derivativeWith .plain (Text.lowercase name) = .ok u ∧
      ∀ ρ x, u.evaluate ρ = .ok x → x.isNan = false → ∃ y, d.evaluate ρ = .ok y ∧ same x y = true := by
  have laws : PruningLaws Binary64 := arithmeticWith_pow ▸ pruningLaws hpow
  obtain ⟨u, hu, hkeeps⟩ := laws.keeps_derivative h
  exact ⟨u, hu, fun ρ x hx hnumber => hkeeps ρ.get? x hx (same_iff.2 ⟨hnumber, .inl rfl⟩)⟩

end Expression

end SymbolicCalc
