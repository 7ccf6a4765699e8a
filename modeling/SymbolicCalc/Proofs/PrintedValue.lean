import SymbolicCalc.Outcome
import SymbolicCalc.Proofs.DoubleBits
import SymbolicCalc.Proofs.Positions
import SymbolicCalc.Proofs.Printing

/-!
# The value of a printed expression

A constant without a literal is printed as an operation, so a printed expression may be read back as another
tree. It still has the same value for all values of its variables. Doubles that are not a number have two
signs, which the operation does not keep, so values are compared up to that sign; and every operator and
function respects the comparison. The one thing that gets lost is the sign of a negative zero.
-/

namespace SymbolicCalc

namespace Binary64

/-! ## Doubles up to the sign of what is not a number -/

/-- The same double, or two that are not a number. -/
def Agree (x y : Binary64) : Prop :=
  x = y ∨ x.isNan = true ∧ y.isNan = true

variable {x x' y y' : Binary64}

theorem Agree.refl (x : Binary64) : Agree x x :=
  .inl rfl

theorem Agree.isNan_eq (h : Agree x y) : x.isNan = y.isNan := by
  rcases h with rfl | ⟨hx, hy⟩
  · rfl
  · rw [hx, hy]

theorem magnitude_of_isNan (h : x.isNan = true) : x.magnitude = .nan := by
  simpa [isNan] using h

/-- The machine knows only one double that is not a number. -/
theorem Agree.toFloat_eq (h : Agree x y) : toFloat x = toFloat y := by
  rcases h with rfl | ⟨hx, hy⟩
  · rfl
  have hone (isNegative : Bool) : toFloat ⟨isNegative, .nan⟩ = toFloat (nan false) := by
    cases isNegative <;> rfl
  obtain ⟨sx, mx⟩ := x
  obtain ⟨sy, my⟩ := y
  cases magnitude_of_isNan hx
  cases magnitude_of_isNan hy
  rw [hone sx, hone sy]

/-- What a calculation gives does not depend on its operands, up to the sign of what is not a number. -/
theorem ofResult_agree (operands others : List Binary64) (result : Float) :
    Agree (ofResult operands result) (ofResult others result) := by
  have hnan (operands : List Binary64) : ((operands.find? isNan).getD (nan true)).isNan = true := by
    cases hfind : operands.find? isNan with
    | none => rfl
    | some x => exact List.find?_some hfind
  unfold ofResult
  split
  · exact .inr ⟨hnan operands, hnan others⟩
  · exact .refl _

theorem lift_agree (f : Float → Float) (h : Agree x y) : Agree (lift f x) (lift f y) := by
  unfold lift
  rw [h.toFloat_eq]
  exact ofResult_agree [x] [y] (f y.toFloat)

theorem lift₂_agree (op : Float → Float → Float) (hx : Agree x x') (hy : Agree y y') :
    Agree (lift₂ op x y) (lift₂ op x' y') := by
  unfold lift₂
  rw [hx.toFloat_eq, hy.toFloat_eq]
  exact ofResult_agree [x, y] [x', y'] (op x'.toFloat y'.toFloat)

theorem isNan_remainder_left (hx : x.isNan = true) : (remainder x y).isNan = true := by
  simpa [remainder, magnitude_of_isNan hx] using hx

theorem isNan_remainder_right (hy : y.isNan = true) : (remainder x y).isNan = true := by
  unfold remainder
  rw [magnitude_of_isNan hy]
  cases hx : x.magnitude with
  | nan => simp [isNan, hx]
  | infinite => exact hy
  | finite n => exact hy

theorem remainder_agree (hx : Agree x x') (hy : Agree y y') :
    Agree (remainder x y) (remainder x' y') := by
  rcases hx with rfl | ⟨hx, hx'⟩
  · rcases hy with rfl | ⟨hy, hy'⟩
    · exact .refl _
    · exact .inr ⟨isNan_remainder_right hy, isNan_remainder_right hy'⟩
  · exact .inr ⟨isNan_remainder_left hx, isNan_remainder_left hx'⟩

theorem pow_agree (hx : Agree x x') (hy : Agree y y') : Agree (pow x y) (pow x' y') := by
  have hodd : y.isOdd = y'.isOdd := by
    rcases hy with rfl | ⟨hy, hy'⟩
    · rfl
    · simp [isOdd, magnitude_of_isNan hy, magnitude_of_isNan hy']
  unfold pow
  rw [hx.isNan_eq, hodd]
  split
  · exact .refl _
  · exact lift₂_agree Float.pow hx hy

theorem operate_agree (op : Operator) (hx : Agree x x') (hy : Agree y y') :
    Agree (operate op x y) (operate op x' y') := by
  cases op with
  | add => exact lift₂_agree (· + ·) hx hy
  | sub => exact lift₂_agree (· - ·) hx hy
  | mul => exact lift₂_agree (· * ·) hx hy
  | div => exact lift₂_agree (· / ·) hx hy
  | mod => exact remainder_agree hx hy
  | pow => exact pow_agree hx hy

theorem abs_agree (h : Agree x y) : Agree (abs x) (abs y) := by
  rcases h with rfl | ⟨hx, hy⟩
  · exact .refl _
  · exact .inr ⟨hx, hy⟩

theorem sign_agree (h : Agree x y) : Agree (sign x) (sign y) := by
  rcases h with rfl | ⟨hx, hy⟩
  · exact .refl _
  · unfold sign
    rw [if_pos hx, if_pos hy]
    exact .refl _

theorem apply_agree (f : Elementary) (h : Agree x y) : Agree (apply f x) (apply f y) := by
  cases f with
  | sign => exact sign_agree h
  | abs => exact abs_agree h
  | _ =>
    simp only [apply]
    exact lift_agree _ h

theorem inside_eq (domain : Domain) (h : Agree x y) : inside domain x = inside domain y := by
  rcases h with rfl | ⟨hx, hy⟩
  · rfl
  · simp [inside, hx, hy]

/-- Only a number lies outside of a domain. -/
theorem eq_of_not_inside {domain : Domain} (h : Agree x y) (hout : inside domain x = false) : x = y := by
  rcases h with h | ⟨hx, -⟩
  · exact h
  · simp [inside, hx] at hout

end Binary64

/-! ## Outcomes -/

/-- Two evaluations that end in the same way: with the same error, or with the same value up to the sign of
what is not a number. -/
def SameOutcome (m m' : Except (EvalError Binary64) Binary64) : Prop :=
  Corresponds Eq Binary64.Agree m m'

theorem Elementary.value_sameOutcome (f : Elementary) {x y : Binary64} (h : Binary64.Agree x y) :
    SameOutcome (f.value x) (f.value y) := by
  have hdefined : Arithmetic.defined f x = Arithmetic.defined f y := Binary64.inside_eq f.domain h
  unfold Elementary.value
  rw [← hdefined]
  by_cases hin : Arithmetic.defined f x = true
  · rw [if_pos hin, if_pos hin]
    exact .ok (Binary64.apply_agree f h)
  · rw [if_neg hin, if_neg hin, Binary64.eq_of_not_inside h (Bool.not_eq_true _ ▸ hin)]
    exact .error rfl

/-! ## The tree that is read back -/

/-- The double, but 0 for the negative zero. -/
def Binary64.unsignZero (x : Binary64) : Binary64 :=
  if x.isZero then zero else x

theorem Binary64.unsignZero_finite (negative : Bool) (n : Fin Binary64.infinityOrdinal) :
    unsignZero ⟨negative, .finite n⟩ = if n.val = 0 then ⟨false, .finite n⟩ else ⟨negative, .finite n⟩ := by
  have hordinal : Magnitude.ofOrdinal 0 = .finite ⟨0, by decide⟩ := rfl
  by_cases hn : n.val = 0
  · obtain rfl : n = ⟨0, by decide⟩ := Fin.ext hn
    rfl
  · have hne : ¬ n = ⟨0, by decide⟩ := fun h => hn (congrArg Fin.val h)
    simp [unsignZero, isZero, hordinal, hne, hn]

namespace Expression

open Binary64

/-- The tree with 0 in place of every negative zero. -/
def unsignZeros : Expression → Expression
  | .const value => .const value.unsignZero
  | .var name => .var name
  | .binary op left right => .binary op (unsignZeros left) (unsignZeros right)
  | .call f arg => .call f (unsignZeros arg)

theorem unsignZeros_eq_self {t : Expression}
    (h : ∀ value ∈ t.constants, value ≠ ⟨true, .ofOrdinal 0⟩) : unsignZeros t = t := by
  induction t with
  | const value =>
    have hvalue := h value (by simp [Tree.constants])
    obtain ⟨negative, magnitude⟩ := value
    simp only [unsignZeros, unsignZero, isZero, decide_eq_true_eq]
    split
    next hzero =>
      cases negative with
      | false => rw [hzero]; rfl
      | true => exact absurd (by rw [hzero]) hvalue
    · rfl
  | var name => rfl
  | binary op left right ihleft ihright =>
    rw [unsignZeros, ihleft fun value hv => h value (by simp [Tree.constants, hv]),
      ihright fun value hv => h value (by simp [Tree.constants, hv])]
  | call f arg ih => rw [unsignZeros, ih fun value hv => h value (by simpa [Tree.constants] using hv)]

variable {value? : String → Option Binary64}

/-- A constant is printed as something that has its value, the sign of zero apart. -/
theorem eval_rereadConstant (value : Binary64) :
    ∃ y, (rereadConstant value).eval value? = .ok y ∧ Agree y value.unsignZero := by
  have hinfinity : operate .div one zero = infinity false := by decide +kernel
  obtain ⟨negative, magnitude⟩ := value
  cases magnitude with
  | nan =>
    refine ⟨operate .div zero zero, rfl, .inr ⟨by decide +kernel, ?_⟩⟩
    cases negative <;> rfl
  | infinite =>
    cases negative with
    | false => exact ⟨operate .div one zero, rfl, .inl hinfinity⟩
    | true =>
      refine ⟨operate .sub zero (operate .div one zero), rfl, .inl ?_⟩
      rw [hinfinity]
      decide +kernel
  | finite n =>
    rw [unsignZero_finite]
    by_cases hn : n.val = 0
    · refine ⟨⟨false, .finite n⟩, ?_, .inl (if_pos hn).symm⟩
      simp [rereadConstant, hn, Tree.eval]
    · rw [if_neg hn]
      cases negative with
      | false =>
        refine ⟨⟨false, .finite n⟩, ?_, .refl _⟩
        simp [rereadConstant, Tree.eval]
      | true =>
        refine ⟨operate .sub zero ⟨false, .finite n⟩, ?_, .inl (operate_sub_zero_finite hn)⟩
        have htree : rereadConstant ⟨true, .finite n⟩ =
            .binary .sub .zero (.const ⟨false, .finite n⟩) := by
          simp [rereadConstant, hn]
        rw [htree]
        rfl

/-- The induction is on the tree: every operator and every function respects the comparison of values, and
evaluation goes through both trees in the same order. -/
theorem eval_reread (t : Expression) :
    SameOutcome ((reread t).eval value?) ((unsignZeros t).eval value?) := by
  induction t with
  | const value =>
    obtain ⟨y, heval, hagree⟩ := eval_rereadConstant value
    rw [reread, heval]
    exact .ok hagree
  | var name =>
    rw [reread, unsignZeros, Tree.eval]
    cases value? name with
    | none => exact .error rfl
    | some value => exact .ok (.refl value)
  | binary op left right ihleft ihright =>
    refine ihleft.bind fun x x' hx => ihright.bind fun y y' hy => ?_
    exact .ok (operate_agree op hx hy)
  | call f arg ih => exact ih.bind fun x y h => f.value_sameOutcome h

/-- The text of a tree with readable names compiles with the variables of the tree, and for all bindings the
compiled tree ends like the tree with 0 in place of every negative zero; hence like the tree itself if there
is no negative zero in it. -/
theorem evaluate_compile_text {t : Expression}
    (hnames : ∀ name, t.dependsOn name = true → ReadableName name) (hnesting : nesting t < 2 ^ 30) :
    ∃ d, compile t.text t.variableNames = .ok d ∧
      (∀ ρ, SameOutcome (d.evaluate ρ) ((unsignZeros t).evaluate ρ)) ∧
      ((∀ value ∈ t.constants, value ≠ ⟨true, .ofOrdinal 0⟩) →
        ∀ ρ, SameOutcome (d.evaluate ρ) (t.evaluate ρ)) := by
  have hdeclared : ∀ name, t.dependsOn name = true →
      ReadableName name ∧ name ∈ t.variableNames.map Text.lowercase := by
    intro name h
    have hname := hnames name h
    refine ⟨hname, List.mem_map.2 ⟨name, Tree.mem_names_freeVars.2 h, hname.lower⟩⟩
  refine ⟨reread t, compile_text_eq_reread hdeclared hnesting, fun ρ => eval_reread t, ?_⟩
  intro hconst ρ
  have h := @eval_reread ρ.get? t
  rw [unsignZeros_eq_self hconst] at h
  exact h

theorem evaluate_compile_text_negative_infinity :
    ∃ d, compile (text (.binary .mul (.const (infinity true)) (.var "x"))) ["x"] = .ok d ∧
      ∀ ρ, SameOutcome (d.evaluate ρ) (evaluate (.binary .mul (.const (infinity true)) (.var "x")) ρ) := by
  have hnames : ∀ name, Tree.dependsOn name (.binary .mul (.const (infinity true)) (.var "x")) = true →
      ReadableName name := by
    intro name hname
    have hx : name = "x" := by simpa [Tree.dependsOn, eq_comm] using hname
    subst hx
    exact readableName_x
  obtain ⟨d, hcompile, -, hsame⟩ := evaluate_compile_text hnames (by decide)
  refine ⟨d, hcompile, hsame ?_⟩
  intro value hvalue
  have heq : value = infinity true := by simpa [Tree.constants] using hvalue
  rw [heq]
  decide

/-- A quotient that shows the sign of a zero. -/
def oneDivNegativeZero : Expression :=
  .binary .div .one (.const ⟨true, .ofOrdinal 0⟩)

/-- The sign of a negative zero is not printed, so the quotient is read back with another value. -/
theorem evaluate_compile_text_oneDivNegativeZero :
    ∃ d, compile oneDivNegativeZero.text oneDivNegativeZero.variableNames = .ok d ∧
      d.evaluate .empty = .ok (infinity false) ∧
      oneDivNegativeZero.evaluate .empty = .ok (infinity true) ∧
      (infinity false).same (infinity true) = false ∧ (infinity false).isNan = false := by
  have hnames (names : List String) : ∀ name, oneDivNegativeZero.dependsOn name = true →
      ReadableName name ∧ name ∈ names.map Text.lowercase := by
    intro name h
    cases h
  have hreread : reread oneDivNegativeZero = .binary .div .one .zero := by decide +kernel
  have hleft : operate .div one zero = infinity false := by decide +kernel
  have hright : operate .div one ⟨true, .ofOrdinal 0⟩ = infinity true := by decide +kernel
  have hcompile := compile_text_eq_reread (hnames oneDivNegativeZero.variableNames) (by decide +kernel)
  rw [hreread] at hcompile
  refine ⟨_, hcompile, ?_, ?_, by decide, by decide⟩
  · exact congrArg Except.ok hleft
  · exact congrArg Except.ok hright

end Expression

end SymbolicCalc
