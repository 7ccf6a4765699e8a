import SymbolicCalc.Tree.Latex
import Mathlib.Data.Rat.Floor

/-!
# Trees that are grouped in another way

A sum may be grouped from the left or from the right, and so may a product: neither its exact value nor its text in
LaTeX depends on it. The text does not depend either on whether a remainder is taken of a product or of its last
factor, but the value does: `a * (b % c)` and `(a * b) % c` are written alike.
-/

namespace SymbolicCalc

/-- The trees differ by the grouping of their sums and products, and if `remainders` is set also by whether a
remainder is taken of a product or of its last factor. -/
inductive Regrouped (remainders : Bool) : Expression → Expression → Prop
  | refl (t : Expression) : Regrouped remainders t t
  | symm {t t' : Expression} (h : Regrouped remainders t t') : Regrouped remainders t' t
  | trans {t t' t'' : Expression} (h : Regrouped remainders t t') (h' : Regrouped remainders t' t'') :
      Regrouped remainders t t''
  | binary (op : Operator) {left left' right right' : Expression} (hleft : Regrouped remainders left left')
      (hright : Regrouped remainders right right') :
      Regrouped remainders (.binary op left right) (.binary op left' right')
  | call (f : Elementary) {arg arg' : Expression} (h : Regrouped remainders arg arg') :
      Regrouped remainders (.call f arg) (.call f arg')
  /-- `a + (b + c)` and `(a + b) + c`, or `a + (b - c)` and `(a + b) - c`. -/
  | sum {op : Operator} (hop : op = .add ∨ op = .sub) (a b c : Expression) :
      Regrouped remainders (.binary .add a (.binary op b c)) (.binary op (.binary .add a b) c)
  /-- `a * (b * c)` and `(a * b) * c`. -/
  | product (a b c : Expression) :
      Regrouped remainders (.binary .mul a (.binary .mul b c)) (.binary .mul (.binary .mul a b) c)
  /-- `a * (b % c)` and `(a * b) % c`. -/
  | remainder (h : remainders = true) (a b c : Expression) :
      Regrouped remainders (.binary .mul a (.binary .mod b c)) (.binary .mod (.binary .mul a b) c)

/-! ## Exact values -/

/-- The exact number that a finite double stands for. -/
def Binary64.exact? (x : Binary64) : Option ℚ :=
  match x.magnitude with
  | .finite n => some ((if x.negative then -1 else 1) * Binary64.unitsOf n / 2 ^ 1074)
  | _ => none

/-- What powers, functions and variables mean among the rational numbers, where they have a value. -/
structure ExactMeaning where
  power : ℚ → ℚ → Option ℚ
  apply : Elementary → ℚ → Option ℚ
  binding : String → Option ℚ

namespace ExactMeaning

/-- The exact value of an operator. The remainder is that of the quotient without its fraction. -/
def operate (M : ExactMeaning) : Operator → ℚ → ℚ → Option ℚ
  | .add, x, y => some (x + y)
  | .sub, x, y => some (x - y)
  | .mul, x, y => some (x * y)
  | .div, x, y => if y = 0 then none else some (x / y)
  | .mod, x, y =>
    if y = 0 then none else some (x - (if 0 ≤ x / y then (⌊x / y⌋ : ℚ) else ⌈x / y⌉) * y)
  | .pow, x, y => M.power x y

/-- The exact value of a tree, if all of its operators and functions have one. -/
def value (M : ExactMeaning) : Expression → Option ℚ
  | .const c => c.exact?
  | .var name => M.binding name
  | .binary op left right => (value M left).bind fun x => (value M right).bind fun y => M.operate op x y
  | .call f arg => (value M arg).bind fun x => M.apply f x

/-- Operators that may be carried out in either order of two may be grouped either way. -/
theorem value_regroup (M : ExactMeaning) (op op' : Operator)
    (h : ∀ x y z, (M.operate op' y z).bind (M.operate op x) = (M.operate op x y).bind fun w => M.operate op' w z)
    (a b c : Expression) :
    M.value (.binary op a (.binary op' b c)) = M.value (.binary op' (.binary op a b) c) := by
  simp only [value]
  cases M.value a with
  | none => rfl
  | some x =>
    cases M.value b with
    | none => rfl
    | some y =>
      cases M.value c with
      | none =>
        simp only [Option.bind_some, Option.bind_none]
        cases M.operate op x y <;> rfl
      | some z => exact h x y z

/-- The grouping of sums and products does not change the exact value. -/
theorem value_eq_of_regrouped (M : ExactMeaning) {t t' : Expression} (h : Regrouped false t t') :
    M.value t = M.value t' := by
  induction h with
  | refl t => rfl
  | symm h ih => exact ih.symm
  | trans h h' ih ih' => exact ih.trans ih'
  | binary op hleft hright ihleft ihright => rw [value, value, ihleft, ihright]
  | call f h ih => rw [value, value, ih]
  | @sum op hop a b c =>
    obtain rfl | rfl := hop
    · exact M.value_regroup .add .add (fun x y z => congrArg some (add_assoc x y z).symm) a b c
    · exact M.value_regroup .add .sub (fun x y z => congrArg some (add_sub_assoc x y z).symm) a b c
  | product a b c => exact M.value_regroup .mul .mul (fun x y z => congrArg some (mul_assoc x y z).symm) a b c
  | remainder h => cases h

end ExactMeaning

/-! ## The text of regrouped trees -/

namespace Expression

/-- The text of an operand, in parentheses where it needs them. -/
def operandText (op : Operator) (side : Side) (t : Expression) : String :=
  if needsParens op side t then latexParens (latex t) else latex t

theorem latex_sign {op : Operator} (hop : op ∈ [Operator.add, .sub, .mul, .mod]) (left right : Expression) :
    latex (.binary op left right) = operandText op .left left ++ latexSign op ++ operandText op .right right := by
  revert hop
  cases op <;> simp [latex, operandText]

/-- A sum or a product leaves its right operand without parentheses if it is of the same tier, and so does any
operator its left one: the sum or product may be grouped either way. -/
theorem latex_regroup (op op' : Operator) (hop : op = .add ∨ op = .mul)
    (hop' : op' ∈ [Operator.add, .sub, .mul, .mod]) (htier : op'.tier = op.tier) (a b c : Expression) :
    latex (.binary op a (.binary op' b c)) = latex (.binary op' (.binary op a b) c) := by
  have hright : operandText op .right (.binary op' b c) = latex (.binary op' b c) := by
    obtain rfl | rfl := hop <;> simp [operandText, needsParens, htier]
  have hleft : operandText op' .left (.binary op a b) = latex (.binary op a b) := by
    simp [operandText, needsParens, htier]
  have hmiddle : operandText op' .left b = operandText op .right b := by
    have hparens : needsParens op' .left b = needsParens op .right b := by
      obtain rfl | rfl := hop <;> cases b <;> simp [needsParens, htier]
    rw [operandText, operandText, hparens]
  have hsign : op ∈ [Operator.add, .sub, .mul, .mod] := by
    obtain rfl | rfl := hop <;> decide
  rw [latex_sign hsign, latex_sign hop', hright, hleft, latex_sign hsign, latex_sign hop', hmiddle]
  simp only [String.append_assoc]

/-- The trees have the same text, and it stands in parentheses at the same places. -/
structure SameText (t t' : Expression) : Prop where
  latex_eq : t.latex = t'.latex
  parens_eq : ∀ op side, needsParens op side t = needsParens op side t'
  base_eq : isPlainBase t = isPlainBase t'

theorem SameText.operandText_eq {t t' : Expression} (h : SameText t t') (op : Operator) (side : Side) :
    operandText op side t = operandText op side t' := by
  rw [operandText, operandText, h.latex_eq, h.parens_eq]

theorem SameText.binary (op : Operator) {left left' right right' : Expression} (hleft : SameText left left')
    (hright : SameText right right') : SameText (.binary op left right) (.binary op left' right') := by
  refine ⟨?_, fun _ _ => rfl, rfl⟩
  by_cases hop : op ∈ [Operator.add, .sub, .mul, .mod]
  · rw [latex_sign hop, latex_sign hop, hleft.operandText_eq, hright.operandText_eq]
  · cases op with
    | div => rw [latex, latex, hleft.latex_eq, hright.latex_eq]
    | pow => rw [latex, latex, hleft.latex_eq, hright.latex_eq, hleft.base_eq]
    | _ => exact absurd (by decide) hop

theorem SameText.regroup (op op' : Operator) (hop : op = .add ∨ op = .mul)
    (hop' : op' ∈ [Operator.add, .sub, .mul, .mod]) (htier : op'.tier = op.tier) (a b c : Expression) :
    SameText (.binary op a (.binary op' b c)) (.binary op' (.binary op a b) c) := by
  refine ⟨latex_regroup op op' hop hop' htier a b c, fun op side => ?_, rfl⟩
  rw [needsParens, needsParens, htier]

theorem sameText_of_regrouped {remainders : Bool} {t t' : Expression} (h : Regrouped remainders t t') :
    SameText t t' := by
  induction h with
  | refl t => exact ⟨rfl, fun _ _ => rfl, rfl⟩
  | symm h ih => exact ⟨ih.latex_eq.symm, fun op side => (ih.parens_eq op side).symm, ih.base_eq.symm⟩
  | trans h h' ih ih' =>
    exact ⟨ih.latex_eq.trans ih'.latex_eq, fun op side => (ih.parens_eq op side).trans (ih'.parens_eq op side),
      ih.base_eq.trans ih'.base_eq⟩
  | binary op hleft hright ihleft ihright => exact ihleft.binary op ihright
  | call f h ih => exact ⟨congrArg (latexCall f) ih.latex_eq, fun _ _ => rfl, rfl⟩
  | @sum op hop a b c =>
    obtain rfl | rfl := hop
    · exact .regroup .add .add (.inl rfl) (by decide) rfl a b c
    · exact .regroup .add .sub (.inl rfl) (by decide) rfl a b c
  | product a b c => exact .regroup .mul .mul (.inr rfl) (by decide) rfl a b c
  | remainder h a b c => exact .regroup .mul .mod (.inr rfl) (by decide) rfl a b c

end Expression

end SymbolicCalc
