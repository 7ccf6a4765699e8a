import SymbolicCalc.Expression
import SymbolicCalc.Proofs.BoundVariables
import SymbolicCalc.Proofs.ClosedParts

/-!
# Normal forms and failures of simplification

Simplification ends in a normal form, which is the tree with its maximal closed parts replaced by their values, or
it fails for the leftmost of these parts that has no value. A failure is no accident of folding early: the tree then
has no value for any bindings, and an expression that was to be simplified in place stays as it was.
-/

namespace SymbolicCalc

namespace Tree

variable {K : Type} [Arithmetic K] {t m : Tree K} {e : EvalError K}

/-- What is left after a folding that comes to its end: a tree that has no closed operators and calls, has the
same variables, folds to itself, and is the tree with every maximal closed part replaced by its value. -/
theorem simplified_normal_form (h : t.simplified = .ok m) :
    (∀ p s, m.part? p = some s → s.isCompound = true → s.isClosed = false ∧ s.freeVars.names ≠ []) ∧
      m.freeVars = t.freeVars ∧ (∀ m', t.FoldsTo m' ↔ m' = m) ∧ m.simplified = .ok m := by
  have hfold := simplified_eq_ok_iff.1 h
  have hfolded := fold_of_simplified h
  have hfoldsTo : t.FoldsTo m := by
    have hfolds : t.FoldsTo t.fold.tree := foldsTo_fold (by rw [hfold])
    rwa [hfold] at hfolds
  refine ⟨fun p s hpart hcompound => ?_, ?_, fun m' => ⟨fun hm' => hm'.eq hfoldsTo, ?_⟩, ?_⟩
  · have hopen := normal_of_fold hfolded p s hpart hcompound
    obtain ⟨name, hname⟩ := exists_dependsOn hopen
    exact ⟨hopen, List.ne_nil_of_mem (mem_names_freeVars.2 hname)⟩
  · have hcollect := t.collect_fold .empty
    rwa [hfold] at hcollect
  · rintro rfl
    exact hfoldsTo
  · exact simplified_eq_ok_iff.2 hfolded

/-- The closed factor is folded; the negative zero, which is no operator, keeps its sign. -/
theorem simplified_normal_form_negativeZero :
    ∃ t m : Tree Binary64, t.simplified = .ok m ∧
      t = .binary .add (.binary .mul (.var "x") (.binary .sub .one .one)) (.const ⟨true, .ofOrdinal 0⟩) ∧
      m = .binary .add (.binary .mul (.var "x") .zero) (.const ⟨true, .ofOrdinal 0⟩) ∧
      (∀ p s, m.part? p = some s → s.isCompound = true → s.isClosed = false ∧ s.freeVars.names ≠ []) ∧
      m.freeVars = t.freeVars ∧ (∀ m', t.FoldsTo m' ↔ m' = m) ∧ m.simplified = .ok m := by
  have h : Tree.simplified (K := Binary64)
      (.binary .add (.binary .mul (.var "x") (.binary .sub .one .one)) (.const ⟨true, .ofOrdinal 0⟩)) =
      .ok (.binary .add (.binary .mul (.var "x") .zero) (.const ⟨true, .ofOrdinal 0⟩)) := by
    decide +kernel
  exact ⟨_, _, h, rfl, rfl, simplified_normal_form h⟩

/-- Simplification fails exactly if some part without variables has no value. -/
theorem simplified_eq_error_iff :
    (∃ e, t.simplified = .error e) ↔
      ∃ p s e, t.part? p = some s ∧ s.isClosed = true ∧ s.evalClosed = .error e := by
  constructor
  · rintro ⟨e, h⟩
    obtain ⟨p, s, hs⟩ := exists_leftmostFailure (failure_of_simplified h)
    exact ⟨p, s, e, hs.part.part, hs.part.closed, hs.fails⟩
  · rintro ⟨p, s, e, hpart, hclosed, he⟩
    obtain ⟨e', he'⟩ := exists_failure_of_part? hpart hclosed he
    cases h : t.simplified with
    | error e'' => exact ⟨e'', rfl⟩
    | ok m =>
      rw [simplified_eq_ok_iff.1 h] at he'
      cases he'

/-- A tree that cannot be simplified has no value, whatever values its variables have. -/
theorem exists_error_of_simplified (h : t.simplified = .error e) (value? : String → Option K) :
    ∃ e', t.eval value? = .error e' := by
  obtain ⟨p, s, hs⟩ := exists_leftmostFailure (failure_of_simplified h)
  exact exists_error_of_part? hs.part.part ((eval_eq_evalClosed hs.part.closed).trans hs.fails)

end Tree

namespace Expression

/-- Simplifying in place changes an expression if folding comes to its end, and leaves it as it was otherwise. -/
theorem run_simplify (t : Expression) :
    simplify.run.run t =
      match t.simplified with
      | .ok m => (.ok (), m)
      | .error e => (.error e, t) := by
  have hbind : simplify.run.run t =
      ((MonadExcept.ofExcept t.simplified : ExceptT (EvalError Binary64) (StateM Expression) Expression) >>=
        set).run.run t := rfl
  rw [hbind]
  cases t.simplified with
  | ok m => rfl
  | error e => rfl

/-- An expression cannot be simplified exactly if some part without variables has no value. The error is that of the
leftmost maximal closed part without a value, hence not a variable without a value; no bindings give the expression a
value; and simplifying it in place leaves it as it was. -/
theorem simplify_failure (t : Expression) :
    ((∃ e, t.simplified = .error e) ↔
        ∃ p s e, t.part? p = some s ∧ s.isClosed = true ∧ s.evalClosed = .error e) ∧
      ∀ e, t.simplified = .error e →
        (∃ p s, t.LeftmostFailure p s e) ∧ (∀ name, e ≠ .unbound name) ∧
          (∀ value? : String → Option Binary64, ∃ e', t.eval value? = .error e') ∧
          simplify.run.run t = (.error e, t) := by
  refine ⟨Tree.simplified_eq_error_iff, fun e h => ⟨?_, ?_, ?_, ?_⟩⟩
  · exact Tree.exists_leftmostFailure (Tree.failure_of_simplified h)
  · rintro name rfl
    exact t.simplified_ne_unbound name h
  · exact Tree.exists_error_of_simplified h
  · rw [run_simplify, h]

/-- Both factors have a closed part without a value; that of the first one stands to the right of a variable. -/
theorem simplify_failure_sqrt :
    ∃ t : Expression,
      t = .binary .mul (.binary .add (.var "x") (.call .sqrt (.binary .sub .zero .one))) (.call .ln .zero) ∧
      t.simplified = .error (.outside .sqrt Arithmetic.minusOne) ∧
      (∃ p s, t.LeftmostFailure p s (.outside .sqrt Arithmetic.minusOne)) ∧
      (∀ name, EvalError.outside .sqrt (Arithmetic.minusOne : Binary64) ≠ .unbound name) ∧
      (∀ value? : String → Option Binary64, ∃ e', t.eval value? = .error e') ∧
      simplify.run.run t = (.error (.outside .sqrt Arithmetic.minusOne), t) := by
  refine ⟨_, rfl, ?_⟩
  have h : Tree.simplified (K := Binary64)
      (.binary .mul (.binary .add (.var "x") (.call .sqrt (.binary .sub .zero .one))) (.call .ln .zero)) =
      .error (.outside .sqrt Arithmetic.minusOne) := by
    decide +kernel
  exact ⟨h, (simplify_failure _).2 _ h⟩

end Expression

end SymbolicCalc
