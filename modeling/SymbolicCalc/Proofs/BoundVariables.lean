import SymbolicCalc.Calculator
import SymbolicCalc.Proofs.ClosedParts
import SymbolicCalc.Proofs.FreeVariables
import SymbolicCalc.Proofs.Variables

/-!
# No variable without a value

Every name that an expression may use in a session has a value there, so no line of a session fails for a
variable without a value. A compiled expression has declared variables only, in lower case, and a valuation finds
every name by its lower case; folding evaluates no part that has a variable; and differentiation evaluates
nothing.
-/

namespace SymbolicCalc

open Text

/-! ## Simplification -/

namespace Tree

variable {K : Type} [Arithmetic K] {t : Tree K} {name : String} {e : EvalError K}

theorem evalClosed_ne_unbound (h : t.isClosed = true) : t.evalClosed ≠ .error (.unbound name) := by
  intro heval
  have hname := (of_eval_eq_unbound heval).1
  rw [dependsOn_of_isClosed h] at hname
  cases hname

theorem failure_of_simplified (h : t.simplified = .error e) : t.fold.failure = some e := by
  unfold simplified at h
  split at h
  · cases h
  next heq =>
    cases h
    rw [heq]

theorem simplified_ne_unbound (t : Tree K) (name : String) : t.simplified ≠ .error (.unbound name) := by
  intro h
  obtain ⟨p, s, hs⟩ := exists_leftmostFailure (failure_of_simplified h)
  exact evalClosed_ne_unbound hs.part.closed hs.fails

end Tree

/-! ## Compiled expressions -/

/-- The valuation has a value for the name in some letter case. -/
def Valuation.Binds (ρ : Valuation) (name : String) : Prop :=
  ∃ spelling, lowercase spelling = lowercase name ∧ (ρ.get? spelling).isSome = true

namespace Expression

variable {source name : String} {names : List String} {t : Expression} {ρ : Valuation}

/-- The variables of a compiled expression are declared, in lower case. -/
theorem usesOnly_declared (h : compile source names = .ok t) : t.UsesOnly (· ∈ names.map lowercase) :=
  (usesOnly_of_compile h).mono fun _ hword => Scope.mem_of_get?_ofVariables hword.declared

theorem evaluate_ne_unbound (h : compile source names = .ok t) (hbinds : ∀ name ∈ names, ρ.Binds name) :
    t.evaluate ρ ≠ .error (.unbound name) := by
  intro heval
  obtain ⟨hname, hnone⟩ := Tree.of_eval_eq_unbound heval
  obtain ⟨declared, hdeclared, rfl⟩ := List.mem_map.1 (usesOnly_declared h name hname)
  obtain ⟨spelling, hspelling, hvalue⟩ := hbinds declared hdeclared
  have hmem : lowercase declared ∈ ρ.names := hspelling ▸ Valuation.lowercase_mem_names hvalue
  have hsome := Valuation.isSome_get?_of_mem_names hmem
  rw [hnone] at hsome
  cases hsome

end Expression

/-! ## Sessions -/

namespace Calculator

variable {state : Calculator}

theorem compile_ne_evaluation {source other : String} {extra : List String} {cause : EvalError Binary64} :
    state.compile source extra ≠ .error (.expression other (.evaluation cause)) := by
  intro h
  obtain ⟨e, -, heq⟩ := mapError_eq_error.1 h
  cases heq

theorem evaluate_ne_unbound {source other name : String} :
    state.evaluate source ≠ .error (.expression other (.evaluation (.unbound name))) := by
  intro h
  rcases bind_eq_error.1 h with h | ⟨t, hcompile, h⟩
  · exact compile_ne_evaluation h
  · obtain ⟨e, hevaluate, heq⟩ := mapError_eq_error.1 h
    cases heq
    refine Expression.evaluate_ne_unbound (mapError_eq_ok.1 hcompile) ?_ hevaluate
    rw [List.append_nil]
    exact fun name hname => ⟨name, rfl, Valuation.isSome_get?_of_mem_names hname⟩

theorem simplify_ne_unbound {source other name : String} {t : Expression} :
    simplify source t ≠ .error (.expression other (.evaluation (.unbound name))) := by
  intro h
  obtain ⟨e, hsimplified, heq⟩ := mapError_eq_error.1 h
  cases heq
  exact t.simplified_ne_unbound name hsimplified

/-- No statement evaluates a variable without a value. -/
theorem execute_ne_unbound {statement : Statement} {source name : String} :
    state.execute statement ≠ .error (.expression source (.evaluation (.unbound name))) := by
  intro h
  cases statement with
  | assign other text =>
    rcases bind_eq_error.1 h with h | ⟨value, -, h⟩
    · exact evaluate_ne_unbound h
    · cases h
  | derivative other text =>
    rcases bind_eq_error.1 h with h | ⟨t, -, h⟩
    · exact compile_ne_evaluation h
    rcases bind_eq_error.1 h with h | ⟨t', -, h⟩
    · obtain ⟨e, -, heq⟩ := mapError_eq_error.1 h
      cases heq
    rcases bind_eq_error.1 h with h | ⟨result, -, h⟩
    · exact simplify_ne_unbound h
    · cases h
  | simplify text =>
    rcases bind_eq_error.1 h with h | ⟨t, -, h⟩
    · exact compile_ne_evaluation h
    rcases bind_eq_error.1 h with h | ⟨result, -, h⟩
    · exact simplify_ne_unbound h
    · cases h
  | latex text =>
    rcases bind_eq_error.1 h with h | ⟨t, -, h⟩
    · exact compile_ne_evaluation h
    · cases h
  | evaluate text =>
    rcases bind_eq_error.1 h with h | ⟨value, -, h⟩
    · exact evaluate_ne_unbound h
    · cases h

/-- What holds of one line, whatever values the session holds. -/
theorem run_ne_unbound (state : Calculator) (line source name : String) :
    (state.run line).2 ≠ .error (.expression source (.evaluation (.unbound name))) := by
  intro h
  rw [run_output, map_eq_error] at h
  rcases bind_eq_error.1 h with h | ⟨statement, -, h⟩
  · obtain ⟨cause, -, heq⟩ := mapError_eq_error.1 h
    cases heq
  · exact execute_ne_unbound h

theorem mem_runAll_cons {line : String} {lines : List String} {result : Except LineError String} :
    result ∈ (state.runAll (line :: lines)).2 ↔
      result = (state.run line).2 ∨ result ∈ ((state.run line).1.runAll lines).2 :=
  List.mem_cons

/-- What holds of a whole session. -/
theorem runAll_ne_unbound {lines : List String} {result : Except LineError String}
    (h : result ∈ (state.runAll lines).2) (source name : String) :
    result ≠ .error (.expression source (.evaluation (.unbound name))) := by
  induction lines generalizing state with
  | nil => cases h
  | cons line lines ih =>
    rcases mem_runAll_cons.1 h with rfl | h
    · exact state.run_ne_unbound line source name
    · exact ih h

end Calculator

/-- No variable without a value is ever met: not by any line of a session, whatever values it starts with, and not
by a compiled expression with values for all of its declared names, in any letter case. -/
theorem unbound_unreachable :
    (∀ (ρ : Valuation) (lines : List String), ∀ result ∈ (Calculator.runAll ⟨ρ⟩ lines).2,
      ∀ source name, result ≠ .error (.expression source (.evaluation (.unbound name)))) ∧
    (∀ (source : String) (names : List String) (ρ : Valuation) (t : Expression),
      Expression.compile source names = .ok t → (∀ name ∈ names, ρ.Binds name) →
        ∀ name, t.evaluate ρ ≠ .error (.unbound name)) :=
  ⟨fun _ _ _ h source name => Calculator.runAll_ne_unbound h source name,
    fun _ _ _ _ h hbinds _ => Expression.evaluate_ne_unbound h hbinds⟩

/-- The name is declared as `X` and has a value as `x`. -/
theorem unbound_unreachable_x :
    ∃ t, Expression.compile "X + 1" ["X"] = .ok t ∧
      (∀ name ∈ ["X"], (Valuation.empty.add "x" Binary64.one).Binds name) ∧
      ∀ name, t.evaluate (Valuation.empty.add "x" Binary64.one) ≠ .error (.unbound name) := by
  have hcompile : Expression.compile "X + 1" ["X"] = .ok (.binary .add (.var "x") .one) := by
    decide +kernel
  have hbinds : ∀ name ∈ ["X"], (Valuation.empty.add "x" Binary64.one).Binds name := by
    rw [List.forall_mem_singleton]
    exact ⟨"x", by decide +kernel, by decide +kernel⟩
  exact ⟨_, hcompile, hbinds, unbound_unreachable.2 _ _ _ _ hcompile hbinds⟩

end SymbolicCalc
