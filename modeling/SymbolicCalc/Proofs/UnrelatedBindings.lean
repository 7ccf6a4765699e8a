import SymbolicCalc.Proofs.FreeVariables
import SymbolicCalc.Proofs.Sessions
import SymbolicCalc.Proofs.Variables

/-!
# Unrelated bindings do not interfere

All names with values are in scope for every line, and they may hide constants. Still a line depends on the values
only at the words of its expression: two sessions that agree on these words give the same output, or fail in the
same way, but for the names that are suggested for an unknown word, which come from the whole scope. So
assignments that do not mention each other can be swapped.
-/

namespace SymbolicCalc

open Text

/-! ## The words of a line -/

/-- The words of a source text, in lower case. -/
def sourceWords (source : String) : List String :=
  match tokenize source with
  | .ok tokens => (tokens.filter fun token => token.kind = .word).map Token.normalized
  | .error _ => []

/-- The expression of a statement, as written. -/
def Statement.source : Statement → String
  | .assign _ expr => expr
  | .derivative _ expr => expr
  | .simplify expr => expr
  | .latex expr => expr
  | .evaluate expr => expr

/-- The words of the expression of a line, in lower case. -/
def lineWords (line : String) : List String :=
  match Statement.parse line with
  | .ok statement => sourceWords statement.source
  | .error _ => []

theorem lowercase_of_mem_sourceWords {source word : String} (h : word ∈ sourceWords source) :
    lowercase word = word := by
  unfold sourceWords at h
  split at h
  · obtain ⟨token, -, rfl⟩ := List.mem_map.1 h
    exact lowercase_lowercase _
  · cases h

/-- What is no parenthesis and is not written as an operator is a word. -/
theorem normalized_mem_sourceWords {source : String} {tokens : List Token} {token : Token}
    (htokens : tokenize source = .ok tokens) (htoken : token ∈ tokens) (hinner : token.Inner)
    (htext : Operator.ofText? token.normalized = none) : token.normalized ∈ sourceWords source := by
  unfold sourceWords
  rw [htokens]
  obtain ⟨-, rfl⟩ := tokenize_eq_ok_iff.1 htokens
  have hkind := Token.kind_eq_word_of_scan htoken hinner htext
  exact List.mem_map_of_mem (List.mem_filter.2 ⟨htoken, decide_eq_true hkind⟩)

/-! ## Errors that are alike -/

/-- The error, but for the names that it suggests. -/
def SyntaxError.withoutSuggestions : SyntaxError → SyntaxError
  | .unknown place word _ => .unknown place word []
  | e => e

/-- The error, but for the names that it suggests. -/
def LineError.withoutSuggestions : LineError → LineError
  | .expression source (.source cause) => .expression source (.source cause.withoutSuggestions)
  | e => e

/-- The errors differ in the names that they suggest at most. -/
def SyntaxError.Alike (e e' : SyntaxError) : Prop :=
  e.withoutSuggestions = e'.withoutSuggestions

/-- The errors differ in the names that they suggest at most. -/
def LineError.Alike (e e' : LineError) : Prop :=
  e.withoutSuggestions = e'.withoutSuggestions

theorem SyntaxError.alike_unknown (place : Span) (word : String) (suggestions others : List String) :
    Alike (.unknown place word suggestions) (.unknown place word others) := rfl

instance : Std.Refl SyntaxError.Alike :=
  ⟨fun _ => rfl⟩

instance : Std.Refl LineError.Alike :=
  ⟨fun _ => rfl⟩

/-! ## Reading in two scopes -/

section

variable {scope other : Scope}

theorem Scope.resolve?_congr {text : String}
    (h : Operator.ofText? text = none → scope.get? text = other.get? text) (depth : Nat) :
    scope.resolve? depth text = other.resolve? depth text := by
  unfold resolve?
  split
  · rfl
  next htext =>
    have hmeaning : scope.meaning? text = other.meaning? text := by
      unfold meaning?
      rw [h htext]
    rw [hmeaning]

theorem Scope.usesOnly_word_of_resolve? {depth : Nat} {word : String} {rank : Rank} {tree : Expression}
    (h : scope.resolve? depth word = some (rank, .leaf tree)) : tree.UsesOnly (· = word) := by
  simp only [resolve?, ofText?_of_resolve? h] at h
  split at h
  · cases h
  · split at h
    · cases h
      exact Tree.usesOnly_const _
    · cases h
      exact fun name hname => (of_decide_eq_true hname).symm
    · cases h

namespace RankedToken

variable {opens next : List Span} {token : Token} {tokens : List Token}

theorem Step.in_scope {t : RankedToken} (h : Step scope opens token t next)
    (hagree : token.Inner → Operator.ofText? token.normalized = none →
      scope.get? token.normalized = other.get? token.normalized) : Step other opens token t next := by
  cases h with
  | openParen hkind => exact .openParen hkind
  | closeParen hkind => exact .closeParen hkind
  | inner hinner hresolve =>
    rw [Scope.resolve?_congr (hagree hinner)] at hresolve
    exact .inner hinner hresolve

theorem Stop.exists_alike {e : SyntaxError} (h : Stop scope opens token e)
    (hagree : token.Inner → Operator.ofText? token.normalized = none →
      scope.get? token.normalized = other.get? token.normalized) :
    ∃ e', Stop other opens token e' ∧ e.Alike e' := by
  cases h with
  | extraClose hkind => exact ⟨_, .extraClose hkind, rfl⟩
  | unknown hinner hresolve =>
    rw [Scope.resolve?_congr (hagree hinner)] at hresolve
    exact ⟨_, .unknown hinner hresolve, SyntaxError.alike_unknown _ _ _ _⟩

/-- Ranking looks up the tokens that are neither parentheses nor operators and no other name, except for
suggestions. -/
theorem rankAfter_alike (opens : List Span)
    (h : ∀ token ∈ tokens, token.Inner → Operator.ofText? token.normalized = none →
      scope.get? token.normalized = other.get? token.normalized) :
    Corresponds SyntaxError.Alike Eq (rankAfter scope opens tokens) (rankAfter other opens tokens) := by
  induction tokens generalizing opens with
  | nil => exact .of_eq rfl
  | cons token tokens ih =>
    obtain ⟨htoken, htokens⟩ := List.forall_mem_cons.1 h
    rcases step_or_stop scope opens token with ⟨t, next, hstep⟩ | ⟨e, hstop⟩
    · rw [hstep.rankAfter_eq, (hstep.in_scope htoken).rankAfter_eq]
      exact (ih next htokens).bind_same fun rest _ => .ok rfl
    · obtain ⟨e', hstop', he⟩ := hstop.exists_alike htoken
      rw [hstop.rankAfter_eq, hstop'.rankAfter_eq]
      exact .error he

end RankedToken

end

namespace Expression

variable {source : String} {names others : List String}

theorem compile_alike
    (h : ∀ word ∈ sourceWords source,
      (Scope.ofVariables names).get? word = (Scope.ofVariables others).get? word) :
    Corresponds SyntaxError.Alike Eq (compile source names) (compile source others) := by
  refine Corresponds.bind_same (.of_eq rfl) fun tokens htokens => ?_
  refine Corresponds.bind_same (RankedToken.rankAfter_alike [] fun token htoken hinner htext => ?_) fun _ _ =>
    .of_eq rfl
  exact h _ (normalized_mem_sourceWords htokens htoken hinner htext)

/-- The variables of a compiled expression are words of its text. -/
theorem usesOnly_sourceWords {t : Expression} (h : compile source names = .ok t) :
    t.UsesOnly (· ∈ sourceWords source) := by
  obtain ⟨tokens, htokens, h⟩ := bind_eq_ok.1 h
  obtain ⟨ranked, hranked, h⟩ := bind_eq_ok.1 h
  refine usesOnly_of_ofRanked h fun x hx tree htree => ?_
  obtain ⟨token, htoken, hinner, depth, hresolve⟩ := RankedToken.exists_inner_of_leaf hranked x hx tree htree
  have hmem := normalized_mem_sourceWords htokens htoken hinner (Scope.ofText?_of_resolve? hresolve)
  exact (Scope.usesOnly_word_of_resolve? hresolve).mono fun name hname => hname ▸ hmem

end Expression

/-! ## Lines in two sessions -/

theorem Valuation.mem_names_iff {ρ : Valuation} {word : String} (h : lowercase word = word) :
    word ∈ ρ.names ↔ (ρ.get? word).isSome = true :=
  ⟨isSome_get?_of_mem_names, fun hsome => h ▸ lowercase_mem_names hsome⟩

namespace Calculator

variable {state other : Calculator} {source : String}

/-- The sessions have the same value for each of the words, or both have none. -/
def AgreeOn (words : List String) (state other : Calculator) : Prop :=
  ∀ word ∈ words, state.values.get? word = other.values.get? word

/-- Sessions that agree on the words of an expression read it in the same way. -/
theorem compile_alike (h : AgreeOn (sourceWords source) state other) (extra : List String) :
    Corresponds LineError.Alike Eq (state.compile source extra) (other.compile source extra) := by
  refine Corresponds.mapError (Expression.compile_alike fun word hword => ?_) fun e e' he => ?_
  · have hlower := lowercase_of_mem_sourceWords hword
    have hnames : word ∈ state.values.names ↔ word ∈ other.values.names := by
      rw [Valuation.mem_names_iff hlower, Valuation.mem_names_iff hlower, h word hword]
    have hdeclared : word ∈ (state.values.names ++ extra).map lowercase ↔
        word ∈ (other.values.names ++ extra).map lowercase := by
      rw [List.map_append, List.map_append, List.mem_append, List.mem_append,
        Valuation.map_lowercase_names, Valuation.map_lowercase_names, hnames]
    rw [Scope.get?_ofVariables, Scope.get?_ofVariables]
    exact if_congr hdeclared rfl rfl
  · exact congrArg (fun cause => LineError.expression source (.source cause)) he

theorem evaluate_alike (h : AgreeOn (sourceWords source) state other) :
    Corresponds LineError.Alike Eq (state.evaluate source) (other.evaluate source) := by
  refine (compile_alike h []).bind_same fun t ht => .of_eq ?_
  have hwords := (Expression.usesOnly_sourceWords (mapError_eq_ok.1 ht)).mono h
  rw [Expression.evaluate, Expression.evaluate, Tree.eval_congr hwords]

/-- A statement gives the same output in sessions that agree on the words of its expression. -/
theorem execute_alike {statement : Statement} (h : AgreeOn (sourceWords statement.source) state other) :
    Corresponds LineError.Alike (fun result result' => result.2 = result'.2)
      (state.execute statement) (other.execute statement) := by
  cases statement with
  | assign name source => exact (evaluate_alike h).bind_same fun value _ => .ok rfl
  | derivative name source =>
    refine (compile_alike h [name]).bind_same fun t _ => ?_
    refine Corresponds.bind_same (.of_eq rfl) fun t' _ => ?_
    exact Corresponds.bind_same (.of_eq rfl) fun result _ => .ok rfl
  | simplify source =>
    refine (compile_alike h []).bind_same fun t _ => ?_
    exact Corresponds.bind_same (.of_eq rfl) fun result _ => .ok rfl
  | latex source => exact (compile_alike h []).bind_same fun t _ => .ok rfl
  | evaluate source => exact (evaluate_alike h).bind_same fun value _ => .ok rfl

theorem run_alike {line : String} (h : AgreeOn (lineWords line) state other) :
    Corresponds LineError.Alike Eq (state.run line).2 (other.run line).2 := by
  have hstep : Corresponds LineError.Alike (fun result result' => result.2 = result'.2)
      (state.step line) (other.step line) := by
    refine Corresponds.bind_same (.of_eq rfl) fun statement hparse => execute_alike ?_
    unfold lineWords at h
    rw [mapError_eq_ok.1 hparse] at h
    exact h
  rw [run_output, run_output]
  exact hstep.map fun _ _ => id

/-! ## Assignments that are swapped -/

/-- A value given to a name cannot be seen at other words. -/
theorem agreeOn_add {name : String} (h : lowercase name ∉ sourceWords source) (value : Binary64) :
    AgreeOn (sourceWords source) state ⟨state.values.add name value⟩ := by
  intro word hword
  have hne : lowercase word ≠ lowercase name := by
    rw [lowercase_of_mem_sourceWords hword]
    exact fun heq => h (heq ▸ hword)
  exact ((Valuation.get?_add _ _ _ _).trans (if_neg hne)).symm

theorem evaluate_add {name : String} {value result : Binary64} (h : lowercase name ∉ sourceWords source) :
    evaluate ⟨state.values.add name value⟩ source = .ok result ↔ state.evaluate source = .ok result :=
  (evaluate_alike (agreeOn_add h value)).eq_ok_iff.symm

theorem runAll_pair (state : Calculator) (line line' : String) :
    state.runAll [line, line'] =
      (((state.run line).1.run line').1, [(state.run line).2, ((state.run line).1.run line').2]) := rfl

theorem runAll_swap {final : Calculator} {line line' name name' source source' output output' : String}
    (hparse : Statement.parse line = .ok (.assign name source))
    (hparse' : Statement.parse line' = .ok (.assign name' source'))
    (hne : lowercase name ≠ lowercase name')
    (hfree : lowercase name' ∉ sourceWords source) (hfree' : lowercase name ∉ sourceWords source')
    (hrun : state.runAll [line, line'] = (final, [.ok output, .ok output'])) :
    state.runAll [line', line] = (final, [.ok output', .ok output]) := by
  rw [runAll_pair] at hrun
  have hfirst : (state.run line).2 = .ok output := (List.cons.inj (Prod.ext_iff.1 hrun).2).1
  obtain ⟨value, heval, hline⟩ := exists_of_run_assign hparse hfirst
  rw [hline] at hrun
  have hsecond := (List.cons.inj (List.cons.inj (Prod.ext_iff.1 hrun).2).2).1
  obtain ⟨value', heval', hline'⟩ := exists_of_run_assign hparse' hsecond
  rw [hline'] at hrun
  -- Both expressions have the same values when the assignments are made in the other order.
  have hswap' := run_of_evaluate hparse' ((evaluate_add hfree').1 heval')
  have heval : evaluate ⟨state.values.add name' value'⟩ source = .ok value := (evaluate_add hfree).2 heval
  have hswap := run_of_evaluate hparse heval
  rw [runAll_pair, hswap', hswap]
  cases hrun
  rw [Valuation.add_comm _ hne]

end Calculator

/-- A line depends on the values of the words of its expression alone: sessions that agree on them give the same
output, or the same error but for suggestions. So two assignments next to each other that succeed, to names that
differ in more than letter case and are no words of each other's expressions, may be swapped. -/
theorem Calculator.run_noninterference :
    (∀ (state other : Calculator) (line : String), AgreeOn (lineWords line) state other →
      (state.run line).2.mapError LineError.withoutSuggestions =
        (other.run line).2.mapError LineError.withoutSuggestions) ∧
    (∀ (state final : Calculator) (line line' name name' source source' output output' : String),
      Statement.parse line = .ok (.assign name source) →
      Statement.parse line' = .ok (.assign name' source') →
      lowercase name ≠ lowercase name' →
      lowercase name' ∉ sourceWords source → lowercase name ∉ sourceWords source' →
      state.runAll [line, line'] = (final, [.ok output, .ok output']) →
      state.runAll [line', line] = (final, [.ok output', .ok output])) :=
  ⟨fun _ _ _ h => (run_alike h).mapError_eq fun _ _ => id,
    fun _ _ _ _ _ _ _ _ _ _ hparse hparse' hne hfree hfree' hrun =>
      runAll_swap hparse hparse' hne hfree hfree' hrun⟩

/-- The value of `sum` is suggested for `su` where there is one, and changes nothing else. The assignments both use
`x`, and neither uses the other's name. -/
theorem Calculator.run_noninterference_sum :
    AgreeOn (lineWords "x * su") ⟨.ofList [("x", Binary64.one)]⟩
        ⟨.ofList [("sum", Binary64.zero), ("x", Binary64.one)]⟩ ∧
      (run ⟨.ofList [("x", Binary64.one)]⟩ "x * su").2.mapError LineError.withoutSuggestions =
        (run ⟨.ofList [("sum", Binary64.zero), ("x", Binary64.one)]⟩ "x * su").2.mapError
          LineError.withoutSuggestions ∧
      runAll ⟨.ofList [("x", Binary64.one)]⟩ ["B = x - 3", "a = 2 * X"] =
        ((runAll ⟨.ofList [("x", Binary64.one)]⟩ ["a = 2 * X", "B = x - 3"]).1, [.ok "b = -2", .ok "a = 2"]) := by
  have hagree : AgreeOn (lineWords "x * su") ⟨.ofList [("x", Binary64.one)]⟩
      ⟨.ofList [("sum", Binary64.zero), ("x", Binary64.one)]⟩ := by
    unfold AgreeOn
    decide +kernel
  have hparse : Statement.parse "a = 2 * X" = .ok (.assign "a" "2 * X") := by decide +kernel
  have hparse' : Statement.parse "B = x - 3" = .ok (.assign "B" "x - 3") := by decide +kernel
  have hfirst : (run ⟨.ofList [("x", Binary64.one)]⟩ "a = 2 * X").2 = .ok "a = 2" := by decide +kernel
  have hsecond : ((run ⟨.ofList [("x", Binary64.one)]⟩ "a = 2 * X").1.run "B = x - 3").2 = .ok "b = -2" := by
    decide +kernel
  refine ⟨hagree, run_noninterference.1 _ _ _ hagree, ?_⟩
  refine run_noninterference.2 _ _ _ _ "a" "B" _ _ _ _ hparse hparse' (by decide +kernel) (by decide +kernel)
    (by decide +kernel) ?_
  rw [runAll_pair, hfirst, hsecond]

end SymbolicCalc
