import SymbolicCalc.Arguments
import SymbolicCalc.Calculator
import SymbolicCalc.Outcome
import SymbolicCalc.Proofs.Printing
import SymbolicCalc.Proofs.TrimmedText

/-!
# Names with values

What a session knows of the names it has values for, whatever was bound on the command line and whatever was
run since. Names are trimmed and have no equals sign, so a line that consists of a name alone is never taken for
an assignment. If the name can be read as a word, and is neither a number nor a function, the line gives its
value back.
-/

namespace SymbolicCalc

open Text

/-! ## Stored names -/

/-- A name as it is stored: before an equals sign, and without blanks at its ends. -/
structure StoredName (name : String) : Prop where
  trimmed : Trimmed name.toList
  noEquals : '=' ∉ name.toList

theorem StoredName.not_allBlank {name : String} (h : StoredName name) (hne : name.toList ≠ []) :
    allBlank name.toList = false := by
  obtain ⟨c, cs, hname⟩ := List.exists_cons_of_ne_nil hne
  have hc := h.trimmed.first c (by rw [hname]; rfl)
  rw [hname, allBlank, List.all_cons, hc, Bool.false_and]

theorem StoredName.lowercase {name : String} (h : StoredName name) : StoredName (lowercase name) := by
  have hchars : (Text.lowercase name).toList = lowerAfter [] name.toList := String.toList_ofList
  constructor
  · rw [hchars]
    exact h.trimmed.lowerAfter []
  · rw [hchars]
    intro hmem
    rcases mem_lowerAfter hmem with hmem | hletter
    · exact h.noEquals hmem
    · exact hletter.ne_equals rfl

/-- What stands before the first equals sign of a text is stored as a name. -/
theorem storedName_of_cutAt {cs before after : List Char}
    (h : cutAt (· = '=') cs = some (before, after)) : StoredName (String.ofList (trim before)) := by
  obtain ⟨_, -, -, hbefore⟩ := cutAt_eq_some h
  constructor
  · rw [String.toList_ofList]
    exact trimmed_trim before
  · rw [String.toList_ofList]
    intro hmem
    have heq := hbefore '=' (mem_of_mem_trim hmem)
    cases heq

theorem storedName_of_readBinding {arg name : String} {value : Binary64}
    (h : readBinding arg = .ok (name, value)) : StoredName name := by
  unfold readBinding at h
  split at h
  · cases h
  next before after hcut =>
    split at h
    · cases h
      exact storedName_of_cutAt hcut
    · cases h

/-- Every binding was read from an argument. -/
def AcceptedBindings (bound : List (String × Binary64)) : Prop :=
  ∀ entry ∈ bound, ∃ arg, readBinding arg = .ok entry

theorem AcceptedBindings.concat {bound : List (String × Binary64)} (h : AcceptedBindings bound)
    {arg : String} {entry : String × Binary64} (hentry : readBinding arg = .ok entry) :
    AcceptedBindings (bound ++ [entry]) := by
  intro other hother
  rcases List.mem_append.1 hother with hother | hother
  · exact h other hother
  · rw [List.mem_singleton.1 hother]
    exact ⟨arg, hentry⟩

/-- No command with a colon is an assignment. -/
theorem Statement.ofColon_ne_assign (command args : List Char) (name source : String) :
    ofColon command args ≠ .ok (.assign name source) := by
  fun_cases ofColon command args <;> intro h <;> cases h

theorem storedName_of_parse {line name source : String}
    (h : Statement.parse line = .ok (.assign name source)) : StoredName name := by
  unfold Statement.parse at h
  split at h
  · exact absurd h (Statement.ofColon_ne_assign _ _ _ _)
  · replace h := Except.ok.inj h
    unfold Statement.ofPlain at h
    split at h
    next before after hcut =>
      dsimp only at h
      split at h
      · cases h
        exact storedName_of_cutAt hcut
      · cases h
    · cases h

/-! ## Sessions -/

namespace Calculator

variable {state state' : Calculator}

/-- Every name with a value could be stored. -/
def WellNamed (state : Calculator) : Prop :=
  ∀ name ∈ state.values.names, StoredName name

/-- The states that a session comes to: it starts with bindings that were accepted, and then runs lines. -/
inductive Reachable : Calculator → Prop
  | start {bound : List (String × Binary64)} (h : AcceptedBindings bound) : Reachable ⟨.ofList bound⟩
  | run {state : Calculator} (h : Reachable state) (line : String) : Reachable (state.run line).1

theorem execute_cases {statement : Statement} {output : String}
    (h : state.execute statement = .ok (state', output)) :
    state' = state ∨
      ∃ name source value, statement = .assign name source ∧ state' = ⟨state.values.add name value⟩ := by
  cases statement with
  | assign name source =>
    obtain ⟨value, -, h⟩ := bind_eq_ok.1 h
    cases h
    exact .inr ⟨name, source, value, rfl, rfl⟩
  | derivative name source =>
    obtain ⟨t, -, h⟩ := bind_eq_ok.1 h
    obtain ⟨t', -, h⟩ := bind_eq_ok.1 h
    obtain ⟨result, -, h⟩ := bind_eq_ok.1 h
    cases h
    exact .inl rfl
  | simplify source =>
    obtain ⟨t, -, h⟩ := bind_eq_ok.1 h
    obtain ⟨result, -, h⟩ := bind_eq_ok.1 h
    cases h
    exact .inl rfl
  | latex source =>
    obtain ⟨t, -, h⟩ := bind_eq_ok.1 h
    cases h
    exact .inl rfl
  | evaluate source =>
    obtain ⟨value, -, h⟩ := bind_eq_ok.1 h
    cases h
    exact .inl rfl

theorem run_of_execute {line output : String} {statement : Statement}
    (hparse : Statement.parse line = .ok statement)
    (hexecute : state.execute statement = .ok (state', output)) :
    state.run line = (state', .ok output) := by
  have hstep : state.step line = .ok (state', output) :=
    bind_eq_ok.2 ⟨statement, mapError_eq_ok.2 hparse, hexecute⟩
  unfold run
  rw [hstep]

theorem execute_of_run {line output : String} {statement : Statement}
    (hparse : Statement.parse line = .ok statement) (hrun : (state.run line).2 = .ok output) :
    ∃ state', state.execute statement = .ok (state', output) := by
  unfold run at hrun
  cases hstep : state.step line with
  | error e =>
    rw [hstep] at hrun
    cases hrun
  | ok result =>
    obtain ⟨other, hother, hexecute⟩ := bind_eq_ok.1 hstep
    rw [mapError_eq_ok, hparse] at hother
    cases hother
    rw [hstep] at hrun
    cases hrun
    exact ⟨result.1, hexecute⟩

theorem run_of_evaluate {line name source : String} {value : Binary64}
    (hparse : Statement.parse line = .ok (.assign name source)) (heval : state.evaluate source = .ok value) :
    state.run line =
      (⟨state.values.add name value⟩, .ok (lowercase name ++ " = " ++ Number.text value)) := by
  refine run_of_execute hparse ?_
  rw [execute, heval]
  rfl

/-- An assignment that succeeds gives its value to its name, and prints it. -/
theorem exists_of_run_assign {line name source output : String}
    (hparse : Statement.parse line = .ok (.assign name source)) (hrun : (state.run line).2 = .ok output) :
    ∃ value, state.evaluate source = .ok value ∧
      state.run line = (⟨state.values.add name value⟩, .ok (lowercase name ++ " = " ++ Number.text value)) := by
  obtain ⟨state', hexecute⟩ := execute_of_run hparse hrun
  obtain ⟨value, heval, -⟩ := bind_eq_ok.1 hexecute
  exact ⟨value, heval, run_of_evaluate hparse heval⟩

/-- A line leaves the state as it is, or it is an assignment and adds its name. -/
theorem run_cases (state : Calculator) (line : String) :
    (state.run line).1 = state ∨
      ∃ name source value, Statement.parse line = .ok (.assign name source) ∧
        (state.run line).1 = ⟨state.values.add name value⟩ := by
  unfold run
  cases hstep : state.step line with
  | error e => exact .inl rfl
  | ok result =>
    obtain ⟨statement, hparse, hexecute⟩ := bind_eq_ok.1 hstep
    rcases execute_cases hexecute with h | ⟨name, source, value, rfl, h⟩
    · exact .inl h
    · exact .inr ⟨name, source, value, mapError_eq_ok.1 hparse, h⟩

theorem WellNamed.add (h : state.WellNamed) {name : String} (hname : StoredName name) (value : Binary64) :
    WellNamed ⟨state.values.add name value⟩ := by
  intro other hother
  rcases NameMap.mem_names_insert hother with rfl | hother
  · exact hname.lowercase
  · exact h other hother

theorem wellNamed_ofList {bound : List (String × Binary64)} (h : ∀ entry ∈ bound, StoredName entry.1) :
    WellNamed ⟨.ofList bound⟩ := by
  have hfold (bound : List (String × Binary64)) (ρ : Valuation) (h : ∀ entry ∈ bound, StoredName entry.1)
      (hρ : WellNamed ⟨ρ⟩) :
      WellNamed ⟨bound.foldl (fun ρ entry => ρ.add entry.1 entry.2) ρ⟩ := by
    induction bound generalizing ρ with
    | nil => exact hρ
    | cons entry bound ih =>
      obtain ⟨hentry, hbound⟩ := List.forall_mem_cons.1 h
      exact ih _ hbound (hρ.add hentry entry.2)
  exact hfold bound .empty h fun name hname => absurd hname List.not_mem_nil

/-- What one line preserves. -/
theorem WellNamed.run (h : state.WellNamed) (line : String) : (state.run line).1.WellNamed := by
  rcases state.run_cases line with heq | ⟨name, source, value, hparse, heq⟩
  · rw [heq]
    exact h
  · rw [heq]
    exact h.add (storedName_of_parse hparse) value

/-- What a whole session preserves. -/
theorem Reachable.wellNamed (h : state.Reachable) : state.WellNamed := by
  induction h with
  | start hbound =>
    refine wellNamed_ofList fun entry hentry => ?_
    obtain ⟨arg, harg⟩ := hbound entry hentry
    exact storedName_of_readBinding harg
  | run _ line ih => exact ih.run line

end Calculator

/-! ## The arguments of the program -/

namespace Invocation

variable {bound bound' : List (String × Binary64)} {file file' : Option String} {args : List String}

theorem eq_of_parseFiles (h : parseFiles bound file args = .ok (.run bound' file')) : bound' = bound := by
  fun_induction parseFiles bound file args with
  | case1 =>
    cases h
    rfl
  | case2 => cases h
  | case3 => cases h
  | case4 file arg args hfile hempty ih => exact ih h

theorem acceptedBindings_of_parseAfter (hbound : AcceptedBindings bound)
    (h : parseAfter bound file args = .ok (.run bound' file')) : AcceptedBindings bound' := by
  fun_induction parseAfter bound file args with
  | case1 =>
    cases h
    exact hbound
  | case2 => exact eq_of_parseFiles h ▸ hbound
  | case5 bound file arg args hoption entry hentry ih => exact ih (hbound.concat hentry) h
  | case7 bound file arg args _ _ _ hoption text hattached entry hentry ih =>
    exact ih (hbound.concat hentry) h
  | case14 bound file arg args _ _ _ hoption hfile hempty ih => exact ih hbound h
  | case3 | case4 | case6 | case8 | case9 | case10 | case11 | case12 | case13 => cases h

end Invocation

/-- A session of the program starts with bindings that were accepted. -/
theorem Calculator.reachable_of_parse {args : List String} {bound : List (String × Binary64)}
    {file : Option String} (h : Invocation.parse args = .ok (.run bound file)) :
    Reachable ⟨.ofList bound⟩ :=
  .start (Invocation.acceptedBindings_of_parseAfter (fun _ hentry => absurd hentry List.not_mem_nil) h)

/-! ## Reading a value back -/

/-- A name that an expression may consist of: a word that is no number, no function and no command. -/
structure RecallableName (name : String) : Prop where
  nonempty : name.toList ≠ []
  wordChars : ∀ c ∈ name.toList, Token.isWordChar c = true
  start : ∀ c ∈ name.toList.head?, Scope.startsNumber c = false ∧ c ≠ ':'
  notFunction : Elementary.ofSpelling? name = none

section

variable {name : String}

theorem RecallableName.readable (h : RecallableName name) (hstored : StoredName name)
    (hlower : lowercase name = name) : ReadableName name where
  wordChars := h.wordChars
  notBlank := hstored.not_allBlank h.nonempty
  lower := hlower
  notNumber c hc := (h.start c hc).1
  notFunction := h.notFunction

/-- A line that is a stored name is an expression. -/
theorem StoredName.parse_eq (h : StoredName name) (hstart : ∀ c ∈ name.toList.head?, c ≠ ':') :
    Statement.parse name = .ok (.evaluate name) := by
  have hcut : cutAt (· = '=') name.toList = none :=
    cutAt_eq_none fun c hc => decide_eq_false fun heq => h.noEquals (heq ▸ hc)
  unfold Statement.parse
  rw [h.trimmed.trim_eq]
  split
  next rest hname =>
    rw [hname] at hstart
    exact absurd rfl (hstart ':' rfl)
  · rw [Statement.ofPlain, hcut, String.ofList_toList]

namespace Calculator

variable {state : Calculator} {value : Binary64}

/-- A line that is the name of a variable prints its value and changes nothing. -/
theorem run_name (hstate : state.Reachable) (hvalue : (name, value) ∈ state.values.values.entries)
    (hname : RecallableName name) : state.run name = (state, .ok (Number.text value)) := by
  have hmem : name ∈ state.values.names := List.mem_map_of_mem hvalue
  have hstored := hstate.wellNamed name hmem
  have hlower := state.values.lower name hmem
  have hcompile : Expression.compile name (state.values.names ++ []) = .ok (.var name) := by
    have htext : Expression.text (.var name) = name := String.ofList_toList
    have hvar : ∀ other, Tree.dependsOn other (.var name : Expression) = true →
        ReadableName other ∧ other ∈ (state.values.names ++ []).map lowercase := by
      intro other hother
      obtain rfl : name = other := of_decide_eq_true hother
      rw [List.append_nil]
      exact ⟨hname.readable hstored hlower, List.mem_map.2 ⟨name, hmem, hlower⟩⟩
    rw [← htext, Expression.compile_text_eq_reread hvar (Nat.two_pow_pos 30), htext]
    rfl
  have hget : state.values.get? name = some value := by
    rw [Valuation.get?, NameMap.get?_of_mem_entries hvalue]
  have hevaluate : state.evaluate name = .ok value := by
    unfold evaluate compile
    rw [hcompile]
    show inSource name .evaluation (Tree.eval state.values.get? (.var name)) = _
    rw [Tree.eval, hget]
    rfl
  refine run_of_execute (hstored.parse_eq fun c hc => (hname.start c hc).2) ?_
  rw [execute, hevaluate]
  rfl

/-- The session that starts without bindings and runs one line. -/
def afterLine (line : String) : Calculator :=
  (run ⟨.ofList []⟩ line).1

theorem reachable_afterLine (line : String) : Reachable (afterLine line) :=
  .run (.start fun _ hentry => absurd hentry List.not_mem_nil) line

theorem run_name_x :
    ("x", Binary64.ofDecimal false ⟨25, -1⟩) ∈ (afterLine "X = 2.5").values.values.entries ∧
      (afterLine "X = 2.5").run "x" = (afterLine "X = 2.5", .ok "2.5") := by
  have hmem : ("x", Binary64.ofDecimal false ⟨25, -1⟩) ∈ (afterLine "X = 2.5").values.values.entries := by
    decide +kernel
  have hname : RecallableName "x" := by
    constructor
    · decide
    · simp; decide
    · simp; decide
    · decide
  have htext : Number.text (Binary64.ofDecimal false ⟨25, -1⟩) = "2.5" := by decide +kernel
  refine ⟨hmem, ?_⟩
  rw [run_name (reachable_afterLine "X = 2.5") hmem hname, htext]

/-- A value given to the name of a function is stored and never read back: the name still means the function. -/
theorem run_sin_ne_ok :
    ∃ state : Calculator, state.Reachable ∧
      ("sin", Binary64.ofDecimal false ⟨3, 0⟩) ∈ state.values.values.entries ∧
      ∀ output, (state.run "sin").2 ≠ .ok output := by
  refine ⟨afterLine "sin = 3", reachable_afterLine "sin = 3", by decide +kernel, ?_⟩
  have hrun : ((afterLine "sin = 3").run "sin").2.isOk = false := by decide +kernel
  intro output hok
  rw [hok] at hrun
  cases hrun

end Calculator

end

end SymbolicCalc
