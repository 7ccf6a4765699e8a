import SymbolicCalc.Proofs.PrintedValue
import SymbolicCalc.Proofs.Sessions
import SymbolicCalc.Proofs.Variables
import SymbolicCalc.Proofs.WrittenStatements

/-!
# The text of a simplified expression is stable

What the calculator prints for a simplified expression or a simplified derivative, it prints again when it is
asked to simplify that text. The text may be read as another tree, since some constants are printed as
operations; folding turns these back into constants that are printed alike, and does nothing else to a tree
that was folded already.
-/

namespace SymbolicCalc

open Text

namespace Expression

open Binary64

/-! ## Constants that are printed alike -/

theorem constantChars_unsignZero (value : Binary64) : constantChars value.unsignZero = constantChars value := by
  obtain ⟨negative, magnitude⟩ := value
  cases magnitude with
  | nan => rfl
  | infinite => rfl
  | finite n =>
    rw [unsignZero_finite]
    by_cases hn : n.val = 0
    · rw [if_pos hn]
      simp [constantChars, hn]
    · rw [if_neg hn]

theorem constantChars_of_agree {x y : Binary64} (h : Agree x y) : constantChars x = constantChars y := by
  rcases h with rfl | ⟨hx, hy⟩
  · rfl
  · rw [constantChars, constantChars, magnitude_of_isNan hx, magnitude_of_isNan hy]

theorem isClosed_rereadConstant (value : Binary64) : (rereadConstant value).isClosed = true := by
  unfold rereadConstant
  split
  · rfl
  · split <;> rfl
  · split <;> rfl

theorem isClosed_reread (t : Expression) : (reread t).isClosed = t.isClosed := by
  induction t with
  | const value => exact isClosed_rereadConstant value
  | var name => rfl
  | binary op left right ihleft ihright => rw [reread, Tree.isClosed, Tree.isClosed, ihleft, ihright]
  | call f arg ih => exact ih

/-- A constant that was printed as an operation folds into a constant that is printed alike. -/
theorem exists_fold_rereadConstant (value : Binary64) :
    ∃ y, (rereadConstant value).fold = ⟨.const y, none⟩ ∧ constantChars y = constantChars value := by
  obtain ⟨y, heval, hagree⟩ := @eval_rereadConstant (fun _ => none) value
  refine ⟨y, ?_, ?_⟩
  · rw [Tree.fold_eq_foldClosed (isClosed_rereadConstant value), Tree.foldClosed_eq_const heval]
  · rw [constantChars_of_agree hagree, constantChars_unsignZero]

/-- A folded tree is printed as before once it was read back and folded again. The induction is on the tree:
operands that are not closed are not read back as closed ones, so folding goes the same way. -/
theorem exists_fold_reread {t : Expression} (h : t.fold = ⟨t, none⟩) :
    ∃ d, (reread t).fold = ⟨d, none⟩ ∧ chars d = chars t := by
  induction t with
  | const value =>
    obtain ⟨y, hfold, hchars⟩ := exists_fold_rereadConstant value
    exact ⟨.const y, hfold, hchars⟩
  | var name => exact ⟨.var name, rfl, rfl⟩
  | binary op left right ihleft ihright =>
    obtain ⟨hleft, hright⟩ := Tree.fold_of_fold_binary h
    obtain ⟨l, hl, hlchars⟩ := ihleft hleft
    obtain ⟨r, hr, hrchars⟩ := ihright hright
    have hopen := Tree.not_isClosed_of_fold_binary h
    rw [← isClosed_reread left, ← isClosed_reread right] at hopen
    refine ⟨.binary op l r, ?_, ?_⟩
    · rw [reread, Tree.fold_binary hopen hl, hr]
      rfl
    · rw [chars, chars, hlchars, hrchars]
  | call f arg ih =>
    obtain ⟨a, ha, hchars⟩ := ih (Tree.fold_of_fold_call h)
    have hopen := Tree.not_isClosed_of_fold_call h
    rw [← isClosed_reread arg] at hopen
    refine ⟨.call f a, ?_, ?_⟩
    · rw [reread, Tree.fold_call hopen, ha]
      rfl
    · rw [chars, chars, hchars]

end Expression

/-! ## Groups in a text -/

/-- The greatest number of groups that are open at once in a text, before which `depth` are open. -/
def Text.nestingFrom (depth : Nat) : List Char → Nat
  | [] => depth
  | c :: cs =>
    max depth (nestingFrom (if c = '(' then depth + 1 else if c = ')' then depth - 1 else depth) cs)

/-- The greatest number of groups that are open at once in a text. -/
def Text.nesting (text : String) : Nat :=
  nestingFrom 0 text.toList

theorem le_nestingFrom (depth : Nat) (cs : List Char) : depth ≤ nestingFrom depth cs := by
  cases cs with
  | nil => exact Nat.le_refl depth
  | cons c cs => exact Nat.le_max_left _ _

/-- A text that closes the groups that it opens, and opens at most `n` at once. -/
def GroupsUpTo (n : Nat) (cs : List Char) : Prop :=
  ∀ depth rest, nestingFrom depth (cs ++ rest) = max (depth + n) (nestingFrom depth rest)

namespace GroupsUpTo

variable {m n : Nat} {cs others : List Char}

theorem of_noParens (hopen : '(' ∉ cs) (hclose : ')' ∉ cs) : GroupsUpTo 0 cs := by
  intro depth rest
  induction cs with
  | nil => exact (Nat.max_eq_right (le_nestingFrom depth rest)).symm
  | cons c cs ih =>
    rw [List.mem_cons, not_or] at hopen hclose
    rw [List.cons_append, nestingFrom, if_neg (Ne.symm hopen.1), if_neg (Ne.symm hclose.1), ih hopen.2 hclose.2]
    omega

theorem append (h : GroupsUpTo m cs) (h' : GroupsUpTo n others) : GroupsUpTo (max m n) (cs ++ others) := by
  intro depth rest
  rw [List.append_assoc, h, h']
  omega

theorem group (h : GroupsUpTo n cs) : GroupsUpTo (n + 1) ('(' :: cs ++ [')']) := by
  intro depth rest
  have hrest := le_nestingFrom depth rest
  rw [List.cons_append, List.cons_append, nestingFrom, if_pos rfl, List.append_assoc, h,
    List.singleton_append, nestingFrom, if_neg (by decide), if_pos rfl, Nat.add_sub_cancel]
  omega

theorem nestingFrom_zero (h : GroupsUpTo n cs) : nestingFrom 0 cs = n := by
  have hzero := h 0 []
  rw [List.append_nil, nestingFrom] at hzero
  omega

end GroupsUpTo

namespace Expression

open Binary64

theorem groupsUpTo_literalChars (n : Fin infinityOrdinal) : GroupsUpTo 0 (literalChars n) := by
  obtain ⟨hnumber, -⟩ := literalChars_spec n
  refine .of_noParens ?_ ?_
  · intro hopen
    cases hnumber '(' hopen
  · intro hclose
    cases hnumber ')' hclose

theorem groupsUpTo_constantChars (value : Binary64) :
    GroupsUpTo (constantNesting value) (constantChars value) := by
  have hquotient (cs : List Char) (hopen : '(' ∉ cs) (hclose : ')' ∉ cs) :
      GroupsUpTo 1 ('(' :: cs ++ [')']) := (GroupsUpTo.of_noParens hopen hclose).group
  obtain ⟨negative, magnitude⟩ := value
  cases magnitude with
  | nan => exact hquotient ['0', '.', '0', '/', '0', '.', '0'] (by decide) (by decide)
  | infinite =>
    have hinfinite := hquotient ['1', '.', '0', '/', '0', '.', '0'] (by decide) (by decide)
    cases negative with
    | false => exact hinfinite
    | true =>
      have hminus : GroupsUpTo 0 ['0', '.', '0', '-'] := .of_noParens (by decide) (by decide)
      exact (hminus.append hinfinite).group
  | finite n =>
    have hliteral := groupsUpTo_literalChars n
    unfold constantChars constantNesting
    dsimp only
    split
    · have hminus : GroupsUpTo 0 ['-'] := .of_noParens (by decide) (by decide)
      exact (hminus.append hliteral).group
    · exact hliteral

theorem groupsUpTo_chars {t : Expression}
    (h : t.UsesOnly fun name => ∀ c ∈ name.toList, Token.isWordChar c = true) :
    GroupsUpTo (nesting t) (chars t) := by
  induction t with
  | const value => exact groupsUpTo_constantChars value
  | var name =>
    have hword := h name (decide_eq_true rfl)
    refine .of_noParens ?_ ?_
    · intro hopen
      cases hword '(' hopen
    · intro hclose
      cases hword ')' hclose
  | binary op left right ihleft ihright =>
    obtain ⟨hleft, hright⟩ := Tree.usesOnly_binary.1 h
    have hsymbol : GroupsUpTo 0 [op.symbol] := by
      cases op <;> exact .of_noParens (by decide) (by decide)
    have hgroup := ((ihleft hleft).append (hsymbol.append (ihright hright))).group
    rw [Nat.zero_max, ← List.cons_append] at hgroup
    exact hgroup
  | call f arg ih =>
    have hname : GroupsUpTo 0 f.name.toList := by
      cases f <;> exact .of_noParens (by decide) (by decide)
    have hcall := hname.append (ih h).group
    rw [Nat.zero_max, ← List.append_assoc] at hcall
    exact hcall

/-- The groups of a tree are those of its text. -/
theorem nesting_text {t : Expression}
    (h : t.UsesOnly fun name => ∀ c ∈ name.toList, Token.isWordChar c = true) :
    Text.nesting t.text = nesting t := by
  rw [Text.nesting, text, String.toList_ofList, (groupsUpTo_chars h).nestingFrom_zero]

end Expression

/-! ## The line that simplifies a text -/

namespace Expression

theorem trimmed_constantChars (value : Binary64) : Trimmed (constantChars value) := by
  have hparens (cs : List Char) : Trimmed ('(' :: cs ++ [')']) := trimmed_of_ends (by decide) (by decide) cs
  obtain ⟨negative, magnitude⟩ := value
  cases magnitude with
  | nan => exact hparens "0.0/0.0".toList
  | infinite =>
    cases negative with
    | false => exact hparens "1.0/0.0".toList
    | true => exact hparens "0.0-(1.0/0.0)".toList
  | finite n =>
    unfold constantChars
    dsimp only
    split
    · exact hparens ('-' :: literalChars n)
    · exact trimmed_of_forall fun c hc => isBlank_of_startsNumber ((literalChars_spec n).1 c hc)

/-- The text of an expression is trimmed if its names are. -/
theorem trimmed_chars {t : Expression} (h : t.UsesOnly fun name => Trimmed name.toList) : Trimmed (chars t) := by
  cases t with
  | const value => exact trimmed_constantChars value
  | var name => exact h name (decide_eq_true rfl)
  | binary op left right => exact trimmed_of_ends (by decide) (by decide) _
  | call f arg =>
    obtain ⟨c, cs, hname, hc⟩ : ∃ c cs, f.name.toList = c :: cs ∧ isBlank c = false := by
      cases f <;> exact ⟨_, _, rfl, by decide⟩
    rw [chars, hname]
    exact trimmed_of_ends hc (by decide) (cs ++ '(' :: chars arg)

end Expression

namespace Statement

/-- The line that asks for the simplified form of a text: the blanks around the text do not count. -/
theorem parse_simplify (source : String) :
    parse (":s " ++ source) =
      if (trim source.toList).isEmpty then .error .simplify else .ok (.simplify (trimmed source)) := by
  obtain ⟨before, after, hsource, hbefore, hafter⟩ := exists_eq_append_trim source.toList
  by_cases hempty : trim source.toList = []
  · -- nothing but blanks follows the command, and the line is trimmed to the command alone
    have hblank : allBlank (' ' :: (before ++ after)) = true := by
      rw [allBlank, List.all_cons, List.all_append, ← allBlank, ← allBlank, hbefore, hafter]
      decide
    have htrim : trim (":s " ++ source).toList = [':', 's'] := by
      rw [String.toList_append, hsource, hempty, List.append_nil]
      exact @Trimmed.trim_append _ [] _ (trimmed_of_ends (by decide) (by decide) []) rfl hblank
    rw [parse_of_trim_colon htrim rfl, hempty]
    rfl
  · have hwritten : WrittenAs (.simplify (trimmed source)) ([] ++ ([':', 's'] ++ ' ' :: before ++
        (trimmed source).toList) ++ after) := by
      refine .simplify ?_ ?_ rfl ?_ hafter (List.cons_ne_nil ' ' before)
      · rw [trimmed, String.toList_ofList]
        exact trimmed_trim source.toList
      · simpa [trimmed] using hempty
      · rw [allBlank, List.all_cons, ← allBlank, hbefore]
        decide
    have hline : (":s " ++ source).toList =
        [] ++ ([':', 's'] ++ ' ' :: before ++ (trimmed source).toList) ++ after := by
      rw [String.toList_append, trimmed, String.toList_ofList]
      conv_lhs => rw [hsource]
      simp
    rw [← hline] at hwritten
    rw [hwritten.parse_eq, if_neg (by simpa using hempty)]

theorem parse_simplify_of_trimmed {source : String} (h : Trimmed source.toList)
    (hblank : allBlank source.toList = false) : parse (":s " ++ source) = .ok (.simplify source) := by
  have hne : source ≠ "" := by
    rintro rfl
    cases hblank
  have hwritten : WrittenAs (.simplify source) (":s " ++ source).toList := by
    have hcore := WrittenAs.simplify h hne (rfl : allBlank [] = true) (by decide : allBlank [' '] = true)
      (rfl : allBlank [] = true) (by decide)
    simpa using hcore
  exact hwritten.parse_eq

end Statement

/-! ## What a session prints -/

theorem VariableWord.readable {scope : Scope} {name : String} (h : VariableWord scope name)
    (hstored : StoredName name) : ReadableName name where
  wordChars := h.wordChars
  notBlank := hstored.not_allBlank h.nonempty
  lower := h.lower
  notNumber := h.notNumber
  notFunction := h.notFunction

namespace Calculator

variable {state : Calculator} {line output : String}

/-- The line is read as the command `:s`, which asks for the simplified form of an expression, or as the command
`:d` with a variable that has a value, which asks for the simplified derivative. -/
inductive AsksSimplified (state : Calculator) (line : String) : Prop
  | expression {source : String} (h : Statement.parse line = .ok (.simplify source))
  | derivative {name source : String} (h : Statement.parse line = .ok (.derivative name source))
    (hvalue : (state.values.get? name).isSome = true)

/-- A line that starts with the command and gives an output is read as the command. -/
theorem asksSimplified_of_run {source : String} (h : (state.run (":s " ++ source)).2 = .ok output) :
    state.AsksSimplified (":s " ++ source) := by
  have hparse := Statement.parse_simplify source
  split at hparse
  · unfold run step at h
    rw [hparse] at h
    cases h
  · exact .expression hparse

/-- An expression that a session accepts has no variables but names with values, all of them readable. -/
theorem usesOnly_of_compile {source : String} {extra : List String} {t : Expression}
    (hstate : state.WellNamed) (hextra : ∀ name ∈ extra, lowercase name ∈ state.values.names)
    (h : state.compile source extra = .ok t) :
    t.UsesOnly fun name => ReadableName name ∧ name ∈ state.values.names := by
  refine (Expression.usesOnly_of_compile (mapError_eq_ok.1 h)).mono fun name hname => ?_
  have hmem : name ∈ state.values.names := by
    obtain ⟨other, hother, hlower⟩ := List.mem_map.1 (Scope.mem_of_get?_ofVariables hname.declared)
    rcases List.mem_append.1 hother with hother | hother
    · rw [state.values.lower other hother] at hlower
      exact hlower ▸ hother
    · exact hlower ▸ hextra other hother
  exact ⟨hname.readable (hstate name hmem), hmem⟩

/-- What is printed for such a line is the text of a folded expression of names with values. -/
theorem AsksSimplified.exists_text (hline : state.AsksSimplified line) (hstate : state.WellNamed)
    (hrun : (state.run line).2 = .ok output) :
    ∃ d : Expression, d.fold = ⟨d, none⟩ ∧ d.text = output ∧
      d.UsesOnly fun name => ReadableName name ∧ name ∈ state.values.names := by
  cases hline with
  | expression hparse =>
    obtain ⟨state', hexecute⟩ := execute_of_run hparse hrun
    obtain ⟨t, hcompile, hexecute⟩ := bind_eq_ok.1 hexecute
    obtain ⟨d, hsimplify, hexecute⟩ := bind_eq_ok.1 hexecute
    cases hexecute
    have hsimplified : t.simplified = .ok d := mapError_eq_ok.1 hsimplify
    have hvars := usesOnly_of_compile hstate (fun name hname => absurd hname List.not_mem_nil) hcompile
    exact ⟨d, Tree.fold_of_simplified hsimplified, rfl, hvars.simplified hsimplified⟩
  | @derivative name source hparse hvalue =>
    obtain ⟨state', hexecute⟩ := execute_of_run hparse hrun
    obtain ⟨t, hcompile, hexecute⟩ := bind_eq_ok.1 hexecute
    obtain ⟨t', hderivative, hexecute⟩ := bind_eq_ok.1 hexecute
    obtain ⟨d, hsimplify, hexecute⟩ := bind_eq_ok.1 hexecute
    cases hexecute
    have hsimplified : t'.simplified = .ok d := mapError_eq_ok.1 hsimplify
    have hextra : ∀ other ∈ [name], lowercase other ∈ state.values.names :=
      List.forall_mem_singleton.2 (Valuation.lowercase_mem_names hvalue)
    have hvars := usesOnly_of_compile hstate hextra hcompile
    have hdiff := Tree.derivativeWith_eq_ok_iff.1 (mapError_eq_ok.1 hderivative)
    exact ⟨d, Tree.fold_of_simplified hsimplified, rfl, (hvars.differentiates hdiff).simplified hsimplified⟩

/-- The text of a folded expression of names with values is simplified to itself. -/
theorem run_simplify_text {d : Expression} (hstate : state.WellNamed)
    (hvars : d.UsesOnly fun name => ReadableName name ∧ name ∈ state.values.names)
    (hfold : d.fold = ⟨d, none⟩) (hnesting : Text.nesting d.text < 2 ^ 30) :
    state.run (":s " ++ d.text) = (state, .ok d.text) := by
  have hparse : Statement.parse (":s " ++ d.text) = .ok (.simplify d.text) := by
    have hchars : d.text.toList = Expression.chars d := String.toList_ofList
    refine Statement.parse_simplify_of_trimmed ?_ ?_
    · rw [hchars]
      exact Expression.trimmed_chars (hvars.mono fun name h => (hstate name h.2).trimmed)
    · rw [hchars]
      exact Expression.allBlank_chars fun name h => (hvars name h).1
  have hcompile : state.compile d.text [] = .ok (Expression.reread d) := by
    rw [Expression.nesting_text (hvars.mono fun name h => h.1.wordChars)] at hnesting
    refine mapError_eq_ok.2 (Expression.compile_text_eq_reread (fun name h => ?_) hnesting)
    obtain ⟨hreadable, hmem⟩ := hvars name h
    rw [List.append_nil]
    exact ⟨hreadable, List.mem_map.2 ⟨name, hmem, hreadable.lower⟩⟩
  obtain ⟨d', hfold', htext⟩ := Expression.exists_fold_reread hfold
  have hsimplify : simplify d.text (Expression.reread d) = .ok d' :=
    mapError_eq_ok.2 (Tree.simplified_eq_ok_iff.2 hfold')
  refine run_of_execute hparse (bind_eq_ok.2 ⟨_, hcompile, bind_eq_ok.2 ⟨d', hsimplify, ?_⟩⟩)
  rw [Expression.text, htext]
  rfl

/-- What is printed for a simplified expression, or for a simplified derivative by a variable with a value, is
printed again when it is simplified once more. Ranks have 32 bits, and they wrap around in a text that nests 2^30
groups. -/
theorem run_simplify_output (hstate : state.Reachable) (hline : state.AsksSimplified line)
    (hrun : (state.run line).2 = .ok output) (hnesting : Text.nesting output < 2 ^ 30) :
    state.run (":s " ++ output) = (state, .ok output) := by
  obtain ⟨d, hfold, rfl, hvars⟩ := hline.exists_text hstate.wellNamed hrun
  exact run_simplify_text hstate.wellNamed hvars hfold hnesting

/-- A derivative with negative constants, which are printed as differences. -/
theorem run_simplify_output_derivative :
    ((afterLine "x = 2.5").run ":d X (0-4)*x*x").2 = .ok "(((-4.0)*x)+((-4.0)*x))" ∧
      (afterLine "x = 2.5").run (":s " ++ "(((-4.0)*x)+((-4.0)*x))") =
        (afterLine "x = 2.5", .ok "(((-4.0)*x)+((-4.0)*x))") := by
  have hrun : ((afterLine "x = 2.5").run ":d X (0-4)*x*x").2 = .ok "(((-4.0)*x)+((-4.0)*x))" := by
    decide +kernel
  have hparse : Statement.parse ":d X (0-4)*x*x" = .ok (.derivative "X" "(0-4)*x*x") := by
    decide +kernel
  have hvalue : ((afterLine "x = 2.5").values.get? "X").isSome = true := by
    decide +kernel
  exact ⟨hrun, run_simplify_output (reachable_afterLine _) (.derivative hparse hvalue) hrun (by decide)⟩

end Calculator

end SymbolicCalc
