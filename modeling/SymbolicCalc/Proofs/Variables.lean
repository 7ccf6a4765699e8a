import SymbolicCalc.Outcome
import SymbolicCalc.Proofs.DerivativeParts
import SymbolicCalc.Proofs.Folding
import SymbolicCalc.Proofs.Printing
import SymbolicCalc.Proofs.TrimmedText

/-!
# Where variables come from

A compiled expression has no variables but declared ones, under names that can be read back: a variable is a word
of the source text in lower case, and the reader took it neither for a number nor for a function.
Differentiation and folding add no variables, so what is printed for a line has no others either.
-/

namespace SymbolicCalc

/-! ## Variables of trees -/

namespace Tree

variable {K : Type} {p q : String → Prop} {t left right arg : Tree K}

/-- Every variable of the tree satisfies `p`. -/
def UsesOnly (p : String → Prop) (t : Tree K) : Prop :=
  ∀ name, t.dependsOn name = true → p name

theorem UsesOnly.mono (h : t.UsesOnly p) (hpq : ∀ name, p name → q name) : t.UsesOnly q :=
  fun name hname => hpq name (h name hname)

theorem usesOnly_const (c : K) : UsesOnly p (.const c) := by
  intro name hname
  cases hname

theorem usesOnly_binary {op : Operator} :
    UsesOnly p (.binary op left right) ↔ left.UsesOnly p ∧ right.UsesOnly p := by
  unfold UsesOnly
  constructor
  · intro h
    constructor
    · intro name hname
      exact h name (by rw [dependsOn, hname, Bool.true_or])
    · intro name hname
      exact h name (by rw [dependsOn, hname, Bool.or_true])
  · rintro ⟨hleft, hright⟩ name hname
    rw [dependsOn, Bool.or_eq_true] at hname
    exact hname.elim (hleft name) (hright name)

theorem usesOnly_call {f : Elementary} : UsesOnly p (.call f arg) ↔ arg.UsesOnly p :=
  Iff.rfl

theorem UsesOnly.binary {op : Operator} (hleft : left.UsesOnly p) (hright : right.UsesOnly p) :
    UsesOnly p (.binary op left right) :=
  usesOnly_binary.2 ⟨hleft, hright⟩

/-! ## Variables of derivatives -/

theorem operandWise_usesOnly : OperandWise (UsesOnly p : Tree K → Prop) where
  const := usesOnly_const
  binary _ := usesOnly_binary
  call := usesOnly_call

variable [Arithmetic K]

/-- A derivative has no other variables than the tree. -/
theorem UsesOnly.differentiates {v : String} {f d : Tree K} (hd : Differentiates .pruned v f d)
    (h : f.UsesOnly p) : d.UsesOnly p :=
  operandWise_usesOnly.differentiates hd h

theorem UsesOnly.simplified {d : Tree K} (h : t.UsesOnly p) (hd : t.simplified = .ok d) : d.UsesOnly p := by
  have hfold : t.fold.tree = d := by rw [simplified_eq_ok_iff.1 hd]
  intro name hname
  rw [← hfold, dependsOn_fold] at hname
  exact h name hname

end Tree

/-! ## Words of a text -/

namespace Token

/-- In a text, what is no parenthesis and is not written as an operator is a word. -/
theorem kind_eq_word_of_scan {offset : Nat} {cs : List Char} {token : Token} (h : token ∈ scan offset cs)
    (hinner : token.Inner) (htext : Operator.ofText? token.normalized = none) : token.kind = .word := by
  rcases symbol_or_word_of_scan h with ⟨c, hsymbol, hlexeme⟩ | ⟨hkind, -⟩
  · rcases symbolKind?_cases hsymbol with ⟨-, hkind⟩ | ⟨-, hkind⟩ | ⟨op, rfl, -⟩
    · exact absurd hkind hinner.not_open
    · exact absurd hkind hinner.not_close
    · rw [normalized, hlexeme, op.lowercase_symbol, Operator.ofText?_symbol] at htext
      cases htext
  · exact hkind

end Token

/-- A word that the reader takes for a variable in scope. -/
structure VariableWord (scope : Scope) (word : String) : Prop where
  nonempty : word.toList ≠ []
  wordChars : ∀ c ∈ word.toList, Token.isWordChar c = true
  lower : Text.lowercase word = word
  notNumber : ∀ c ∈ word.toList.head?, Scope.startsNumber c = false
  notFunction : Elementary.ofSpelling? word = none
  declared : scope.get? word = some .var

variable {scope : Scope}

theorem Scope.ofText?_of_resolve? {depth : Nat} {text : String} {rank : Rank} {tree : Expression}
    (h : scope.resolve? depth text = some (rank, .leaf tree)) : Operator.ofText? text = none := by
  unfold Scope.resolve? at h
  split at h
  · cases h
  next htext => exact htext

theorem Scope.usesOnly_of_resolve? {depth : Nat} {word : String} {rank : Rank} {tree : Expression}
    (h : scope.resolve? depth word = some (rank, .leaf tree))
    (hwordChars : ∀ c ∈ word.toList, Token.isWordChar c = true) (hlower : Text.lowercase word = word) :
    tree.UsesOnly (VariableWord scope) := by
  simp only [Scope.resolve?, Scope.ofText?_of_resolve? h] at h
  split at h
  · cases h
  next hfunction =>
    split at h
    · cases h
      exact Tree.usesOnly_const _
    next hmeaning =>
      cases h
      intro name hname
      obtain rfl : word = name := of_decide_eq_true hname
      cases hword : word.toList with
      | nil =>
        simp [Scope.meaning?, hword] at hmeaning
      | cons c cs =>
        cases hnumber : Scope.startsNumber c with
        | true =>
          rw [Scope.meaning?_of_startsNumber hword hnumber] at hmeaning
          cases hread : (Number.read (c :: cs)).toOption with
          | none => simp [hread] at hmeaning
          | some value => simp [hread] at hmeaning
        | false =>
          rw [Scope.meaning?_of_not_startsNumber hword hnumber] at hmeaning
          refine ⟨?_, hwordChars, hlower, ?_, hfunction, hmeaning⟩
          · rw [hword]
            exact List.cons_ne_nil c cs
          · intro d hd
            rw [hword] at hd
            cases hd
            exact hnumber
    · cases h

/-- The leaves of ranked tokens are what tokens mean that are no parentheses. -/
theorem RankedToken.exists_inner_of_leaf {opens : List Span} {tokens : List Token} {ranked : List RankedToken}
    (h : rankAfter scope opens tokens = .ok ranked) :
    ∀ t ∈ ranked, ∀ tree, t.role = .leaf tree → ∃ token ∈ tokens, token.Inner ∧
      ∃ depth, scope.resolve? depth token.normalized = some (t.rank, .leaf tree) := by
  induction tokens generalizing opens ranked with
  | nil =>
    obtain ⟨-, rfl⟩ := rankAfter_nil_eq_ok h
    exact fun t ht => absurd ht List.not_mem_nil
  | cons token tokens ih =>
    obtain ⟨t, opens', rest, rfl, hstep, hrest⟩ := rankAfter_cons_eq_ok h
    refine List.forall_mem_cons.2 ⟨fun tree htree => ?_, fun u hu tree htree => ?_⟩
    · cases hstep with
      | openParen hkind => cases htree
      | closeParen hkind => cases htree
      | inner hinner hresolve =>
        obtain rfl : _ = Role.leaf tree := htree
        exact ⟨token, List.mem_cons_self, hinner, _, hresolve⟩
    · obtain ⟨other, hother, hinner⟩ := ih hrest u hu tree htree
      exact ⟨other, List.mem_cons_of_mem token hother, hinner⟩

/-- The leaves of the ranked tokens of a text are what its words mean. -/
theorem RankedToken.exists_word_of_leaf {offset : Nat} {cs : List Char} {ranked : List RankedToken}
    (h : ofTokens scope (Token.scan offset cs) = .ok ranked) :
    ∀ t ∈ ranked, ∀ tree, t.role = .leaf tree → ∃ token ∈ Token.scan offset cs, token.kind = .word ∧
      ∃ depth, scope.resolve? depth token.normalized = some (t.rank, .leaf tree) := by
  intro t ht tree htree
  obtain ⟨token, htoken, hinner, depth, hresolve⟩ := exists_inner_of_leaf h t ht tree htree
  have hkind := Token.kind_eq_word_of_scan htoken hinner (Scope.ofText?_of_resolve? hresolve)
  exact ⟨token, htoken, hkind, depth, hresolve⟩

theorem RankedToken.usesOnly_of_ofTokens {offset : Nat} {cs : List Char} {ranked : List RankedToken}
    (h : ofTokens scope (Token.scan offset cs) = .ok ranked) :
    ∀ t ∈ ranked, ∀ tree, t.role = .leaf tree → tree.UsesOnly (VariableWord scope) := by
  intro t ht tree htree
  obtain ⟨token, htoken, hkind, depth, hresolve⟩ := exists_word_of_leaf h t ht tree htree
  refine Scope.usesOnly_of_resolve? hresolve (fun c hc => ?_) (Text.lowercase_lowercase _)
  rw [Token.normalized, Text.lowercase, String.toList_ofList] at hc
  rcases Text.mem_lowerAfter hc with hc | hletter
  · exact Token.isWordChar_of_scan htoken hkind c hc
  · exact hletter.isWordChar

/-! ## Variables of compiled expressions -/

variable {p : String → Prop}

namespace Stretch

theorem mem_of_mem_stripParens {tokens : Stretch} {x : RankedToken} (h : x ∈ stripParens tokens) :
    x ∈ tokens := by
  have hend := (List.dropWhile_sublist _).subset (List.mem_reverse.1 h)
  exact (List.dropWhile_sublist _).subset (List.mem_reverse.1 hend)

/-- What a root joins: its operands, if it has any, or the leaf that it is. -/
theorem join_cases {root : RankedToken} {left right : Option Expression} {t : Expression}
    (h : join root left right = .ok t) :
    (∃ op r, right = some r ∧ t = .binary op (left.getD .zero) r) ∨
      (∃ f arg, right = some arg ∧ t = .call f arg) ∨ root.role = .leaf t := by
  unfold join at h
  split at h
  next op right _ =>
    cases h
    exact .inl ⟨op, right, rfl, rfl⟩
  · cases h
  next f arg _ =>
    cases h
    exact .inr (.inl ⟨f, arg, rfl, rfl⟩)
  · cases h
  next hrole =>
    cases h
    exact .inr (.inr hrole)
  · cases h
  · cases h
  · cases h

/-- A tree has the variables of the operands that it was made of. The induction is on the length of the
stretch. -/
theorem usesOnly_of_tree? {tokens : Stretch} {t : Expression} (h : tree? tokens = .ok (some t))
    (hleaves : ∀ x ∈ tokens, ∀ tree, x.role = .leaf tree → tree.UsesOnly p) : t.UsesOnly p := by
  induction hlen : tokens.length using Nat.strongRecOn generalizing tokens t with
  | ind n ih =>
    cases hsplit : splitAtRoot? (stripParens tokens) with
    | none =>
      rw [tree?_of_stripParens_eq_nil (ne_nil_of_tree?_eq_some h) (splitAtRoot?_eq_none.1 hsplit)] at h
      cases h
      exact Tree.usesOnly_const _
    | some found =>
      obtain ⟨before, root, after⟩ := found
      obtain ⟨left, right, u, hleft, hright, hjoin, heq⟩ := exists_join_of_tree? hsplit h
      obtain rfl := Option.some.inj heq
      have hshort := length_lt_of_splitAtRoot? hsplit
      rw [hlen] at hshort
      have hmem : ∀ x ∈ before ++ root :: after, x ∈ tokens := by
        intro x hx
        rw [← eq_append_of_splitAtRoot? hsplit] at hx
        exact mem_of_mem_stripParens hx
      obtain ⟨hbefore, hrest⟩ := List.forall_mem_append.1 hmem
      obtain ⟨hroot, hafter⟩ := List.forall_mem_cons.1 hrest
      rcases join_cases hjoin with ⟨op, r, rfl, rfl⟩ | ⟨f, arg, rfl, rfl⟩ | hrole
      · have hr := ih _ hshort.2 hright (fun x hx => hleaves x (hafter x hx)) rfl
        refine .binary ?_ hr
        cases left with
        | none => exact Tree.usesOnly_const _
        | some l => exact ih _ hshort.1 hleft (fun x hx => hleaves x (hbefore x hx)) rfl
      · exact Tree.usesOnly_call.2 (ih _ hshort.2 hright (fun x hx => hleaves x (hafter x hx)) rfl)
      · exact hleaves root hroot t hrole

end Stretch

/-- The names in scope for an expression are the declared ones and the built-in constants. -/
theorem Scope.mem_of_get?_ofVariables {names : List String} {name : String}
    (h : (ofVariables names).get? name = some .var) : name ∈ names.map Text.lowercase := by
  rw [get?_ofVariables] at h
  split at h
  next hdeclared => exact hdeclared
  · simp only [builtin, NameMap.ofList, List.foldl_cons, List.foldl_nil, NameMap.get?_insert,
      NameMap.get?_empty] at h
    split at h
    · cases h
    · split at h
      · cases h
      · cases h

namespace Expression

theorem usesOnly_of_ofRanked {ranked : List RankedToken} {t : Expression} (h : ofRanked ranked = .ok t)
    (hleaves : ∀ x ∈ ranked, ∀ tree, x.role = .leaf tree → tree.UsesOnly p) : t.UsesOnly p := by
  obtain ⟨result, htree, rfl⟩ := map_eq_ok.1 h
  cases result with
  | none => exact Tree.usesOnly_const _
  | some t => exact Stretch.usesOnly_of_tree? htree hleaves

/-- The variables of a compiled expression are words of its text that stand for declared variables. -/
theorem usesOnly_of_compile {source : String} {names : List String} {t : Expression}
    (h : compile source names = .ok t) : t.UsesOnly (VariableWord (.ofVariables names)) := by
  obtain ⟨tokens, htokens, hcompile⟩ := bind_eq_ok.1 h
  obtain ⟨ranked, hranked, htree⟩ := bind_eq_ok.1 hcompile
  obtain ⟨-, rfl⟩ := tokenize_eq_ok_iff.1 htokens
  exact usesOnly_of_ofRanked htree (RankedToken.usesOnly_of_ofTokens hranked)

end Expression

end SymbolicCalc
