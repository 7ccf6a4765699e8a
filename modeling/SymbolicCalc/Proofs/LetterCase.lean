import Mathlib.Data.List.Forall2
import SymbolicCalc.Proofs.Ranking
import SymbolicCalc.Proofs.TokenCoverage

/-!
# Letter case and blanks do not matter

An expression is compiled from the kinds of its tokens and from their lexemes in lower case. Two source texts whose
tokens agree in these have the same tree, if each may use the same names in any letter case. If one is refused, so is
the other, for the tokens at the same positions and for the same reason; only the places of the tokens and the letter
case of a lexeme that is quoted may differ. The tokens of ASCII texts agree if the texts differ in letter case and in
the blanks between their tokens alone.
-/

namespace SymbolicCalc

/-! ## Tokens and errors that correspond -/

/-- Tokens of one kind whose lexemes differ in letter case at most. -/
structure Token.SameInLowerCase (token other : Token) : Prop where
  kind_eq : token.kind = other.kind
  normalized_eq : token.normalized = other.normalized

theorem Token.SameInLowerCase.inner {token other : Token} (h : token.SameInLowerCase other) (hinner : token.Inner) :
    other.Inner :=
  ⟨h.kind_eq ▸ hinner.not_open, h.kind_eq ▸ hinner.not_close⟩

/-- The tokens stand at the same position of two lists, and they differ in letter case at most. -/
structure Token.Counterparts (tokens others : List Token) (token other : Token) : Prop where
  position : ∃ i : Nat, tokens[i]? = some token ∧ others[i]? = some other
  same : token.SameInLowerCase other

/-- Two errors of one kind that blame the tokens at the same positions of two lists and say the same about them, but
for the letter case of a lexeme. -/
inductive SyntaxError.SameBlame (tokens others : List Token) : SyntaxError → SyntaxError → Prop
  | extraClose {token other : Token} (h : token.Counterparts tokens others other) :
      SameBlame tokens others (.extraClose token.span) (.extraClose other.span)
  | unclosed {positions : List Nat} {places places' : List Span} (h : RankedToken.PlacesOf tokens positions places)
      (h' : RankedToken.PlacesOf others positions places') (count : Nat) :
      SameBlame tokens others (.unclosed places count) (.unclosed places' count)
  | unknown {token other : Token} (h : token.Counterparts tokens others other) (suggestions : List String) :
      SameBlame tokens others (.unknown token.span token.normalized suggestions)
        (.unknown other.span other.normalized suggestions)
  | arity {token other : Token} (h : token.Counterparts tokens others other) (expected : Arity) :
      SameBlame tokens others (.arity token.span token.lexeme expected) (.arity other.span other.lexeme expected)

/-! ## ASCII texts -/

namespace Text

/-- All characters of the text are ASCII characters. -/
def Ascii (cs : List Char) : Prop :=
  ∀ c ∈ cs, c.toNat < 128

instance (cs : List Char) : Decidable (Ascii cs) :=
  List.decidableBAll _ cs

theorem lowerChar_of_ascii {c : Char} (h : c.toNat < 128) : c ≠ 'Σ' ∧ lowerChar c = [c.toLower] := by
  have hall : ∀ n < 128, Char.ofNat n ≠ 'Σ' ∧ lowerChar (.ofNat n) = [(Char.ofNat n).toLower] := by decide +kernel
  have hc := hall c.toNat h
  rwa [Char.ofNat_toNat] at hc

theorem lowerAfter_of_ascii {before cs : List Char} (h : Ascii cs) : lowerAfter before cs = cs.map Char.toLower := by
  induction cs generalizing before with
  | nil => rfl
  | cons c cs ih =>
    obtain ⟨hc, hcs⟩ := List.forall_mem_cons.1 h
    obtain ⟨hsigma, hlower⟩ := lowerChar_of_ascii hc
    rw [lowerAfter, if_neg hsigma, hlower, ih hcs, List.singleton_append, List.map_cons]

theorem lowercase_of_ascii {text : String} (h : Ascii text.toList) :
    lowercase text = String.ofList (text.toList.map Char.toLower) := by
  rw [lowercase, lowerAfter_of_ascii h]

end Text

namespace Token

theorem keptBy_toLower {c : Char} (h : c.toNat < 128) : KeptBy Char.toLower c := by
  have hall : ∀ n < 128, isSeparator (Char.ofNat n).toLower = isSeparator (.ofNat n) ∧
      symbolKind? (Char.ofNat n).toLower = symbolKind? (.ofNat n) ∧
      (Char.ofNat n).toLower.utf8Size = (Char.ofNat n).utf8Size := by decide +kernel
  have hc := hall c.toNat h
  rw [Char.ofNat_toNat] at hc
  exact ⟨hc.1, hc.2.1, hc.2.2⟩

/-- The tokens of an ASCII text in lower case are its tokens in lower case. -/
theorem units_toLower {cs : List Char} (h : Text.Ascii cs) :
    (scan 0 (cs.map Char.toLower)).map unit = (scan 0 cs).map fun token => (token.kind, token.normalized) := by
  rw [scan_map fun c hc => keptBy_toLower (h c hc), List.map_map]
  refine List.map_congr_left fun token hmem => ?_
  have hlexeme : Text.Ascii token.lexeme.toList := fun c hc => h c (mem_lexeme_iff.1 ⟨token, hmem, hc⟩).1
  rw [normalized, Text.lowercase_of_ascii hlexeme]
  rfl

/-- ASCII texts that differ in letter case and in the blanks between their tokens have the same tokens up to letter
case. -/
theorem sameInLowerCase_of_ascii {cs cs' : List Char} (h : Text.Ascii cs) (h' : Text.Ascii cs')
    (hunits : (scan 0 (cs.map Char.toLower)).map unit = (scan 0 (cs'.map Char.toLower)).map unit) :
    List.Forall₂ SameInLowerCase (scan 0 cs) (scan 0 cs') := by
  rw [units_toLower h, units_toLower h', ← List.forall₂_eq_eq_eq, List.forall₂_map_left_iff,
    List.forall₂_map_right_iff] at hunits
  exact hunits.imp fun token other heq => ⟨congrArg Prod.fst heq, congrArg Prod.snd heq⟩

end Token

/-! ## Ranking -/

namespace RankedToken

variable {scope : Scope} {all all' before before' tokens others : List Token} {token other : Token}
  {opens opens' : List Span}

/-- The ranked tokens are counterparts with one rank and one role. -/
structure Counterparts (all all' : List Token) (t t' : RankedToken) : Prop where
  token : t.token.Counterparts all all' t'.token
  rank_eq : t.rank = t'.rank
  role_eq : t.role = t'.role

theorem counterparts_head (hlength : before.length = before'.length) (h : token.SameInLowerCase other)
    (tokens others : List Token) :
    token.Counterparts (before ++ token :: tokens) (before' ++ other :: others) other :=
  ⟨⟨before.length, by simp, by simp [hlength]⟩, h⟩

theorem PlacesOf.reverse {stack : List Nat} (h : PlacesOf all stack opens) :
    PlacesOf all stack.reverse opens.reverse := by
  unfold PlacesOf at h ⊢
  rw [List.map_reverse, List.map_reverse, h]

/-- The same groups are open: those at the places `opens` and `opens'` were opened at the same positions of two
lists. -/
def SameGroups (all all' : List Token) (opens opens' : List Span) : Prop :=
  ∃ stack, PlacesOf all stack opens ∧ PlacesOf all' stack opens'

namespace SameGroups

theorem length_eq (h : SameGroups all all' opens opens') : opens.length = opens'.length := by
  obtain ⟨stack, hplaces, hplaces'⟩ := h
  exact hplaces.length_eq.symm.trans hplaces'.length_eq

theorem push (h : SameGroups all all' opens opens') (htoken : token.Counterparts all all' other) :
    SameGroups all all' (token.span :: opens) (other.span :: opens') := by
  obtain ⟨stack, hplaces, hplaces'⟩ := h
  obtain ⟨i, hi, hi'⟩ := htoken.position
  exact ⟨i :: stack, hplaces.push hi, hplaces'.push hi'⟩

theorem pop {place : Span} (h : SameGroups all all' (place :: opens) opens') :
    ∃ place' next', opens' = place' :: next' ∧ SameGroups all all' opens next' := by
  obtain ⟨place', next', rfl⟩ := List.exists_cons_of_length_eq_add_one h.length_eq.symm
  obtain ⟨stack, hplaces, hplaces'⟩ := h
  obtain ⟨position, stack, rfl⟩ := List.exists_cons_of_length_eq_add_one hplaces.length_eq
  exact ⟨place', next', rfl, stack, (List.cons.inj hplaces).2, (List.cons.inj hplaces').2⟩

theorem sameBlame_unclosed (h : SameGroups all all' opens opens') :
    SyntaxError.SameBlame all all' (.unclosed opens.reverse opens.length) (.unclosed opens'.reverse opens'.length) := by
  rw [h.length_eq]
  obtain ⟨stack, hplaces, hplaces'⟩ := h
  exact .unclosed hplaces.reverse hplaces'.reverse _

end SameGroups

/-- Inside the same groups a token and its counterpart have the same meaning. -/
theorem resolve?_counterpart (scope : Scope) (hgroups : SameGroups all all' opens opens')
    (htoken : token.SameInLowerCase other) :
    scope.resolve? opens'.length other.normalized = scope.resolve? opens.length token.normalized := by
  rw [hgroups.length_eq, htoken.normalized_eq]

/-- Where a token is ranked, its counterpart is, and the same groups are open behind them. -/
theorem Step.exists_counterpart {t : RankedToken} {next : List Span} (h : Step scope opens token t next)
    (hgroups : SameGroups all all' opens opens') (htoken : token.Counterparts all all' other) :
    ∃ t' next', Step scope opens' other t' next' ∧ Counterparts all all' t t' ∧ SameGroups all all' next next' := by
  have hkind_eq := htoken.same.kind_eq
  cases h with
  | openParen hkind => exact ⟨_, _, .openParen (hkind_eq ▸ hkind), ⟨htoken, rfl, rfl⟩, hgroups.push htoken⟩
  | closeParen hkind =>
    obtain ⟨place', next', rfl, hnext⟩ := hgroups.pop
    exact ⟨_, _, .closeParen (hkind_eq ▸ hkind), ⟨htoken, rfl, rfl⟩, hnext⟩
  | inner hinner hresolve =>
    have hresolve' := (resolve?_counterpart scope hgroups htoken.same).trans hresolve
    exact ⟨_, _, .inner (htoken.same.inner hinner) hresolve', ⟨htoken, rfl, rfl⟩, hgroups⟩

/-- Where a token is blamed, so is its counterpart. -/
theorem Stop.exists_counterpart {e : SyntaxError} (h : Stop scope opens token e)
    (hgroups : SameGroups all all' opens opens') (htoken : token.Counterparts all all' other) :
    ∃ e', Stop scope opens' other e' ∧ SyntaxError.SameBlame all all' e e' := by
  cases h with
  | extraClose hkind =>
    obtain rfl := List.length_eq_zero_iff.1 hgroups.length_eq.symm
    exact ⟨_, .extraClose (htoken.same.kind_eq ▸ hkind), .extraClose htoken⟩
  | unknown hinner hresolve =>
    have hresolve' := (resolve?_counterpart scope hgroups htoken.same).trans hresolve
    have hblame := SyntaxError.SameBlame.unknown htoken (scope.suggestions token.normalized)
    refine ⟨_, .unknown (htoken.same.inner hinner) hresolve', ?_⟩
    rwa [← htoken.same.normalized_eq] at hblame ⊢

/-- Ranking reads nothing of a token but its kind and its lower case. The induction is on the tokens that are left. -/
theorem rankAfter_corresponds (scope : Scope)
    (hgroups : SameGroups (before ++ tokens) (before' ++ others) opens opens')
    (hlength : before.length = before'.length) (h : List.Forall₂ Token.SameInLowerCase tokens others) :
    Corresponds (SyntaxError.SameBlame (before ++ tokens) (before' ++ others))
      (List.Forall₂ (Counterparts (before ++ tokens) (before' ++ others)))
      (rankAfter scope opens tokens) (rankAfter scope opens' others) := by
  induction h generalizing before before' opens opens' with
  | nil =>
    cases opens with
    | nil =>
      obtain rfl := List.length_eq_zero_iff.1 hgroups.length_eq.symm
      exact .ok .nil
    | cons place opens =>
      obtain ⟨place', next', rfl, -⟩ := hgroups.pop
      exact .error hgroups.sameBlame_unclosed
  | @cons token other tokens others hsame h ih =>
    have hhead := counterparts_head hlength hsame tokens others
    rcases step_or_stop scope opens token with ⟨t, next, hstep⟩ | ⟨e, hstop⟩
    · obtain ⟨t', next', hstep', ht, hnext⟩ := hstep.exists_counterpart hgroups hhead
      rw [hstep.rankAfter_eq, hstep'.rankAfter_eq]
      rw [List.append_cons before, List.append_cons before'] at ht hnext ⊢
      exact (ih hnext (by simp [hlength])).bind fun rest rest' hrest => .ok (.cons ht hrest)
    · obtain ⟨e', hstop', he⟩ := hstop.exists_counterpart hgroups hhead
      rw [hstop.rankAfter_eq, hstop'.rankAfter_eq]
      exact .error he

end RankedToken

/-! ## Trees -/

namespace Stretch

open RankedToken (Counterparts)

variable {all all' : List Token} {tokens others : Stretch} {t t' : RankedToken}

theorem isOpen_eq (h : Counterparts all all' t t') : t.isOpen = t'.isOpen := by
  rw [RankedToken.isOpen, RankedToken.isOpen, h.role_eq]

theorem isClose_eq (h : Counterparts all all' t t') : t.isClose = t'.isClose := by
  rw [RankedToken.isClose, RankedToken.isClose, h.role_eq]

theorem forall₂_dropWhile {p : RankedToken → Bool} (hp : ∀ t t', Counterparts all all' t t' → p t = p t')
    (h : List.Forall₂ (Counterparts all all') tokens others) :
    List.Forall₂ (Counterparts all all') (tokens.dropWhile p) (others.dropWhile p) := by
  induction h with
  | nil => exact .nil
  | @cons t t' tokens others htoken h ih =>
    rw [List.dropWhile_cons, List.dropWhile_cons, ← hp t t' htoken]
    split
    · exact ih
    · exact .cons htoken h

theorem forall₂_stripParens (h : List.Forall₂ (Counterparts all all') tokens others) :
    List.Forall₂ (Counterparts all all') (stripParens tokens) (stripParens others) := by
  unfold stripParens
  refine List.forall₂_reverse_iff.2 (forall₂_dropWhile (fun _ _ => isClose_eq) ?_)
  exact List.forall₂_reverse_iff.2 (forall₂_dropWhile (fun _ _ => isOpen_eq) h)

/-- Stretches whose tokens correspond are split at the same position. -/
theorem forall₂_splitAtRoot? (h : List.Forall₂ (Counterparts all all') tokens others) {before after : Stretch}
    {root : RankedToken} (hsplit : splitAtRoot? tokens = some (before, root, after)) :
    ∃ before' root' after', splitAtRoot? others = some (before', root', after') ∧
      List.Forall₂ (Counterparts all all') before before' ∧ Counterparts all all' root root' ∧
      List.Forall₂ (Counterparts all all') after after' := by
  induction h generalizing before root after with
  | nil => cases hsplit
  | @cons t t' tokens others htoken h ih =>
    rw [splitAtRoot?] at hsplit
    cases hrest : splitAtRoot? tokens with
    | none =>
      obtain rfl := splitAtRoot?_eq_none.1 hrest
      cases h
      cases hsplit
      exact ⟨[], t', [], rfl, .nil, htoken, .nil⟩
    | some found =>
      obtain ⟨b, r, a⟩ := found
      obtain ⟨b', r', a', hrest', hb, hr, ha⟩ := ih hrest
      simp only [hrest] at hsplit
      simp only [splitAtRoot?, hrest', ← hr.rank_eq, ← htoken.rank_eq]
      split at hsplit
      next hle =>
        cases hsplit
        rw [if_pos hle]
        exact ⟨_, _, _, rfl, .cons htoken hb, hr, ha⟩
      next hle =>
        cases hsplit
        rw [if_neg hle]
        exact ⟨_, _, _, rfl, .nil, htoken, h⟩

theorem sameBlame_arityError (h : Counterparts all all' t t') (expected : Arity) :
    SyntaxError.SameBlame all all' (t.arityError expected) (t'.arityError expected) :=
  .arity h.token expected

theorem join_corresponds (h : Counterparts all all' t t') (left right : Option Expression) :
    Corresponds (SyntaxError.SameBlame all all') Eq (join t left right) (join t' left right) := by
  have hblame := sameBlame_arityError h
  unfold join
  rw [← h.role_eq]
  split
  · exact .ok rfl
  · exact .error (hblame .binary)
  · exact .ok rfl
  · exact .error (hblame .unary)
  · exact .ok rfl
  · exact .error (hblame .leaf)
  · exact .error (hblame .group)
  · exact .error (hblame .group)

/-- The tree of a stretch comes from the ranks and roles of its tokens. The induction is on the length of the
stretch. -/
theorem tree?_corresponds (h : List.Forall₂ (Counterparts all all') tokens others) :
    Corresponds (SyntaxError.SameBlame all all') Eq (tree? tokens) (tree? others) := by
  induction hlen : tokens.length using Nat.strongRecOn generalizing tokens others with
  | ind n ih =>
    have hstrip := forall₂_stripParens h
    cases hsplit : splitAtRoot? (stripParens tokens) with
    | none =>
      have hnil := splitAtRoot?_eq_none.1 hsplit
      have hnil' : stripParens others = [] := by
        rw [hnil] at hstrip
        exact List.forall₂_nil_left_iff.1 hstrip
      cases h with
      | nil =>
        rw [tree?_nil]
        exact .ok rfl
      | cons htoken h =>
        rw [tree?_of_stripParens_eq_nil (List.cons_ne_nil _ _) hnil,
          tree?_of_stripParens_eq_nil (List.cons_ne_nil _ _) hnil']
        exact .ok rfl
    | some found =>
      obtain ⟨before, root, after⟩ := found
      obtain ⟨before', root', after', hsplit', hbefore, hroot, hafter⟩ := forall₂_splitAtRoot? hstrip hsplit
      have hshort := length_lt_of_splitAtRoot? hsplit
      rw [hlen] at hshort
      rw [tree?_of_splitAtRoot? hsplit, tree?_of_splitAtRoot? hsplit', ← isOpen_eq hroot, ← isClose_eq hroot]
      split
      · exact .error (sameBlame_arityError hroot .group)
      · refine (ih _ hshort.1 hbefore rfl).bind fun left _ hleft => ?_
        subst hleft
        refine (ih _ hshort.2 hafter rfl).bind fun right _ hright => ?_
        subst hright
        exact (join_corresponds hroot left right).map fun _ _ => congrArg some

end Stretch

/-! ## Main result -/

namespace Expression

theorem ofRanked_corresponds {all all' : List Token} {ranked others : List RankedToken}
    (h : List.Forall₂ (RankedToken.Counterparts all all') ranked others) :
    Corresponds (SyntaxError.SameBlame all all') Eq (ofRanked ranked) (ofRanked others) :=
  (Stretch.tree?_corresponds h).map fun _ _ => congrArg fun t : Option Expression => t.getD .zero

/-- The names that may be used are known up to letter case. -/
theorem ofVariables_congr {names names' : List String}
    (h : ∀ name, name ∈ names.map Text.lowercase ↔ name ∈ names'.map Text.lowercase) :
    Scope.ofVariables names = Scope.ofVariables names' := by
  refine NameMap.eq_of_get?_eq fun name => ?_
  rw [Scope.get?_ofVariables, Scope.get?_ofVariables]
  exact if_congr (h name) rfl rfl

/-- Sources whose tokens differ in letter case at most, with names that differ in letter case at most, have the same
tree, or they are refused for the same tokens and the same reason. -/
theorem compile_ignores_case {source other : String} {tokens others : List Token} {names names' : List String}
    (hsource : tokenize source = .ok tokens) (hother : tokenize other = .ok others)
    (htokens : List.Forall₂ Token.SameInLowerCase tokens others)
    (hnames : ∀ name, name ∈ names.map Text.lowercase ↔ name ∈ names'.map Text.lowercase) :
    Corresponds (SyntaxError.SameBlame tokens others) Eq (compile source names) (compile other names') := by
  have hcompile {source : String} {tokens : List Token} (h : tokenize source = .ok tokens) (names : List String) :
      compile source names = (RankedToken.ofTokens (.ofVariables names) tokens >>= ofRanked) := by
    rw [compile, compileIn, h]
    rfl
  have hgroups : RankedToken.SameGroups ([] ++ tokens) ([] ++ others) [] [] := ⟨[], rfl, rfl⟩
  rw [hcompile hsource, hcompile hother, ofVariables_congr hnames]
  refine Corresponds.bind ?_ fun ranked ranked' => ofRanked_corresponds
  exact RankedToken.rankAfter_corresponds _ hgroups rfl htokens

/-- Both sources have the name `y` where there may only be an operator, at the fifth position. -/
theorem compile_ignores_case_sinXY :
    ∃ tokens others, tokenize "2*Sin X y" = .ok tokens ∧ tokenize "2 *\tSIN x  Y" = .ok others ∧
      List.Forall₂ Token.SameInLowerCase tokens others ∧
      Corresponds (SyntaxError.SameBlame tokens others) Eq (compile "2*Sin X y" ["x", "Y"])
        (compile "2 *\tSIN x  Y" ["y", "X", "x"]) ∧
      compile "2*Sin X y" ["x", "Y"] = .error (.arity ⟨8, 9⟩ "y" .leaf) ∧
      compile "2 *\tSIN x  Y" ["y", "X", "x"] = .error (.arity ⟨11, 12⟩ "Y" .leaf) := by
  have hsource : tokenize "2*Sin X y" = .ok (Token.scan 0 "2*Sin X y".toList) := by decide +kernel
  have hother : tokenize "2 *\tSIN x  Y" = .ok (Token.scan 0 "2 *\tSIN x  Y".toList) := by decide +kernel
  have htokens : List.Forall₂ Token.SameInLowerCase (Token.scan 0 "2*Sin X y".toList)
      (Token.scan 0 "2 *\tSIN x  Y".toList) :=
    Token.sameInLowerCase_of_ascii (by decide +kernel) (by decide +kernel) (by decide +kernel)
  have hlower : ["x", "Y"].map Text.lowercase = ["x", "y"] := by decide +kernel
  have hlower' : ["y", "X", "x"].map Text.lowercase = ["y", "x", "x"] := by decide +kernel
  have hnames (name : String) :
      name ∈ ["x", "Y"].map Text.lowercase ↔ name ∈ ["y", "X", "x"].map Text.lowercase := by
    rw [hlower, hlower']
    simp [or_comm]
  exact ⟨_, _, hsource, hother, htokens, compile_ignores_case hsource hother htokens hnames, by decide +kernel,
    by decide +kernel⟩

end Expression

end SymbolicCalc
