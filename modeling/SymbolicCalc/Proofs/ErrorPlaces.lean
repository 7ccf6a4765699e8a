import SymbolicCalc.Diagnostic
import SymbolicCalc.Expression
import SymbolicCalc.Proofs.Variables

/-!
# Errors point at what they talk about

The places of an error come from the tokens of the source text, and every token knows where its text stands. So
whatever a source text is refused for, each place that is pointed at is a part of the text between two of its
characters, and the text at that place is the one that the error is about: the parenthesis without a partner, the
unknown word, or the token with the wrong operands. Only a text without characters has nothing to point at.
-/

namespace SymbolicCalc

/-! ## Parts of a text -/

theorem byteLength_append (cs others : List Char) :
    byteLength (cs ++ others) = byteLength cs + byteLength others := by
  simp [byteLength]

theorem byteLength_cons (c : Char) (cs : List Char) : byteLength (c :: cs) = c.utf8Size + byteLength cs := by
  simp [byteLength]

theorem byteLength_concat (cs : List Char) (c : Char) :
    byteLength (cs ++ [c]) = byteLength cs + c.utf8Size := by
  rw [byteLength_append, byteLength_cons]
  rfl

theorem byteLength_pos {cs : List Char} (h : cs ≠ []) : 0 < byteLength cs := by
  obtain ⟨c, cs, rfl⟩ := List.exists_cons_of_ne_nil h
  have hc := c.utf8Size_pos
  rw [byteLength_cons]
  omega

namespace Span

/-- The span is a place of the text at which `piece` stands. -/
def Covers (span : Span) (text piece : List Char) : Prop :=
  ∃ before after, text = before ++ piece ++ after ∧
    span = ⟨byteLength before, byteLength before + byteLength piece⟩

/-- The first span has characters, and the second one starts behind them. -/
def Before (a b : Span) : Prop :=
  a.start < a.stop ∧ a.stop ≤ b.start

theorem Covers.start_lt_stop {span : Span} {text piece : List Char} (h : span.Covers text piece)
    (hne : piece ≠ []) : span.start < span.stop := by
  obtain ⟨before, after, -, rfl⟩ := h
  exact Nat.lt_add_of_pos_right (byteLength_pos hne)

theorem covers_all (text : List Char) : Covers ⟨0, byteLength text⟩ text text :=
  ⟨[], [], by simp, by simp [byteLength]⟩

end Span

/-! ## Where tokens stand -/

namespace Token

/-- The token is a part of the text, at its span; a token that is a parenthesis is written as one. -/
structure StandsIn (text : List Char) (token : Token) : Prop where
  covers : token.span.Covers text token.lexeme.toList
  nonempty : token.lexeme ≠ ""
  openLexeme : token.kind = .openParen → token.lexeme = "("
  closeLexeme : token.kind = .closeParen → token.lexeme = ")"

/-- Every token of a text has its text at its span. The scan of the rest of the text starts at the length of what
was read. -/
theorem covers_of_scan {offset : Nat} {cs : List Char} {token : Token} (h : token ∈ scan offset cs) :
    ∀ before, offset = byteLength before → token.span.Covers (before ++ cs) token.lexeme.toList := by
  fun_induction scan offset cs with
  | case1 => cases h
  | case2 offset c cs hsep ih =>
    intro before hoffset
    rw [List.append_cons]
    exact ih h (before ++ [c]) (by rw [byteLength_concat, hoffset])
  | case3 offset c cs hsep kind hsymbol ih =>
    intro before hoffset
    rcases List.mem_cons.1 h with rfl | h
    · refine ⟨before, cs, ?_, ?_⟩
      · simp
      · simp [hoffset, byteLength]
    · rw [List.append_cons]
      exact ih h (before ++ [c]) (by rw [byteLength_concat, hoffset])
  | case4 offset c cs hsep hsymbol word stop ih =>
    intro before hoffset
    have hsplit : before ++ c :: cs = before ++ word ++ cs.dropWhile isWordChar := by
      simp [word]
    rcases List.mem_cons.1 h with rfl | h
    · refine ⟨before, cs.dropWhile isWordChar, ?_, ?_⟩
      · rw [String.toList_ofList]
        exact hsplit
      · rw [String.toList_ofList, ← hoffset]
    · rw [hsplit]
      exact ih h (before ++ word) (by rw [byteLength_append, ← hoffset])

/-- Every token of a text stands in it, and its text is that of its kind. -/
theorem standsIn_of_scan {cs : List Char} {token : Token} (h : token ∈ scan 0 cs) : token.StandsIn cs := by
  have hcovers : token.span.Covers cs token.lexeme.toList := covers_of_scan h [] rfl
  rcases symbol_or_word_of_scan h with ⟨c, hsymbol, hlexeme⟩ | ⟨hkind, hne, -⟩
  · have hne : token.lexeme ≠ "" := by simp [hlexeme]
    rcases symbolKind?_cases hsymbol with ⟨rfl, hkind⟩ | ⟨rfl, hkind⟩ | ⟨op, -, hkind⟩
    · exact ⟨hcovers, hne, fun _ => hlexeme, by simp [hkind]⟩
    · exact ⟨hcovers, hne, by simp [hkind], fun _ => hlexeme⟩
    · exact ⟨hcovers, hne, by simp [hkind], by simp [hkind]⟩
  · exact ⟨hcovers, hne, by simp [hkind], by simp [hkind]⟩

/-- Tokens stand one behind the other. -/
theorem pairwise_before_scan (offset : Nat) (cs : List Char) :
    (∀ token ∈ scan offset cs, offset ≤ token.span.start) ∧
      (scan offset cs).Pairwise fun a b => a.span.Before b.span := by
  fun_induction scan offset cs with
  | case1 => exact ⟨fun token h => absurd h List.not_mem_nil, .nil⟩
  | case2 offset c cs hsep ih => exact ⟨fun token h => Nat.le_trans (Nat.le_add_right _ _) (ih.1 token h), ih.2⟩
  | case3 offset c cs hsep kind hsymbol ih =>
    have hc := c.utf8Size_pos
    refine ⟨List.forall_mem_cons.2 ⟨Nat.le_refl offset, fun token h => ?_⟩,
      List.pairwise_cons.2 ⟨fun token h => ?_, ih.2⟩⟩
    · exact Nat.le_trans (Nat.le_add_right _ _) (ih.1 token h)
    · exact ⟨Nat.lt_add_of_pos_right hc, ih.1 token h⟩
  | case4 offset c cs hsep hsymbol word stop ih =>
    have hword : 0 < byteLength word := byteLength_pos (List.cons_ne_nil c _)
    refine ⟨List.forall_mem_cons.2 ⟨Nat.le_refl offset, fun token h => ?_⟩,
      List.pairwise_cons.2 ⟨fun token h => ?_, ih.2⟩⟩
    · exact Nat.le_trans (Nat.le_add_right _ _) (ih.1 token h)
    · exact ⟨Nat.lt_add_of_pos_right hword, ih.1 token h⟩

end Token

/-! ## Errors of ranking -/

namespace RankedToken

variable {scope : Scope} {opens : List Span} {tokens : List Token}

/-- The places of the opening parentheses among some tokens. -/
def openPlaces (tokens : List Token) : List Span :=
  (tokens.filter Token.isOpenParen).map (·.span)

theorem openPlaces_cons (token : Token) (tokens : List Token) :
    openPlaces (token :: tokens) =
      if token.kind = .openParen then token.span :: openPlaces tokens else openPlaces tokens := by
  by_cases h : token.kind = .openParen <;> simp [openPlaces, Token.isOpenParen, h]

/-- What stops the ranking of tokens that follow the opening parentheses at the places `opens`: a closing
parenthesis, another token, or some of the opening parentheses in the order in which they stand. -/
inductive Refusal (scope : Scope) (opens : List Span) (tokens : List Token) : SyntaxError → Prop
  | extraClose {token : Token} (hmem : token ∈ tokens) (hkind : token.kind = .closeParen) :
      Refusal scope opens tokens (.extraClose token.span)
  | unknown {token : Token} (hmem : token ∈ tokens) :
      Refusal scope opens tokens
        (.unknown token.span token.normalized (scope.suggestions token.normalized))
  | unclosed {places : List Span} (hne : places ≠ [])
      (hplaces : places.Sublist (opens.reverse ++ openPlaces tokens)) :
      Refusal scope opens tokens (.unclosed places places.length)

theorem Refusal.cons {opens' : List Span} {token : Token} {e : SyntaxError} (h : Refusal scope opens' tokens e)
    (hopens : (opens'.reverse ++ openPlaces tokens).Sublist (opens.reverse ++ openPlaces (token :: tokens))) :
    Refusal scope opens (token :: tokens) e := by
  cases h with
  | extraClose hmem hkind => exact .extraClose (List.mem_cons_of_mem token hmem) hkind
  | unknown hmem => exact .unknown (List.mem_cons_of_mem token hmem)
  | unclosed hne hplaces => exact .unclosed hne (hplaces.trans hopens)

theorem refusal_of_rankAfter {e : SyntaxError} (h : rankAfter scope opens tokens = .error e) :
    Refusal scope opens tokens e := by
  induction tokens generalizing opens with
  | nil =>
    obtain ⟨hopens, rfl⟩ := rankAfter_nil_eq_error h
    rw [← List.length_reverse]
    exact .unclosed (by simpa using hopens) (by simp)
  | cons token tokens ih =>
    have hsame (hkind : token.kind ≠ .openParen) : openPlaces (token :: tokens) = openPlaces tokens := by
      rw [openPlaces_cons, if_neg hkind]
    rcases rankAfter_cons_eq_error h with ⟨t, opens', hstep, hrest⟩ | hstop
    · refine (ih hrest).cons ?_
      cases hstep with
      | openParen hkind =>
        rw [openPlaces_cons, if_pos hkind, List.reverse_cons, List.append_assoc]
        exact List.Sublist.refl _
      | closeParen hkind =>
        rw [hsame (by simp [hkind]), List.reverse_cons]
        exact (List.sublist_append_left _ _).append_right _
      | inner hinner _ => rw [hsame hinner.not_open]
    · cases hstop with
      | extraClose hkind => exact .extraClose List.mem_cons_self hkind
      | unknown _ _ => exact .unknown List.mem_cons_self

theorem map_token_of_rankAfter {ranked : List RankedToken} (h : rankAfter scope opens tokens = .ok ranked) :
    ranked.map (·.token) = tokens := by
  induction tokens generalizing opens ranked with
  | nil =>
    obtain ⟨-, rfl⟩ := rankAfter_nil_eq_ok h
    rfl
  | cons token tokens ih =>
    obtain ⟨t, opens', rest, rfl, hstep, hrest⟩ := rankAfter_cons_eq_ok h
    rw [List.map_cons, hstep.token_eq, ih hrest]

end RankedToken

/-! ## Errors of the tree -/

namespace Stretch

/-- When a root cannot join its sides. -/
theorem join_eq_error_cases {root : RankedToken} {left right : Option Expression} {e : SyntaxError}
    (h : join root left right = .error e) :
    (∃ op, root.role = .operator op ∧ right = none ∧ e = root.arityError .binary) ∨
      (∃ f, root.role = .call f ∧ ((∃ l, left = some l) ∨ right = none) ∧ e = root.arityError .unary) ∨
      (∃ tree, root.role = .leaf tree ∧ ((∃ l, left = some l) ∨ ∃ r, right = some r) ∧
        e = root.arityError .leaf) ∨
      ((root.isOpen = true ∨ root.isClose = true) ∧ e = root.arityError .group) := by
  cases hrole : root.role with
  | openParen =>
    simp only [join, hrole, Except.error.injEq] at h
    exact .inr (.inr (.inr ⟨.inl (by simp [RankedToken.isOpen, hrole]), h.symm⟩))
  | closeParen =>
    simp only [join, hrole, Except.error.injEq] at h
    exact .inr (.inr (.inr ⟨.inr (by simp [RankedToken.isClose, hrole]), h.symm⟩))
  | operator op =>
    cases right with
    | none =>
      simp only [join, hrole, Except.error.injEq] at h
      exact .inl ⟨op, rfl, rfl, h.symm⟩
    | some r => simp [join, hrole] at h
  | call f =>
    refine .inr (.inl ⟨f, rfl, ?_⟩)
    cases left with
    | some l =>
      simp only [join, hrole, Except.error.injEq] at h
      exact ⟨.inl ⟨l, rfl⟩, h.symm⟩
    | none =>
      cases right with
      | none =>
        simp only [join, hrole, Except.error.injEq] at h
        exact ⟨.inr rfl, h.symm⟩
      | some r => simp [join, hrole] at h
  | leaf tree =>
    refine .inr (.inr (.inl ⟨tree, rfl, ?_⟩))
    cases left with
    | some l =>
      simp only [join, hrole, Except.error.injEq] at h
      exact ⟨.inl ⟨l, rfl⟩, h.symm⟩
    | none =>
      cases right with
      | some r =>
        simp only [join, hrole, Except.error.injEq] at h
        exact ⟨.inr ⟨r, rfl⟩, h.symm⟩
      | none => simp [join, hrole] at h

theorem exists_of_join_eq_error {root : RankedToken} {left right : Option Expression} {e : SyntaxError}
    (h : join root left right = .error e) : ∃ expected, e = root.arityError expected := by
  rcases join_eq_error_cases h with ⟨-, -, -, rfl⟩ | ⟨-, -, -, rfl⟩ | ⟨-, -, -, rfl⟩ | ⟨-, rfl⟩
  · exact ⟨.binary, rfl⟩
  · exact ⟨.unary, rfl⟩
  · exact ⟨.leaf, rfl⟩
  · exact ⟨.group, rfl⟩

/-- A stretch without a tree is refused for the operands of one of its tokens. The induction is on the length of
the stretch. -/
theorem exists_of_tree?_eq_error {tokens : Stretch} {e : SyntaxError} (h : tree? tokens = .error e) :
    ∃ t ∈ tokens, ∃ expected, e = t.arityError expected := by
  induction hlen : tokens.length using Nat.strongRecOn generalizing tokens with
  | ind n ih =>
    cases hsplit : splitAtRoot? (stripParens tokens) with
    | none =>
      have hnil := splitAtRoot?_eq_none.1 hsplit
      by_cases hne : tokens = []
      · rw [hne, tree?_nil] at h
        cases h
      · rw [tree?_of_stripParens_eq_nil hne hnil] at h
        cases h
    | some found =>
      obtain ⟨before, root, after⟩ := found
      have hshort := length_lt_of_splitAtRoot? hsplit
      rw [hlen] at hshort
      have hmem : ∀ x ∈ before ++ root :: after, x ∈ tokens := by
        intro x hx
        rw [← eq_append_of_splitAtRoot? hsplit] at hx
        exact mem_of_mem_stripParens hx
      obtain ⟨hbefore, hrest⟩ := List.forall_mem_append.1 hmem
      obtain ⟨hroot, hafter⟩ := List.forall_mem_cons.1 hrest
      rw [tree?_of_splitAtRoot? hsplit] at h
      split at h
      · cases h
        exact ⟨root, hroot, .group, rfl⟩
      · rcases bind_eq_error.1 h with h | ⟨left, -, h⟩
        · obtain ⟨t, ht, hexpected⟩ := ih _ hshort.1 h rfl
          exact ⟨t, hbefore t ht, hexpected⟩
        · rcases bind_eq_error.1 h with h | ⟨right, -, h⟩
          · obtain ⟨t, ht, hexpected⟩ := ih _ hshort.2 h rfl
            exact ⟨t, hafter t ht, hexpected⟩
          · exact ⟨root, hroot, exists_of_join_eq_error (map_eq_error.1 h)⟩

end Stretch

/-! ## Errors of a text -/

/-- The error points at what it is about in the text. -/
def SyntaxError.PointsInto (text : List Char) : SyntaxError → Prop
  | .empty whole => Text.allBlank text = true ∧ whole = ⟨0, byteLength text⟩
  | .extraClose place => place.Covers text [')']
  | .unclosed places count =>
    places ≠ [] ∧ count = places.length ∧ (∀ place ∈ places, place.Covers text ['(']) ∧
      places.Pairwise Span.Before
  | .unknown place word _ => ∃ lexeme : String, lexeme ≠ "" ∧ place.Covers text lexeme.toList ∧
    Text.lowercase lexeme = word
  | .arity place lexeme _ => lexeme ≠ "" ∧ place.Covers text lexeme.toList

namespace Expression

variable {source : String} {names : List String} {e : SyntaxError}

theorem pointsInto_of_tokenize (h : tokenize source = .error e) : e.PointsInto source.toList := by
  obtain ⟨hblank, rfl⟩ := tokenize_eq_error_iff.1 h
  exact ⟨hblank, rfl⟩

/-- Every token of a text stands in it, and they stand one behind the other. -/
theorem standsIn_of_tokenize {tokens : List Token} (h : tokenize source = .ok tokens) :
    (∀ token ∈ tokens, token.StandsIn source.toList) ∧ tokens.Pairwise fun a b => a.span.Before b.span := by
  obtain ⟨-, rfl⟩ := tokenize_eq_ok_iff.1 h
  exact ⟨fun token hmem => Token.standsIn_of_scan hmem, (Token.pairwise_before_scan 0 _).2⟩

theorem pointsInto_of_ofTokens {scope : Scope} {tokens : List Token} (htokens : tokenize source = .ok tokens)
    (h : RankedToken.ofTokens scope tokens = .error e) : e.PointsInto source.toList := by
  obtain ⟨hstands, hbefore⟩ := standsIn_of_tokenize htokens
  cases RankedToken.refusal_of_rankAfter h with
  | @extraClose token hmem hkind =>
    have hcovers := (hstands token hmem).covers
    rw [(hstands token hmem).closeLexeme hkind] at hcovers
    exact hcovers
  | @unknown token hmem => exact ⟨token.lexeme, (hstands token hmem).nonempty, (hstands token hmem).covers, rfl⟩
  | @unclosed places hne hplaces =>
    rw [List.reverse_nil, List.nil_append] at hplaces
    refine ⟨hne, rfl, fun place hplace => ?_, ?_⟩
    · obtain ⟨token, htoken, rfl⟩ := List.mem_map.1 (hplaces.subset hplace)
      obtain ⟨hmem, hopen⟩ := List.mem_filter.1 htoken
      have hcovers := (hstands token hmem).covers
      rw [(hstands token hmem).openLexeme (of_decide_eq_true hopen)] at hcovers
      exact hcovers
    · exact (List.pairwise_map.2 (hbefore.filter _)).sublist hplaces

theorem pointsInto_of_ofRanked {scope : Scope} {tokens : List Token} {ranked : List RankedToken}
    (htokens : tokenize source = .ok tokens) (hranked : RankedToken.ofTokens scope tokens = .ok ranked)
    (h : ofRanked ranked = .error e) : e.PointsInto source.toList := by
  obtain ⟨t, ht, expected, rfl⟩ := Stretch.exists_of_tree?_eq_error (map_eq_error.1 h)
  have hmem : t.token ∈ tokens := by
    rw [← RankedToken.map_token_of_rankAfter hranked]
    exact List.mem_map_of_mem ht
  have hstands := (standsIn_of_tokenize htokens).1 t.token hmem
  exact ⟨hstands.nonempty, hstands.covers⟩

theorem pointsInto_of_compile (h : compile source names = .error e) : e.PointsInto source.toList := by
  rcases bind_eq_error.1 h with h | ⟨tokens, htokens, h⟩
  · exact pointsInto_of_tokenize h
  · rcases bind_eq_error.1 h with h | ⟨ranked, hranked, h⟩
    · exact pointsInto_of_ofTokens htokens h
    · exact pointsInto_of_ofRanked htokens hranked h

end Expression

/-- Each place of an error that points into a text is a part of the text, and it has characters unless the text has
none. -/
theorem SyntaxError.PointsInto.exists_covers {text : List Char} {e : SyntaxError} (h : e.PointsInto text) :
    ∀ span ∈ e.spans, (∃ piece, span.Covers text piece) ∧ (span.start < span.stop ∨ text = []) := by
  intro span hspan
  cases e with
  | empty whole =>
    obtain ⟨-, rfl⟩ := h
    obtain rfl := List.mem_singleton.1 hspan
    refine ⟨⟨text, Span.covers_all text⟩, ?_⟩
    by_cases hne : text = []
    · exact .inr hne
    · exact .inl (byteLength_pos hne)
  | extraClose place =>
    obtain rfl := List.mem_singleton.1 hspan
    exact ⟨⟨_, h⟩, .inl (Span.Covers.start_lt_stop h (List.cons_ne_nil _ _))⟩
  | unclosed places count =>
    have hcovers := h.2.2.1 span hspan
    exact ⟨⟨_, hcovers⟩, .inl (hcovers.start_lt_stop (List.cons_ne_nil _ _))⟩
  | unknown place word suggestions =>
    obtain rfl := List.mem_singleton.1 hspan
    obtain ⟨lexeme, hne, hcovers, -⟩ := h
    exact ⟨⟨_, hcovers⟩, .inl (hcovers.start_lt_stop (by simpa using hne))⟩
  | arity place lexeme expected =>
    obtain rfl := List.mem_singleton.1 hspan
    exact ⟨⟨_, h.2⟩, .inl (h.2.start_lt_stop (by simpa using h.1))⟩

/-- An error that points into a text has a label for each of its places. -/
theorem SyntaxError.PointsInto.length_labels {text : List Char} {e : SyntaxError} (h : e.PointsInto text) :
    e.labels.length = e.spans.length := by
  cases e with
  | unclosed places count =>
    obtain ⟨-, rfl, -⟩ := h
    exact List.length_replicate
  | empty _ => rfl
  | extraClose _ => rfl
  | unknown _ _ _ => rfl
  | arity _ _ _ => rfl

/-- A text that is refused is pointed at where it is wrong: every place lies in the text between two of its
characters, has characters unless the text has none, and has a label; and the text there is what the error is
about. -/
theorem Expression.compile_error_points {source : String} {names : List String} {e : SyntaxError}
    (h : compile source names = .error e) :
    (∀ span ∈ e.spans, (∃ piece, span.Covers source.toList piece) ∧ (span.start < span.stop ∨ source = "")) ∧
      e.labels.length = e.spans.length ∧ e.PointsInto source.toList := by
  have hpoints := pointsInto_of_compile h
  refine ⟨fun span hspan => ?_, hpoints.length_labels, hpoints⟩
  obtain ⟨hpiece, hne⟩ := hpoints.exists_covers span hspan
  exact ⟨hpiece, hne.imp_right String.toList_eq_nil_iff.1⟩

/-- A letter of two bytes stands before the parentheses that are never closed. -/
theorem Expression.compile_error_points_unclosed :
    compile "é*((1+2" ["é"] = .error (.unclosed [⟨3, 4⟩, ⟨4, 5⟩] 2) ∧
      SyntaxError.PointsInto "é*((1+2".toList (.unclosed [⟨3, 4⟩, ⟨4, 5⟩] 2) := by
  have herror : compile "é*((1+2" ["é"] = .error (.unclosed [⟨3, 4⟩, ⟨4, 5⟩] 2) := by decide +kernel
  exact ⟨herror, (compile_error_points herror).2.2⟩

end SymbolicCalc
