import SymbolicCalc.Proofs.TokenCoverage

/-!
# Suggested names can be used

A word without a meaning is reported with the known names that are spelled like it. Writing one of these in place of
the word helps: the name has a meaning, and if another word of the text is refused, it stands behind the name. The
exception is a declared name that starts like a number. No word means such a name, for words that start like a number
are read as numbers; so it helps only if it happens to be a number. This is also the only way in which a word can be
suggested for itself.
-/

namespace SymbolicCalc

open Token (scan isWordChar InWord Apart)

/-- The name is a spelling of a function, or is in scope. -/
def Scope.Known (scope : Scope) (name : String) : Prop :=
  name ∈ Elementary.spellings.map (·.1) ∨ (scope.get? name).isSome = true

/-- The name starts like a number, but is none. -/
def Scope.FalseNumber (name : String) : Prop :=
  ∃ c cs, name.toList = c :: cs ∧ startsNumber c = true ∧ (Number.read (c :: cs)).toOption = none

/-! ## The suggested names -/

theorem NameSet.get?_ofNames_isSome (names : List String) (name : String) :
    ((NameSet.ofNames names).get? name).isSome = true ↔ name ∈ names := by
  have hfold (names : List String) (set : NameSet) :
      ((names.foldl add set).get? name).isSome = true ↔ name ∈ names ∨ (set.get? name).isSome = true := by
    induction names generalizing set with
    | nil => simp
    | cons other names ih =>
      rw [List.foldl_cons, ih, add, NameMap.get?_insert, List.mem_cons]
      by_cases hother : name = other
      · simp [hother]
      · simp [hother]
  exact (hfold names .empty).trans (by simp)

namespace Scope

variable {scope : Scope} {names : List String} {name word : String} {depth : Nat}

/-- The suggestions are the known names that are at most one edit away. -/
theorem mem_suggestions :
    name ∈ scope.suggestions word ↔ scope.Known name ∧ Text.withinOneEdit name.toList word.toList = true := by
  rw [suggestions, Known, ← NameMap.get?_isSome_iff, NameSet.get?_ofNames_isSome, List.mem_filter, List.mem_append,
    NameMap.get?_isSome_iff]

theorem suggestions_increase : (scope.suggestions word).Pairwise (· < ·) :=
  NameMap.names_increase _

theorem exists_of_mem_spellings (h : name ∈ Elementary.spellings.map (·.1)) :
    ∃ f, Elementary.ofSpelling? name = some f := by
  cases hname : Elementary.ofSpelling? name with
  | some f => exact ⟨f, rfl⟩
  | none =>
    obtain ⟨entry, hentry, rfl⟩ := List.mem_map.1 h
    have hne := List.lookup_eq_none_iff.1 hname entry hentry
    simp at hne

/-- Names are known in lower case. -/
theorem Known.lowercase (h : (ofVariables names).Known name) : Text.lowercase name = name := by
  rcases h with h | h
  · have hall : ∀ other ∈ Elementary.spellings.map (·.1), Text.lowercase other = other := by decide +kernel
    exact hall name h
  · rw [get?_ofVariables] at h
    split at h
    next hdeclared =>
      obtain ⟨other, -, rfl⟩ := List.mem_map.1 hdeclared
      exact Text.lowercase_lowercase other
    · have hall : ∀ other ∈ builtin.names, Text.lowercase other = other := by decide +kernel
      exact hall name ((NameMap.get?_isSome_iff _ _).1 h)

/-! ## Words with a meaning -/

theorem resolve?_eq_none_iff :
    scope.resolve? depth word = none ↔
      Operator.ofText? word = none ∧ Elementary.ofSpelling? word = none ∧ scope.meaning? word = none := by
  unfold resolve?
  split
  next op hop => simp [hop]
  next hop =>
    split
    next f hname => simp [hname]
    next hname =>
      split
      next value hmeaning => simp [hmeaning]
      next hmeaning => simp [hmeaning]
      next hmeaning => simp [hop, hname, hmeaning]

/-- Only the symbol of an operator is resolved to an operator. -/
theorem ne_operator_of_resolve? {rank : Rank} {role : Role} (h : scope.resolve? depth word = some (rank, role))
    (hsymbol : ∀ op : Operator, word ≠ String.singleton op.symbol) (op : Operator) : role ≠ .operator op := by
  rintro rfl
  rw [resolve?, Operator.ofText?_eq_none_iff.2 hsymbol] at h
  split at h
  next op' hop => cases hop
  · split at h
    · cases h
    · split at h
      · cases h
      · cases h
      · cases h

theorem FalseNumber.meaning?_eq_none (h : FalseNumber name) (scope : Scope) : scope.meaning? name = none := by
  obtain ⟨c, cs, hname, hc, hread⟩ := h
  rw [meaning?_of_startsNumber hname hc, hread]
  rfl

/-- A word without a meaning that is in scope nevertheless starts like a number. -/
theorem falseNumber_of_meaning? (hscope : (scope.get? word).isSome = true) (hne : word ≠ "")
    (h : scope.meaning? word = none) : FalseNumber word := by
  obtain ⟨c, cs, hword⟩ := List.exists_cons_of_ne_nil (mt String.toList_eq_nil_iff.1 hne)
  refine ⟨c, cs, hword, ?_⟩
  cases hc : startsNumber c with
  | true =>
    rw [meaning?_of_startsNumber hword hc, Option.map_eq_none_iff] at h
    exact ⟨rfl, h⟩
  | false =>
    rw [meaning?_of_not_startsNumber hword hc] at h
    rw [h] at hscope
    cases hscope

theorem FalseNumber.ofText?_eq_none (h : FalseNumber name) : Operator.ofText? name = none := by
  obtain ⟨c, cs, hname, hc, -⟩ := h
  rw [Operator.ofText?_eq_none_iff]
  rintro op rfl
  rw [String.toList_singleton] at hname
  cases hname
  have hsymbol : startsNumber op.symbol = false := by cases op <;> decide
  rw [hsymbol] at hc
  cases hc

/-- A known name means nothing exactly if it is a false number. -/
theorem Known.resolve?_eq_none_iff (hknown : scope.Known name) (hne : name ≠ "") :
    scope.resolve? depth name = none ↔ FalseNumber name := by
  rw [Scope.resolve?_eq_none_iff]
  constructor
  · rintro ⟨-, hspelling, hmeaning⟩
    rcases hknown with hknown | hknown
    · obtain ⟨f, hf⟩ := exists_of_mem_spellings hknown
      rw [hf] at hspelling
      cases hspelling
    · exact falseNumber_of_meaning? hknown hne hmeaning
  · intro h
    refine ⟨h.ofText?_eq_none, ?_, h.meaning?_eq_none scope⟩
    obtain ⟨c, cs, hname, hc, -⟩ := h
    rw [← String.ofList_toList (s := name), hname]
    exact Elementary.ofSpelling?_of_startsNumber hc

/-- A word without a meaning is suggested for itself only if it is a false number. -/
theorem falseNumber_of_mem_suggestions (hne : word ≠ "") (h : scope.resolve? depth word = none)
    (hmem : word ∈ scope.suggestions word) : FalseNumber word :=
  ((mem_suggestions.1 hmem).1.resolve?_eq_none_iff hne).1 h

end Scope

/-! ## The text with another word -/

namespace RankedToken

variable {scope : Scope} {opens : List Span} {tokens others : List Token} {t : RankedToken} {place : Span}
  {word : String} {suggestions : List String} {e : SyntaxError}

/-- The ranking of some tokens gets to the end of them, whatever follows, with these parentheses open. -/
def PassesTo (scope : Scope) (opens : List Span) (tokens : List Token) (opens' : List Span) : Prop :=
  ∀ others e, rankAfter scope opens (tokens ++ others) = .error e ↔ rankAfter scope opens' others = .error e

theorem PassesTo.nil : PassesTo scope opens [] opens :=
  fun _ _ => .rfl

theorem PassesTo.cons {token : Token} {opens' opens'' : List Span} (hstep : Step scope opens token t opens')
    (h : PassesTo scope opens' tokens opens'') : PassesTo scope opens (token :: tokens) opens'' := by
  intro others e
  rw [List.cons_append, hstep.rankAfter_eq, bind_pure_eq_error]
  exact h others e

/-- What the ranking blames for being unknown is a token without a meaning, and it passes what stands before. -/
theorem exists_of_rankAfter_unknown (h : rankAfter scope opens tokens = .error (.unknown place word suggestions)) :
    ∃ earlier token later opens', tokens = earlier ++ token :: later ∧ token.Inner ∧ token.span = place ∧
      token.normalized = word ∧ suggestions = scope.suggestions word ∧
      scope.resolve? opens'.length word = none ∧ PassesTo scope opens earlier opens' := by
  induction tokens generalizing opens with
  | nil =>
    obtain ⟨-, hunclosed⟩ := rankAfter_nil_eq_error h
    cases hunclosed
  | cons token tokens ih =>
    rcases rankAfter_cons_eq_error h with ⟨t, opens', hstep, hrest⟩ | hstop
    · obtain ⟨earlier, token', later, opens'', rfl, hinner, hplace, hword, hsuggestions, hresolve, hpasses⟩ := ih hrest
      exact ⟨token :: earlier, token', later, opens'', rfl, hinner, hplace, hword, hsuggestions, hresolve,
        hpasses.cons hstep⟩
    · cases hstop with
      | unknown hinner hresolve => exact ⟨[], token, tokens, opens, rfl, hinner, rfl, rfl, rfl, hresolve, .nil⟩

end RankedToken

namespace Expression

variable {names : List String} {source name word : String} {suggestions : List String} {place : Span}
  {before lexeme after : List Char}

/-- Reading the text stops at the word that stands between the two other parts. -/
def RejectsWord (names : List String) (before word after : List Char) : Prop :=
  let name := Text.lowercase (String.ofList word)
  compile (String.ofList (before ++ word ++ after)) names =
    .error (.unknown ⟨byteLength before, byteLength before + byteLength word⟩ name
      ((Scope.ofVariables names).suggestions name))

/-- Whatever word the reading of the text stops at, it stands behind this one. -/
def PassesWord (names : List String) (before word after : List Char) : Prop :=
  ∀ place other suggestions,
    compile (String.ofList (before ++ word ++ after)) names = .error (.unknown place other suggestions) →
      byteLength before + byteLength word ≤ place.start

/-- A text is refused for a word without a meaning exactly if its ranking is. -/
theorem compile_eq_unknown_iff :
    compile source names = .error (.unknown place word suggestions) ↔ Text.allBlank source.toList = false ∧
      RankedToken.ofTokens (.ofVariables names) (scan 0 source.toList) = .error (.unknown place word suggestions) := by
  constructor
  · intro h
    rcases bind_eq_error.1 h with h | ⟨tokens, htokens, h⟩
    · obtain ⟨-, hempty⟩ := tokenize_eq_error_iff.1 h
      cases hempty
    · obtain ⟨hblank, htokens⟩ := tokenize_eq_ok_iff.1 htokens
      rw [htokens] at h
      rcases bind_eq_error.1 h with h | ⟨ranked, -, h⟩
      · exact ⟨hblank, h⟩
      · obtain ⟨t, -, expected, harity⟩ := Stretch.exists_of_tree?_eq_error (map_eq_error.1 h)
        cases harity
  · rintro ⟨hblank, h⟩
    exact bind_eq_error.2 (.inr ⟨_, tokenize_eq_ok_iff.2 ⟨hblank, rfl⟩, bind_eq_error.2 (.inl h)⟩)

/-- The tokens of a text with a word in it. -/
theorem scan_around (hbefore : ∀ c ∈ before.getLast?, ¬InWord c) (hafter : Cursor.WordEnds after)
    (hne : lexeme ≠ []) (hword : ∀ c ∈ lexeme, isWordChar c = true) :
    scan 0 (before ++ lexeme ++ after) =
      scan 0 before ++ ⟨⟨byteLength before, byteLength before + byteLength lexeme⟩, .word, String.ofList lexeme⟩ ::
        scan (byteLength before + byteLength lexeme) after := by
  have hapart : Apart before (lexeme ++ after) := fun c hc _ _ _ => hbefore c hc
  rw [List.append_assoc, Token.scan_append hapart, Nat.zero_add, Cursor.scan_word hne hword hafter]

/-- If a text is refused for a word, then the reading passes what stands before the word, whatever word stands in its
place. -/
theorem exists_of_compile_unknown (h : compile source names = .error (.unknown place word suggestions)) :
    ∃ before lexeme after opens, source.toList = before ++ lexeme ++ after ∧
      place = ⟨byteLength before, byteLength before + byteLength lexeme⟩ ∧
      Text.lowercase (String.ofList lexeme) = word ∧ lexeme ≠ [] ∧
      suggestions = (Scope.ofVariables names).suggestions word ∧
      (Scope.ofVariables names).resolve? opens.length word = none ∧
      (∀ c ∈ before.getLast?, ¬InWord c) ∧ Cursor.WordEnds after ∧
      RankedToken.PassesTo (.ofVariables names) [] (scan 0 before) opens := by
  obtain ⟨-, hranked⟩ := compile_eq_unknown_iff.1 h
  obtain ⟨earlier, token, later, opens, htokens, hinner, rfl, rfl, hsuggestions, hresolve, hpasses⟩ :=
    RankedToken.exists_of_rankAfter_unknown hranked
  have hmem : token ∈ scan 0 source.toList := by
    rw [htokens]
    exact List.mem_append_right _ List.mem_cons_self
  have hkind := Token.kind_eq_word_of_scan hmem hinner (Scope.resolve?_eq_none_iff.1 hresolve).1
  obtain ⟨before, after, hsource, hplace, hbefore, hafter⟩ :=
    (Token.tiling_scan source.toList).maximal token hmem hkind
  have hwordEnds : Cursor.WordEnds after := fun c hc => Token.not_inWord_iff.1 (hafter c hc)
  have hchars := Token.isWordChar_of_scan hmem hkind
  have hne : token.lexeme.toList ≠ [] := by
    simpa using (Token.standsIn_of_scan hmem).nonempty
  have hsplit := scan_around hbefore hwordEnds hne hchars
  have htoken : (⟨⟨byteLength before, byteLength before + byteLength token.lexeme.toList⟩, .word,
      String.ofList token.lexeme.toList⟩ : Token) = token := by
    rw [← hplace, ← hkind, String.ofList_toList]
  rw [htoken, ← hsource] at hsplit
  -- tokens stand one behind the other, so the word is found only once
  have hordered := (Token.pairwise_before_scan 0 source.toList).2
  have hearlier : earlier = scan 0 before := by
    have hirrefl : ¬token.span.Before token.span := fun hself => by
      have hlt := hself.1
      have hle := hself.2
      omega
    rw [hsplit, List.pairwise_append, List.pairwise_cons] at hordered
    obtain ⟨-, ⟨hlater, -⟩, hacross⟩ := hordered
    have hnotBefore : token ∉ scan 0 before := fun hself => hirrefl (hacross token hself token List.mem_cons_self)
    have hnotAfter : token ∉ scan (byteLength before + byteLength token.lexeme.toList) after :=
      fun hself => hirrefl (hlater token hself)
    exact ((List.append_cons_inj_of_notMem hnotBefore hnotAfter).1 (hsplit.symm.trans htokens)).1.symm
  rw [hearlier] at hpasses
  exact ⟨before, token.lexeme.toList, after, opens, hsource, hplace, by rw [String.ofList_toList]; rfl, hne,
    hsuggestions, hresolve, hbefore, hwordEnds, hpasses⟩

section

variable {opens : List Span} {depth : Nat}
  (hpasses : RankedToken.PassesTo (.ofVariables names) [] (scan 0 before) opens)
  (hbefore : ∀ c ∈ before.getLast?, ¬InWord c) (hafter : Cursor.WordEnds after)
  (hne : lexeme ≠ []) (hchars : ∀ c ∈ lexeme, isWordChar c = true)

include hpasses hbefore hafter hne hchars

theorem rejectsWord_of_resolve? (hblank : Text.allBlank (before ++ lexeme ++ after) = false)
    (hresolve : (Scope.ofVariables names).resolve? opens.length (Text.lowercase (String.ofList lexeme)) = none) :
    RejectsWord names before lexeme after := by
  let token : Token := ⟨⟨byteLength before, byteLength before + byteLength lexeme⟩, .word, String.ofList lexeme⟩
  have hstop : RankedToken.Stop (.ofVariables names) opens token _ := .unknown (Token.inner_of_word rfl) hresolve
  refine compile_eq_unknown_iff.2 ⟨by rwa [String.toList_ofList], ?_⟩
  rw [String.toList_ofList, scan_around hbefore hafter hne hchars, RankedToken.ofTokens, hpasses]
  exact hstop.rankAfter_eq _

theorem passesWord_of_resolve? {rank : Rank} {role : Role}
    (hresolve : (Scope.ofVariables names).resolve? opens.length (Text.lowercase (String.ofList lexeme)) =
      some (rank, role)) : PassesWord names before lexeme after := by
  let token : Token := ⟨⟨byteLength before, byteLength before + byteLength lexeme⟩, .word, String.ofList lexeme⟩
  have hstep : RankedToken.Step (.ofVariables names) opens token ⟨token, rank, role⟩ opens :=
    .inner (Token.inner_of_word rfl) hresolve
  intro place other suggestions h
  obtain ⟨-, hranked⟩ := compile_eq_unknown_iff.1 h
  rw [String.toList_ofList, scan_around hbefore hafter hne hchars, RankedToken.ofTokens, hpasses,
    hstep.rankAfter_eq] at hranked
  cases RankedToken.refusal_of_rankAfter (bind_pure_eq_error.1 hranked) with
  | unknown hmem => exact (Token.pairwise_before_scan _ after).1 _ hmem

end

theorem RejectsWord.not_passesWord (h : RejectsWord names before lexeme after) (hne : lexeme ≠ []) :
    ¬PassesWord names before lexeme after := by
  intro hpasses
  have hle := hpasses _ _ _ h
  have hpos := byteLength_pos hne
  dsimp only at hle
  omega

/-- A suggested name that is a word can be written in place of the word that is refused. Then the name is refused too
if it is a false number, and otherwise the reading goes on behind it. -/
theorem rejectsWord_iff_falseNumber {opens : List Span}
    (hpasses : RankedToken.PassesTo (.ofVariables names) [] (scan 0 before) opens)
    (hbefore : ∀ c ∈ before.getLast?, ¬InWord c) (hafter : Cursor.WordEnds after)
    (hname : name ∈ (Scope.ofVariables names).suggestions word) (hne : name ≠ "")
    (hchars : ∀ c ∈ name.toList, isWordChar c = true) :
    (RejectsWord names before name.toList after ↔ Scope.FalseNumber name) ∧
      (¬Scope.FalseNumber name → PassesWord names before name.toList after) := by
  have hknown := (Scope.mem_suggestions.1 hname).1
  have hlower : Text.lowercase (String.ofList name.toList) = name := by
    rw [String.ofList_toList, hknown.lowercase]
  have hne' : name.toList ≠ [] := by simpa using hne
  have hiff : (Scope.ofVariables names).resolve? opens.length name = none ↔ Scope.FalseNumber name :=
    hknown.resolve?_eq_none_iff hne
  have hpass (hnumber : ¬Scope.FalseNumber name) : PassesWord names before name.toList after := by
    cases hresolve : (Scope.ofVariables names).resolve? opens.length name with
    | none => exact absurd (hiff.1 hresolve) hnumber
    | some resolved =>
      rw [← hlower] at hresolve
      exact passesWord_of_resolve? hpasses hbefore hafter hne' hchars hresolve
  refine ⟨⟨fun hrejects => ?_, fun hnumber => ?_⟩, hpass⟩
  · by_contra hnumber
    exact hrejects.not_passesWord hne' (hpass hnumber)
  · have hblank : Text.allBlank (before ++ name.toList ++ after) = false := by
      obtain ⟨c, cs, hcs, hc, -⟩ := hnumber
      rw [Text.allBlank, List.all_eq_false]
      refine ⟨c, by simp [hcs], ?_⟩
      rw [isBlank_of_startsNumber hc]
      decide
    refine rejectsWord_of_resolve? hpasses hbefore hafter hne' hchars hblank ?_
    rw [hlower]
    exact hiff.2 hnumber

/-- The names that are suggested for a word without a meaning come in increasing order, each once. Each of them has a
meaning unless it is a false number, and the word itself is among them only if it is one. In a text that is refused
for the word, each suggested name that is a word itself can be written in its place; it is refused there exactly if it
is a false number, and otherwise whatever other word is refused stands behind it. -/
theorem suggestions_resolve (names : List String) :
    (∀ depth word, word ≠ "" → (Scope.ofVariables names).resolve? depth word = none →
      ((Scope.ofVariables names).suggestions word).Pairwise (· < ·) ∧
      (∀ name ∈ (Scope.ofVariables names).suggestions word, name ≠ "" →
        (∀ op : Operator, name ≠ String.singleton op.symbol) →
          ((∃ rank role, (Scope.ofVariables names).resolve? depth (Text.lowercase name) = some (rank, role) ∧
              ∀ op, role ≠ .operator op) ↔ ¬Scope.FalseNumber name)) ∧
      (word ∈ (Scope.ofVariables names).suggestions word → Scope.FalseNumber word)) ∧
    ∀ source place word suggestions, compile source names = .error (.unknown place word suggestions) →
      word ≠ "" ∧ (∀ depth, (Scope.ofVariables names).resolve? depth word = none) ∧
      suggestions = (Scope.ofVariables names).suggestions word ∧
      ∃ before lexeme after, source.toList = before ++ lexeme ++ after ∧
        place = ⟨byteLength before, byteLength before + byteLength lexeme⟩ ∧
        Text.lowercase (String.ofList lexeme) = word ∧
        ∀ name ∈ suggestions, name ≠ "" → (∀ c ∈ name.toList, isWordChar c = true) →
          (RejectsWord names before name.toList after ↔ Scope.FalseNumber name) ∧
          (¬Scope.FalseNumber name → PassesWord names before name.toList after) := by
  constructor
  · intro depth word hword hresolve
    refine ⟨Scope.suggestions_increase, fun name hname hne hsymbol => ?_,
      Scope.falseNumber_of_mem_suggestions hword hresolve⟩
    have hknown := (Scope.mem_suggestions.1 hname).1
    have hiff : (Scope.ofVariables names).resolve? depth name = none ↔ Scope.FalseNumber name :=
      hknown.resolve?_eq_none_iff hne
    rw [hknown.lowercase, ← hiff, ← ne_eq, Option.ne_none_iff_exists', Prod.exists]
    refine exists₂_congr fun rank role => ⟨fun h => h.1, fun h => ⟨h, ?_⟩⟩
    exact Scope.ne_operator_of_resolve? h hsymbol
  · intro source place word suggestions h
    obtain ⟨before, lexeme, after, opens, hsource, hplace, hlexeme, hne, rfl, hresolve, hbefore, hafter, hpasses⟩ :=
      exists_of_compile_unknown h
    have hword : word ≠ "" := by
      rintro rfl
      rw [Text.lowercase, String.toList_ofList, String.ofList_eq_empty_iff] at hlexeme
      exact hne (Text.lowerAfter_eq_nil_iff.1 hlexeme)
    refine ⟨hword, fun depth => ?_, rfl, before, lexeme, after, hsource, hplace, hlexeme, ?_⟩
    · exact Scope.resolve?_eq_none_iff.2 (Scope.resolve?_eq_none_iff.1 hresolve)
    · exact fun name hname hname' hchars => rejectsWord_iff_falseNumber hpasses hbefore hafter hname hname' hchars

/-- The name that is suggested in place of `velocty` is read. -/
theorem suggestions_resolve_velocity :
    (∃ rank role, (Scope.ofVariables ["velocity"]).resolve? 0 (Text.lowercase "velocity") = some (rank, role) ∧
        ∀ op, role ≠ .operator op) ∧
      compile "2*velocty" ["velocity"] = .error (.unknown ⟨2, 9⟩ "velocty" ["velocity"]) ∧
      ∃ before lexeme after, "2*velocty".toList = before ++ lexeme ++ after ∧
        (⟨2, 9⟩ : Span) = ⟨byteLength before, byteLength before + byteLength lexeme⟩ ∧
        PassesWord ["velocity"] before "velocity".toList after := by
  have hunknown : compile "2*velocty" ["velocity"] = .error (.unknown ⟨2, 9⟩ "velocty" ["velocity"]) := by
    decide +kernel
  have htrue : ¬Scope.FalseNumber "velocity" := by
    rintro ⟨c, cs, hname, hc, -⟩
    have hchars : "velocity".toList = 'v' :: "elocity".toList := by decide
    rw [hchars] at hname
    cases hname
    exact absurd hc (by decide)
  obtain ⟨hne, hresolve, hsuggestions, before, lexeme, after, hsource, hplace, -, hreplace⟩ :=
    (suggestions_resolve ["velocity"]).2 _ _ _ _ hunknown
  have hmem : "velocity" ∈ (Scope.ofVariables ["velocity"]).suggestions "velocty" :=
    hsuggestions ▸ List.mem_singleton_self _
  have hmeaning := ((suggestions_resolve ["velocity"]).1 0 _ hne (hresolve 0)).2.1 _ hmem (by decide)
    (by intro op; cases op <;> decide)
  have hword : "velocity".toList.all isWordChar = true := by decide
  have hpasses := hreplace _ (List.mem_singleton_self _) (by decide) (List.all_eq_true.1 hword)
  exact ⟨hmeaning.2 htrue, hunknown, before, lexeme, after, hsource, hplace, hpasses.2 htrue⟩

/-- A declared name that starts like a number is suggested for another word, and in its place it is suggested for
itself. -/
theorem suggestions_falseNumber :
    compile "2y" ["2x"] = .error (.unknown ⟨0, 2⟩ "2y" ["2x"]) ∧
      compile "2x" ["2x"] = .error (.unknown ⟨0, 2⟩ "2x" ["2x"]) ∧
      (Scope.ofVariables ["2x"]).resolve? 0 "2x" = none := by
  decide +kernel

end Expression

end SymbolicCalc
