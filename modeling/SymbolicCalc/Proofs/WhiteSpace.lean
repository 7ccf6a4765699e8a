import SymbolicCalc.Proofs.TokenCoverage

/-!
# White space between tokens

A text that holds nothing but blanks, of any kind, is refused as empty. But only five of the blanks separate tokens; any
other blank, such as a no-break space, is a part of the word it stands in. So the two agree on a text exactly if all
its blanks separate: then no token holds a blank, and spaces in place of the blanks leave the tokens as they are.
-/

namespace SymbolicCalc

namespace Text

/-- A space in place of a blank. -/
def spaceFor (c : Char) : Char :=
  if isBlank c then ' ' else c

/-- The text with a space in place of every blank. -/
def spaced (text : String) : String :=
  String.ofList (text.toList.map spaceFor)

theorem isBlank_spaceFor (c : Char) : isBlank (spaceFor c) = isBlank c := by
  unfold spaceFor
  split
  next hc => rw [hc]; decide
  · rfl

/-- A space in place of each blank leaves no other blank. -/
theorem eq_space_of_isBlank_spaceFor {c : Char} (h : isBlank (spaceFor c) = true) : spaceFor c = ' ' := by
  rw [isBlank_spaceFor] at h
  rw [spaceFor, if_pos h]

theorem toList_spaced (text : String) : (spaced text).toList = text.toList.map spaceFor :=
  String.toList_ofList

theorem allBlank_spaced (text : String) : allBlank (spaced text).toList = allBlank text.toList := by
  rw [toList_spaced, allBlank, allBlank, List.all_map]
  exact congrArg _ (funext isBlank_spaceFor)

end Text

/-- The text is refused because it holds nothing. -/
def RefusedAsEmpty (source : String) : Prop :=
  ∃ whole, tokenize source = .error (.empty whole)

/-- The kinds and the lexemes of the tokens; `none` for a text that is refused. -/
def tokenUnits? (source : String) : Option (List (TokenKind × String)) :=
  (tokenize source).toOption.map fun tokens => tokens.map Token.unit

/-- Every blank of the text separates tokens. -/
def BlanksSeparate (source : String) : Prop :=
  ∀ c ∈ source.toList, Text.isBlank c = true → c ∈ Token.separators

instance (source : String) : Decidable (BlanksSeparate source) :=
  List.decidableBAll _ source.toList

theorem refusedAsEmpty_iff {source : String} : RefusedAsEmpty source ↔ Text.allBlank source.toList = true := by
  by_cases hblank : Text.allBlank source.toList = true
  · simp [RefusedAsEmpty, tokenize, hblank]
  · simp [RefusedAsEmpty, tokenize, hblank]

theorem tokenUnits?_of_not_refused {source : String} (h : ¬RefusedAsEmpty source) :
    tokenUnits? source = some ((Token.scan 0 source.toList).map Token.unit) := by
  rw [refusedAsEmpty_iff] at h
  simp [tokenUnits?, tokenize, h, Except.toOption]

theorem tokenUnits?_of_refused {source : String} (h : RefusedAsEmpty source) : tokenUnits? source = none := by
  obtain ⟨whole, hwhole⟩ := h
  rw [tokenUnits?, hwhole]
  rfl

theorem refusedAsEmpty_spaced {source : String} : RefusedAsEmpty (Text.spaced source) ↔ RefusedAsEmpty source := by
  rw [refusedAsEmpty_iff, refusedAsEmpty_iff, Text.allBlank_spaced]

namespace Token

open Text (spaceFor spaced isBlank)

variable {c : Char} {source : String}

/-- A separator and a space are alike to whoever splits a text into tokens. -/
theorem keptBy_spaceFor (h : isBlank c = true → c ∈ separators) : KeptBy spaceFor c := by
  cases hc : isBlank c with
  | false =>
    have hsame : spaceFor c = c := by simp [spaceFor, hc]
    exact ⟨by rw [hsame], by rw [hsame], by rw [hsame]⟩
  | true =>
    have hall : (separators.all fun c =>
        isSeparator ' ' = isSeparator c ∧ symbolKind? ' ' = symbolKind? c ∧
          ' '.utf8Size = c.utf8Size) = true := by decide
    obtain ⟨hsep, hsymbol, hsize⟩ := of_decide_eq_true (List.all_eq_true.1 hall c (h hc))
    have hspace : spaceFor c = ' ' := by simp [spaceFor, hc]
    exact ⟨by rw [hspace, hsep], by rw [hspace, hsymbol], by rw [hspace, hsize]⟩

/-- A blank that does not separate is in some token, and no separator is in one. -/
theorem isBlank_lexeme_iff :
    (∀ token ∈ scan 0 source.toList, ∀ c ∈ token.lexeme.toList, isBlank c = false) ↔ BlanksSeparate source := by
  constructor
  · intro h c hc hblank
    by_contra hsep
    obtain ⟨token, hmem, hlexeme⟩ := mem_lexeme_iff.2 ⟨hc, hsep⟩
    rw [h token hmem c hlexeme] at hblank
    cases hblank
  · intro h token hmem c hlexeme
    obtain ⟨hc, hsep⟩ := mem_lexeme_iff.1 ⟨token, hmem, hlexeme⟩
    exact Bool.eq_false_iff.2 fun hblank => hsep (h c hc hblank)

/-- If all blanks separate, the tokens stay the same, at the same places, with spaces for the blanks. -/
theorem scan_spaced (h : BlanksSeparate source) : scan 0 (spaced source).toList = scan 0 source.toList := by
  rw [Text.toList_spaced, scan_map fun c hc => keptBy_spaceFor (h c hc)]
  have hself : ∀ token ∈ scan 0 source.toList, withChars spaceFor token = id token := by
    intro token hmem
    have hchars : ∀ c ∈ token.lexeme.toList, spaceFor c = id c := by
      intro c hc
      simp [spaceFor, isBlank_lexeme_iff.2 h token hmem c hc]
    rw [withChars, List.map_congr_left hchars, List.map_id, String.ofList_toList, id]
  rw [List.map_congr_left hself, List.map_id]

/-- A blank that does not separate is in the lexeme of a token, and a space never is. -/
theorem blanksSeparate_of_units_eq
    (h : (scan 0 (spaced source).toList).map unit = (scan 0 source.toList).map unit) : BlanksSeparate source := by
  intro c hc hblank
  by_contra hsep
  obtain ⟨token, hmem, hlexeme⟩ := mem_lexeme_iff.2 ⟨hc, hsep⟩
  have hunit : token.unit ∈ (scan 0 (spaced source).toList).map unit := h ▸ List.mem_map_of_mem hmem
  obtain ⟨other, hother, hsame⟩ := List.mem_map.1 hunit
  have hlexeme' : other.lexeme = token.lexeme := congrArg Prod.snd hsame
  obtain ⟨hspaced, hsep'⟩ := mem_lexeme_iff.1 ⟨other, hother, hlexeme' ▸ hlexeme⟩
  rw [Text.toList_spaced] at hspaced
  obtain ⟨d, -, rfl⟩ := List.mem_map.1 hspaced
  rw [Text.eq_space_of_isBlank_spaceFor hblank] at hsep'
  exact hsep' (by decide)

theorem scan_eq_nil_iff {cs : List Char} : scan 0 cs = [] ↔ ∀ c ∈ cs, c ∈ separators := by
  constructor
  · intro h c hc
    by_contra hsep
    obtain ⟨token, hmem, -⟩ := mem_lexeme_iff.2 ⟨hc, hsep⟩
    rw [h] at hmem
    cases hmem
  · intro h
    have hscan : scan 0 (cs ++ []) = scan (0 + byteLength cs) [] := scan_separators h
    rwa [List.append_nil, scan] at hscan

end Token

/-- A space in place of each blank makes no difference to whether a text is refused as empty. It makes none to the kinds
and the lexemes of the tokens exactly if the text is refused or all its blanks separate. To be refused is to have no
token, unless the text holds nothing but blanks and some of them do not separate. The tokens hold no blank exactly if
all blanks of the text separate. -/
theorem tokenize_spaced (source : String) :
    (RefusedAsEmpty (Text.spaced source) ↔ RefusedAsEmpty source) ∧
      (tokenUnits? (Text.spaced source) = tokenUnits? source ↔ RefusedAsEmpty source ∨ BlanksSeparate source) ∧
      ((RefusedAsEmpty source ↔ Token.scan 0 source.toList = []) ↔ (RefusedAsEmpty source → BlanksSeparate source)) ∧
      ((∀ token ∈ Token.scan 0 source.toList, ∀ c ∈ token.lexeme.toList, Text.isBlank c = false) ↔
        BlanksSeparate source) := by
  refine ⟨refusedAsEmpty_spaced, ?_, ?_, Token.isBlank_lexeme_iff⟩
  · by_cases hrefused : RefusedAsEmpty source
    · rw [tokenUnits?_of_refused (refusedAsEmpty_spaced.2 hrefused), tokenUnits?_of_refused hrefused]
      exact ⟨fun _ => .inl hrefused, fun _ => rfl⟩
    · rw [tokenUnits?_of_not_refused (mt refusedAsEmpty_spaced.1 hrefused), tokenUnits?_of_not_refused hrefused]
      constructor
      · exact fun h => .inr (Token.blanksSeparate_of_units_eq (Option.some.inj h))
      · rintro (h | h)
        · exact absurd h hrefused
        · rw [Token.scan_spaced h]
  · constructor
    · intro hiff hrefused c hc _
      exact Token.scan_eq_nil_iff.1 (hiff.1 hrefused) c hc
    · intro h
      refine ⟨fun hrefused => Token.scan_eq_nil_iff.2 fun c hc => ?_, fun hnil => ?_⟩
      · exact h hrefused c hc (List.all_eq_true.1 (refusedAsEmpty_iff.1 hrefused) c hc)
      · exact refusedAsEmpty_iff.2 (Token.allBlank_of_scan_eq_nil hnil)

/-- A tab and a line feed are as good as spaces. -/
theorem tokenize_spaced_tab :
    tokenUnits? (Text.spaced "1 \t+\n2") = tokenUnits? "1 \t+\n2" ∧
      ∀ token ∈ Token.scan 0 "1 \t+\n2".toList, ∀ c ∈ token.lexeme.toList, Text.isBlank c = false := by
  have hblanks : BlanksSeparate "1 \t+\n2" := by decide +kernel
  obtain ⟨-, hunits, -, hlexemes⟩ := tokenize_spaced "1 \t+\n2"
  exact ⟨hunits.2 (.inr hblanks), hlexemes.2 hblanks⟩

/-- A no-break space belongs to the word before it, and alone it is a word of a text that is refused as empty. -/
theorem tokenize_spaced_noBreakSpace :
    tokenUnits? "1\u00a0+ 2" = some [(.word, "1\u00a0"), (.operator .add, "+"), (.word, "2")] ∧
      tokenUnits? (Text.spaced "1\u00a0+ 2") = some [(.word, "1"), (.operator .add, "+"), (.word, "2")] ∧
      tokenUnits? (Text.spaced "1\u00a0+ 2") ≠ tokenUnits? "1\u00a0+ 2" ∧
      RefusedAsEmpty "\u00a0" ∧ (Token.scan 0 "\u00a0".toList).map Token.unit = [(.word, "\u00a0")] := by
  exact ⟨by decide +kernel, by decide +kernel, by decide +kernel, ⟨_, rfl⟩, by decide +kernel⟩

end SymbolicCalc
