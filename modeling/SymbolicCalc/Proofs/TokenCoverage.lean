import SymbolicCalc.Proofs.ErrorPlaces
import SymbolicCalc.Proofs.Printing

/-!
# The tokens of a text cover it

Splitting a text into tokens loses nothing and adds nothing. The tokens stand in the text one behind the other, and
only separators stand between them. A symbol is a token by itself, and a word is a token that goes on to the left
and to the right as far as there is something else. So the tokens depend on the separators only where these keep
two words apart: the same lexemes with other separators between them are the same tokens again.
-/

namespace SymbolicCalc

namespace Token

/-- Space, tab, carriage return, line feed and form feed. -/
def separators : List Char :=
  [' ', '\t', '\r', '\n', '\x0c']

/-- The characters that are tokens by themselves, and the kinds of these tokens. -/
def symbols : List (Char × TokenKind) :=
  [('(', .openParen), (')', .closeParen), ('+', .operator .add), ('-', .operator .sub), ('*', .operator .mul),
    ('/', .operator .div), ('%', .operator .mod), ('^', .operator .pow)]

/-- The character can only be a part of a word. -/
def InWord (c : Char) : Prop :=
  c ∉ separators ∧ ∀ kind, (c, kind) ∉ symbols

/-- What a token of a kind is written as. -/
inductive Lexeme : TokenKind → List Char → Prop
  | symbol {c : Char} {kind : TokenKind} (h : (c, kind) ∈ symbols) : Lexeme kind [c]
  | word {cs : List Char} (hne : cs ≠ []) (h : ∀ c ∈ cs, InWord c) : Lexeme .word cs

/-- The token stands in the text, and no part of a word stands directly before it or behind it. -/
def MaximalIn (text : List Char) (token : Token) : Prop :=
  ∃ before after, text = before ++ token.lexeme.toList ++ after ∧
    token.span = ⟨byteLength before, byteLength before + byteLength token.lexeme.toList⟩ ∧
    (∀ c ∈ before.getLast?, ¬InWord c) ∧ ∀ c ∈ after.head?, ¬InWord c

/-- The character at the byte offset `place` belongs to the token. -/
structure Holds (token : Token) (place : Nat) (c : Char) : Prop where
  start_le : token.span.start ≤ place
  lt_stop : place < token.span.stop
  mem_lexeme : c ∈ token.lexeme.toList

/-- The tokens are all that the text holds besides separators. -/
structure Tiling (text : List Char) (tokens : List Token) : Prop where
  covers : ∀ token ∈ tokens, token.span.Covers text token.lexeme.toList
  ordered : tokens.Pairwise fun a b => a.span.Before b.span
  lexeme : ∀ token ∈ tokens, Lexeme token.kind token.lexeme.toList
  /-- A character that is no separator belongs to a token. -/
  gap : ∀ before c after, text = before ++ c :: after → c ∉ separators →
    ∃ token ∈ tokens, token.Holds (byteLength before) c
  /-- A symbol is a token. -/
  symbol : ∀ before c after kind, text = before ++ c :: after → (c, kind) ∈ symbols →
    ⟨⟨byteLength before, byteLength before + c.utf8Size⟩, kind, String.singleton c⟩ ∈ tokens
  maximal : ∀ token ∈ tokens, token.kind = .word → token.MaximalIn text

/-- The text holds the lexemes in their order, with separators between any two of them and nothing else. -/
inductive Joined : List String → List Char → Prop
  | single (lexeme : String) : Joined [lexeme] lexeme.toList
  | cons {lexeme next : String} {lexemes : List String} {blanks rest : List Char} (hne : blanks ≠ [])
      (hblanks : ∀ c ∈ blanks, c ∈ separators) (h : Joined (next :: lexemes) rest) :
      Joined (lexeme :: next :: lexemes) (lexeme.toList ++ (blanks ++ rest))

/-! ## Kinds of characters -/

variable {c : Char} {kind : TokenKind} {cs before after : List Char} {offset : Nat} {token : Token}

theorem isSeparator_iff : isSeparator c = true ↔ c ∈ separators := by
  simp [isSeparator, separators, or_assoc]

theorem symbolKind?_eq_some_iff : symbolKind? c = some kind ↔ (c, kind) ∈ symbols := by
  constructor
  · intro h
    rcases symbolKind?_cases h with ⟨rfl, rfl⟩ | ⟨rfl, rfl⟩ | ⟨op, rfl, rfl⟩
    · decide
    · decide
    · cases op <;> decide
  · intro h
    have hall : ∀ entry ∈ symbols, symbolKind? entry.1 = some entry.2 := by decide
    exact hall (c, kind) h

theorem isWordChar_iff : isWordChar c = true ↔ InWord c := by
  unfold isWordChar InWord
  rw [← isSeparator_iff]
  simp only [← symbolKind?_eq_some_iff, ← Option.eq_none_iff_forall_ne_some]
  simp

theorem not_inWord_iff : ¬InWord c ↔ isWordChar c = false := by
  rw [← isWordChar_iff, Bool.not_eq_true]

theorem not_mem_separators_of_symbols (h : (c, kind) ∈ symbols) : c ∉ separators := by
  have hall : ∀ entry ∈ symbols, entry.1 ∉ separators := by decide
  exact hall (c, kind) h

theorem not_inWord_of_separators (h : c ∈ separators) : ¬InWord c :=
  fun hword => hword.1 h

theorem not_inWord_of_symbols (h : (c, kind) ∈ symbols) : ¬InWord c :=
  fun hword => hword.2 kind h

theorem wordEnds_dropWhile (cs : List Char) : Cursor.WordEnds (cs.dropWhile isWordChar) := by
  intro d hd
  have hhead := List.head?_dropWhile_not isWordChar cs
  rw [Option.mem_def.1 hd] at hhead
  simpa using hhead

/-! ## From the text to its tokens -/

theorem eq_append_cases {word rest : List Char} (h : word ++ rest = before ++ c :: after) :
    (∃ mid, word = before ++ c :: mid) ∨ ∃ mid, before = word ++ mid ∧ rest = mid ++ c :: after := by
  rcases List.append_eq_append_iff.1 h with ⟨mid, hbefore, hrest⟩ | ⟨mid, hword, hrest⟩
  · exact .inr ⟨mid, hbefore, hrest⟩
  · cases mid with
    | nil =>
      rw [List.append_nil] at hword
      exact .inr ⟨[], by rw [List.append_nil, hword], hrest.symm⟩
    | cons d mid =>
      obtain ⟨rfl, -⟩ := List.cons.inj hrest
      exact .inl ⟨mid, hword⟩

/-- Every character that is no separator belongs to a token, and the token of a symbol is the symbol. -/
theorem exists_token_of_scan (offset : Nat) (cs : List Char) (hc : c ∉ separators) :
    ∀ before, cs = before ++ c :: after →
      ∃ token ∈ scan offset cs, token.Holds (offset + byteLength before) c ∧ ∀ kind, (c, kind) ∈ symbols →
          token = ⟨⟨offset + byteLength before, offset + byteLength before + c.utf8Size⟩, kind, .singleton c⟩ := by
  fun_induction scan offset cs with
  | case1 =>
    intro before h
    simp at h
  | case2 offset d cs hsep ih =>
    intro before h
    cases before with
    | nil =>
      obtain ⟨rfl, -⟩ := List.cons.inj h
      exact absurd (isSeparator_iff.1 hsep) hc
    | cons d' before =>
      obtain ⟨rfl, hcs⟩ := List.cons.inj h
      rw [byteLength_cons, ← Nat.add_assoc]
      exact ih before hcs
  | case3 offset d cs hsep kind hsymbol ih =>
    intro before h
    cases before with
    | nil =>
      obtain ⟨rfl, -⟩ := List.cons.inj h
      refine ⟨_, List.mem_cons_self, ⟨Nat.le_refl _, Nat.lt_add_of_pos_right d.utf8Size_pos, ?_⟩, fun kind' hkind => ?_⟩
      · simp
      rw [symbolKind?_eq_some_iff.2 hkind] at hsymbol
      cases hsymbol
      rfl
    | cons d' before =>
      obtain ⟨rfl, hcs⟩ := List.cons.inj h
      obtain ⟨token, hmem, htoken⟩ := ih before hcs
      rw [byteLength_cons, ← Nat.add_assoc]
      exact ⟨token, List.mem_cons_of_mem _ hmem, htoken⟩
  | case4 offset d cs hsep hsymbol word stop ih =>
    intro before h
    have hword : ∀ x ∈ word, isWordChar x = true := forall_isWordChar_word (isWordChar_of_none hsep hsymbol) cs
    have hsplit : word ++ cs.dropWhile isWordChar = before ++ c :: after := by
      rw [← h, List.cons_append, List.takeWhile_append_dropWhile]
    rcases eq_append_cases hsplit with ⟨mid, hmid⟩ | ⟨mid, rfl, hmid⟩
    · have hlength : byteLength word = byteLength before + (c.utf8Size + byteLength mid) := by
        rw [hmid, byteLength_append, byteLength_cons]
      have hpos := c.utf8Size_pos
      refine ⟨_, List.mem_cons_self, ⟨Nat.le_add_right _ _, ?_, by simp [hmid]⟩, fun kind hkind => ?_⟩
      · show offset + byteLength before < offset + byteLength word
        omega
      · exact absurd (isWordChar_iff.1 (hword c (by simp [hmid]))) (not_inWord_of_symbols hkind)
    · obtain ⟨token, hmem, htoken⟩ := ih mid hmid
      rw [byteLength_append, ← Nat.add_assoc]
      exact ⟨token, List.mem_cons_of_mem _ hmem, htoken⟩

/-! ## From the tokens to the text -/

theorem lexeme_of_scan (h : token ∈ scan offset cs) : Lexeme token.kind token.lexeme.toList := by
  rcases symbol_or_word_of_scan h with ⟨c, hsymbol, hlexeme⟩ | ⟨hkind, hne, hchars⟩
  · rw [hlexeme, String.toList_singleton]
    exact .symbol (symbolKind?_eq_some_iff.1 hsymbol)
  · rw [hkind]
    exact .word (by simpa using hne) fun c hc => isWordChar_iff.1 (hchars c hc)

/-- No word goes on from what has been read to the rest of the text. -/
def Apart (read rest : List Char) : Prop :=
  ∀ c ∈ read.getLast?, ∀ d ∈ rest.head?, InWord d → ¬InWord c

theorem apart_concat (hc : ¬InWord c) (rest : List Char) : Apart (before ++ [c]) rest := by
  intro d hd _ _ _
  rw [List.getLast?_concat] at hd
  cases hd
  exact hc

theorem Apart.of_append {read rest : List Char} (h : Apart (before ++ read) rest) : Apart read rest := by
  intro c hc
  refine h c ?_
  rw [Option.mem_def] at hc ⊢
  rw [List.getLast?_append, hc]
  rfl

/-- A text is split where no word goes on. -/
theorem scan_append (h : Apart before after) :
    scan offset (before ++ after) = scan offset before ++ scan (offset + byteLength before) after := by
  fun_induction scan offset before with
  | case1 offset => rfl
  | case2 offset c cs hsep ih =>
    have hrest : Apart ([c] ++ cs) after := h
    rw [List.cons_append, scan, if_pos hsep, ih hrest.of_append, byteLength_cons, Nat.add_assoc]
  | case3 offset c cs hsep kind hsymbol ih =>
    have hrest : Apart ([c] ++ cs) after := h
    rw [List.cons_append, Cursor.scan_symbol (Bool.not_eq_true _ ▸ hsep) hsymbol, ih hrest.of_append, byteLength_cons,
      Nat.add_assoc, List.cons_append]
  | case4 offset c cs hsep hsymbol word stop ih =>
    have hsplit : c :: cs = word ++ cs.dropWhile isWordChar := by simp [word]
    have hchars := forall_isWordChar_word (isWordChar_of_none hsep hsymbol) cs
    have hends : Cursor.WordEnds (cs.dropWhile isWordChar ++ after) := by
      intro d hd
      cases hrest : cs.dropWhile isWordChar with
      | nil =>
        -- the text ends in the word, and no word goes on behind it
        rw [hrest, List.nil_append] at hd
        obtain ⟨last, hlast⟩ : ∃ last, word.getLast? = some last :=
          ⟨_, List.getLast?_eq_some_getLast (List.cons_ne_nil _ _)⟩
        rw [hsplit, hrest, List.append_nil] at h
        have hword := isWordChar_iff.1 (hchars last (List.mem_of_mem_getLast? hlast))
        exact not_inWord_iff.1 fun hd' => h last hlast d hd hd' hword
      | cons e es =>
        rw [hrest, List.cons_append] at hd
        cases hd
        refine wordEnds_dropWhile cs d ?_
        rw [hrest]
        rfl
    have hapart : Apart (cs.dropWhile isWordChar) after := by
      rw [hsplit] at h
      exact h.of_append
    rw [hsplit, List.append_assoc, Cursor.scan_word (List.cons_ne_nil _ _) hchars hends, ih hapart, byteLength_append,
      ← Nat.add_assoc]
    rfl

/-- Words go on as far as they can. The text read so far ends where the scan of the rest starts, and no word goes on
there. -/
theorem maximalIn_of_scan (h : token ∈ scan offset cs) (hkind : token.kind = .word) :
    ∀ read, offset = byteLength read → Apart read cs → token.MaximalIn (read ++ cs) := by
  fun_induction scan offset cs with
  | case1 => cases h
  | case2 offset c cs hsep ih =>
    intro read hoffset _
    rw [List.append_cons]
    refine ih h _ (by rw [byteLength_concat, hoffset]) (apart_concat ?_ cs)
    exact not_inWord_of_separators (isSeparator_iff.1 hsep)
  | case3 offset c cs hsep kind hsymbol ih =>
    intro read hoffset _
    rcases List.mem_cons.1 h with rfl | h
    · obtain rfl : kind = .word := hkind
      have hall : ∀ entry ∈ symbols, entry.2 ≠ .word := by decide
      exact absurd rfl (hall _ (symbolKind?_eq_some_iff.1 hsymbol))
    · rw [List.append_cons]
      refine ih h _ (by rw [byteLength_concat, hoffset]) (apart_concat ?_ cs)
      exact not_inWord_of_symbols (symbolKind?_eq_some_iff.1 hsymbol)
  | case4 offset c cs hsep hsymbol word stop ih =>
    intro read hoffset hapart
    have hsplit : read ++ c :: cs = read ++ word ++ cs.dropWhile isWordChar := by
      simp [word]
    have hend : ∀ d ∈ (cs.dropWhile isWordChar).head?, ¬InWord d :=
      fun d hd => not_inWord_iff.2 (wordEnds_dropWhile cs d hd)
    rw [hsplit]
    rcases List.mem_cons.1 h with rfl | h
    · refine ⟨read, cs.dropWhile isWordChar, ?_, ?_, fun d hd => ?_, hend⟩
      · rw [String.toList_ofList]
      · rw [String.toList_ofList, ← hoffset]
      · exact hapart d hd c rfl (isWordChar_iff.1 (isWordChar_of_none hsep hsymbol))
    · refine ih h _ (by rw [byteLength_append, ← hoffset]) ?_
      intro d _ d' hd' hword
      exact absurd hword (hend d' hd')

theorem tiling_scan (cs : List Char) : Tiling cs (scan 0 cs) where
  covers := fun token hmem => (standsIn_of_scan hmem).covers
  ordered := (pairwise_before_scan 0 cs).2
  lexeme := fun token hmem => lexeme_of_scan hmem
  gap := by
    intro before c after htext hc
    obtain ⟨token, hmem, hholds, -⟩ := exists_token_of_scan 0 cs hc before htext
    rw [Nat.zero_add] at hholds
    exact ⟨token, hmem, hholds⟩
  symbol := by
    intro before c after kind htext hkind
    obtain ⟨token, hmem, -, htoken⟩ := exists_token_of_scan 0 cs (not_mem_separators_of_symbols hkind) before htext
    have hsymbol := htoken kind hkind
    rw [Nat.zero_add] at hsymbol
    exact hsymbol ▸ hmem
  maximal := fun token hmem hkind => maximalIn_of_scan hmem hkind [] rfl (fun c hc => by cases hc)

theorem Lexeme.not_mem_separators (h : Lexeme kind cs) (hc : c ∈ cs) : c ∉ separators := by
  cases h with
  | symbol h =>
    rw [List.mem_singleton.1 hc]
    exact not_mem_separators_of_symbols h
  | word hne h => exact (h c hc).1

/-- The tokens are made of all that the text holds but the separators. -/
theorem mem_lexeme_iff : (∃ token ∈ scan 0 cs, c ∈ token.lexeme.toList) ↔ c ∈ cs ∧ c ∉ separators := by
  have htiling := tiling_scan cs
  constructor
  · rintro ⟨token, hmem, hc⟩
    obtain ⟨before, after, hcs, -⟩ := htiling.covers token hmem
    refine ⟨?_, (htiling.lexeme token hmem).not_mem_separators hc⟩
    rw [hcs]
    simp [hc]
  · rintro ⟨hc, hsep⟩
    obtain ⟨before, after, hcs⟩ := List.append_of_mem hc
    obtain ⟨token, hmem, hholds⟩ := htiling.gap before c after hcs hsep
    exact ⟨token, hmem, hholds.mem_lexeme⟩

/-! ## Other characters -/

/-- The token with other characters in its lexeme. -/
def withChars (f : Char → Char) (token : Token) : Token :=
  { token with lexeme := String.ofList (token.lexeme.toList.map f) }

/-- The characters `c` and `f c` are alike to whoever splits a text into tokens. -/
structure KeptBy (f : Char → Char) (c : Char) : Prop where
  isSeparator_eq : isSeparator (f c) = isSeparator c
  symbolKind?_eq : symbolKind? (f c) = symbolKind? c
  utf8Size_eq : (f c).utf8Size = c.utf8Size

variable {f : Char → Char}

theorem KeptBy.isWordChar_eq (h : KeptBy f c) : isWordChar (f c) = isWordChar c := by
  rw [isWordChar, h.isSeparator_eq, h.symbolKind?_eq, isWordChar]

/-- A symbol is known by its kind. -/
theorem KeptBy.symbol_eq (h : KeptBy f c) (hkind : symbolKind? c = some kind) : f c = c := by
  have hall : ∀ a ∈ symbols, ∀ b ∈ symbols, a.2 = b.2 → a.1 = b.1 := by decide
  have hkind' := h.symbolKind?_eq.trans hkind
  exact hall _ (symbolKind?_eq_some_iff.1 hkind') _ (symbolKind?_eq_some_iff.1 hkind) rfl

theorem byteLength_map (h : ∀ c ∈ cs, KeptBy f c) : byteLength (cs.map f) = byteLength cs := by
  induction cs with
  | nil => rfl
  | cons c cs ih =>
    obtain ⟨hc, hcs⟩ := List.forall_mem_cons.1 h
    rw [List.map_cons, byteLength_cons, byteLength_cons, hc.utf8Size_eq, ih hcs]

/-- The tokens stay in their places if every character is replaced by one that is alike. -/
theorem scan_map (h : ∀ c ∈ cs, KeptBy f c) : scan offset (cs.map f) = (scan offset cs).map (withChars f) := by
  fun_induction scan offset cs with
  | case1 offset => rw [List.map_nil, scan, List.map_nil]
  | case2 offset c cs hsep ih =>
    obtain ⟨hc, hcs⟩ := List.forall_mem_cons.1 h
    rw [List.map_cons, scan, if_pos (hc.isSeparator_eq.trans hsep), hc.utf8Size_eq, ih hcs]
  | case3 offset c cs hsep kind hsymbol ih =>
    obtain ⟨hc, hcs⟩ := List.forall_mem_cons.1 h
    have hsame := hc.symbol_eq hsymbol
    rw [List.map_cons, hsame, Cursor.scan_symbol (Bool.not_eq_true _ ▸ hsep) hsymbol, ih hcs, List.map_cons, withChars]
    simp [hsame]
  | case4 offset c cs hsep hsymbol word stop ih =>
    have hsplit : c :: cs = word ++ cs.dropWhile isWordChar := by simp [word]
    have hchars := forall_isWordChar_word (isWordChar_of_none hsep hsymbol) cs
    rw [hsplit] at h ⊢
    have hword : ∀ d ∈ word, KeptBy f d := fun d hd => h d (List.mem_append_left _ hd)
    have hrest : ∀ d ∈ cs.dropWhile isWordChar, KeptBy f d := fun d hd => h d (List.mem_append_right _ hd)
    have hchars' : ∀ d ∈ word.map f, isWordChar d = true := by
      refine List.forall_mem_map.2 fun d hd => ?_
      rw [(hword d hd).isWordChar_eq, hchars d hd]
    have hends : Cursor.WordEnds ((cs.dropWhile isWordChar).map f) := by
      intro d' hd'
      rw [List.head?_map] at hd'
      obtain ⟨d, hd, rfl⟩ := Option.map_eq_some_iff.1 hd'
      rw [(hrest d (List.mem_of_head? hd)).isWordChar_eq, wordEnds_dropWhile cs d hd]
    rw [List.map_append, Cursor.scan_word (by simp [word]) hchars' hends, byteLength_map hword, ih hrest]
    simp only [List.map_cons, withChars, String.toList_ofList, stop]

/-! ## Other separators -/

/-- What a token is apart from its place. -/
def unit (token : Token) : TokenKind × String :=
  (token.kind, token.lexeme)

theorem scan_separators {blanks rest : List Char} (h : ∀ c ∈ blanks, c ∈ separators) :
    scan offset (blanks ++ rest) = scan (offset + byteLength blanks) rest := by
  induction blanks generalizing offset with
  | nil => rfl
  | cons c blanks ih =>
    obtain ⟨hc, hblanks⟩ := List.forall_mem_cons.1 h
    rw [List.cons_append, scan, if_pos (isSeparator_iff.2 hc), ih hblanks, byteLength_cons, Nat.add_assoc]

theorem scan_lexeme (offset : Nat) {rest : List Char} (h : Lexeme kind cs) (hrest : Cursor.WordEnds rest) :
    (scan offset (cs ++ rest)).map unit =
      (kind, String.ofList cs) :: (scan (offset + byteLength cs) rest).map unit := by
  cases h with
  | @symbol c kind h =>
    have hsep : isSeparator c = false := by
      rw [← Bool.not_eq_true, isSeparator_iff]
      exact not_mem_separators_of_symbols h
    rw [List.singleton_append, Cursor.scan_symbol hsep (symbolKind?_eq_some_iff.2 h), byteLength_cons]
    rfl
  | word hne h =>
    rw [Cursor.scan_word hne (fun c hc => isWordChar_iff.2 (h c hc)) hrest]
    rfl

/-- The induction is on the lexemes; behind each of them a separator ends the word. -/
theorem scan_joined {lexemes : List String} (h : Joined lexemes cs) {units : List (TokenKind × String)}
    (hunits : units.map (·.2) = lexemes) (hlexeme : ∀ u ∈ units, Lexeme u.1 u.2.toList) :
    (scan offset cs).map unit = units := by
  induction h generalizing units offset with
  | single lexeme =>
    obtain ⟨u, us, rfl, rfl, hnil⟩ := List.map_eq_cons_iff.1 hunits
    obtain rfl := List.map_eq_nil_iff.1 hnil
    have hscan := scan_lexeme offset (hlexeme u List.mem_cons_self) Cursor.wordEnds_nil
    rw [List.append_nil, String.ofList_toList, scan] at hscan
    exact hscan
  | @cons lexeme next lexemes blanks rest hne hblanks h ih =>
    obtain ⟨u, us, rfl, rfl, hrest⟩ := List.map_eq_cons_iff.1 hunits
    obtain ⟨hu, hus⟩ := List.forall_mem_cons.1 hlexeme
    obtain ⟨blank, others, rfl⟩ := List.exists_cons_of_ne_nil hne
    have hend : Cursor.WordEnds (blank :: others ++ rest) :=
      Cursor.wordEnds_cons (not_inWord_iff.1 (not_inWord_of_separators (hblanks blank List.mem_cons_self)))
    rw [scan_lexeme offset hu hend, scan_separators hblanks, ih hrest hus, String.ofList_toList]

theorem Joined.mem_of_mem_lexeme {lexemes : List String} (h : Joined lexemes cs) {lexeme : String}
    (hmem : lexeme ∈ lexemes) (hc : c ∈ lexeme.toList) : c ∈ cs := by
  induction h with
  | single other => rwa [← List.mem_singleton.1 hmem]
  | cons hne hblanks h ih =>
    rcases List.mem_cons.1 hmem with rfl | hmem
    · exact List.mem_append_left _ hc
    · exact List.mem_append_right _ (List.mem_append_right _ (ih hmem))

/-- If the lexemes of a text are joined to a text of nothing but blanks, the first text is one too. -/
theorem Tiling.allBlank_of_joined {tokens : List Token} (htiling : Tiling cs tokens) {text : List Char}
    (h : Joined (tokens.map (·.lexeme)) text) (hblank : Text.allBlank text = true) : Text.allBlank cs = true := by
  refine List.all_eq_true.2 fun c hc => ?_
  by_cases hsep : c ∈ separators
  · exact isBlank_of_isSeparator (isSeparator_iff.2 hsep)
  · obtain ⟨before, after, hcs⟩ := List.append_of_mem hc
    obtain ⟨token, hmem, hholds⟩ := htiling.gap before c after hcs hsep
    exact List.all_eq_true.1 hblank c (h.mem_of_mem_lexeme (List.mem_map_of_mem hmem) hholds.mem_lexeme)

end Token

/-- A text that is not blank is split into tokens that are all it holds besides separators, and the same lexemes with
any separators between them are split into the same tokens again. -/
theorem tokenize_tiles {source : String} (h : Text.allBlank source.toList = false) :
    ∃ tokens, tokenize source = .ok tokens ∧ Token.Tiling source.toList tokens ∧
      ∀ text : String, Token.Joined (tokens.map (·.lexeme)) text.toList →
        ∃ others, tokenize text = .ok others ∧ others.map Token.unit = tokens.map Token.unit := by
  have hok {text : String} (htext : Text.allBlank text.toList = false) :
      tokenize text = .ok (Token.scan 0 text.toList) := by
    simp [tokenize, htext]
  have htiling := Token.tiling_scan source.toList
  refine ⟨_, hok h, htiling, fun text hjoined => ⟨_, hok ?_, ?_⟩⟩
  · refine Bool.eq_false_iff.2 fun hblank => ?_
    rw [htiling.allBlank_of_joined hjoined hblank] at h
    cases h
  · refine Token.scan_joined hjoined ?_ ?_
    · rw [List.map_map]
      rfl
    · intro u hu
      obtain ⟨token, hmem, rfl⟩ := List.mem_map.1 hu
      exact Token.lexeme_of_scan hmem

/-- The lexemes of `é*(pi` with a tab, a line feed and two spaces between them. -/
theorem tokenize_tiles_otherSeparators :
    ∃ tokens others, tokenize "é*(pi" = .ok tokens ∧ Token.Tiling "é*(pi".toList tokens ∧
      tokenize "é\t*\n(  pi" = .ok others ∧ others.map Token.unit = tokens.map Token.unit := by
  have hblank : Text.allBlank "é*(pi".toList = false := by decide +kernel
  obtain ⟨tokens, htokens, htiling, hjoined⟩ := tokenize_tiles hblank
  have hscan : tokenize "é*(pi" =
      .ok [⟨⟨0, 2⟩, .word, "é"⟩, ⟨⟨2, 3⟩, .operator .mul, "*"⟩, ⟨⟨3, 4⟩, .openParen, "("⟩, ⟨⟨4, 6⟩, .word, "pi"⟩] := by
    decide +kernel
  rw [hscan] at htokens
  cases htokens
  have hgroup : Token.Joined ["(", "pi"] ("(".toList ++ ([' ', ' '] ++ "pi".toList)) :=
    .cons (by simp) (by simp [Token.separators]) (.single "pi")
  have hproduct : Token.Joined ["*", "(", "pi"] ("*".toList ++ (['\n'] ++ _)) :=
    .cons (by simp) (by simp [Token.separators]) hgroup
  have htext : Token.Joined ["é", "*", "(", "pi"] ("é".toList ++ (['\t'] ++ _)) :=
    .cons (by simp) (by simp [Token.separators]) hproduct
  have hchars : "é\t*\n(  pi".toList =
      "é".toList ++ (['\t'] ++ ("*".toList ++ (['\n'] ++ ("(".toList ++ ([' ', ' '] ++ "pi".toList))))) := by
    decide +kernel
  rw [← hchars] at htext
  obtain ⟨others, hothers, hunits⟩ := hjoined _ htext
  exact ⟨_, others, hscan, htiling, hothers, hunits⟩

end SymbolicCalc
