import SymbolicCalc.Expression
import SymbolicCalc.Proofs.Grammar
import SymbolicCalc.Proofs.LiteralReading

/-!
# Printed expressions are read back

The text of an expression is read back as the expression, up to constants without a literal. What has to be
said about a part of the text is what the tokens of the part derive, wherever the part stands: behind any
number of open groups, and before any text that does not go on with the same word. In this form the
statement follows the printer, one lemma for each shape that it prints.
-/

namespace SymbolicCalc

/-! ## Reading on -/

/-- How far the reading of an expression has got: the opening parentheses that are still open, the last one
first, and the rest of the text with its byte offset. -/
structure Cursor where
  offset : Nat
  opens : List Span
  rest : List Char

namespace Cursor

/-- The ranked tokens from the cursor on. -/
def tokens (scope : Scope) (p : Cursor) : Except SyntaxError (List RankedToken) :=
  RankedToken.rankAfter scope p.opens (Token.scan p.offset p.rest)

/-- From one cursor to the other the tokens are `ranked`. -/
def Reads (scope : Scope) (p : Cursor) (ranked : List RankedToken) (q : Cursor) : Prop :=
  p.tokens scope = (ranked ++ ·) <$> q.tokens scope

variable {scope : Scope}

theorem Reads.append {p q r : Cursor} {ranked others : List RankedToken} (h : p.Reads scope ranked q)
    (h' : q.Reads scope others r) : p.Reads scope (ranked ++ others) r := by
  unfold Reads at *
  rw [h, h']
  cases r.tokens scope with
  | error e => rfl
  | ok rest => simp [Functor.map, Except.map]

/-- A cursor with one token before the next cursor. -/
theorem reads_singleton {p q : Cursor} {t : RankedToken}
    (h : p.tokens scope = (do return t :: (← q.tokens scope))) : p.Reads scope [t] q := by
  unfold Reads
  rw [h]
  cases q.tokens scope <;> rfl

/-- A text does not go on with a word. -/
def WordEnds (cs : List Char) : Prop :=
  ∀ c ∈ cs.head?, Token.isWordChar c = false

theorem wordEnds_nil : WordEnds [] := by
  intro c hc
  cases hc

theorem wordEnds_cons {c : Char} {cs : List Char} (h : Token.isWordChar c = false) :
    WordEnds (c :: cs) := by
  intro d hd
  cases hd
  exact h

theorem scan_symbol {offset : Nat} {c : Char} {rest : List Char} {kind : TokenKind}
    (hsep : Token.isSeparator c = false) (hkind : Token.symbolKind? c = some kind) :
    Token.scan offset (c :: rest) =
      ⟨⟨offset, offset + c.utf8Size⟩, kind, String.singleton c⟩ ::
        Token.scan (offset + c.utf8Size) rest := by
  rw [Token.scan, hsep, hkind]
  rfl

theorem scan_word {offset : Nat} {word rest : List Char} (hne : word ≠ [])
    (hword : ∀ c ∈ word, Token.isWordChar c = true) (hrest : WordEnds rest) :
    Token.scan offset (word ++ rest) =
      ⟨⟨offset, offset + byteLength word⟩, .word, String.ofList word⟩ ::
        Token.scan (offset + byteLength word) rest := by
  obtain ⟨c, cs, rfl⟩ := List.exists_cons_of_ne_nil hne
  have hc := hword c List.mem_cons_self
  simp only [Token.isWordChar, Bool.and_eq_true, Bool.not_eq_true', Option.isNone_iff_eq_none] at hc
  have hcs : ∀ d ∈ cs, Token.isWordChar d = true := fun d hd => hword d (List.mem_cons_of_mem _ hd)
  obtain ⟨htake, hdrop⟩ := span_word hcs rest hrest
  rw [List.cons_append, Token.scan, hc.1, hc.2, htake, hdrop]
  rfl

variable {offset : Nat} {opens : List Span} {rest : List Char}

theorem reads_open : ∃ t place offset', t.role = .openParen ∧ t.rank = .leaf ∧
    Reads scope ⟨offset, opens, '(' :: rest⟩ [t] ⟨offset', place :: opens, rest⟩ := by
  let token : Token := ⟨⟨offset, offset + '('.utf8Size⟩, .openParen, String.singleton '('⟩
  refine ⟨⟨token, .leaf, .openParen⟩, token.span, token.span.stop, rfl, rfl, reads_singleton ?_⟩
  unfold tokens
  rw [scan_symbol (by decide) rfl]
  rfl

theorem reads_close {place : Span} : ∃ t offset', t.role = .closeParen ∧ t.rank = .leaf ∧
    Reads scope ⟨offset, place :: opens, ')' :: rest⟩ [t] ⟨offset', opens, rest⟩ := by
  let token : Token := ⟨⟨offset, offset + ')'.utf8Size⟩, .closeParen, String.singleton ')'⟩
  refine ⟨⟨token, .leaf, .closeParen⟩, token.span.stop, rfl, rfl, reads_singleton ?_⟩
  unfold tokens
  rw [scan_symbol (by decide) rfl]
  rfl

theorem reads_operator (op : Operator) : ∃ t offset', t.role = .operator op ∧
    t.rank = .ofOperator op opens.length ∧
    Reads scope ⟨offset, opens, op.symbol :: rest⟩ [t] ⟨offset', opens, rest⟩ := by
  have hsep : Token.isSeparator op.symbol = false := by cases op <;> decide
  have hkind : Token.symbolKind? op.symbol = some (.operator op) := by cases op <;> rfl
  let token : Token := ⟨⟨offset, offset + op.symbol.utf8Size⟩, .operator op, String.singleton op.symbol⟩
  have hstep : RankedToken.Step scope opens token ⟨token, .ofOperator op opens.length, .operator op⟩ opens := by
    refine .inner (Token.inner_of_operator rfl) ?_
    rw [Token.normalized, op.lowercase_symbol]
    simp [Scope.resolve?]
  refine ⟨⟨token, _, _⟩, token.span.stop, rfl, rfl, reads_singleton ?_⟩
  unfold tokens
  rw [scan_symbol hsep hkind]
  exact hstep.rankAfter_eq _

theorem reads_word {word : List Char} {rank : Rank} {role : Role} (hne : word ≠ [])
    (hword : ∀ c ∈ word, Token.isWordChar c = true) (hrest : WordEnds rest)
    (hresolve : scope.resolve? opens.length (Text.lowercase (String.ofList word)) = some (rank, role)) :
    ∃ t offset', t.role = role ∧ t.rank = rank ∧
      Reads scope ⟨offset, opens, word ++ rest⟩ [t] ⟨offset', opens, rest⟩ := by
  let token : Token := ⟨⟨offset, offset + byteLength word⟩, .word, String.ofList word⟩
  have hstep : RankedToken.Step scope opens token ⟨token, rank, role⟩ opens :=
    .inner (Token.inner_of_word rfl) hresolve
  refine ⟨⟨token, _, _⟩, token.span.stop, rfl, rfl, reads_singleton ?_⟩
  unfold tokens
  rw [scan_word hne hword hrest]
  exact hstep.rankAfter_eq _

theorem reads_function (f : Elementary) (hrest : WordEnds rest) :
    ∃ t offset', t.role = .call f ∧ t.rank = .ofCall opens.length ∧
      Reads scope ⟨offset, opens, f.name.toList ++ rest⟩ [t] ⟨offset', opens, rest⟩ := by
  have hne : f.name.toList ≠ [] := by cases f <;> decide
  have hword : f.name.toList.all Token.isWordChar = true := by cases f <;> decide
  have hlower : Text.lowercase (String.ofList f.name.toList) = f.name := by
    cases f <;> decide +kernel
  refine reads_word hne (List.all_eq_true.1 hword) hrest ?_
  have hoperator : Operator.ofText? f.name = none :=
    Token.ofText?_eq_none_of_isWordChar (List.all_eq_true.1 hword)
  rw [hlower]
  simp [Scope.resolve?, hoperator]

end Cursor

/-! ## Spelling -/

/-- In the scope the text `cs` spells the tree `t` as something of the category `c`, wherever it stands inside
groups that leave room for `nesting` more of them. -/
def Spells (scope : Scope) (c : Category) (cs : List Char) (nesting : Nat) (t : Expression) : Prop :=
  ∀ (offset : Nat) (opens : List Span) (rest : List Char), Cursor.WordEnds rest →
    opens.length + nesting < 2 ^ 30 →
      ∃ ranked offset', Derives c (ranked.map (·.role)) t ∧
        Segment 0 opens.length ranked opens.length ∧
        Cursor.Reads scope ⟨offset, opens, cs ++ rest⟩ ranked ⟨offset', opens, rest⟩

namespace Spells

open Cursor

variable {scope : Scope} {c : Category} {cs : List Char} {nesting : Nat} {t : Expression}

theorem mono {nesting' : Nat} (h : Spells scope c cs nesting t) (hle : nesting ≤ nesting') :
    Spells scope c cs nesting' t := by
  intro offset opens rest hrest hdepth
  exact h offset opens rest hrest (by omega)

theorem of_level_le {c' : Category} (h : Spells scope c cs nesting t) (hle : c'.level ≤ c.level) :
    Spells scope c' cs nesting t := by
  intro offset opens rest hrest hdepth
  obtain ⟨ranked, offset', hderives, hsegment, hreads⟩ := h offset opens rest hrest hdepth
  exact ⟨ranked, offset', hderives.of_level_le hle, hsegment, hreads⟩

theorem operand (hne : cs ≠ []) (hword : ∀ c ∈ cs, Token.isWordChar c = true)
    (hresolve : ∀ depth, scope.resolve? depth (Text.lowercase (String.ofList cs)) =
      some (.leaf, .leaf t)) : Spells scope .atom cs nesting t := by
  intro offset opens rest hrest hdepth
  obtain ⟨x, offset', hrole, hleaf, hreads⟩ := reads_word hne hword hrest (hresolve opens.length)
  refine ⟨[x], offset', ?_, .operand hrole hleaf .nil, hreads⟩
  rw [List.map_singleton, hrole]
  exact .leaf

theorem binary {op : Operator} {before after : List Char} {left right : Expression}
    (hleft : Spells scope op.category before nesting left)
    (hright : Spells scope op.operand after nesting right) :
    Spells scope op.category (before ++ op.symbol :: after) nesting (.binary op left right) := by
  intro offset opens rest hrest hdepth
  have hends : WordEnds (op.symbol :: (after ++ rest)) := wordEnds_cons (by cases op <;> decide)
  obtain ⟨ranked, mid, hderives, hsegment, hreads⟩ := hleft offset opens _ hends hdepth
  obtain ⟨x, mid', hrole, hrank, hreadsop⟩ := reads_operator op
  obtain ⟨others, stop, hderives', hsegment', hreads'⟩ := hright mid' opens rest hrest hdepth
  refine ⟨ranked ++ x :: others, stop, ?_, ?_, ?_⟩
  · rw [List.map_append, List.map_cons, hrole]
    exact .binary hderives hderives'
  · exact hsegment.append (.operator hrole hrank (by omega) hsegment')
  · rw [List.append_assoc, List.cons_append]
    exact hreads.append (hreadsop.append hreads')

theorem binary_of_atoms {op : Operator} {before after : List Char} {left right : Expression}
    (hleft : Spells scope .atom before nesting left) (hright : Spells scope .atom after nesting right) :
    Spells scope .sum (before ++ op.symbol :: after) nesting (.binary op left right) := by
  refine of_level_le ?_ (Category.sum_level_le op.category)
  exact .binary (hleft.of_level_le (Category.level_le_atom _)) (hright.of_level_le (Category.level_le_atom _))

theorem leading {op : Operator} (h : Spells scope op.operand cs nesting t) :
    Spells scope op.category (op.symbol :: cs) nesting (.binary op .zero t) := by
  intro offset opens rest hrest hdepth
  obtain ⟨x, mid, hrole, hrank, hreadsop⟩ := reads_operator op
  obtain ⟨ranked, stop, hderives, hsegment, hreads⟩ := h mid opens rest hrest hdepth
  refine ⟨x :: ranked, stop, ?_, .operator hrole hrank (by omega) hsegment, hreadsop.append hreads⟩
  rw [List.map_cons, hrole]
  exact .leading hderives

theorem group (h : Spells scope .sum cs nesting t) :
    Spells scope .atom ('(' :: cs ++ [')']) (nesting + 1) t := by
  intro offset opens rest hrest hdepth
  have hends : WordEnds (')' :: rest) := wordEnds_cons (by decide)
  obtain ⟨start, place, mid, hstart, hrankstart, hreadsstart⟩ := reads_open
  obtain ⟨ranked, mid', hderives, hsegment, hreads⟩ :=
    h mid (place :: opens) _ hends (by rw [List.length_cons]; omega)
  obtain ⟨close, stop, hclose, hrankclose, hreadsclose⟩ := reads_close
  refine ⟨start :: (ranked ++ [close]), stop, ?_, ?_, ?_⟩
  · rw [List.map_cons, List.map_append, List.map_singleton, hstart, hclose]
    exact .group hderives
  · exact .opening hstart hrankstart (hsegment.append (.closing hclose hrankclose .nil))
  · rw [List.append_assoc]
    exact hreadsstart.append (hreads.append hreadsclose)

theorem call {f : Elementary} (h : Spells scope .sum cs nesting t) :
    Spells scope .application (f.name.toList ++ '(' :: cs ++ [')']) (nesting + 1) (.call f t) := by
  intro offset opens rest hrest hdepth
  have hends : WordEnds ('(' :: cs ++ ([')'] ++ rest)) := wordEnds_cons (by decide)
  obtain ⟨x, mid, hrole, hrank, hreadsname⟩ := reads_function f hends
  obtain ⟨ranked, stop, hderives, hsegment, hreads⟩ := h.group mid opens rest hrest hdepth
  refine ⟨x :: ranked, stop, ?_, .call hrole hrank (by omega) hsegment, ?_⟩
  · rw [List.map_cons, hrole]
    exact .call hderives
  · rw [List.append_assoc] at hreads
    rw [List.append_assoc, List.append_assoc]
    exact hreadsname.append hreads

theorem literal (n : Fin Binary64.infinityOrdinal) :
    Spells scope .atom (Expression.literalChars n) nesting (.const ⟨false, .finite n⟩) := by
  obtain ⟨hchars, ⟨c, cs, hliteral, -⟩, -⟩ := Expression.literalChars_spec n
  refine operand ?_ (fun c hc => isWordChar_of_startsNumber (hchars c hc)) fun depth =>
    scope.resolve?_literalChars depth n
  rw [hliteral]
  exact List.cons_ne_nil c cs

theorem zero : Spells scope .atom "0.0".toList nesting .zero := by
  have h : Spells scope .atom _ nesting _ := literal ⟨0, by decide⟩
  have hchars : Expression.literalChars 0 = "0.0".toList := by decide
  rw [← hchars]
  exact h

theorem one : Spells scope .atom "1.0".toList nesting .one := by
  obtain ⟨n, hchars, hone⟩ : ∃ n : Fin Binary64.infinityOrdinal,
      Expression.literalChars n = "1.0".toList ∧ (.one : Expression) = .const ⟨false, .finite n⟩ :=
    ⟨⟨Decimal.ordinal ⟨1, 0⟩, by decide +kernel⟩, by decide +kernel, by decide +kernel⟩
  rw [← hchars, hone]
  exact literal n

end Spells

/-! ## Names and constants -/

/-- A name that the reader takes for the name of a variable, once the variable is declared. -/
structure ReadableName (name : String) : Prop where
  wordChars : ∀ c ∈ name.toList, Token.isWordChar c = true
  notBlank : Text.allBlank name.toList = false
  lower : Text.lowercase name = name
  notNumber : ∀ c ∈ name.toList.head?, Scope.startsNumber c = false
  notFunction : Elementary.ofSpelling? name = none

theorem readableName_x : ReadableName "x" where
  wordChars := by simp; decide
  notBlank := by decide
  lower := by decide +kernel
  notNumber := by simp; decide
  notFunction := by decide

theorem Spells.name {scope : Scope} {name : String} {nesting : Nat} (h : ReadableName name)
    (hscope : scope.get? name = some .var) :
    Spells scope .atom name.toList nesting (.var name) := by
  obtain ⟨c, cs, hname⟩ : ∃ c cs, name.toList = c :: cs := by
    cases hname : name.toList with
    | nil =>
      have hblank := h.notBlank
      rw [hname] at hblank
      cases hblank
    | cons c cs => exact ⟨c, cs, rfl⟩
  have hstart : Scope.startsNumber c = false := h.notNumber c (by rw [hname]; rfl)
  refine operand (by rw [hname]; exact List.cons_ne_nil c cs) h.wordChars fun depth => ?_
  have hoperator : Operator.ofText? name = none := Token.ofText?_eq_none_of_isWordChar h.wordChars
  rw [String.ofList_toList, h.lower]
  simp only [Scope.resolve?, hoperator, h.notFunction, Scope.meaning?_of_not_startsNumber hname hstart, hscope]

namespace Tree

/-- The constants of a tree. -/
def constants {K : Type} : Tree K → List K
  | .const value => [value]
  | .var _ => []
  | .binary _ left right => left.constants ++ right.constants
  | .call _ arg => arg.constants

end Tree

namespace Expression

open Binary64

/-- The tree that the text of a constant is read as. A constant without a literal is read as the operation
that it is printed as, and the negative zero as zero. -/
def rereadConstant (value : Binary64) : Expression :=
  match value.magnitude with
  | .nan => .binary .div .zero .zero
  | .infinite =>
    if value.negative then .binary .sub .zero (.binary .div .one .zero) else .binary .div .one .zero
  | .finite n =>
    if value.negative && n.val != 0 then .binary .sub .zero (.const ⟨false, .finite n⟩)
    else .const ⟨false, .finite n⟩

/-- The tree that the text of a tree is read as. -/
def reread : Expression → Expression
  | .const value => rereadConstant value
  | .var name => .var name
  | .binary op left right => .binary op (reread left) (reread right)
  | .call f arg => .call f (reread arg)

/-- The number of groups inside each other in the text of a constant. -/
def constantNesting (value : Binary64) : Nat :=
  match value.magnitude with
  | .nan => 1
  | .infinite => if value.negative then 2 else 1
  | .finite n => if value.negative && n.val != 0 then 1 else 0

/-- The number of groups inside each other in the text of a tree. -/
def nesting : Expression → Nat
  | .const value => constantNesting value
  | .var _ => 0
  | .binary _ left right => max (nesting left) (nesting right) + 1
  | .call _ arg => nesting arg + 1

variable {scope : Scope}

theorem spells_constantChars (value : Binary64) :
    Spells scope .atom (constantChars value) (constantNesting value) (rereadConstant value) := by
  have hinfinity : Spells scope .sum ("1.0".toList ++ Operator.div.symbol :: "0.0".toList) 0
      (.binary .div .one .zero) := .binary_of_atoms .one .zero
  obtain ⟨negative, magnitude⟩ := value
  cases magnitude with
  | nan =>
    have hnan : Spells scope .sum ("0.0".toList ++ Operator.div.symbol :: "0.0".toList) 0
        (.binary .div .zero .zero) := .binary_of_atoms .zero .zero
    exact hnan.group
  | infinite =>
    cases negative with
    | false => exact hinfinity.group
    | true =>
      have hnegative : Spells scope .sum ("0.0".toList ++ Operator.sub.symbol ::
          ('(' :: ("1.0".toList ++ Operator.div.symbol :: "0.0".toList) ++ [')'])) 1
          (.binary .sub .zero (.binary .div .one .zero)) := .binary_of_atoms .zero hinfinity.group
      exact hnegative.group
  | finite n =>
    by_cases hsign : (negative && n.val != 0) = true
    · have hnegative : Spells scope Operator.sub.category ('-' :: literalChars n) 0
          (.binary .sub .zero (.const ⟨false, .finite n⟩)) :=
        .leading ((Spells.literal n).of_level_le (Category.level_le_atom _))
      simp only [constantChars, constantNesting, rereadConstant, if_pos hsign]
      exact Spells.group hnegative
    · simp only [constantChars, constantNesting, rereadConstant, if_neg hsign]
      exact Spells.literal n

/-- The text of a tree spells the tree that it is read as. The induction is on the tree; operands and
arguments are groups or single words, hence atoms. -/
theorem spells_chars {t : Expression} (hnames : ∀ name, t.dependsOn name = true →
    ReadableName name ∧ scope.get? name = some .var) :
    Spells scope .application (chars t) (nesting t) (reread t) := by
  induction t with
  | const value => exact (spells_constantChars value).of_level_le (Category.level_le_atom _)
  | var name =>
    obtain ⟨hname, hscope⟩ := hnames name (by simp [Tree.dependsOn])
    exact (Spells.name hname hscope).of_level_le (Category.level_le_atom _)
  | binary op left right ihleft ihright =>
    have hleft := ihleft fun name h => hnames name (by simp [Tree.dependsOn, h])
    have hright := ihright fun name h => hnames name (by simp [Tree.dependsOn, h])
    have hbinary : Spells scope op.category (chars left ++ op.symbol :: chars right)
        (max (nesting left) (nesting right)) (.binary op (reread left) (reread right)) :=
      .binary ((hleft.mono (Nat.le_max_left _ _)).of_level_le (by cases op <;> decide))
        ((hright.mono (Nat.le_max_right _ _)).of_level_le (by cases op <;> decide))
    have hgroup := (hbinary.of_level_le (Category.sum_level_le _)).group
    rw [← List.cons_append] at hgroup
    exact hgroup.of_level_le (Category.level_le_atom _)
  | call f arg ih =>
    have harg := ih fun name h => hnames name (by simpa [Tree.dependsOn] using h)
    exact (harg.of_level_le (Category.sum_level_le _)).call

theorem allBlank_literalChars (n : Fin infinityOrdinal) : Text.allBlank (literalChars n) = false := by
  obtain ⟨hchars, ⟨c, cs, hliteral, -⟩, -⟩ := literalChars_spec n
  have hc := isBlank_of_startsNumber (hchars c (by rw [hliteral]; exact List.mem_cons_self))
  rw [hliteral, Text.allBlank, List.all_cons, hc, Bool.false_and]

theorem allBlank_chars {t : Expression} (hnames : ∀ name, t.dependsOn name = true → ReadableName name) :
    Text.allBlank (chars t) = false := by
  cases t with
  | const value =>
    simp only [chars, constantChars]
    split
    · rfl
    · split <;> rfl
    next n _ =>
      split
      · rfl
      · exact allBlank_literalChars n
  | var name => exact (hnames name (by simp [Tree.dependsOn])).notBlank
  | binary op left right => rfl
  | call f arg => cases f <;> rfl

theorem compile_text_eq_ofRanked {t : Expression} {names : List String} {ranked : List RankedToken}
    {stop : Nat} (hblank : Text.allBlank (chars t) = false)
    (hreads : Cursor.Reads (.ofVariables names) ⟨0, [], chars t ++ []⟩ ranked ⟨stop, [], []⟩) :
    compile t.text names = ofRanked ranked := by
  have htokens : tokenize t.text = .ok (Token.scan 0 (chars t)) := by simp [tokenize, text, hblank]
  have hend : Cursor.tokens (.ofVariables names) ⟨stop, [], []⟩ = .ok [] := by
    simp [Cursor.tokens, Token.scan, RankedToken.rankAfter]
  have hranked : RankedToken.ofTokens (.ofVariables names) (Token.scan 0 (chars t)) = .ok ranked := by
    unfold Cursor.Reads at hreads
    rw [hend, List.append_nil] at hreads
    simpa [Functor.map, Except.map, Cursor.tokens, RankedToken.ofTokens] using hreads
  simp [compile, compileIn, htokens, hranked, bind, Except.bind]

/-- The text of a tree with readable names compiles, whichever further names are declared, and it compiles to
the tree that it is read as. -/
theorem compile_text_eq_reread {t : Expression} {names : List String}
    (hnames : ∀ name, t.dependsOn name = true → ReadableName name ∧ name ∈ names.map Text.lowercase)
    (hnesting : nesting t < 2 ^ 30) : compile t.text names = .ok (reread t) := by
  have hscope : ∀ name, t.dependsOn name = true →
      ReadableName name ∧ (Scope.ofVariables names).get? name = some .var :=
    fun name h => ⟨(hnames name h).1, (Scope.get?_ofVariables names name).trans (if_pos (hnames name h).2)⟩
  obtain ⟨ranked, stop, hderives, hsegment, hreads⟩ := spells_chars hscope 0 [] []
    Cursor.wordEnds_nil (by simpa using hnesting)
  obtain ⟨-, hreadsAs⟩ := hderives.readsAs rfl hsegment
  rw [compile_text_eq_ofRanked (allBlank_chars fun name h => (hnames name h).1) hreads]
  simp [ofRanked, hreadsAs.tree?_eq, Except.map]

theorem reread_eq_self {t : Expression}
    (hconst : ∀ value ∈ t.constants, value.negative = false ∧ ∃ n, value.magnitude = .finite n) :
    reread t = t := by
  induction t with
  | const value =>
    obtain ⟨hsign, n, hn⟩ := hconst value (by simp [Tree.constants])
    obtain ⟨negative, magnitude⟩ := value
    cases hsign
    cases hn
    rfl
  | var name => rfl
  | binary op left right ihleft ihright =>
    rw [reread, ihleft fun value h => hconst value (by simp [Tree.constants, h]),
      ihright fun value h => hconst value (by simp [Tree.constants, h])]
  | call f arg ih => rw [reread, ih fun value h => hconst value (by simpa [Tree.constants] using h)]

/-- A tree whose constants are all finite and without a minus sign, and whose names are readable and declared,
compiles from its text as exactly the same tree. Ranks have 32 bits, and they wrap around in a text that
nests 2^30 groups. -/
theorem compile_text {t : Expression} {names : List String}
    (hconst : ∀ value ∈ t.constants, value.negative = false ∧ ∃ n, value.magnitude = .finite n)
    (hnames : ∀ name, t.dependsOn name = true → ReadableName name ∧ name ∈ names.map Text.lowercase)
    (hnesting : nesting t < 2 ^ 30) : compile t.text names = .ok t := by
  rw [compile_text_eq_reread hnames hnesting, reread_eq_self hconst]

/-- The sum of a call and a constant, read back with its variable declared in upper case and beside another. -/
theorem compile_text_sin_add_one :
    compile (text (.binary .add (.call .sin (.var "x")) .one)) ["X", "y"] =
      .ok (.binary .add (.call .sin (.var "x")) .one) := by
  refine compile_text ?_ ?_ (by decide +kernel)
  · intro value hvalue
    have hone : value = Arithmetic.one := by simpa [Tree.constants, Tree.one] using hvalue
    rw [hone]
    exact ⟨rfl, ⟨Decimal.ordinal ⟨1, 0⟩, by decide +kernel⟩, by decide +kernel⟩
  · intro name hname
    have hx : name = "x" := by simpa [Tree.dependsOn, Tree.one, eq_comm] using hname
    subst hx
    exact ⟨readableName_x, by decide +kernel⟩

/-! ## The bound on the nesting -/

/-- A function applied `n` times over, at last to 0. -/
def iterateCall (f : Elementary) : Nat → Expression
  | 0 => .zero
  | n + 1 => .call f (iterateCall f n)

theorem nesting_iterateCall (f : Elementary) (n : Nat) : nesting (iterateCall f n) = n := by
  induction n with
  | zero => exact show nesting .zero = 0 by decide
  | succ n ih => rw [iterateCall, nesting, ih]

theorem dependsOn_iterateCall (f : Elementary) (n : Nat) (name : String) :
    (iterateCall f n).dependsOn name = false := by
  induction n with
  | zero => rfl
  | succ n ih => exact ih

/-- In the tokens of an iterated call only operands and parentheses stand behind the innermost function, and the
other functions stand before it. -/
theorem exists_reads_iterateCall (f : Elementary) (n : Nat) {offset : Nat} {opens : List Span}
    {rest : List Char} :
    ∃ before x after offset', x.role = .call f ∧ x.rank = .ofCall (opens.length + n) ∧
      (∀ t ∈ after, t.rank = .leaf) ∧ (0 < n → ∃ y ys, before = y :: ys ∧ y.isOpen = false) ∧
      Cursor.Reads scope ⟨offset, opens, chars (iterateCall f (n + 1)) ++ rest⟩ (before ++ x :: after)
        ⟨offset', opens, rest⟩ := by
  have hends (cs : List Char) : Cursor.WordEnds ('(' :: cs) := Cursor.wordEnds_cons (by decide)
  induction n generalizing offset opens rest with
  | zero =>
    have hchars : chars (iterateCall f 1) ++ rest =
        f.name.toList ++ '(' :: (literalChars 0 ++ ')' :: rest) := by
      have hzero : chars (iterateCall f 0) = literalChars 0 := show chars .zero = _ by decide
      simp [iterateCall, chars, ← hzero]
    have hnumber : Cursor.WordEnds (')' :: rest) := Cursor.wordEnds_cons (by decide)
    obtain ⟨x, o₁, hrole, hrank, hname⟩ := Cursor.reads_function f (hends _)
    obtain ⟨start, place, o₂, hstart, hleafstart, hopen⟩ := Cursor.reads_open
    have hresolve := scope.resolve?_literalChars (place :: opens).length ⟨0, by decide⟩
    obtain ⟨arg, o₃, harg, hleafarg, hword⟩ :=
      Cursor.reads_word (by decide) (List.all_eq_true.1 (by decide)) hnumber hresolve
    obtain ⟨close, o₄, hclose, hleafclose, hlast⟩ := Cursor.reads_close
    refine ⟨[], x, [start, arg, close], o₄, hrole, hrank, ?_, by simp, ?_⟩
    · simp [hleafstart, hleafarg, hleafclose]
    · rw [hchars]
      exact hname.append (hopen.append (hword.append hlast))
  | succ n ih =>
    have hchars : chars (iterateCall f (n + 2)) ++ rest =
        f.name.toList ++ '(' :: (chars (iterateCall f (n + 1)) ++ ')' :: rest) := by
      simp [iterateCall, chars]
    obtain ⟨outer, o₁, hrole, hrank, hname⟩ := Cursor.reads_function f (hends _)
    obtain ⟨start, place, o₂, hstart, hleafstart, hopen⟩ := Cursor.reads_open
    obtain ⟨before, x, after, o₃, hx, hrankx, hafter, -, hreads⟩ := @ih o₂ (place :: opens) (')' :: rest)
    obtain ⟨close, o₄, hclose, hleafclose, hlast⟩ := Cursor.reads_close
    refine ⟨outer :: start :: before, x, after ++ [close], o₄, hx, ?_, ?_, ?_, ?_⟩
    · rw [hrankx, List.length_cons]
      congr 1
      omega
    · intro t ht
      rcases List.mem_append.1 ht with ht | ht
      · exact hafter t ht
      · rw [List.mem_singleton.1 ht, hleafclose]
    · exact fun _ => ⟨outer, start :: before, rfl, by simp [RankedToken.isOpen, hrole]⟩
    · rw [hchars]
      have hall := hname.append (hopen.append (hreads.append hlast))
      simpa using hall

/-- The bound of `compile_text` is exact. In 2^30 calls inside each other the rank of the innermost one wraps
around to 0, which makes that function the root, and it cannot take what stands before it. -/
theorem compile_text_iterateCall_ne_ok (f : Elementary) {n : Nat}
    (hnesting : nesting (iterateCall f n) = 2 ^ 30) (names : List String) (t : Expression) :
    compile (text (iterateCall f n)) names ≠ .ok t := by
  rw [nesting_iterateCall] at hnesting
  obtain ⟨m, rfl⟩ : ∃ m, n = m + 1 := ⟨n - 1, by omega⟩
  intro hcompile
  obtain ⟨before, x, after, stop, hrole, hrank, hafter, hbefore, hreads⟩ :=
    @exists_reads_iterateCall (.ofVariables names) f m 0 [] []
  obtain ⟨y, ys, rfl, hyopen⟩ := hbefore (by omega)
  have hblank : Text.allBlank (chars (iterateCall f (m + 1))) = false :=
    allBlank_chars fun name h => by simp [dependsOn_iterateCall] at h
  rw [compile_text_eq_ofRanked hblank hreads] at hcompile
  obtain ⟨hopen, hclose⟩ := x.not_paren (by simp [hrole]) (by simp [hrole])
  have hzero : x.rank.toNat = 0 := by
    rw [hrank]
    simp only [Rank.ofCall, Rank.toNat, Rank.perDepth, List.length_nil, UInt32.toNat_add,
      UInt32.toNat_mul, UInt32.toNat_ofNat, UInt32.toNat_ofNat']
    omega
  have hsplit : Stretch.splitAtRoot? (Stretch.stripParens (y :: ys ++ x :: after)) =
      some ((y :: ys).dropWhile RankedToken.isOpen, x,
        (after.reverse.dropWhile RankedToken.isClose).reverse) := by
    rw [Stretch.stripParens_append_cons hopen hclose]
    refine Stretch.splitAtRoot?_append_cons (fun u hu => by omega) (fun u hu => ?_)
    have hmem := (List.dropWhile_sublist _).subset (List.mem_reverse.1 hu)
    rw [hafter u (List.mem_reverse.1 hmem), hzero, Rank.toNat]
    decide
  unfold ofRanked at hcompile
  cases htree : Stretch.tree? (y :: ys ++ x :: after) with
  | error e =>
    rw [htree] at hcompile
    cases hcompile
  | ok result =>
    obtain ⟨left, right, u, hleft, -, hjoin, -⟩ := Stretch.exists_join_of_tree? hsplit htree
    obtain ⟨rfl, -⟩ := Stretch.join_call hrole hjoin
    have hnil := Stretch.eq_nil_of_tree?_eq_none hleft
    simp [hyopen] at hnil

end Expression

end SymbolicCalc
