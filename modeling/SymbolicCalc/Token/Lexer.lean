import SymbolicCalc.Token.Basic
import SymbolicCalc.SyntaxError
import SymbolicCalc.Text.Blank

/-!
# Splitting a source text into tokens

Operators and parentheses are tokens by themselves. Separators (space, tab, carriage return, line feed
and form feed) stand between tokens and belong to none. Everything else is part of a word, and a word
reaches as far as it can. Other white space does not separate: it is part of the word it stands in.
-/

namespace SymbolicCalc

namespace Token

/-- Whether a character stands between tokens. -/
def isSeparator (c : Char) : Bool :=
  c = ' ' || c = '\t' || c = '\r' || c = '\n' || c = '\x0c'

/-- The token that a character is by itself. -/
def symbolKind? (c : Char) : Option TokenKind :=
  if c = '(' then some .openParen
  else if c = ')' then some .closeParen
  else (Operator.ofSymbol? c).map .operator

/-- Whether a character belongs to a word. -/
def isWordChar (c : Char) : Bool :=
  !isSeparator c && (symbolKind? c).isNone

/-- The symbol of an operator is no part of a word. -/
theorem isWordChar_symbol (op : Operator) : isWordChar op.symbol = false := by
  cases op <;> decide

theorem ofText?_eq_none_of_isWordChar {text : String} (h : ∀ c ∈ text.toList, isWordChar c = true) :
    Operator.ofText? text = none := by
  rw [Operator.ofText?_eq_none_iff]
  rintro op rfl
  have hword := h op.symbol (by simp)
  rw [isWordChar_symbol] at hword
  cases hword

theorem length_dropWhile_le {α : Type} (p : α → Bool) (l : List α) :
    (l.dropWhile p).length ≤ l.length :=
  (List.dropWhile_sublist p).length_le

/-- The tokens of a text whose first character stands at the byte offset `offset`. -/
def scan (offset : Nat) : List Char → List Token
  | [] => []
  | c :: cs =>
    if isSeparator c then scan (offset + c.utf8Size) cs
    else
      match symbolKind? c with
      | some kind =>
        ⟨⟨offset, offset + c.utf8Size⟩, kind, String.singleton c⟩ :: scan (offset + c.utf8Size) cs
      | none =>
        let word := c :: cs.takeWhile isWordChar
        let stop := offset + byteLength word
        ⟨⟨offset, stop⟩, .word, String.ofList word⟩ :: scan stop (cs.dropWhile isWordChar)
termination_by cs => cs.length
decreasing_by
  · simp
  · simp
  · exact Nat.lt_succ_of_le (length_dropWhile_le _ cs)

end Token

/-- The tokens of a source text. A text that holds only white space, of any kind, is refused. -/
def tokenize (source : String) : Except SyntaxError (List Token) :=
  let cs := source.toList
  if Text.allBlank cs then .error (.empty ⟨0, byteLength cs⟩) else .ok (Token.scan 0 cs)

/-! ## Laws -/

namespace Token

variable {c : Char} {kind : TokenKind} {offset : Nat} {cs : List Char} {token : Token}

theorem symbolKind?_cases (h : symbolKind? c = some kind) :
    (c = '(' ∧ kind = .openParen) ∨ (c = ')' ∧ kind = .closeParen) ∨ ∃ op, c = op.symbol ∧ kind = .operator op := by
  unfold symbolKind? at h
  split at h
  next hc =>
    cases h
    exact .inl ⟨hc, rfl⟩
  · split at h
    next hc =>
      cases h
      exact .inr (.inl ⟨hc, rfl⟩)
    · obtain ⟨op, hop, rfl⟩ := Option.map_eq_some_iff.1 h
      exact .inr (.inr ⟨op, (Operator.ofSymbol?_eq_some hop).symm, rfl⟩)

theorem isWordChar_of_none (hsep : ¬isSeparator c = true) (hsymbol : symbolKind? c = none) : isWordChar c = true := by
  simp [isWordChar, hsep, hsymbol]

/-- A word holds only what can be a part of it. -/
theorem forall_isWordChar_word (hc : isWordChar c = true) (cs : List Char) :
    ∀ d ∈ c :: cs.takeWhile isWordChar, isWordChar d = true :=
  List.forall_mem_cons.2 ⟨hc, fun d hd => List.all_eq_true.1 List.all_takeWhile d hd⟩

/-- Every token of a text is a symbol or a word. -/
theorem symbol_or_word_of_scan (h : token ∈ scan offset cs) :
    (∃ c, symbolKind? c = some token.kind ∧ token.lexeme = String.singleton c) ∨
      (token.kind = .word ∧ token.lexeme ≠ "" ∧ ∀ c ∈ token.lexeme.toList, isWordChar c = true) := by
  fun_induction scan offset cs with
  | case1 => cases h
  | case2 offset c cs hsep ih => exact ih h
  | case3 offset c cs hsep kind hsymbol ih =>
    rcases List.mem_cons.1 h with rfl | h
    · exact .inl ⟨c, hsymbol, rfl⟩
    · exact ih h
  | case4 offset c cs hsep hsymbol word stop ih =>
    rcases List.mem_cons.1 h with rfl | h
    · refine .inr ⟨rfl, by simp [word], ?_⟩
      rw [String.toList_ofList]
      exact forall_isWordChar_word (isWordChar_of_none hsep hsymbol) cs
    · exact ih h

/-- A word consists of word characters. -/
theorem isWordChar_of_scan (h : token ∈ scan offset cs) (hkind : token.kind = .word) :
    ∀ c ∈ token.lexeme.toList, isWordChar c = true := by
  rcases symbol_or_word_of_scan h with ⟨c, hsymbol, -⟩ | ⟨-, -, hchars⟩
  · rw [hkind] at hsymbol
    rcases symbolKind?_cases hsymbol with ⟨-, hword⟩ | ⟨-, hword⟩ | ⟨op, -, hword⟩
    · cases hword
    · cases hword
    · cases hword
  · exact hchars

end Token

section

variable {source : String} {tokens : List Token} {e : SyntaxError}

theorem tokenize_eq_ok_iff :
    tokenize source = .ok tokens ↔ Text.allBlank source.toList = false ∧ tokens = Token.scan 0 source.toList := by
  simp only [tokenize]
  cases Text.allBlank source.toList <;> simp [eq_comm]

theorem tokenize_eq_error_iff :
    tokenize source = .error e ↔
      Text.allBlank source.toList = true ∧ e = .empty ⟨0, byteLength source.toList⟩ := by
  simp only [tokenize]
  cases Text.allBlank source.toList <;> simp [eq_comm]

end

end SymbolicCalc
