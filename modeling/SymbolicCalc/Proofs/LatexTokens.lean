import SymbolicCalc.Proofs.Printing
import SymbolicCalc.Tree.Latex

/-!
# The tokens of a LaTeX text

Expressions in LaTeX are made of names and numbers, of the signs between operands, and of the marks that open and
close groups. No mark begins like another one, and no name or number goes on with the text of a mark, so a text can
be cut into its tokens from the left to the right in one way only. The exceptions are names and numbers of other
forms than the printer expects: the name `e` is taken for the exponential function where it is raised to a power,
and infinity is printed like a name.
-/

namespace SymbolicCalc

open Expression

/-- What a group stands for. -/
inductive Opening
  | parens
  | fraction
  | call (f : Elementary)
deriving DecidableEq, Repr

/-- A token of a LaTeX text. -/
inductive LatexToken
  /-- A constant or a variable. -/
  | leaf (t : Expression)
  /-- An operator that stands between its operands. -/
  | sign (op : Operator)
  | opening (o : Opening)
  /-- The start of the exponent of the operand before it. -/
  | raise
  /-- The brace before the denominator of a fraction. -/
  | brace
  /-- The end of a group. -/
  | close
deriving DecidableEq, Repr

namespace LatexToken

/-- The text before the argument of a function. -/
def callHead (f : Elementary) : String :=
  match f with
  | .sqrt => "\\sqrt\x7b"
  | .abs => "\\left|"
  | .exp => "e^\x7b"
  | .ln => "\\ln\\left("
  | .log10 => "\\log_\x7b10\x7d\\left("
  | .sign => "\\operatorname\x7bsign\x7d\\left("
  | .asin => "\\arcsin\\left("
  | .acos => "\\arccos\\left("
  | .atan => "\\arctan\\left("
  | f => "\\" ++ f.name ++ "\\left("

/-- The text after the argument of a function. -/
def callEnd (f : Elementary) : String :=
  match f with
  | .sqrt | .exp => "\x7d"
  | .abs => "\\right|"
  | _ => "\\right)"

theorem toList_latexCall (f : Elementary) (arg : String) :
    (latexCall f arg).toList = (callHead f).toList ++ (arg.toList ++ (callEnd f).toList) := by
  cases f <;> simp [latexCall, latexGroup, latexParens, callHead, callEnd, Elementary.name]

/-- The tokens that are always written in the same way. -/
def marks : List (List Char × LatexToken) :=
  [("\\pi".toList, .leaf (.const Binary64.pi)), (" + ".toList, .sign .add), (" - ".toList, .sign .sub),
   (" \\cdot ".toList, .sign .mul), (" \\bmod ".toList, .sign .mod), ("^\x7b".toList, .raise),
   ("\x7b".toList, .brace), ("\x7d".toList, .close), ("\\right)".toList, .close), ("\\right|".toList, .close),
   ("\\left(".toList, .opening .parens), ("\\frac\x7b".toList, .opening .fraction)] ++
  Elementary.all.map fun f => ((callHead f).toList, .opening (.call f))

/-- Whether a character may stand in a name or a number. -/
def isWordChar (c : Char) : Bool :=
  !" \\^\x7b\x7d".toList.contains c

/-- The constant or the variable that a word means. -/
def leafOf (word : List Char) : Expression :=
  if word.head?.any Char.isAlpha then .var (String.ofList word)
  else
    match Number.read word with
    | .ok value => .const value
    | .error _ => .var (String.ofList word)

/-- The mark that a text starts with. -/
def mark? (cs : List Char) : Option (List Char × LatexToken) :=
  marks.find? fun mark => mark.1.isPrefixOf cs

/-- The tokens of a text. -/
def scan : List Char → List LatexToken
  | [] => []
  | c :: cs =>
    match mark? (c :: cs) with
    | some (text, token) => token :: scan (cs.drop (text.length - 1))
    | none => .leaf (leafOf ((c :: cs).takeWhile isWordChar)) :: scan (cs.dropWhile isWordChar)
termination_by cs => cs.length
decreasing_by
  · simp only [List.length_drop, List.length_cons]
    omega
  · exact Nat.lt_succ_of_le (List.dropWhile_sublist _).length_le

/-! ## Marks -/

/-- A text does not go on with a word. -/
def Boundary (cs : List Char) : Prop :=
  cs.head?.all (fun c => !isWordChar c) = true

instance (cs : List Char) : Decidable (Boundary cs) :=
  inferInstanceAs (Decidable (cs.head?.all (fun c => !isWordChar c) = true))

theorem boundary_nil : Boundary [] := rfl

theorem Boundary.head {cs : List Char} (h : Boundary cs) : ∀ c ∈ cs.head?, isWordChar c = false := by
  intro c hc
  have hall := (Option.all_eq_true _ _).1 h c hc
  rwa [Bool.not_eq_true'] at hall

theorem Boundary.append {cs : List Char} (h : Boundary cs) (hne : cs ≠ []) (ds : List Char) :
    Boundary (cs ++ ds) := by
  obtain ⟨c, cs, rfl⟩ := List.exists_cons_of_ne_nil hne
  exact h

/-- No mark begins like another one. -/
theorem marks_prefixFree :
    ∀ mark ∈ marks, ∀ other ∈ marks, mark.1.isPrefixOf other.1 = true → mark = other := by
  decide +kernel

/-- All marks but one start with a character that ends a word. -/
theorem marks_head : ∀ mark ∈ marks, mark.1 ≠ [] ∧ (Boundary mark.1 ∨ mark.1 = "e^\x7b".toList) := by
  decide +kernel

theorem callHead_mem_marks (f : Elementary) : ((callHead f).toList, opening (.call f)) ∈ marks := by
  have hall : f ∈ Elementary.all := by cases f <;> decide
  exact List.mem_append_right _ (List.mem_map_of_mem hall)

/-- A group ends in one of three ways. -/
theorem ends_mem_marks : ∀ text ∈ ["\x7d", "\\right)", "\\right|"],
    (text.toList, close) ∈ marks ∧ Boundary text.toList := by
  decide +kernel

theorem callEnd_mem_ends (f : Elementary) : callEnd f ∈ ["\x7d", "\\right)", "\\right|"] := by
  cases f <;> simp [callEnd]

/-- The mark that a text starts with is found, whatever follows it. -/
theorem mark?_append {mark : List Char × LatexToken} (h : mark ∈ marks) (rest : List Char) :
    mark? (mark.1 ++ rest) = some mark := by
  have hself : mark.1.isPrefixOf (mark.1 ++ rest) = true :=
    List.isPrefixOf_iff_prefix.2 (List.prefix_append _ _)
  have hsome : (mark? (mark.1 ++ rest)).isSome = true := List.find?_isSome.2 ⟨mark, h, hself⟩
  obtain ⟨other, hother⟩ := Option.isSome_iff_exists.1 hsome
  have hmem := List.mem_of_find?_eq_some hother
  have hfound := List.find?_some (p := fun mark : List Char × LatexToken => mark.1.isPrefixOf _) hother
  have hstart := List.isPrefixOf_iff_prefix.1 hfound
  rcases List.prefix_or_prefix_of_prefix hstart (List.prefix_append mark.1 rest) with hle | hle
  · rw [hother, marks_prefixFree other hmem mark h (List.isPrefixOf_iff_prefix.2 hle)]
  · rw [hother, marks_prefixFree mark h other hmem (List.isPrefixOf_iff_prefix.2 hle)]

theorem scan_mark {text : List Char} {token : LatexToken} (h : (text, token) ∈ marks) (rest : List Char) :
    scan (text ++ rest) = token :: scan rest := by
  have hmark := mark?_append h rest
  obtain ⟨c, cs, rfl⟩ := List.exists_cons_of_ne_nil (marks_head _ h).1
  have hdrop : (cs ++ rest).drop ((c :: cs).length - 1) = rest := by simp
  rw [List.cons_append] at hmark ⊢
  rw [scan, hmark]
  exact congrArg (fun rest => token :: scan rest) hdrop

/-! ## Words -/

/-- A word is not taken for a mark, unless it is the name `e`. -/
theorem mark?_word {word : List Char} (hne : word ≠ []) (hword : ∀ c ∈ word, isWordChar c = true)
    (he : word ≠ ['e']) (rest : List Char) : mark? (word ++ rest) = none := by
  obtain ⟨c, cs, rfl⟩ := List.exists_cons_of_ne_nil hne
  refine List.find?_eq_none.2 fun mark hmark hstart => ?_
  obtain ⟨hnonempty, hhead | htext⟩ := marks_head mark hmark
  · obtain ⟨d, ds, hds⟩ := List.exists_cons_of_ne_nil hnonempty
    rw [hds, List.cons_append, List.isPrefixOf_iff_prefix, List.cons_prefix_cons] at hstart
    have hd := hhead.head d (by rw [hds]; rfl)
    rw [hstart.1, hword c List.mem_cons_self] at hd
    cases hd
  · have hlist : mark.1 = ['e', '^', '\x7b'] := htext
    rw [hlist, List.cons_append, List.isPrefixOf_iff_prefix, List.cons_prefix_cons] at hstart
    obtain ⟨rfl, hstart⟩ := hstart
    -- The second character of the mark ends a word, so the word would be `e`.
    cases cs with
    | nil => exact he rfl
    | cons d ds =>
      rw [List.cons_append, List.cons_prefix_cons] at hstart
      have hd := hword d (List.mem_cons_of_mem _ List.mem_cons_self)
      rw [← hstart.1] at hd
      revert hd
      decide

theorem scan_word {word rest : List Char} (hne : word ≠ []) (hword : ∀ c ∈ word, isWordChar c = true)
    (he : word ≠ ['e']) (hrest : Boundary rest) : scan (word ++ rest) = leaf (leafOf word) :: scan rest := by
  have hmark := mark?_word hne hword he rest
  obtain ⟨htake, hdrop⟩ := span_word hword rest hrest.head
  obtain ⟨c, cs, rfl⟩ := List.exists_cons_of_ne_nil hne
  have hc := hword c List.mem_cons_self
  rw [List.cons_append] at hmark htake hdrop ⊢
  rw [List.dropWhile_cons_of_pos hc] at hdrop
  rw [scan, hmark]
  simp only
  rw [htake, hdrop]

/-! ## Texts and their tokens -/

/-- The text is cut into the tokens before any text that does not go on with the same word. -/
def Lexes (cs : List Char) (tokens : List LatexToken) : Prop :=
  ∀ rest, Boundary rest → scan (cs ++ rest) = tokens ++ scan rest

namespace Lexes

variable {cs ds text : List Char} {tokens others : List LatexToken} {token : LatexToken}

theorem nil : Lexes [] [] :=
  fun _ _ => rfl

theorem append (h : Lexes cs tokens) (h' : Lexes ds others) (hne : ds ≠ []) (hhead : Boundary ds) :
    Lexes (cs ++ ds) (tokens ++ others) := by
  intro rest hrest
  rw [List.append_assoc, h _ (hhead.append hne rest), h' rest hrest, List.append_assoc]

/-- A mark may be followed by anything. -/
theorem mark_append (hmark : (text, token) ∈ marks) (h : Lexes cs tokens) :
    Lexes (text ++ cs) (token :: tokens) := by
  intro rest hrest
  rw [List.append_assoc, scan_mark hmark, h rest hrest, List.cons_append]

theorem append_mark (h : Lexes cs tokens) (hmark : (text, token) ∈ marks) (hhead : Boundary text)
    (h' : Lexes ds others) : Lexes (cs ++ (text ++ ds)) (tokens ++ token :: others) := by
  have hne := (marks_head _ hmark).1
  exact h.append (mark_append hmark h') (List.append_ne_nil_of_left_ne_nil hne ds) (hhead.append hne ds)

/-- A group is the text inside it between two marks. -/
theorem group {opening closing : List Char} {first : LatexToken} (hopening : (opening, first) ∈ marks)
    (h : Lexes cs tokens) (hclosing : (closing, close) ∈ marks) (hhead : Boundary closing) :
    Lexes (opening ++ (cs ++ closing)) (first :: (tokens ++ [close])) := by
  have hend := h.append_mark hclosing hhead nil
  rw [List.append_nil] at hend
  exact mark_append hopening hend

theorem braces {opening : List Char} {first : LatexToken} (h : Lexes cs tokens)
    (hopening : (opening, first) ∈ marks) :
    Lexes (opening ++ (cs ++ "\x7d".toList)) (first :: (tokens ++ [close])) :=
  group hopening h (ends_mem_marks "\x7d" (by decide)).1 (by decide)

theorem append_group {opening : List Char} {first : LatexToken} (h : Lexes cs tokens)
    (hopening : (opening, first) ∈ marks) (hhead : Boundary opening) (h' : Lexes ds others) :
    Lexes (cs ++ (opening ++ (ds ++ "\x7d".toList))) (tokens ++ first :: (others ++ [close])) := by
  have hne := (marks_head _ hopening).1
  exact h.append (h'.braces hopening) (List.append_ne_nil_of_left_ne_nil hne _) (hhead.append hne _)

end Lexes

end LatexToken

/-! ## Leaves -/

/-- A name of ASCII letters that is not taken for the base of a power. -/
structure IsLatexName (name : String) : Prop where
  nonempty : name ≠ ""
  letters : name.toList.all Char.isAlpha = true
  ne_euler : name ≠ "e"

namespace LatexToken

theorem isWordChar_of_isAlpha {c : Char} (h : c.isAlpha = true) : isWordChar c = true := by
  have hall : (" \\^\x7b\x7d".toList.all fun d => !d.isAlpha) = true := by decide
  rw [isWordChar, Bool.not_eq_true', List.contains_eq_mem, decide_eq_false_iff_not]
  intro hmem
  have hc := List.all_eq_true.1 hall c hmem
  rw [h] at hc
  cases hc

theorem isWordChar_of_startsNumber {c : Char} (h : Scope.startsNumber c = true) :
    isWordChar c = true ∧ c.isAlpha = false := by
  have hall : ("0123456789.".toList.all fun d => isWordChar d && !d.isAlpha) = true := by decide
  have hc := List.all_eq_true.1 hall c (mem_of_startsNumber h)
  rwa [Bool.and_eq_true, Bool.not_eq_true'] at hc

theorem lexes_name {name : String} (h : IsLatexName name) : Lexes name.toList [leaf (.var name)] := by
  intro rest hrest
  have hletters := List.all_eq_true.1 h.letters
  have hne : name.toList ≠ [] := fun hnil => h.nonempty (String.toList_eq_nil_iff.1 hnil)
  have hleaf : leafOf name.toList = .var name := by
    obtain ⟨c, cs, hcs⟩ := List.exists_cons_of_ne_nil hne
    have hhead : name.toList.head?.any Char.isAlpha = true := by
      rw [hcs]
      exact hletters c (by rw [hcs]; exact List.mem_cons_self)
    rw [leafOf, if_pos hhead, String.ofList_toList]
  rw [scan_word hne (fun c hc => isWordChar_of_isAlpha (hletters c hc))
    (fun he => h.ne_euler (String.toList_injective he)) hrest, hleaf]
  rfl

theorem isWordChar_of_mem_text {value : Binary64} {n : Fin Binary64.infinityOrdinal}
    (h : value.magnitude = .finite n) : ∀ c ∈ (Number.text value).toList, isWordChar c = true := by
  intro c hc
  rw [Number.toList_text h, List.mem_append] at hc
  rcases hc with hc | hc
  · split at hc
    · rw [List.mem_singleton.1 hc]
      decide
    · cases hc
  · exact (isWordChar_of_startsNumber ((Number.positional_spec n).1 c hc)).1

theorem exists_text_cons {value : Binary64} {n : Fin Binary64.infinityOrdinal} (h : value.magnitude = .finite n) :
    ∃ c cs, (Number.text value).toList = c :: cs ∧ c.isAlpha = false := by
  obtain ⟨-, ⟨c, cs, hdigits, hc⟩, -⟩ := Number.positional_spec n
  rw [Number.toList_text h, hdigits]
  split
  · exact ⟨'-', c :: cs, rfl, by decide⟩
  · exact ⟨c, cs, rfl, (isWordChar_of_startsNumber (startsNumber_of_isDigit hc)).2⟩

theorem lexes_constant {value : Binary64} {n : Fin Binary64.infinityOrdinal} (h : value.magnitude = .finite n) :
    Lexes (latexConstant value).toList [leaf (.const value)] := by
  unfold latexConstant
  split
  next hpi =>
    subst hpi
    have hpi : ("\\pi".toList, leaf (.const Binary64.pi)) ∈ marks := by decide +kernel
    exact Lexes.mark_append hpi Lexes.nil
  · obtain ⟨first, more, htext, hfirst⟩ := exists_text_cons h
    have hleaf : leafOf (Number.text value).toList = .const value := by
      have hhead : (Number.text value).toList.head?.any Char.isAlpha = false := by
        rw [htext]
        exact hfirst
      rw [leafOf, hhead, Number.read_text h]
      rfl
    intro rest hrest
    rw [scan_word (by rw [htext]; exact List.cons_ne_nil _ _) (isWordChar_of_mem_text h) ?_ hrest, hleaf]
    · rfl
    · rw [htext]
      rintro ⟨⟩
      cases hfirst

end LatexToken

namespace Expression

open LatexToken

/-- The constants of the tree are finite, and its variables have names of ASCII letters other than `e`. -/
def PlainLeaves : Expression → Prop
  | .const value => ∃ n, value.magnitude = .finite n
  | .var name => IsLatexName name
  | .binary _ left right => PlainLeaves left ∧ PlainLeaves right
  | .call _ arg => PlainLeaves arg

/-- The tokens of an operand, which stands in parentheses where it needs them. -/
def operandTokens (needed : Bool) (tokens : List LatexToken) : List LatexToken :=
  if needed then .opening .parens :: (tokens ++ [.close]) else tokens

/-- The tokens of an expression in LaTeX. -/
def latexTokens : Expression → List LatexToken
  | .const value => [.leaf (.const value)]
  | .var name => [.leaf (.var name)]
  | .call f arg => .opening (.call f) :: (latexTokens arg ++ [.close])
  | .binary op left right =>
    match op with
    | .div =>
      .opening .fraction :: (latexTokens left ++ [.close]) ++ .brace :: (latexTokens right ++ [.close])
    | .pow =>
      operandTokens (!isPlainBase left) (latexTokens left) ++ .raise :: (latexTokens right ++ [.close])
    | op =>
      operandTokens (needsParens op .left left) (latexTokens left) ++
        .sign op :: operandTokens (needsParens op .right right) (latexTokens right)

theorem lexes_operand {body : String} {tokens : List LatexToken} (needed : Bool)
    (h : Lexes body.toList tokens) :
    Lexes (if needed then latexParens body else body).toList (operandTokens needed tokens) := by
  cases needed with
  | false => exact h
  | true =>
    have hopen : ("\\left(".toList, LatexToken.opening .parens) ∈ marks := by decide +kernel
    obtain ⟨hend, hboundary⟩ := ends_mem_marks "\\right)" (by decide)
    have hgroup := Lexes.group hopen h hend hboundary
    simpa [latexParens, operandTokens] using hgroup

theorem lexes_sign {op : Operator} {before after : String} {tokens others : List LatexToken}
    (hop : op ∈ [Operator.add, .sub, .mul, .mod]) (h : Lexes before.toList tokens)
    (h' : Lexes after.toList others) :
    Lexes (before ++ latexSign op ++ after).toList (tokens ++ .sign op :: others) := by
  have hmark : ((latexSign op).toList, LatexToken.sign op) ∈ marks ∧ Boundary (latexSign op).toList := by
    revert op
    simp only [List.forall_mem_cons]
    decide +kernel
  have happend := h.append_mark hmark.1 hmark.2 h'
  simpa using happend

/-- An expression in LaTeX is cut into its tokens. -/
theorem lexes_latex {t : Expression} (h : PlainLeaves t) : Lexes t.latex.toList (latexTokens t) := by
  induction t with
  | const value =>
    obtain ⟨n, hn⟩ := h
    exact lexes_constant hn
  | var name => exact lexes_name h
  | call f arg ih =>
    obtain ⟨hend, hboundary⟩ := ends_mem_marks (callEnd f) (callEnd_mem_ends f)
    rw [latex, toList_latexCall]
    exact Lexes.group (callHead_mem_marks f) (ih h) hend hboundary
  | binary op left right ihleft ihright =>
    have hleft := ihleft h.1
    have hright := ihright h.2
    cases op with
    | add => exact lexes_sign (by decide) (lexes_operand _ hleft) (lexes_operand _ hright)
    | sub => exact lexes_sign (by decide) (lexes_operand _ hleft) (lexes_operand _ hright)
    | mul => exact lexes_sign (by decide) (lexes_operand _ hleft) (lexes_operand _ hright)
    | mod => exact lexes_sign (by decide) (lexes_operand _ hleft) (lexes_operand _ hright)
    | div =>
      have hopen : ("\\frac\x7b".toList, LatexToken.opening .fraction) ∈ marks := by decide +kernel
      have hbrace : ("\x7b".toList, LatexToken.brace) ∈ marks := by decide +kernel
      have hfraction := (hleft.braces hopen).append_group hbrace (by decide) hright
      simpa [latex, latexGroup, latexTokens] using hfraction
    | pow =>
      have hraise : ("^\x7b".toList, LatexToken.raise) ∈ marks := by decide +kernel
      have hbase : Lexes (if isPlainBase left then latex left else latexParens (latex left)).toList
          (operandTokens (!isPlainBase left) (latexTokens left)) := by
        have hoperand := lexes_operand (!isPlainBase left) hleft
        cases hplain : isPlainBase left <;> simpa [hplain] using hoperand
      have hpower := hbase.append_group hraise (by decide) hright
      simpa [latex, latexGroup, latexTokens] using hpower

/-- Expressions with the same text in LaTeX have the same tokens. -/
theorem latexTokens_eq_of_latex_eq {t t' : Expression} (ht : PlainLeaves t) (ht' : PlainLeaves t')
    (h : t.latex = t'.latex) : latexTokens t = latexTokens t' := by
  have htext : scan t.latex.toList = scan t'.latex.toList := by rw [h]
  have hcut {t : Expression} (ht : PlainLeaves t) : scan t.latex.toList = latexTokens t := by
    simpa [scan] using lexes_latex ht [] boundary_nil
  rwa [hcut ht, hcut ht'] at htext

end Expression

end SymbolicCalc
