import SymbolicCalc.Proofs.TrimmedText
import SymbolicCalc.Statement

/-!
# How statements are written

A line spells a statement if the parts of the statement stand in it one behind the other, with blanks of any kind
around them: a name and its expression with an equals sign between them, or a command with its arguments, which are
kept apart by at least one blank, or an expression alone. A name has no blank, equals sign or colon in it, so the parts
can be told apart, even where the expression has such characters itself; and an expression alone is read as one unless
it starts like a command or like an assignment.

Main results: a line is read as a statement exactly if it is a way to write it. So what is read are pieces of the line,
and written again they are read as the same statement.
-/

namespace SymbolicCalc

open Text

namespace Statement

/-- The texts that a statement holds. -/
def parts : Statement → List String
  | .assign name expr => [name, expr]
  | .derivative name expr => [name, expr]
  | .simplify expr => [expr]
  | .latex expr => [expr]
  | .evaluate expr => [expr]

/-- The names that a statement holds. -/
def names : Statement → List String
  | .assign name _ => [name]
  | .derivative name _ => [name]
  | .simplify _ | .latex _ | .evaluate _ => []

/-- The line that a statement is written as. -/
def text : Statement → String
  | .assign name expr => name ++ " = " ++ expr
  | .derivative name expr => ":d " ++ name ++ " " ++ expr
  | .simplify expr => ":s " ++ expr
  | .latex expr => ":latex " ++ expr
  | .evaluate expr => expr

/-- The text is no command and no assignment: no colon starts it, and what stands before its first equals sign, if it
has one, is no name. -/
structure PlainText (cs : List Char) : Prop where
  noColon : ∀ c ∈ cs.head?, c ≠ ':'
  noName : ∀ before after, cs = before ++ '=' :: after → '=' ∉ before → isIdentifier (trim before) = false

/-- The line is a way to write the statement, with blanks around its parts. -/
inductive WrittenAs : Statement → List Char → Prop
  | assign {name expr : String} {before mid mid' after : List Char} (hname : isIdentifier name.toList = true)
      (hexpr : Trimmed expr.toList) (hbefore : allBlank before = true) (hmid : allBlank mid = true)
      (hmid' : allBlank mid' = true) (hafter : allBlank after = true) :
      WrittenAs (.assign name expr) (before ++ (name.toList ++ mid ++ '=' :: (mid' ++ expr.toList)) ++ after)
  | derivative {name expr : String} {before mid mid' after : List Char} (hname : isIdentifier name.toList = true)
      (hexpr : Trimmed expr.toList) (hne : expr ≠ "") (hbefore : allBlank before = true) (hmid : allBlank mid = true)
      (hmid' : allBlank mid' = true) (hafter : allBlank after = true) (hmidne : mid ≠ []) (hmidne' : mid' ≠ []) :
      WrittenAs (.derivative name expr)
        (before ++ ([':', 'd'] ++ mid ++ name.toList ++ mid' ++ expr.toList) ++ after)
  | simplify {expr : String} {before mid after : List Char} (hexpr : Trimmed expr.toList) (hne : expr ≠ "")
      (hbefore : allBlank before = true) (hmid : allBlank mid = true) (hafter : allBlank after = true)
      (hmidne : mid ≠ []) : WrittenAs (.simplify expr) (before ++ ([':', 's'] ++ mid ++ expr.toList) ++ after)
  | latex {expr : String} {before mid after : List Char} (hexpr : Trimmed expr.toList) (hne : expr ≠ "")
      (hbefore : allBlank before = true) (hmid : allBlank mid = true) (hafter : allBlank after = true)
      (hmidne : mid ≠ []) :
      WrittenAs (.latex expr) (before ++ ([':', 'l', 'a', 't', 'e', 'x'] ++ mid ++ expr.toList) ++ after)
  | evaluate {expr : String} {before after : List Char} (hexpr : Trimmed expr.toList) (hplain : PlainText expr.toList)
      (hbefore : allBlank before = true) (hafter : allBlank after = true) :
      WrittenAs (.evaluate expr) (before ++ expr.toList ++ after)

/-! ## Names -/

variable {cs before mid mid' after args name : List Char} {c : Char} {line expr : String} {s : Statement}

theorem continuesName_of_isIdentifier (h : isIdentifier cs = true) : ∀ c ∈ cs, continuesName c = true := by
  cases cs with
  | nil => cases h
  | cons c cs =>
    rw [isIdentifier, Bool.and_eq_true, List.all_eq_true] at h
    refine List.forall_mem_cons.2 ⟨?_, h.2⟩
    rcases Bool.or_eq_true _ _ ▸ h.1 with hc | hc
    · simp [continuesName, hc]
    · simp [continuesName, hc]

theorem ne_nil_of_isIdentifier (h : isIdentifier cs = true) : cs ≠ [] := by
  rintro rfl
  cases h

/-- No blank is a letter, a numeral or an underscore. -/
theorem isBlank_of_continuesName (h : continuesName c = true) : isBlank c = false := by
  have hletters : alphabeticRanges.apart blankRanges = true := by decide +kernel
  have hnumerals : numericRanges.apart blankRanges = true := by decide +kernel
  simp only [continuesName, Bool.or_eq_true, decide_eq_true_eq] at h
  rcases h with (h | h) | rfl
  · exact CodeRanges.contains_of_apart hletters h
  · exact CodeRanges.contains_of_apart hnumerals h
  · decide

theorem isBlank_of_isIdentifier (h : isIdentifier cs = true) : ∀ c ∈ cs, isBlank c = false :=
  fun c hc => isBlank_of_continuesName (continuesName_of_isIdentifier h c hc)

theorem trimmed_of_isIdentifier (h : isIdentifier cs = true) : Trimmed cs :=
  trimmed_of_forall (isBlank_of_isIdentifier h)

theorem not_mem_of_isIdentifier (h : isIdentifier cs = true) (hc : continuesName c = false) : c ∉ cs := by
  intro hmem
  rw [continuesName_of_isIdentifier h c hmem] at hc
  cases hc

/-! ## Reading what is written -/

theorem parse_of_trim_plain (hline : trim line.toList = cs) (hcolon : ∀ c ∈ cs.head?, c ≠ ':') :
    parse line = .ok (ofPlain cs) := by
  unfold parse
  rw [hline]
  split
  next rest =>
    exact absurd rfl (hcolon ':' rfl)
  · rfl

theorem parse_of_trim_colon {rest word : List Char} (hline : trim line.toList = ':' :: rest)
    (hcut : (cutAt isBlank rest).getD (rest, []) = (word, args)) : parse line = ofColon word (trim args) := by
  unfold parse
  rw [hline]
  show ofColon ((cutAt isBlank rest).getD (rest, [])).1 (trim ((cutAt isBlank rest).getD (rest, [])).2) = _
  rw [hcut]

/-- Words are cut at the first blank, and the blanks that follow it are trimmed with the rest. -/
theorem cutAt_isBlank_append (hname : ∀ c ∈ name, isBlank c = false) (hmid : allBlank mid = true) (hne : mid ≠ [])
    (hargs : Trimmed args) :
    ∃ rest, cutAt isBlank (name ++ mid ++ args) = some (name, rest) ∧ trim rest = args := by
  obtain ⟨c, blanks, rfl⟩ := List.exists_cons_of_ne_nil hne
  rw [allBlank, List.all_cons, Bool.and_eq_true] at hmid
  refine ⟨blanks ++ args, ?_, ?_⟩
  · rw [List.append_assoc]
    exact cutAt_append hname hmid.1 (blanks ++ args)
  · have h := hargs.trim_append hmid.2 (rfl : allBlank [] = true)
    rwa [List.append_nil] at h

/-- A colon and a word before arguments make the command of that word. -/
theorem parse_of_colon {word : List Char} (hline : line.toList = before ++ (':' :: word ++ mid ++ args) ++ after)
    (hword : isIdentifier word = true) (hargs : Trimmed args) (hne : args ≠ []) (hbefore : allBlank before = true)
    (hmid : allBlank mid = true) (hafter : allBlank after = true) (hmidne : mid ≠ []) :
    parse line = ofColon word args := by
  have hends : Trimmed (':' :: word ++ mid ++ args) := by
    rw [List.cons_append]
    exact hargs.cons_append hne (by decide) (word ++ mid)
  have htrim : trim line.toList = ':' :: (word ++ mid ++ args) := by
    rw [hline]
    exact hends.trim_append hbefore hafter
  obtain ⟨rest, hcut, hrest⟩ := cutAt_isBlank_append (isBlank_of_isIdentifier hword) hmid hmidne hargs
  rw [parse_of_trim_colon htrim (congrArg (·.getD (word ++ mid ++ args, [])) hcut), hrest]

theorem ofColon_derivative (hname : isIdentifier name = true) (hmid : allBlank mid = true) (hmidne : mid ≠ [])
    (hargs : Trimmed args) (hne : args ≠ []) :
    ofColon ['d'] (name ++ mid ++ args) = .ok (.derivative (String.ofList name) (String.ofList args)) := by
  obtain ⟨rest, hcut, hrest⟩ := cutAt_isBlank_append (isBlank_of_isIdentifier hname) hmid hmidne hargs
  have hnonempty : (!args.isEmpty) = true := by
    rw [Bool.not_eq_true', List.isEmpty_eq_false_iff]
    exact hne
  simp only [ofColon, if_pos, hcut, hrest, hname, hnonempty, Bool.and_self]

/-- A line with an equals sign behind a name is an assignment. The line is trimmed, whether an expression follows the
equals sign or not. -/
theorem parse_of_equals (hline : line.toList = before ++ (name ++ mid ++ '=' :: (mid' ++ args)) ++ after)
    (hname : isIdentifier name = true) (hargs : Trimmed args) (hbefore : allBlank before = true)
    (hmid : allBlank mid = true) (hmid' : allBlank mid' = true) (hafter : allBlank after = true) :
    parse line = .ok (.assign (String.ofList name) (String.ofList args)) := by
  obtain ⟨c, cs, rfl⟩ := List.exists_cons_of_ne_nil (ne_nil_of_isIdentifier hname)
  have hblank : isBlank c = false := isBlank_of_isIdentifier hname c List.mem_cons_self
  have hcolon : c ≠ ':' := by
    rintro rfl
    exact not_mem_of_isIdentifier hname (by decide +kernel) List.mem_cons_self
  have hequals : ∀ d ∈ c :: cs ++ mid, decide (d = '=') = false := by
    intro d hd
    refine decide_eq_false ?_
    rintro rfl
    rcases List.mem_append.1 hd with hd | hd
    · exact not_mem_of_isIdentifier hname (by decide +kernel) hd
    · exact absurd (List.all_eq_true.1 hmid '=' hd) (by decide)
  obtain ⟨rest, hrest, htrim⟩ : ∃ rest, trim rest = args ∧
      trim line.toList = c :: (cs ++ mid ++ '=' :: rest) := by
    by_cases hnil : args = []
    · subst hnil
      have hends : Trimmed (c :: (cs ++ mid) ++ ['=']) := trimmed_of_ends hblank (by decide) (cs ++ mid)
      have hafter' : allBlank (mid' ++ after) = true := by
        rw [allBlank, List.all_append, ← allBlank, ← allBlank, hmid', hafter]
        rfl
      refine ⟨[], rfl, ?_⟩
      have h := hends.trim_append hbefore hafter'
      rw [hline]
      simpa using h
    · have hends : Trimmed (c :: (cs ++ mid ++ '=' :: mid') ++ args) := hargs.cons_append hnil hblank _
      refine ⟨mid' ++ args, ?_, ?_⟩
      · have h := hargs.trim_append hmid' (rfl : allBlank [] = true)
        rwa [List.append_nil] at h
      · have h := hends.trim_append hbefore hafter
        rw [hline]
        simpa using h
  have htrimName : trim (c :: cs ++ mid) = c :: cs := by
    have h := (trimmed_of_isIdentifier hname).trim_append (rfl : allBlank [] = true) hmid
    rwa [List.nil_append] at h
  have hcut : cutAt (· = '=') (c :: (cs ++ mid ++ '=' :: rest)) = some (c :: cs ++ mid, rest) :=
    cutAt_append hequals (decide_eq_true rfl) rest
  rw [parse_of_trim_plain htrim fun d hd => Option.some.inj hd ▸ hcolon, ofPlain, hcut]
  simp only [htrimName, hname, if_true, hrest]

theorem ofPlain_of_plainText (h : PlainText cs) : ofPlain cs = .evaluate (String.ofList cs) := by
  unfold ofPlain
  split
  next before after hcut =>
    obtain ⟨c, hc, hcs, hbefore⟩ := cutAt_eq_some hcut
    obtain rfl := of_decide_eq_true hc
    have hnot : '=' ∉ before := fun hmem => absurd (hbefore '=' hmem) (by decide)
    simp only [h.noName before after hcs hnot, Bool.false_eq_true, if_false]
  · rfl

/-- A line is read as the statement that it is a way to write. -/
theorem WrittenAs.parse_eq (h : WrittenAs s line.toList) : parse line = .ok s := by
  generalize hline : line.toList = cs at h
  cases h with
  | @assign name expr _ _ _ _ hname hexpr hbefore hmid hmid' hafter =>
    rw [parse_of_equals hline hname hexpr hbefore hmid hmid' hafter, String.ofList_toList, String.ofList_toList]
  | @derivative name expr before mid mid' after hname hexpr hne hbefore hmid hmid' hafter hmidne hmidne' =>
    have hargs : Trimmed (name.toList ++ mid' ++ expr.toList) := by
      obtain ⟨c, cs, hcs⟩ := List.exists_cons_of_ne_nil (ne_nil_of_isIdentifier hname)
      rw [hcs]
      exact hexpr.cons_append (by simpa using hne) (isBlank_of_isIdentifier hname c (by simp [hcs])) (cs ++ mid')
    have hargsne : name.toList ++ mid' ++ expr.toList ≠ [] := by simp [ne_nil_of_isIdentifier hname]
    have hcore : line.toList = before ++ (':' :: ['d'] ++ mid ++ (name.toList ++ mid' ++ expr.toList)) ++ after := by
      simpa using hline
    rw [parse_of_colon hcore (by decide +kernel) hargs hargsne hbefore hmid hafter hmidne,
      ofColon_derivative hname hmid' hmidne' hexpr (by simpa using hne), String.ofList_toList, String.ofList_toList]
  | @simplify expr _ _ _ hexpr hne hbefore hmid hafter hmidne =>
    have hnonempty : expr.toList ≠ [] := by simpa using hne
    rw [parse_of_colon hline (by decide +kernel) hexpr hnonempty hbefore hmid hafter hmidne]
    simp [ofColon, hnonempty]
  | @latex expr _ _ _ hexpr hne hbefore hmid hafter hmidne =>
    have hnonempty : expr.toList ≠ [] := by simpa using hne
    rw [parse_of_colon hline (by decide +kernel) hexpr hnonempty hbefore hmid hafter hmidne]
    simp [ofColon, hnonempty]
  | @evaluate expr before after hexpr hplain hbefore hafter =>
    have htrim : trim line.toList = expr.toList := by rw [hline, hexpr.trim_append hbefore hafter]
    rw [parse_of_trim_plain htrim hplain.noColon, ofPlain_of_plainText hplain, String.ofList_toList]

/-! ## Writing what is read -/

theorem allBlank_append : allBlank (before ++ after) = (allBlank before && allBlank after) :=
  List.all_append

/-- A cut at a blank leaves a trimmed text behind at least one blank. -/
theorem exists_of_cutAt_isBlank {rest : List Char} (h : cutAt isBlank cs = some (name, rest)) :
    ∃ mid after, cs = name ++ mid ++ trim rest ++ after ∧ allBlank mid = true ∧ mid ≠ [] ∧
      allBlank after = true := by
  obtain ⟨c, hc, rfl, -⟩ := cutAt_eq_some h
  obtain ⟨before, after, hrest, hbefore, hafter⟩ := exists_eq_append_trim rest
  refine ⟨c :: before, after, ?_, ?_, List.cons_ne_nil c before, hafter⟩
  · conv_lhs => rw [hrest]
    simp
  · rw [allBlank, List.all_cons, hc]
    exact hbefore

/-- A line that a colon starts is read as a command only if a word and arguments follow the colon. -/
theorem writtenAs_of_ofColon {word : List Char} (hline : cs = before ++ (':' :: word ++ mid ++ args) ++ after)
    (hargs : Trimmed args) (hbefore : allBlank before = true) (hmid : allBlank mid = true)
    (hafter : allBlank after = true) (hmidne : mid ≠ []) (h : ofColon word args = .ok s) : WrittenAs s cs := by
  subst hline
  unfold ofColon at h
  split at h
  next hword =>
    subst hword
    split at h
    next name rest hcut =>
      obtain ⟨mid', after', rfl, hmid', hmidne', hafter'⟩ := exists_of_cutAt_isBlank hcut
      simp only at h
      split at h
      next hparts =>
        cases h
        rw [Bool.and_eq_true, Bool.not_eq_true', List.isEmpty_eq_false_iff] at hparts
        have hwritten := @WrittenAs.derivative (String.ofList name) (String.ofList (trim rest)) before mid mid'
          (after' ++ after) (by rw [String.toList_ofList]; exact hparts.1)
          (by rw [String.toList_ofList]; exact trimmed_trim rest) (by simpa using hparts.2) hbefore hmid hmid'
          (by rw [allBlank_append, hafter', hafter]; rfl) hmidne hmidne'
        simpa using hwritten
      · cases h
    · cases h
  next =>
    have hexpr : Trimmed (String.ofList args).toList := by
      rw [String.toList_ofList]
      exact hargs
    have hne (hempty : ¬args.isEmpty = true) : String.ofList args ≠ "" := by
      simpa using hempty
    split at h
    next hword =>
      subst hword
      split at h
      · cases h
      next hempty =>
        cases h
        have hwritten := WrittenAs.simplify hexpr (hne hempty) hbefore hmid hafter hmidne
        rwa [String.toList_ofList] at hwritten
    · split at h
      next hword =>
        subst hword
        split at h
        · cases h
        next hempty =>
          cases h
          have hwritten := WrittenAs.latex hexpr (hne hempty) hbefore hmid hafter hmidne
          rwa [String.toList_ofList] at hwritten
      · cases h

theorem ofColon_nil (word : List Char) : ofColon word [] ≠ .ok s := by
  intro h
  simp only [ofColon, cutAt, List.isEmpty_nil, if_true] at h
  repeat' split at h
  all_goals cases h

/-- A trimmed text that no colon starts is read as an assignment if a name stands before its first equals sign, and as
an expression otherwise. -/
theorem writtenAs_ofPlain (hline : cs = before ++ args ++ after) (hargs : Trimmed args)
    (hcolon : ∀ c ∈ args.head?, c ≠ ':') (hbefore : allBlank before = true) (hafter : allBlank after = true) :
    WrittenAs (ofPlain args) cs := by
  subst hline
  have hexpression (hnoName : ∀ left right, args = left ++ '=' :: right → '=' ∉ left →
      isIdentifier (trim left) = false) : WrittenAs (.evaluate (String.ofList args)) (before ++ args ++ after) := by
    have hwritten := @WrittenAs.evaluate (String.ofList args) before after (by simpa using hargs)
      (by simpa using ⟨hcolon, hnoName⟩) hbefore hafter
    rwa [String.toList_ofList] at hwritten
  have hcutAt (left right : List Char) (heq : args = left ++ '=' :: right) (hleft : '=' ∉ left) :
      cutAt (· = '=') args = some (left, right) := by
    have hequals : ∀ c ∈ left, decide (c = '=') = false := by
      intro c hc
      refine decide_eq_false ?_
      rintro rfl
      exact hleft hc
    rw [heq]
    exact cutAt_append hequals (decide_eq_true rfl) right
  unfold ofPlain
  split
  next left right hcut =>
    simp only
    split
    next hname =>
      obtain ⟨c, hc, rfl, -⟩ := cutAt_eq_some hcut
      obtain rfl := of_decide_eq_true hc
      obtain ⟨before', mid, hleft, hbefore', hmid⟩ := exists_eq_append_trim left
      obtain ⟨mid', after', hright, hmid', hafter'⟩ := exists_eq_append_trim right
      have hwritten := @WrittenAs.assign (String.ofList (trim left)) (String.ofList (trim right)) (before ++ before')
        mid mid' (after' ++ after) (by rw [String.toList_ofList]; exact hname)
        (by rw [String.toList_ofList]; exact trimmed_trim right) (by rw [allBlank_append, hbefore, hbefore']; rfl)
        hmid hmid' (by rw [allBlank_append, hafter', hafter]; rfl)
      conv_rhs => rw [hleft, hright]
      simpa using hwritten
    next hname =>
      refine hexpression fun left' right' heq hleft' => ?_
      obtain ⟨rfl, -⟩ := Prod.mk.inj (Option.some.inj (hcut.symm.trans (hcutAt left' right' heq hleft')))
      exact Bool.eq_false_iff.2 hname
  next hcut =>
    refine hexpression fun left right heq hleft => ?_
    cases hcut.symm.trans (hcutAt left right heq hleft)

/-- A line that is read as a statement is a way to write it. -/
theorem writtenAs_of_parse (h : parse line = .ok s) : WrittenAs s line.toList := by
  obtain ⟨before, after, hline, hbefore, hafter⟩ := exists_eq_append_trim line.toList
  have htrimmed := trimmed_trim line.toList
  by_cases hcolon : ∀ c ∈ (trim line.toList).head?, c ≠ ':'
  · rw [parse_of_trim_plain rfl hcolon] at h
    cases h
    exact writtenAs_ofPlain hline htrimmed hcolon hbefore hafter
  · obtain ⟨rest, hrest⟩ : ∃ rest, trim line.toList = ':' :: rest := by
      simp only [not_forall, not_not] at hcolon
      obtain ⟨c, hc, rfl⟩ := hcolon
      exact List.head?_eq_some_iff.1 hc
    cases hcut : cutAt isBlank rest with
    | none =>
      rw [parse_of_trim_colon hrest (congrArg (·.getD (rest, [])) hcut)] at h
      exact absurd h (ofColon_nil rest)
    | some sides =>
      obtain ⟨word, args⟩ := sides
      rw [parse_of_trim_colon hrest (congrArg (·.getD (rest, [])) hcut)] at h
      obtain ⟨mid, after', rfl, hmid, hmidne, hafter'⟩ := exists_of_cutAt_isBlank hcut
      refine writtenAs_of_ofColon ?_ (trimmed_trim args) hbefore hmid (?_ : allBlank (after' ++ after) = true) hmidne h
      · rw [hline, hrest]
        simp
      · rw [allBlank_append, hafter', hafter]
        rfl

/-! ## The parts of a statement -/

variable {part : String}

theorem WrittenAs.trimmed (h : WrittenAs s cs) (hpart : part ∈ s.parts) : Trimmed part.toList := by
  cases h with
  | assign hname hexpr =>
    rcases List.mem_pair.1 hpart with rfl | rfl
    · exact trimmed_of_isIdentifier hname
    · exact hexpr
  | derivative hname hexpr =>
    rcases List.mem_pair.1 hpart with rfl | rfl
    · exact trimmed_of_isIdentifier hname
    · exact hexpr
  | simplify hexpr => exact List.mem_singleton.1 hpart ▸ hexpr
  | latex hexpr => exact List.mem_singleton.1 hpart ▸ hexpr
  | evaluate hexpr => exact List.mem_singleton.1 hpart ▸ hexpr

theorem WrittenAs.isInfix (h : WrittenAs s cs) (hpart : part ∈ s.parts) : part.toList <:+: cs := by
  cases h with
  | @assign name expr before mid mid' after =>
    rcases List.mem_pair.1 hpart with rfl | rfl
    · exact ⟨before, mid ++ '=' :: (mid' ++ expr.toList) ++ after, by simp⟩
    · exact ⟨before ++ (name.toList ++ mid ++ '=' :: mid'), after, by simp⟩
  | @derivative name expr before mid mid' after =>
    rcases List.mem_pair.1 hpart with rfl | rfl
    · exact ⟨before ++ ([':', 'd'] ++ mid), mid' ++ expr.toList ++ after, by simp⟩
    · exact ⟨before ++ ([':', 'd'] ++ mid ++ name.toList ++ mid'), after, by simp⟩
  | @simplify expr before mid after =>
    obtain rfl := List.mem_singleton.1 hpart
    exact ⟨before ++ ([':', 's'] ++ mid), after, by simp⟩
  | @latex expr before mid after =>
    obtain rfl := List.mem_singleton.1 hpart
    exact ⟨before ++ ([':', 'l', 'a', 't', 'e', 'x'] ++ mid), after, by simp⟩
  | @evaluate expr before after =>
    obtain rfl := List.mem_singleton.1 hpart
    exact ⟨before, after, rfl⟩

theorem WrittenAs.isIdentifier {name : String} (h : WrittenAs s cs) (hname : name ∈ s.names) :
    isIdentifier name.toList = true := by
  cases h with
  | assign hidentifier => exact List.mem_singleton.1 hname ▸ hidentifier
  | derivative hidentifier => exact List.mem_singleton.1 hname ▸ hidentifier
  | simplify => cases hname
  | latex => cases hname
  | evaluate => cases hname

/-- A statement that some line spells is spelled by its own line. -/
theorem WrittenAs.text (h : WrittenAs s cs) : WrittenAs s s.text.toList := by
  have hnone : allBlank [] = true := rfl
  have hblank : allBlank [' '] = true := by decide
  cases h with
  | assign hname hexpr =>
    have hwritten := WrittenAs.assign hname hexpr hnone hblank hblank hnone
    simpa [Statement.text] using hwritten
  | derivative hname hexpr hne =>
    have hwritten := WrittenAs.derivative hname hexpr hne hnone hblank hblank hnone (by decide) (by decide)
    simpa [Statement.text] using hwritten
  | simplify hexpr hne =>
    have hwritten := WrittenAs.simplify hexpr hne hnone hblank hnone (by decide)
    simpa [Statement.text] using hwritten
  | latex hexpr hne =>
    have hwritten := WrittenAs.latex hexpr hne hnone hblank hnone (by decide)
    simpa [Statement.text] using hwritten
  | evaluate hexpr hplain =>
    have hwritten := WrittenAs.evaluate hexpr hplain hnone hnone
    simpa [Statement.text] using hwritten

/-! ## Reading and writing -/

/-- A line is read as a statement exactly if it is a way to write it, whatever blanks it has and whatever stands in the
expression. An expression alone is read as one exactly if it starts like no command and like no assignment. What is
read are trimmed pieces of the line and proper names, and written again they are read as the same statement. -/
theorem parse_written :
    (∀ line s, parse line = .ok s ↔ WrittenAs s line.toList) ∧
    (∀ expr before after, Trimmed expr.toList → allBlank before = true → allBlank after = true →
      (parse (String.ofList (before ++ expr.toList ++ after)) = .ok (.evaluate expr) ↔ PlainText expr.toList)) ∧
    ∀ line s, parse line = .ok s →
      (∀ part ∈ s.parts, Trimmed part.toList ∧ part.toList <:+: line.toList) ∧
      (∀ name ∈ s.names, isIdentifier name.toList = true) ∧ parse s.text = .ok s := by
  refine ⟨fun line s => ⟨writtenAs_of_parse, WrittenAs.parse_eq⟩, ?_, ?_⟩
  · intro expr before after hexpr hbefore hafter
    constructor
    · intro h
      have hwritten := writtenAs_of_parse h
      generalize (String.ofList (before ++ expr.toList ++ after)).toList = cs at hwritten
      cases hwritten with
      | evaluate _ hplain => exact hplain
    · intro hplain
      refine WrittenAs.parse_eq ?_
      rw [String.toList_ofList]
      exact .evaluate hexpr hplain hbefore hafter
  · intro line s h
    have hwritten := writtenAs_of_parse h
    exact ⟨fun part hpart => ⟨hwritten.trimmed hpart, hwritten.isInfix hpart⟩,
      fun name hname => hwritten.isIdentifier hname, hwritten.text.parse_eq⟩

/-- Equals signs and colons behind the first equals sign belong to the expression, and a text that starts with a number
is an expression though an equals sign stands in it. -/
theorem parse_written_equals :
    parse " speed\t=2 = : t" = .ok (.assign "speed" "2 = : t") ∧
      WrittenAs (.assign "speed" "2 = : t") " speed\t=2 = : t".toList ∧
      parse "speed = 2 = : t" = .ok (.assign "speed" "2 = : t") ∧ PlainText "2x = 1".toList := by
  have hassign : parse " speed\t=2 = : t" = .ok (.assign "speed" "2 = : t") := by decide +kernel
  have hevaluate : parse (String.ofList ([' '] ++ "2x = 1".toList ++ [])) = .ok (.evaluate "2x = 1") := by
    decide +kernel
  have htrimmed : Trimmed "2x = 1".toList := trimmed_of_ends (by decide) (by decide) "x = ".toList
  exact ⟨hassign, (parse_written.1 _ _).1 hassign, (parse_written.2.2 _ _ hassign).2.2,
    (parse_written.2.1 _ [' '] [] htrimmed (by decide) rfl).1 hevaluate⟩

end Statement

end SymbolicCalc
