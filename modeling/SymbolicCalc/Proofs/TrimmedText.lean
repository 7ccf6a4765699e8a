import SymbolicCalc.Text.Blank
import SymbolicCalc.Text.LowercaseLaws
import SymbolicCalc.Token.Lexer
import Mathlib.Data.List.Basic

/-!
# Trimmed texts and lower case

A trimmed text has no blank at its ends, and trimming leaves it as it is. Lower case keeps a text trimmed and
brings no operator, separator or equals sign into it: the letters that it puts in are neither blanks nor
characters with a meaning of their own, since they come from `a` on in the order of code points.
-/

namespace SymbolicCalc.Text

/-! ## Trimmed texts -/

/-- A text without blanks at its two ends. -/
structure Trimmed (cs : List Char) : Prop where
  first : ∀ c ∈ cs.head?, isBlank c = false
  last : ∀ c ∈ cs.getLast?, isBlank c = false

variable {cs before after : List Char} {c d : Char}

theorem dropWhile_eq_self (h : ∀ c ∈ cs.head?, isBlank c = false) : cs.dropWhile isBlank = cs := by
  cases cs with
  | nil => rfl
  | cons c cs => exact List.dropWhile_cons_of_neg (by rw [h c rfl]; decide)

theorem isBlank_head?_dropWhile (cs : List Char) : ∀ c ∈ (cs.dropWhile isBlank).head?, isBlank c = false := by
  intro c hc
  have h := List.head?_dropWhile_not isBlank cs
  rw [Option.mem_def.1 hc] at h
  exact h

/-- Trimming removes the blanks around a trimmed text, and nothing else. -/
theorem Trimmed.trim_append (h : Trimmed cs) (hbefore : allBlank before = true)
    (hafter : allBlank after = true) : trim (before ++ cs ++ after) = cs := by
  have hstart : trimStart (before ++ cs ++ after) = trimStart (cs ++ after) := by
    rw [List.append_assoc]
    exact List.dropWhile_append_of_pos (List.all_eq_true.1 hbefore)
  rw [trim, hstart]
  cases cs with
  | nil =>
    rw [List.nil_append, trimStart_eq_nil.2 hafter]
    rfl
  | cons c cs =>
    have hfirst : trimStart (c :: cs ++ after) = c :: cs ++ after :=
      dropWhile_eq_self fun d hd => h.first d hd
    have hlast : ∀ d ∈ (c :: cs).reverse.head?, isBlank d = false := by
      rw [List.head?_reverse]
      exact h.last
    have hblank : ∀ d ∈ after.reverse, isBlank d = true := by
      intro d hd
      exact List.all_eq_true.1 hafter d (List.mem_reverse.1 hd)
    rw [hfirst, trimEnd, List.reverse_append, List.dropWhile_append_of_pos hblank, dropWhile_eq_self hlast,
      List.reverse_reverse]

theorem Trimmed.trim_eq (h : Trimmed cs) : trim cs = cs := by
  have htrim := @Trimmed.trim_append cs [] [] h rfl rfl
  rw [List.nil_append, List.append_nil] at htrim
  exact htrim

theorem trimmed_trim (cs : List Char) : Trimmed (trim cs) := by
  constructor
  · intro c hc
    obtain ⟨rest, hrest⟩ := List.dropWhile_suffix isBlank (l := (trimStart cs).reverse)
    have happend : trimStart cs = trim cs ++ rest.reverse := by
      rw [← List.reverse_reverse (trimStart cs), ← hrest, List.reverse_append]
      rfl
    refine isBlank_head?_dropWhile cs c ?_
    show c ∈ (trimStart cs).head?
    rw [happend, List.head?_append, Option.mem_def.1 hc]
    rfl
  · intro c hc
    refine isBlank_head?_dropWhile (trimStart cs).reverse c ?_
    rwa [← List.head?_reverse, trim, trimEnd, List.reverse_reverse] at hc

theorem trimmed_of_forall (h : ∀ c ∈ cs, isBlank c = false) : Trimmed cs :=
  ⟨fun c hc => h c (List.mem_of_mem_head? hc), fun c hc => h c (List.mem_of_mem_getLast? hc)⟩

theorem Trimmed.cons_append (h : Trimmed cs) (hne : cs ≠ []) (hc : isBlank c = false) (before : List Char) :
    Trimmed (c :: before ++ cs) := by
  constructor
  · intro d hd
    cases hd
    exact hc
  · intro d hd
    rw [List.getLast?_append_of_ne_nil _ hne] at hd
    exact h.last d hd

theorem trimmed_of_ends (hc : isBlank c = false) (hd : isBlank d = false) (cs : List Char) :
    Trimmed (c :: cs ++ [d]) := by
  have hlast : Trimmed [d] := trimmed_of_forall (List.forall_mem_singleton.2 hd)
  exact hlast.cons_append (List.cons_ne_nil d []) hc cs

theorem exists_eq_append_trim (cs : List Char) :
    ∃ before after, cs = before ++ trim cs ++ after ∧ allBlank before = true ∧ allBlank after = true := by
  refine ⟨cs.takeWhile isBlank, ((trimStart cs).reverse.takeWhile isBlank).reverse, ?_, ?_, ?_⟩
  · have hend : trim cs ++ ((trimStart cs).reverse.takeWhile isBlank).reverse = trimStart cs := by
      rw [trim, trimEnd, ← List.reverse_append, List.takeWhile_append_dropWhile, List.reverse_reverse]
    rw [List.append_assoc, hend]
    exact List.takeWhile_append_dropWhile.symm
  · exact List.all_takeWhile
  · rw [allBlank, List.all_reverse]
    exact List.all_takeWhile

theorem mem_of_mem_trim (h : c ∈ trim cs) : c ∈ cs := by
  obtain ⟨before, after, hcs, -, -⟩ := exists_eq_append_trim cs
  rw [hcs]
  exact List.mem_append_left _ (List.mem_append_right _ h)

/-! ## What lower case puts in -/

/-- A character like those that lower case puts into a text: no blank, and not before `a`. -/
def LikeLetter (c : Char) : Prop :=
  0x61 ≤ c.toNat ∧ isBlank c = false

/-- The lower-case letters of a run are like letters. -/
def CaseRun.likeLetters (run : CaseRun) : Bool :=
  Nat.ble 0x61 run.lowerFirst &&
    blankRanges.all fun blanks => Nat.blt run.lowerLast blanks.1 || Nat.blt blanks.2 run.lowerFirst

theorem caseRuns_likeLetters : caseRuns.all CaseRun.likeLetters = true := by
  decide +kernel

theorem likeLetter_of_covers {run : CaseRun} {code : Nat} (hrun : run ∈ caseRuns)
    (hcode : run.covers code = true) : LikeLetter (Char.ofNat (code + run.shift).toNat) := by
  obtain ⟨-, hvalid, -⟩ := lowerCode_capital hrun hcode
  have hnat : (Char.ofNat (code + run.shift).toNat).toNat = (code + run.shift).toNat := by
    rw [Char.ofNat, dif_pos hvalid]
    rfl
  obtain ⟨hfirst, hlast, -⟩ := CaseRun.covers_iff.1 hcode
  have htest := List.all_eq_true.1 caseRuns_likeLetters run hrun
  rw [CaseRun.likeLetters, Bool.and_eq_true, Nat.ble_eq, List.all_eq_true] at htest
  obtain ⟨hsmall, hblanks⟩ := htest
  unfold CaseRun.lowerFirst at hsmall hblanks
  unfold CaseRun.lowerLast at hblanks
  unfold LikeLetter
  rw [hnat]
  constructor
  · omega
  · rw [isBlank, CodeRanges.contains, hnat, ← Bool.not_eq_true, CodeRanges.hasCode_iff]
    rintro ⟨blanks, hmem, hlow, hhigh⟩
    have h := hblanks blanks hmem
    rw [Bool.or_eq_true, Nat.blt_eq, Nat.blt_eq] at h
    omega

theorem mem_lowerChar (hd : d ∈ lowerChar c) : d = c ∨ LikeLetter d := by
  unfold lowerChar at hd
  split at hd
  · rw [List.mem_cons, List.mem_singleton] at hd
    rcases hd with rfl | rfl
    · exact .inr ⟨by decide, by decide⟩
    · exact .inr ⟨by decide, by decide⟩
  · rw [List.mem_singleton] at hd
    subst hd
    unfold lowerCode
    cases hfind : caseRuns.find? (·.covers c.toNat) with
    | none => exact .inl (Char.ofNat_toNat c)
    | some run =>
      exact .inr (likeLetter_of_covers (List.mem_of_find?_eq_some hfind)
        (List.find?_some (p := fun run : CaseRun => run.covers c.toNat) hfind))

theorem likeLetter_sigmaBetween (before after : List Char) : LikeLetter (sigmaBetween before after) := by
  unfold sigmaBetween
  split
  · exact ⟨by decide, by decide⟩
  · exact ⟨by decide, by decide⟩

/-- Lower case replaces a character by one or more: by itself or by others like letters. -/
theorem exists_lowerAfter_cons (before cs : List Char) (c : Char) :
    ∃ piece, lowerAfter before (c :: cs) = piece ++ lowerAfter (c :: before) cs ∧ piece ≠ [] ∧
      ∀ d ∈ piece, d = c ∨ LikeLetter d := by
  rw [lowerAfter]
  split
  · refine ⟨_, rfl, List.cons_ne_nil _ _, fun d hd => ?_⟩
    rw [List.mem_singleton] at hd
    exact .inr (hd ▸ likeLetter_sigmaBetween before cs)
  · refine ⟨_, rfl, ?_, fun d hd => mem_lowerChar hd⟩
    unfold lowerChar
    split
    · exact List.cons_ne_nil _ _
    · exact List.cons_ne_nil _ _

theorem mem_lowerAfter (h : d ∈ lowerAfter before cs) : d ∈ cs ∨ LikeLetter d := by
  induction cs generalizing before with
  | nil => cases h
  | cons c cs ih =>
    obtain ⟨piece, heq, -, hpiece⟩ := exists_lowerAfter_cons before cs c
    rw [heq, List.mem_append] at h
    rcases h with h | h
    · exact (hpiece d h).imp (fun hd => List.mem_cons.2 (.inl hd)) id
    · exact (ih h).imp (List.mem_cons_of_mem c) id

theorem lowerAfter_eq_nil_iff : lowerAfter before cs = [] ↔ cs = [] := by
  constructor
  · intro h
    cases cs with
    | nil => rfl
    | cons c cs =>
      obtain ⟨piece, heq, hne, -⟩ := exists_lowerAfter_cons before cs c
      rw [heq] at h
      exact absurd (List.append_eq_nil_iff.1 h).1 hne
  · rintro rfl
    rfl

theorem mem_head?_lowerAfter (h : d ∈ (lowerAfter before cs).head?) : d ∈ cs.head? ∨ LikeLetter d := by
  cases cs with
  | nil => cases h
  | cons c cs =>
    obtain ⟨piece, heq, hne, hpiece⟩ := exists_lowerAfter_cons before cs c
    obtain ⟨e, es, rfl⟩ := List.exists_cons_of_ne_nil hne
    rw [heq] at h
    obtain rfl : e = d := Option.some.inj h
    exact (hpiece e List.mem_cons_self).imp (fun he => congrArg some he.symm) id

theorem mem_getLast?_lowerAfter (h : d ∈ (lowerAfter before cs).getLast?) :
    d ∈ cs.getLast? ∨ LikeLetter d := by
  induction cs generalizing before with
  | nil => cases h
  | cons c cs ih =>
    obtain ⟨piece, heq, hne, hpiece⟩ := exists_lowerAfter_cons before cs c
    rw [heq] at h
    cases cs with
    | nil =>
      rw [lowerAfter, List.append_nil] at h
      exact (hpiece d (List.mem_of_mem_getLast? h)).imp (fun hd => congrArg some hd.symm) id
    | cons e es =>
      have hrest : lowerAfter (c :: before) (e :: es) ≠ [] := fun hnil => by
        cases lowerAfter_eq_nil_iff.1 hnil
      rw [List.getLast?_append_of_ne_nil _ hrest] at h
      rw [List.getLast?_cons_cons]
      exact ih h

theorem Trimmed.lowerAfter (h : Trimmed cs) (before : List Char) : Trimmed (lowerAfter before cs) := by
  constructor
  · intro d hd
    rcases mem_head?_lowerAfter hd with hd | ⟨-, hd⟩
    · exact h.first d hd
    · exact hd
  · intro d hd
    rcases mem_getLast?_lowerAfter hd with hd | ⟨-, hd⟩
    · exact h.last d hd
    · exact hd

/-! ## Characters with a meaning of their own -/

theorem LikeLetter.ne_equals (h : LikeLetter c) : c ≠ '=' := by
  rintro rfl
  exact absurd h.1 (by decide)

/-- A letter belongs to a word. -/
theorem LikeLetter.isWordChar (h : LikeLetter c) : Token.isWordChar c = true := by
  have hne (d : Char) (hd : d.toNat < 0x61) : ¬c = d := by
    rintro rfl
    exact Nat.not_lt.2 h.1 hd
  have hsymbol (op : Operator) : ¬op.symbol = c := fun heq => hne op.symbol (by cases op <;> decide) heq.symm
  have hoperator : Operator.ofSymbol? c = none := by
    rw [Operator.ofSymbol?, List.find?_eq_none]
    intro op _
    rw [decide_eq_true_iff]
    exact hsymbol op
  have hkind : Token.symbolKind? c = none := by
    rw [Token.symbolKind?, if_neg (hne '(' (by decide)), if_neg (hne ')' (by decide)), hoperator]
    rfl
  have hseparator : Token.isSeparator c = false := by
    simp [Token.isSeparator, hne ' ' (by decide), hne '\t' (by decide), hne '\r' (by decide),
      hne '\n' (by decide), hne '\x0c' (by decide)]
  rw [Token.isWordChar, hseparator, hkind]
  rfl

end SymbolicCalc.Text
