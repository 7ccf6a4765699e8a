import SymbolicCalc.Text.CodeRange

/-!
# White space and trimming

A blank is a character with the Unicode property White_Space. Trimming removes blanks from the two
ends of a text and leaves those inside it. The smaller set of blanks that separate the tokens of an
expression is a matter of the lexer, see `SymbolicCalc.Token.Lexer`.
-/

namespace SymbolicCalc.Text

/-- The code points with the property White_Space. -/
def blankRanges : CodeRanges :=
  [(0x9, 0xD), (0x20, 0x20), (0x85, 0x85), (0xA0, 0xA0), (0x1680, 0x1680), (0x2000, 0x200A),
   (0x2028, 0x2029), (0x202F, 0x202F), (0x205F, 0x205F), (0x3000, 0x3000)]

/-- Whether a character is white space. -/
def isBlank (c : Char) : Bool :=
  blankRanges.contains c

/-- A text without its leading blanks. -/
def trimStart (cs : List Char) : List Char :=
  cs.dropWhile isBlank

/-- A text without its trailing blanks. -/
def trimEnd (cs : List Char) : List Char :=
  (cs.reverse.dropWhile isBlank).reverse

/-- A text without the blanks at its two ends. -/
def trim (cs : List Char) : List Char :=
  trimEnd (trimStart cs)

/-- Cuts a text at the first character that satisfies `p`: what stands before it, and what stands
after it; `none` if no character does. -/
def cutAt (p : Char → Bool) : List Char → Option (List Char × List Char)
  | [] => none
  | c :: cs =>
    if p c then some ([], cs)
    else (cutAt p cs).map fun (before, after) => (c :: before, after)

/-- The characters of a text without the blanks at its two ends. -/
def trimmed (text : String) : String :=
  String.ofList (trim text.toList)

/-- Whether a text holds nothing but blanks. -/
def allBlank (cs : List Char) : Bool :=
  cs.all isBlank

/-! ## Laws -/

theorem trimStart_eq_nil {cs : List Char} : trimStart cs = [] ↔ allBlank cs = true := by
  induction cs with
  | nil => simp [trimStart, allBlank]
  | cons c cs ih =>
    by_cases hc : isBlank c <;> simp_all [trimStart, allBlank]

/-- A text is cut at the first character that satisfies `p`. -/
theorem cutAt_append {p : Char → Bool} {before : List Char} {c : Char} (hbefore : ∀ d ∈ before, p d = false)
    (hc : p c = true) (after : List Char) : cutAt p (before ++ c :: after) = some (before, after) := by
  induction before with
  | nil => simp [cutAt, hc]
  | cons d before ih =>
    obtain ⟨hd, hbefore⟩ := List.forall_mem_cons.1 hbefore
    simp [cutAt, hd, ih hbefore]

/-- A cut leaves both sides and the character between them in place. -/
theorem cutAt_eq_some {p : Char → Bool} {cs before after : List Char}
    (h : cutAt p cs = some (before, after)) :
    ∃ c, p c = true ∧ cs = before ++ c :: after ∧ ∀ d ∈ before, p d = false := by
  induction cs generalizing before with
  | nil => simp [cutAt] at h
  | cons c cs ih =>
    simp only [cutAt] at h
    split at h
    next hc =>
      simp only [Option.some.injEq, Prod.mk.injEq] at h
      obtain ⟨rfl, rfl⟩ := h
      exact ⟨c, hc, rfl, by simp⟩
    next hc =>
      simp only [Option.map_eq_some_iff, Prod.mk.injEq] at h
      obtain ⟨⟨b, a⟩, hcut, rfl, rfl⟩ := h
      obtain ⟨d, hd, rfl, hb⟩ := ih hcut
      exact ⟨d, hd, rfl, by simpa [hc] using hb⟩

theorem cutAt_eq_none {p : Char → Bool} {cs : List Char} (h : ∀ c ∈ cs, p c = false) : cutAt p cs = none := by
  cases hcut : cutAt p cs with
  | none => rfl
  | some sides =>
    obtain ⟨c, hc, rfl, -⟩ := cutAt_eq_some hcut
    have hnot := h c (List.mem_append_right _ List.mem_cons_self)
    rw [hnot] at hc
    cases hc

end SymbolicCalc.Text
