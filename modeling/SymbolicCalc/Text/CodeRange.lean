/-!
# Character classes as ranges of code points

A class of characters is a list of closed ranges of code points. Membership is a search through the
list, so a statement about a class can be decided from its table.
-/

namespace SymbolicCalc.Text

/-- A class of characters: closed ranges `(first, last)` of code points. -/
abbrev CodeRanges := List (Nat × Nat)

/-- Whether some range of the class holds the code point. -/
def CodeRanges.hasCode (ranges : CodeRanges) (code : Nat) : Bool :=
  ranges.any fun range => range.1 ≤ code && code ≤ range.2

/-- Whether a character belongs to the class. -/
def CodeRanges.contains (ranges : CodeRanges) (c : Char) : Bool :=
  ranges.hasCode c.toNat

theorem CodeRanges.hasCode_iff (ranges : CodeRanges) (code : Nat) :
    ranges.hasCode code = true ↔ ∃ range ∈ ranges, range.1 ≤ code ∧ code ≤ range.2 := by
  simp [CodeRanges.hasCode]

/-- Whether no code point belongs to both classes. -/
def CodeRanges.apart (ranges others : CodeRanges) : Bool :=
  ranges.all fun range => others.all fun other => Nat.blt range.2 other.1 || Nat.blt other.2 range.1

theorem CodeRanges.contains_of_apart {ranges others : CodeRanges} {c : Char} (h : ranges.apart others = true)
    (hc : ranges.contains c = true) : others.contains c = false := by
  obtain ⟨range, hrange, hlow, hhigh⟩ := (ranges.hasCode_iff _).1 hc
  rw [contains, ← Bool.not_eq_true, hasCode_iff]
  rintro ⟨other, hother, hlow', hhigh'⟩
  have htest := List.all_eq_true.1 (List.all_eq_true.1 h range hrange) other hother
  rw [Bool.or_eq_true, Nat.blt_eq, Nat.blt_eq] at htest
  omega

end SymbolicCalc.Text
