import SymbolicCalc.Token.Ranked

/-!
# The tree of ranked tokens

The root of a stretch of tokens is the last of its tokens that bind least tightly; what stands before it
and what stands after it become its operands. Opening parentheses at the start of a stretch and closing
parentheses at its end are passed over: they have done their work in the ranks. An operator without a left
operand has the left operand 0, so a leading minus sign negates; and a stretch of nothing but parentheses
is the constant 0.
-/

namespace SymbolicCalc

/-- Some ranked tokens that stand next to each other. -/
abbrev Stretch := List RankedToken

namespace Stretch

/-- A stretch without the opening parentheses at its start and the closing parentheses at its end. -/
def stripParens (tokens : Stretch) : Stretch :=
  ((tokens.dropWhile RankedToken.isOpen).reverse.dropWhile RankedToken.isClose).reverse

/-- The last token of a stretch that binds least tightly, with what stands before and after it. -/
def splitAtRoot? : Stretch → Option (Stretch × RankedToken × Stretch)
  | [] => none
  | token :: tokens =>
    match splitAtRoot? tokens with
    | none => some ([], token, [])
    | some (before, root, after) =>
      if root.rank.le token.rank then some (token :: before, root, after)
      else some ([], token, tokens)

theorem splitAtRoot?_eq_none {tokens : Stretch} : splitAtRoot? tokens = none ↔ tokens = [] := by
  cases tokens with
  | nil => simp [splitAtRoot?]
  | cons token tokens =>
    simp only [splitAtRoot?, reduceCtorEq, iff_false]
    split
    · simp
    · split <;> simp

/-- A split leaves every token in its place. -/
theorem eq_append_of_splitAtRoot? {tokens before after : Stretch} {root : RankedToken}
    (h : splitAtRoot? tokens = some (before, root, after)) : tokens = before ++ root :: after := by
  induction tokens generalizing before root after with
  | nil => simp [splitAtRoot?] at h
  | cons token tokens ih =>
    simp only [splitAtRoot?] at h
    split at h
    next hnone =>
      simp only [Option.some.injEq, Prod.mk.injEq] at h
      obtain ⟨rfl, rfl, rfl⟩ := h
      rw [splitAtRoot?_eq_none.1 hnone]
      rfl
    next b r a hsome =>
      split at h
      · simp only [Option.some.injEq, Prod.mk.injEq] at h
        obtain ⟨rfl, rfl, rfl⟩ := h
        rw [ih hsome]
        rfl
      · simp only [Option.some.injEq, Prod.mk.injEq] at h
        obtain ⟨rfl, rfl, rfl⟩ := h
        rfl

theorem length_stripParens_le (tokens : Stretch) :
    (stripParens tokens).length ≤ tokens.length := by
  have hopen := Token.length_dropWhile_le RankedToken.isOpen tokens
  have hclose := Token.length_dropWhile_le RankedToken.isClose
    (tokens.dropWhile RankedToken.isOpen).reverse
  simp only [stripParens, List.length_reverse] at *
  omega

/-- Both sides of the root of a stretch are shorter than the stretch. -/
theorem length_lt_of_splitAtRoot? {tokens before after : Stretch} {root : RankedToken}
    (h : splitAtRoot? (stripParens tokens) = some (before, root, after)) :
    before.length < tokens.length ∧ after.length < tokens.length := by
  have hlen := congrArg List.length (eq_append_of_splitAtRoot? h)
  have hstrip := length_stripParens_le tokens
  simp only [List.length_append, List.length_cons] at hlen
  omega

/-- The tree of a root with the trees of what stands before and after it. -/
def join (root : RankedToken) (before after : Option Expression) :
    Except SyntaxError Expression :=
  match root.role, before, after with
  | .operator op, before, some right => .ok (.binary op (before.getD .zero) right)
  | .operator _, _, none => .error (root.arityError .binary)
  | .call f, none, some arg => .ok (.call f arg)
  | .call _, _, _ => .error (root.arityError .unary)
  | .leaf tree, none, none => .ok tree
  | .leaf _, _, _ => .error (root.arityError .leaf)
  | .openParen, _, _ | .closeParen, _, _ => .error (root.arityError .group)

/-- The tree of a stretch; a stretch without tokens has none. -/
def tree? (tokens : Stretch) : Except SyntaxError (Option Expression) :=
  if tokens.isEmpty then .ok none
  else
    match _h : splitAtRoot? (stripParens tokens) with
    | none => .ok (some .zero)
    | some (before, root, after) =>
      if root.isOpen || root.isClose then .error (root.arityError .group)
      else do
        let left ← tree? before
        let right ← tree? after
        some <$> join root left right
termination_by tokens.length
decreasing_by
  · exact (length_lt_of_splitAtRoot? _h).1
  · exact (length_lt_of_splitAtRoot? _h).2

end Stretch

/-- The tree of the tokens of an expression. -/
def Expression.ofRanked (tokens : List RankedToken) : Except SyntaxError Expression :=
  (Stretch.tree? tokens).map fun t => t.getD .zero

end SymbolicCalc
