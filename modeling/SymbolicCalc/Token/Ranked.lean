import SymbolicCalc.Outcome
import SymbolicCalc.Scope
import SymbolicCalc.Text.Edit
import SymbolicCalc.Token.Lexer
import SymbolicCalc.Tree.Printer

/-!
# Ranked tokens

Every token of an expression gets a role and a rank. The rank says how tightly the token binds: a higher
tier binds more tightly than a lower one, anything inside a pair of parentheses more tightly than anything
outside of it, and a function more tightly than the operators beside it. Operands and parentheses bind
most tightly of all.

What a token is that is no parenthesis, only its text says, whatever kind it was given. A text is refused at
its first token that is a closing parenthesis without an opening one, or has no meaning; if there is none, all
opening parentheses that are never closed are reported together.
-/

namespace SymbolicCalc

/-- How tightly a token binds. -/
inductive Rank
  /-- The rank of an operator or a function. -/
  | ranked (value : UInt32)
  /-- The rank of an operand or a parenthesis, above all others. -/
  | leaf
deriving DecidableEq, Repr

namespace Rank

/-- Whether the first rank binds at most as tightly as the second one. -/
def le : Rank → Rank → Bool
  | .ranked a, .ranked b => a ≤ b
  | .ranked _, .leaf => true
  | .leaf, .ranked _ => false
  | .leaf, .leaf => true

/-- How much more tightly a token binds for each pair of parentheses around it. It is more than the
highest tier. -/
def perDepth : UInt32 := 4

/-- The rank of an operator inside `depth` pairs of parentheses. -/
def ofOperator (op : Operator) (depth : Nat) : Rank :=
  .ranked (.ofNat op.tier + perDepth * .ofNat depth)

/-- The rank of a function inside `depth` pairs of parentheses. -/
def ofCall (depth : Nat) : Rank :=
  .ranked (perDepth * (.ofNat depth + 1))

end Rank

/-- What a token does in an expression. -/
inductive Role
  | openParen
  | closeParen
  | operator (op : Operator)
  | call (f : Elementary)
  | leaf (tree : Expression)
deriving DecidableEq, Repr

/-- A token with its role and its rank. -/
structure RankedToken where
  token : Token
  rank : Rank
  role : Role
deriving DecidableEq, Repr

namespace RankedToken

/-- Whether the token opens a group. -/
def isOpen (t : RankedToken) : Bool :=
  t.role = .openParen

/-- Whether the token closes a group. -/
def isClose (t : RankedToken) : Bool :=
  t.role = .closeParen

/-- The error of a token that needs other operands than it has. -/
def arityError (t : RankedToken) (expected : Arity) : SyntaxError :=
  .arity t.token.span t.token.lexeme expected

end RankedToken

/-! ## Tokens that are no parentheses -/

/-- The names in scope, function names included, that are at most one edit away from a word, in increasing
order. -/
def Scope.suggestions (scope : Scope) (word : String) : List String :=
  let known := Elementary.spellings.map (·.1) ++ scope.names
  (NameSet.ofNames (known.filter fun name => Text.withinOneEdit name.toList word.toList)).names

/-- The rank and the role of a token with this text in lower case, inside `depth` pairs of parentheses. The
text is that of an operator, or else the name of a function, or else a number or a name in scope. -/
def Scope.resolve? (scope : Scope) (depth : Nat) (text : String) : Option (Rank × Role) :=
  match Operator.ofText? text with
  | some op => some (.ofOperator op depth, .operator op)
  | none =>
    match Elementary.ofSpelling? text with
    | some f => some (.ofCall depth, .call f)
    | none =>
      match scope.meaning? text with
      | some (.const value) => some (.leaf, .leaf (.const value))
      | some .var => some (.leaf, .leaf (.var text))
      | none => none

/-! ## Token lists -/

namespace RankedToken

/-- Ranks tokens that follow the opening parentheses at the places `opens`, the last one first. -/
def rankAfter (scope : Scope) (opens : List Span) :
    List Token → Except SyntaxError (List RankedToken)
  | [] => if opens.isEmpty then .ok [] else .error (.unclosed opens.reverse opens.length)
  | token :: tokens =>
    match token.kind with
    | .openParen => do
      return ⟨token, .leaf, .openParen⟩ :: (← rankAfter scope (token.span :: opens) tokens)
    | .closeParen =>
      match opens with
      | [] => .error (.extraClose token.span)
      | _ :: opens => do
        return ⟨token, .leaf, .closeParen⟩ :: (← rankAfter scope opens tokens)
    | _ =>
      match scope.resolve? opens.length token.normalized with
      | some (rank, role) => do
        return ⟨token, rank, role⟩ :: (← rankAfter scope opens tokens)
      | none =>
        .error (.unknown token.span token.normalized (scope.suggestions token.normalized))

/-- Ranks the tokens of an expression. -/
def ofTokens (scope : Scope) (tokens : List Token) : Except SyntaxError (List RankedToken) :=
  rankAfter scope [] tokens

end RankedToken

/-! ## One step of the ranking -/

/-- The token is no parenthesis. -/
structure Token.Inner (token : Token) : Prop where
  not_open : token.kind ≠ .openParen
  not_close : token.kind ≠ .closeParen

theorem Token.inner_of_word {token : Token} (h : token.kind = .word) : token.Inner :=
  ⟨by simp [h], by simp [h]⟩

theorem Token.inner_of_operator {token : Token} {op : Operator} (h : token.kind = .operator op) : token.Inner :=
  ⟨by simp [h], by simp [h]⟩

namespace RankedToken

/-- Behind the opening parentheses at the places `opens` the token is ranked, and the parentheses at the places
`opens'` are open behind it. -/
inductive Step (scope : Scope) : List Span → Token → RankedToken → List Span → Prop
  | openParen {opens : List Span} {token : Token} (hkind : token.kind = .openParen) :
      Step scope opens token ⟨token, .leaf, .openParen⟩ (token.span :: opens)
  | closeParen {place : Span} {opens : List Span} {token : Token} (hkind : token.kind = .closeParen) :
      Step scope (place :: opens) token ⟨token, .leaf, .closeParen⟩ opens
  | inner {opens : List Span} {token : Token} {rank : Rank} {role : Role} (hinner : token.Inner)
      (hresolve : scope.resolve? opens.length token.normalized = some (rank, role)) :
      Step scope opens token ⟨token, rank, role⟩ opens

/-- Behind the opening parentheses at the places `opens` the token is not ranked. -/
inductive Stop (scope : Scope) : List Span → Token → SyntaxError → Prop
  | extraClose {token : Token} (hkind : token.kind = .closeParen) : Stop scope [] token (.extraClose token.span)
  | unknown {opens : List Span} {token : Token} (hinner : token.Inner)
      (hresolve : scope.resolve? opens.length token.normalized = none) :
      Stop scope opens token (.unknown token.span token.normalized (scope.suggestions token.normalized))

variable {scope : Scope} {opens opens' : List Span} {token : Token} {tokens : List Token} {t : RankedToken}
  {ranked : List RankedToken} {e : SyntaxError}

theorem step_or_stop (scope : Scope) (opens : List Span) (token : Token) :
    (∃ t opens', Step scope opens token t opens') ∨ ∃ e, Stop scope opens token e := by
  by_cases hopen : token.kind = .openParen
  · exact .inl ⟨_, _, .openParen hopen⟩
  by_cases hclose : token.kind = .closeParen
  · cases opens with
    | nil => exact .inr ⟨_, .extraClose hclose⟩
    | cons place opens => exact .inl ⟨_, _, .closeParen hclose⟩
  · cases hresolve : scope.resolve? opens.length token.normalized with
    | none => exact .inr ⟨_, .unknown ⟨hopen, hclose⟩ hresolve⟩
    | some resolved => exact .inl ⟨_, _, .inner ⟨hopen, hclose⟩ hresolve⟩

/-- A token that is no parenthesis is looked up. -/
theorem rankAfter_inner (h : token.Inner) (tokens : List Token) :
    rankAfter scope opens (token :: tokens) =
      match scope.resolve? opens.length token.normalized with
      | some (rank, role) => do
        return ⟨token, rank, role⟩ :: (← rankAfter scope opens tokens)
      | none =>
        .error (.unknown token.span token.normalized (scope.suggestions token.normalized)) := by
  simp only [rankAfter]
  split
  next hkind => exact absurd hkind h.not_open
  next hkind => exact absurd hkind h.not_close
  · rfl

theorem Step.rankAfter_eq (h : Step scope opens token t opens') (tokens : List Token) :
    rankAfter scope opens (token :: tokens) = do return t :: (← rankAfter scope opens' tokens) := by
  cases h with
  | openParen hkind => simp only [rankAfter, hkind]
  | closeParen hkind => simp only [rankAfter, hkind]
  | inner hinner hresolve => rw [rankAfter_inner hinner, hresolve]

theorem Stop.rankAfter_eq (h : Stop scope opens token e) (tokens : List Token) :
    rankAfter scope opens (token :: tokens) = .error e := by
  cases h with
  | extraClose hkind => simp only [rankAfter, hkind]
  | unknown hinner hresolve => rw [rankAfter_inner hinner, hresolve]

/-- Tokens are ranked one by one. -/
theorem rankAfter_cons_eq_ok (h : rankAfter scope opens (token :: tokens) = .ok ranked) :
    ∃ t opens' rest, ranked = t :: rest ∧ Step scope opens token t opens' ∧
      rankAfter scope opens' tokens = .ok rest := by
  rcases step_or_stop scope opens token with ⟨t, opens', hstep⟩ | ⟨e, hstop⟩
  · rw [hstep.rankAfter_eq] at h
    obtain ⟨rest, hrest, rfl⟩ := bind_pure_eq_ok.1 h
    exact ⟨t, opens', rest, rfl, hstep, hrest⟩
  · rw [hstop.rankAfter_eq] at h
    cases h

/-- The ranking fails at the first token that is not ranked, or at the end. -/
theorem rankAfter_cons_eq_error (h : rankAfter scope opens (token :: tokens) = .error e) :
    (∃ t opens', Step scope opens token t opens' ∧ rankAfter scope opens' tokens = .error e) ∨
      Stop scope opens token e := by
  rcases step_or_stop scope opens token with ⟨t, opens', hstep⟩ | ⟨e', hstop⟩
  · rw [hstep.rankAfter_eq] at h
    exact .inl ⟨t, opens', hstep, bind_pure_eq_error.1 h⟩
  · rw [hstop.rankAfter_eq] at h
    cases h
    exact .inr hstop

theorem rankAfter_nil_eq_ok (h : rankAfter scope opens [] = .ok ranked) : opens = [] ∧ ranked = [] := by
  rw [rankAfter] at h
  split at h
  next hopens =>
    cases h
    exact ⟨List.isEmpty_iff.1 hopens, rfl⟩
  · cases h

theorem rankAfter_nil_eq_error (h : rankAfter scope opens [] = .error e) :
    opens ≠ [] ∧ e = .unclosed opens.reverse opens.length := by
  rw [rankAfter] at h
  split at h
  · cases h
  next hopens =>
    cases h
    exact ⟨fun hnil => hopens (List.isEmpty_iff.2 hnil), rfl⟩

theorem Step.token_eq (h : Step scope opens token t opens') : t.token = token := by
  cases h <;> rfl

end RankedToken

end SymbolicCalc
