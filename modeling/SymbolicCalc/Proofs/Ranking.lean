import SymbolicCalc.Proofs.ErrorPlaces
import SymbolicCalc.Proofs.Parentheses

/-!
# What ranking a token list finds

Ranking reads the tokens once, from the first to the last. What it finds can be said without the reading: it ranks
the tokens exactly if their parentheses are balanced and every token has a role, and the rank of a token is that of
its role inside the groups that are open before it. If it does not rank them, it blames the first token that is
wrong, or else, all together, the opening parentheses that have no match.
-/

namespace SymbolicCalc

open Token (surplus Balanced Covered Matches OpensAt Unclosed)

/-- What a token does in an expression that may use these names. A token that is no parenthesis is an operator before
it is a function, and a function before it is anything else. -/
inductive Scope.Plays (scope : Scope) (token : Token) : Role → Prop
  | openParen (hkind : token.kind = .openParen) : Plays scope token .openParen
  | closeParen (hkind : token.kind = .closeParen) : Plays scope token .closeParen
  | operator {op : Operator} (hinner : token.Inner) (hsymbol : token.normalized = String.singleton op.symbol) :
      Plays scope token (.operator op)
  | call {f : Elementary} (hinner : token.Inner)
      (hsymbol : ∀ op : Operator, token.normalized ≠ String.singleton op.symbol)
      (hname : Elementary.ofSpelling? token.normalized = some f) : Plays scope token (.call f)
  | const {value : Binary64} (hinner : token.Inner)
      (hsymbol : ∀ op : Operator, token.normalized ≠ String.singleton op.symbol)
      (hname : Elementary.ofSpelling? token.normalized = none)
      (hmeaning : scope.meaning? token.normalized = some (.const value)) : Plays scope token (.leaf (.const value))
  | var (hinner : token.Inner) (hsymbol : ∀ op : Operator, token.normalized ≠ String.singleton op.symbol)
      (hname : Elementary.ofSpelling? token.normalized = none)
      (hmeaning : scope.meaning? token.normalized = some .var) :
      Plays scope token (.leaf (.var token.normalized))

/-- The number that ranks a token with this role inside `depth` groups; operands and parentheses have none. -/
def Role.rankAt? (depth : Nat) : Role → Option Nat
  | .operator op => some (op.tier + 4 * depth)
  | .call _ => some (4 * (depth + 1))
  | .openParen | .closeParen | .leaf _ => none

/-- The number of a rank; the rank above all others has none. -/
def Rank.value? : Rank → Option Nat
  | .ranked value => some value.toNat
  | .leaf => none

/-! ## Roles and ranks -/

theorem Scope.plays_of_resolve? {scope : Scope} {token : Token} {depth : Nat} {rank : Rank} {role : Role}
    (hinner : token.Inner) (h : scope.resolve? depth token.normalized = some (rank, role)) :
    scope.Plays token role := by
  unfold Scope.resolve? at h
  split at h
  next op hop =>
    cases h
    exact .operator hinner (Operator.ofText?_eq_some_iff.1 hop)
  next hop =>
    have hsymbol := Operator.ofText?_eq_none_iff.1 hop
    split at h
    next f hname =>
      cases h
      exact .call hinner hsymbol hname
    next hname =>
      split at h
      next value hmeaning =>
        cases h
        exact .const hinner hsymbol hname hmeaning
      next hmeaning =>
        cases h
        exact .var hinner hsymbol hname hmeaning
      · cases h

theorem Scope.not_plays_of_resolve? {scope : Scope} {token : Token} {depth : Nat} (hinner : token.Inner)
    (h : scope.resolve? depth token.normalized = none) (role : Role) : ¬scope.Plays token role := by
  unfold Scope.resolve? at h
  intro hplays
  cases hplays with
  | openParen hkind => exact hinner.not_open hkind
  | closeParen hkind => exact hinner.not_close hkind
  | operator _ hsymbol => simp [hsymbol] at h
  | call _ hsymbol hname => simp [Operator.ofText?_eq_none_iff.2 hsymbol, hname] at h
  | const _ hsymbol hname hmeaning => simp [Operator.ofText?_eq_none_iff.2 hsymbol, hname, hmeaning] at h
  | var _ hsymbol hname hmeaning => simp [Operator.ofText?_eq_none_iff.2 hsymbol, hname, hmeaning] at h

theorem Rank.value?_ofOperator (op : Operator) {depth : Nat} (h : depth < 2 ^ 30) :
    (Rank.ofOperator op depth).value? = some (op.tier + 4 * depth) :=
  congrArg some (Rank.toNat_ofOperator op h)

theorem Rank.value?_ofCall {depth : Nat} (h : depth + 1 < 2 ^ 30) :
    (Rank.ofCall depth).value? = some (4 * (depth + 1)) :=
  congrArg some (Rank.toNat_ofCall h)

namespace RankedToken

variable {scope : Scope} {opens opens' : List Span} {before tokens all : List Token} {token : Token} {t : RankedToken}
  {ranked : List RankedToken} {e : SyntaxError} {stack : List Nat} {i : Nat}

/-- The ranked token is the one at the position `i`, with a role that it plays and the rank of that role inside the
groups that are open before it. -/
structure RanksAt (scope : Scope) (tokens : List Token) (i : Nat) (t : RankedToken) : Prop where
  token_eq : tokens[i]? = some t.token
  plays : scope.Plays t.token t.role
  rank_eq : ∃ depth : Nat, (depth : Int) = surplus (tokens.take i) ∧ t.rank.value? = t.role.rankAt? depth

/-- The token at the position `i` is wrong: it closes a group that is not open, or has no role. -/
inductive Offence (scope : Scope) (tokens : List Token) (i : Nat) : SyntaxError → Prop
  | extraClose {token : Token} (htoken : tokens[i]? = some token) (hkind : token.kind = .closeParen)
      (hnone : ∀ k, ¬Matches tokens k i) : Offence scope tokens i (.extraClose token.span)
  | unknown {token : Token} (htoken : tokens[i]? = some token) (hinner : token.Inner)
      (hnone : ∀ role, ¬scope.Plays token role) :
      Offence scope tokens i (.unknown token.span token.normalized (scope.suggestions token.normalized))

/-- The places are those of the opening parentheses without a match, in their order. -/
def LeftOpen (tokens : List Token) (places : List Span) : Prop :=
  ∃ positions : List Nat, positions.Pairwise (· < ·) ∧
    (∀ i, i ∈ positions ↔ OpensAt tokens i ∧ ∀ j, ¬Matches tokens i j) ∧
    (positions.map fun i => tokens[i]?.map (·.span)) = places.map some

/-- What is blamed when tokens are not ranked: the first of them that is wrong, or if none is wrong, all opening
parentheses without a match. -/
inductive Blame (scope : Scope) (tokens : List Token) : SyntaxError → Prop
  | offence {i : Nat} {e : SyntaxError} (h : Offence scope tokens i e)
      (hfirst : ∀ k < i, ∀ e', ¬Offence scope tokens k e') : Blame scope tokens e
  | unclosed {places : List Span} {count : Nat} (hnone : ∀ k e', ¬Offence scope tokens k e') (hne : places ≠ [])
      (hplaces : LeftOpen tokens places) (hlength : places.length = count) (hcount : (count : Int) = surplus tokens) :
      Blame scope tokens (.unclosed places count)

/-! ## Tokens that are ranked -/

/-- A token plays the role that it is ranked with. -/
theorem Step.plays (h : Step scope opens token t opens') : scope.Plays token t.role := by
  cases h with
  | openParen hkind => exact .openParen hkind
  | closeParen hkind => exact .closeParen hkind
  | inner hinner hresolve => exact Scope.plays_of_resolve? hinner hresolve

/-- The number of open groups changes as the surplus does. -/
theorem Step.length_eq (h : Step scope opens token t opens') :
    (opens'.length : Int) = opens.length + surplus [token] := by
  cases h with
  | openParen hkind =>
    rw [Token.surplus_open hkind]
    rfl
  | closeParen hkind =>
    rw [Token.surplus_close hkind, List.length_cons]
    omega
  | inner hinner _ =>
    rw [Token.surplus_inner hinner.not_open hinner.not_close]
    exact (Int.add_zero _).symm

theorem Step.value?_eq (h : Step scope opens token t opens') (hdepth : opens.length < 2 ^ 30 - 1) :
    t.rank.value? = t.role.rankAt? opens.length := by
  cases h with
  | openParen _ => rfl
  | closeParen _ => rfl
  | inner _ hresolve =>
    rcases Scope.resolve?_cases hresolve with ⟨op, rfl, rfl⟩ | ⟨f, rfl, rfl⟩ | ⟨tree, rfl, rfl⟩
    · exact Rank.value?_ofOperator op (by omega)
    · exact Rank.value?_ofCall (by omega)
    · rfl

theorem nestingFrom_step {depth depth' : Nat} (h : (depth' : Int) = depth + surplus [token]) :
    Token.nestingFrom depth' tokens ≤ Token.nestingFrom depth (token :: tokens) := by
  rw [Token.nestingFrom]
  split
  next hkind =>
    rw [Token.surplus_open hkind] at h
    rw [show depth' = depth + 1 by omega]
    exact Nat.le_max_right _ _
  next hkind =>
    rw [Token.surplus_close hkind] at h
    rw [show depth' = depth - 1 by omega]
    exact Nat.le_max_right _ _
  next hopen hclose =>
    rw [Token.surplus_inner hopen hclose] at h
    rw [show depth' = depth by omega]
    exact Nat.le_max_right _ _

/-- A list that is ranked is balanced. The induction is on the tokens that are left, and the groups that are open
are counted by the surplus of those before. -/
theorem balanced_of_rankAfter (hcovered : Covered before) (hopens : surplus before = opens.length)
    (h : rankAfter scope opens tokens = .ok ranked) : Balanced (before ++ tokens) := by
  induction tokens generalizing before opens ranked with
  | nil =>
    obtain ⟨rfl, -⟩ := rankAfter_nil_eq_ok h
    rw [List.append_nil]
    exact ⟨hcovered, hopens⟩
  | cons token tokens ih =>
    obtain ⟨t, opens', rest, -, hstep, hrest⟩ := rankAfter_cons_eq_ok h
    have hsurplus : surplus (before ++ [token]) = opens'.length := by
      rw [Token.surplus_append, hopens, hstep.length_eq]
    rw [List.append_cons]
    exact ih (Token.covered_concat.2 ⟨hcovered, by omega⟩) hsurplus hrest

theorem plays_of_rankAfter (h : rankAfter scope opens tokens = .ok ranked) :
    ∀ token ∈ tokens, ∃ role, scope.Plays token role := by
  induction tokens generalizing opens ranked with
  | nil => exact fun token hmem => absurd hmem List.not_mem_nil
  | cons token tokens ih =>
    obtain ⟨t, opens', rest, -, hstep, hrest⟩ := rankAfter_cons_eq_ok h
    exact List.forall_mem_cons.2 ⟨⟨t.role, hstep.plays⟩, ih hrest⟩

theorem ranksAt_of_rankAfter (hopens : surplus before = opens.length)
    (hnesting : Token.nestingFrom opens.length tokens < 2 ^ 30 - 1)
    (h : rankAfter scope opens tokens = .ok ranked) (ht : ranked[i]? = some t) :
    t.RanksAt scope (before ++ tokens) (before.length + i) := by
  induction tokens generalizing before opens ranked i with
  | nil =>
    obtain ⟨-, rfl⟩ := rankAfter_nil_eq_ok h
    cases ht
  | cons token tokens ih =>
    obtain ⟨t', opens', rest, rfl, hstep, hrest⟩ := rankAfter_cons_eq_ok h
    cases i with
    | zero =>
      cases ht
      obtain rfl := hstep.token_eq
      refine ⟨by simp, hstep.plays, opens.length, ?_, hstep.value?_eq ?_⟩
      · rw [Nat.add_zero, List.take_left, hopens]
      · exact Nat.lt_of_le_of_lt (Token.le_nestingFrom _ _) hnesting
    | succ i =>
      have hsurplus : surplus (before ++ [token]) = opens'.length := by
        rw [Token.surplus_append, hopens, hstep.length_eq]
      have hranks := ih hsurplus (Nat.lt_of_le_of_lt (nestingFrom_step hstep.length_eq) hnesting) hrest ht
      rw [← List.append_cons, List.length_append, List.length_singleton] at hranks
      rwa [show before.length + (i + 1) = before.length + 1 + i by omega]

/-! ## Tokens that are not ranked -/

/-- A token is right if it has a role, and a match if it closes a group. -/
theorem not_offence (hclose : token.kind = .closeParen → ∃ k, Matches (before ++ token :: tokens) k before.length)
    (hplays : ∃ role, scope.Plays token role) (e : SyntaxError) :
    ¬Offence scope (before ++ token :: tokens) before.length e := by
  have hhere : (before ++ token :: tokens)[before.length]? = some token := by simp
  intro hoffence
  cases hoffence with
  | extraClose htoken hkind hnone =>
    rw [hhere] at htoken
    cases htoken
    obtain ⟨j, hmatch⟩ := hclose hkind
    exact hnone j hmatch
  | unknown htoken _ hnone =>
    rw [hhere] at htoken
    cases htoken
    obtain ⟨role, hrole⟩ := hplays
    exact hnone role hrole

/-- The places that the ranking keeps are those of the positions. -/
def PlacesOf (all : List Token) (stack : List Nat) (opens : List Span) : Prop :=
  (stack.map fun i => all[i]?.map (·.span)) = opens.map some

theorem PlacesOf.length_eq (h : PlacesOf all stack opens) : stack.length = opens.length := by
  have hlength := congrArg List.length h
  rwa [List.length_map, List.length_map] at hlength

theorem PlacesOf.push {i : Nat} (h : PlacesOf all stack opens) (htoken : all[i]? = some token) :
    PlacesOf all (i :: stack) (token.span :: opens) := by
  unfold PlacesOf at h ⊢
  rw [List.map_cons, List.map_cons, h, htoken, Option.map_some]

/-- At the end of the tokens, with none of them wrong, the groups that are open are blamed. -/
theorem blame_unclosed (hunclosed : Unclosed tokens stack) (hplaces : PlacesOf tokens stack opens)
    (hclean : ∀ k < tokens.length, ∀ e', ¬Offence scope tokens k e') (hne : opens ≠ []) :
    Blame scope tokens (.unclosed opens.reverse opens.length) := by
  refine .unclosed (fun k e' hoffence => ?_) (by simpa using hne) ⟨stack.reverse, ?_, fun i => ?_, ?_⟩
    List.length_reverse ?_
  · have hk : k < tokens.length := by
      cases hoffence with
      | extraClose htoken => exact (List.getElem?_eq_some_iff.1 htoken).1
      | unknown htoken => exact (List.getElem?_eq_some_iff.1 htoken).1
    exact hclean k hk e' hoffence
  · exact List.pairwise_reverse.2 hunclosed.decreasing
  · rw [List.mem_reverse, hunclosed.mem_iff, Token.staysOpen_iff]
  · rw [List.map_reverse, List.map_reverse, hplaces]
  · rw [hunclosed.surplus_eq, hplaces.length_eq]

/-- What stops the ranking is blamed rightly. The induction is on the tokens that are left; those before are not
wrong, and the positions of the groups that are open come with the places. -/
theorem blame_of_rankAfter (hunclosed : Unclosed before stack) (hplaces : PlacesOf (before ++ tokens) stack opens)
    (hclean : ∀ k < before.length, ∀ e', ¬Offence scope (before ++ tokens) k e')
    (h : rankAfter scope opens tokens = .error e) : Blame scope (before ++ tokens) e := by
  induction tokens generalizing before stack opens with
  | nil =>
    rw [List.append_nil] at hplaces hclean ⊢
    obtain ⟨hopens, rfl⟩ := rankAfter_nil_eq_error h
    exact blame_unclosed hunclosed hplaces hclean hopens
  | cons token tokens ih =>
    have hhere : (before ++ token :: tokens)[before.length]? = some token := by simp
    -- a token that is right is passed, and what is open behind it is known
    have hpass {stack' : List Nat} {opens' : List Span} (hunclosed' : Unclosed (before ++ [token]) stack')
        (hplaces' : PlacesOf (before ++ token :: tokens) stack' opens')
        (hright : ∀ e', ¬Offence scope (before ++ token :: tokens) before.length e')
        (h' : rankAfter scope opens' tokens = .error e) : Blame scope (before ++ token :: tokens) e := by
      rw [List.append_cons before token tokens] at hplaces' hright hclean ⊢
      refine ih hunclosed' hplaces' (fun k hk => ?_) h'
      rw [List.length_append, List.length_singleton] at hk
      by_cases hbefore : k < before.length
      · exact hclean k hbefore
      · obtain rfl : k = before.length := by omega
        exact hright
    rcases rankAfter_cons_eq_error h with ⟨t, opens', hstep, hrest⟩ | hstop
    · have hplays : ∃ role, scope.Plays token role := ⟨t.role, hstep.plays⟩
      cases hstep with
      | openParen hkind =>
        exact hpass (hunclosed.opening hkind) (hplaces.push hhere) (not_offence (by simp [hkind]) hplays) hrest
      | closeParen hkind =>
        obtain ⟨j, stack, rfl⟩ := List.exists_cons_of_length_eq_add_one hplaces.length_eq
        have hpop : PlacesOf (before ++ token :: tokens) stack opens' := (List.cons.inj hplaces).2
        refine hpass (hunclosed.closing hkind) hpop (not_offence (fun _ => ?_) hplays) hrest
        exact ⟨j, hunclosed.matches_head hkind _⟩
      | inner hinner _ =>
        refine hpass (hunclosed.inner hinner.not_open hinner.not_close) hplaces (not_offence ?_ hplays) hrest
        exact fun hkind => absurd hkind hinner.not_close
    · cases hstop with
      | extraClose hkind =>
        obtain rfl := List.length_eq_zero_iff.1 hplaces.length_eq
        exact .offence (.extraClose hhere hkind fun k => hunclosed.not_matches _) hclean
      | unknown hinner hresolve =>
        exact .offence (.unknown hhere hinner (Scope.not_plays_of_resolve? hinner hresolve)) hclean

theorem blame_of_ofTokens (h : ofTokens scope tokens = .error e) : Blame scope tokens e := by
  have hplaces : PlacesOf ([] ++ tokens) [] [] := rfl
  exact blame_of_rankAfter .nil hplaces (fun _ hk => absurd hk (Nat.not_lt_zero _)) h

/-- Nothing is blamed in a balanced list of tokens that have roles. -/
theorem not_blame (hbalanced : Balanced tokens) (hplays : ∀ token ∈ tokens, ∃ role, scope.Plays token role) :
    ¬Blame scope tokens e := by
  rintro (⟨hoffence, -⟩ | ⟨-, hne, -, hlength, hcount⟩)
  · cases hoffence with
    | extraClose htoken hkind hnone =>
      obtain ⟨k, hmatch⟩ := hbalanced.covered.exists_matches ⟨_, htoken, hkind⟩
      exact hnone k hmatch
    | unknown htoken _ hnone =>
      obtain ⟨role, hrole⟩ := hplays _ (List.mem_of_getElem? htoken)
      exact hnone role hrole
  · rw [hbalanced.surplus_eq, ← hlength] at hcount
    exact hne (List.length_eq_zero_iff.1 (Int.ofNat_eq_zero.1 hcount))

/-- Tokens are ranked exactly if their parentheses are balanced and each of them has a role. Then every token stays in
its place and has the rank of its role inside the groups that are open before it. Otherwise the first token that is
wrong is blamed, and if none is wrong, the opening parentheses that have no match. -/
theorem ofTokens_ranks_or_blames (scope : Scope) (tokens : List Token) :
    ((∃ ranked, ofTokens scope tokens = .ok ranked) ↔
        Balanced tokens ∧ ∀ token ∈ tokens, ∃ role, scope.Plays token role) ∧
      (∀ ranked, ofTokens scope tokens = .ok ranked → Token.nesting tokens < 2 ^ 30 - 1 →
        ranked.length = tokens.length ∧ ∀ (i : Nat) (t : RankedToken), ranked[i]? = some t → t.RanksAt scope tokens i) ∧
      ∀ e, ofTokens scope tokens = .error e → Blame scope tokens e := by
  refine ⟨⟨?_, ?_⟩, ?_, fun e => blame_of_ofTokens⟩
  · rintro ⟨ranked, h⟩
    exact ⟨balanced_of_rankAfter Token.covered_nil rfl h, plays_of_rankAfter h⟩
  · rintro ⟨hbalanced, hplays⟩
    cases h : ofTokens scope tokens with
    | ok ranked => exact ⟨ranked, rfl⟩
    | error e => exact absurd (blame_of_ofTokens h) (not_blame hbalanced hplays)
  · intro ranked h hnesting
    constructor
    · rw [← map_token_of_rankAfter h, List.length_map]
    · intro i t ht
      have hstart : surplus [] = (([] : List Span).length : Int) := rfl
      have hranks := ranksAt_of_rankAfter hstart hnesting h ht
      rwa [List.nil_append, List.length_nil, Nat.zero_add] at hranks

/-- The tokens of `(a+sin b)`. -/
def sumInGroup : List Token :=
  [⟨⟨0, 1⟩, .openParen, "("⟩, ⟨⟨1, 2⟩, .word, "a"⟩, ⟨⟨2, 3⟩, .operator .add, "+"⟩, ⟨⟨3, 6⟩, .word, "sin"⟩,
    ⟨⟨7, 8⟩, .word, "b"⟩, ⟨⟨8, 9⟩, .closeParen, ")"⟩]

/-- Without its last token the sum is blamed for its first one. -/
theorem ofTokens_ranks_or_blames_sumInGroup :
    (∃ ranked, ofTokens (.ofVariables ["a", "b"]) sumInGroup = .ok ranked ∧
      Token.nesting sumInGroup < 2 ^ 30 - 1 ∧ ranked.length = 6 ∧
      ∀ (i : Nat) (t : RankedToken), ranked[i]? = some t → t.RanksAt (.ofVariables ["a", "b"]) sumInGroup i) ∧
    ofTokens (.ofVariables ["a", "b"]) (sumInGroup.take 5) = .error (.unclosed [⟨0, 1⟩] 1) ∧
      Blame (.ofVariables ["a", "b"]) (sumInGroup.take 5) (.unclosed [⟨0, 1⟩] 1) := by
  have hnesting : Token.nesting sumInGroup < 2 ^ 30 - 1 := by decide
  have hopen : ofTokens (.ofVariables ["a", "b"]) (sumInGroup.take 5) = .error (.unclosed [⟨0, 1⟩] 1) := rfl
  have hranked : ofTokens (.ofVariables ["a", "b"]) sumInGroup = .ok _ := rfl
  obtain ⟨hlength, hranks⟩ := (ofTokens_ranks_or_blames _ _).2.1 _ hranked hnesting
  exact ⟨⟨_, hranked, hnesting, hlength, hranks⟩, hopen, (ofTokens_ranks_or_blames _ _).2.2 _ hopen⟩

end RankedToken

end SymbolicCalc
