import SymbolicCalc.Proofs.StretchRoot

/-!
# Ranks inside parentheses

The stretches that the tree construction meets are not balanced, but each of them comes from a balanced one.
`Segment` describes the ranks of such a stretch: it starts inside some open groups, ends inside some open
groups, and never closes more groups than are open, and the rank of every token is that of its role at its
depth. Depths are counted from a base, which is the depth of the groups that the stretch never leaves.
-/

namespace SymbolicCalc

/-- What the rank of a token has to be inside `depth` pairs of parentheses, without wrapping around. -/
def RankedToken.RankedAt (t : RankedToken) (depth : Nat) : Prop :=
  match t.role with
  | .operator op => t.rank.toNat = op.tier + 4 * depth
  | .call _ => t.rank.toNat = 4 * depth + 4 ∧ t.rank ≠ .leaf
  | _ => t.rank = .leaf

/-- The tokens of a stretch that starts inside `depth` groups more than the base and ends inside `depth'` more,
without leaving the base in between. -/
inductive Segment (base : Nat) : Nat → Stretch → Nat → Prop
  | nil {depth : Nat} : Segment base depth [] depth
  | opening {depth depth' : Nat} {t : RankedToken} {ts : Stretch} (hrole : t.role = .openParen)
      (hrank : t.rank = .leaf) (rest : Segment base (depth + 1) ts depth') :
      Segment base depth (t :: ts) depth'
  | closing {depth depth' : Nat} {t : RankedToken} {ts : Stretch} (hrole : t.role = .closeParen)
      (hrank : t.rank = .leaf) (rest : Segment base depth ts depth') :
      Segment base (depth + 1) (t :: ts) depth'
  | inner {depth depth' : Nat} {t : RankedToken} {ts : Stretch} (hopen : t.isOpen = false)
      (hclose : t.isClose = false) (hrank : t.RankedAt (base + depth))
      (rest : Segment base depth ts depth') : Segment base depth (t :: ts) depth'

theorem Operator.tier_bounds (op : Operator) : 1 ≤ op.tier ∧ op.tier ≤ 3 := by
  cases op <;> decide

namespace RankedToken

variable {t : RankedToken} {depth : Nat}

theorem RankedAt.operator {op : Operator} (h : t.RankedAt depth) (hrole : t.role = .operator op) :
    t.rank.toNat = op.tier + 4 * depth := by
  simpa [RankedAt, hrole] using h

theorem RankedAt.call {f : Elementary} (h : t.RankedAt depth) (hrole : t.role = .call f) :
    t.rank.toNat = 4 * depth + 4 ∧ t.rank ≠ .leaf := by
  simpa [RankedAt, hrole] using h

/-- The rank of an operator or a function lies above all ranks of fewer groups. -/
theorem RankedAt.lower_bound (h : t.RankedAt depth) (hleaf : t.rank ≠ .leaf) :
    4 * depth + 1 ≤ t.rank.toNat := by
  cases hrole : t.role with
  | operator op =>
    have := op.tier_bounds
    rw [h.operator hrole]
    omega
  | call f =>
    rw [(h.call hrole).1]
    omega
  | openParen => exact absurd (by simpa [RankedAt, hrole] using h) hleaf
  | closeParen => exact absurd (by simpa [RankedAt, hrole] using h) hleaf
  | leaf tree => exact absurd (by simpa [RankedAt, hrole] using h) hleaf

/-- It does not lie above those of one more group. -/
theorem RankedAt.upper_bound (h : t.RankedAt depth) (hleaf : t.rank ≠ .leaf) : t.rank.toNat ≤ 4 * depth + 4 := by
  cases hrole : t.role with
  | operator op =>
    have := op.tier_bounds
    rw [h.operator hrole]
    omega
  | call f => exact Nat.le_of_eq (h.call hrole).1
  | openParen => exact absurd (by simpa [RankedAt, hrole] using h) hleaf
  | closeParen => exact absurd (by simpa [RankedAt, hrole] using h) hleaf
  | leaf tree => exact absurd (by simpa [RankedAt, hrole] using h) hleaf

/-- An operator never has the rank of an operand. -/
theorem RankedAt.ne_leaf {op : Operator} (h : t.RankedAt depth) (hrole : t.role = .operator op) :
    t.rank ≠ .leaf := by
  intro hleaf
  have hrank := h.operator hrole
  have := op.tier_bounds
  rw [hleaf, Rank.toNat] at hrank
  omega

end RankedToken

namespace Segment

variable {base depth depth' depth'' : Nat} {tokens others : Stretch}

theorem append (h : Segment base depth tokens depth') (h' : Segment base depth' others depth'') :
    Segment base depth (tokens ++ others) depth'' := by
  induction h with
  | nil => exact h'
  | opening hrole hrank _ ih => exact .opening hrole hrank (ih h')
  | closing hrole hrank _ ih => exact .closing hrole hrank (ih h')
  | inner hopen hclose hrank _ ih => exact .inner hopen hclose hrank (ih h')

theorem of_append (h : Segment base depth (tokens ++ others) depth'') :
    ∃ depth', Segment base depth tokens depth' ∧ Segment base depth' others depth'' := by
  induction tokens generalizing depth with
  | nil => exact ⟨depth, .nil, h⟩
  | cons t ts ih =>
    cases h with
    | opening hrole hrank rest =>
      obtain ⟨mid, hleft, hright⟩ := ih rest
      exact ⟨mid, .opening hrole hrank hleft, hright⟩
    | closing hrole hrank rest =>
      obtain ⟨mid, hleft, hright⟩ := ih rest
      exact ⟨mid, .closing hrole hrank hleft, hright⟩
    | inner hopen hclose hrank rest =>
      obtain ⟨mid, hleft, hright⟩ := ih rest
      exact ⟨mid, .inner hopen hclose hrank hleft, hright⟩

theorem of_cons {t : RankedToken} (hopen : t.isOpen = false) (hclose : t.isClose = false)
    (h : Segment base depth (t :: tokens) depth') :
    t.RankedAt (base + depth) ∧ Segment base depth tokens depth' := by
  cases h with
  | opening hrole => simp [RankedToken.isOpen, hrole] at hopen
  | closing hrole => simp [RankedToken.isClose, hrole] at hclose
  | inner _ _ hrank rest => exact ⟨hrank, rest⟩

theorem of_cons_open {t : RankedToken} (ht : t.role = .openParen)
    (h : Segment base depth (t :: tokens) depth') :
    t.rank = .leaf ∧ Segment base (depth + 1) tokens depth' := by
  cases h with
  | opening _ hrank rest => exact ⟨hrank, rest⟩
  | closing hrole => simp [ht] at hrole
  | inner hopen => simp [RankedToken.isOpen, ht] at hopen

theorem of_cons_close {t : RankedToken} (ht : t.role = .closeParen)
    (h : Segment base depth (t :: tokens) depth') :
    t.rank = .leaf ∧ ∃ inner, depth = inner + 1 ∧ Segment base inner tokens depth' := by
  cases h with
  | opening hrole => simp [ht] at hrole
  | closing _ hrank rest => exact ⟨hrank, _, rfl, rest⟩
  | inner _ hclose => simp [RankedToken.isClose, ht] at hclose

/-- Inside the base nothing binds more loosely than a sum at the base. -/
theorem rank_lower_bound (h : Segment base depth tokens depth') {t : RankedToken} (ht : t ∈ tokens)
    (hleaf : t.rank ≠ .leaf) : 4 * base + 1 ≤ t.rank.toNat := by
  induction h with
  | nil => exact absurd ht List.not_mem_nil
  | opening _ hrank _ ih =>
    rcases List.mem_cons.1 ht with rfl | ht
    · exact absurd hrank hleaf
    · exact ih ht
  | closing _ hrank _ ih =>
    rcases List.mem_cons.1 ht with rfl | ht
    · exact absurd hrank hleaf
    · exact ih ht
  | inner _ _ hrank _ ih =>
    rcases List.mem_cons.1 ht with rfl | ht
    · have := hrank.lower_bound hleaf
      omega
    · exact ih ht

/-- Opening parentheses alone open as many groups as there are of them. -/
theorem depth_of_forall_isOpen (h : Segment base depth tokens depth')
    (hopen : ∀ t ∈ tokens, t.isOpen = true) : depth' = depth + tokens.length := by
  induction h with
  | nil => rfl
  | opening _ _ _ ih =>
    rw [ih fun t ht => hopen t (List.mem_cons_of_mem _ ht), List.length_cons]
    omega
  | closing hrole =>
    have := hopen _ List.mem_cons_self
    simp [RankedToken.isOpen, hrole] at this
  | inner hno => simp [hno] at hopen

/-- Closing parentheses alone close as many groups as there are of them. -/
theorem depth_of_forall_isClose (h : Segment base depth tokens depth')
    (hclose : ∀ t ∈ tokens, t.isClose = true) : depth = depth' + tokens.length := by
  induction h with
  | nil => rfl
  | opening hrole =>
    have := hclose _ List.mem_cons_self
    simp [RankedToken.isClose, hrole] at this
  | closing _ _ _ ih =>
    rw [ih fun t ht => hclose t (List.mem_cons_of_mem _ ht), List.length_cons]
    omega
  | inner _ hno => simp [hno] at hclose

/-- The first parenthesis that leaves a group of the base: what stands before it stays in the group, and
what stands behind it is a stretch of its own. -/
theorem exists_close (h : Segment base (depth + 1) tokens 0) :
    ∃ (inside rest : Stretch) (close : RankedToken), tokens = inside ++ close :: rest ∧
      close.role = .closeParen ∧ Segment (base + 1) depth inside 0 ∧ Segment base 0 rest 0 := by
  induction tokens generalizing depth with
  | nil => cases h
  | cons t ts ih =>
    cases h with
    | opening hrole hrank rest =>
      obtain ⟨inside, others, close, rfl, hclose, hin, hrest⟩ := ih rest
      exact ⟨t :: inside, others, close, rfl, hclose, .opening hrole hrank hin, hrest⟩
    | closing hrole hrank rest =>
      cases depth with
      | zero => exact ⟨[], ts, t, rfl, hrole, .nil, rest⟩
      | succ depth =>
        obtain ⟨inside, others, close, rfl, hclose, hin, hrest⟩ := ih rest
        exact ⟨t :: inside, others, close, rfl, hclose, .closing hrole hrank hin, hrest⟩
    | inner hopen hno hrank rest =>
      obtain ⟨inside, others, close, rfl, hclose, hin, hrest⟩ := ih rest
      have hdepth : base + (depth + 1) = base + 1 + depth := by omega
      exact ⟨t :: inside, others, close, rfl, hclose, .inner hopen hno (hdepth ▸ hrank) hin, hrest⟩

end Segment

/-! ## Token lists -/

/-- The largest number of groups that are open at once among tokens that start inside `depth` groups. -/
def Token.nestingFrom (depth : Nat) : List Token → Nat
  | [] => depth
  | token :: tokens =>
    match token.kind with
    | .openParen => max depth (nestingFrom (depth + 1) tokens)
    | .closeParen => max depth (nestingFrom (depth - 1) tokens)
    | _ => max depth (nestingFrom depth tokens)

/-- The largest number of groups of an expression that are open at once. -/
def Token.nesting (tokens : List Token) : Nat :=
  nestingFrom 0 tokens

theorem Token.le_nestingFrom (depth : Nat) (tokens : List Token) :
    depth ≤ nestingFrom depth tokens := by
  cases tokens with
  | nil => exact Nat.le_refl _
  | cons token tokens =>
    unfold nestingFrom
    split <;> exact Nat.le_max_left _ _

/-- Up to this depth the rank of an operator does not wrap around. -/
theorem Rank.toNat_ofOperator (op : Operator) {depth : Nat} (h : depth < 2 ^ 30) :
    (Rank.ofOperator op depth).toNat = op.tier + 4 * depth := by
  have := op.tier_bounds
  simp only [Rank.ofOperator, Rank.toNat, Rank.perDepth, UInt32.toNat_add, UInt32.toNat_mul,
    UInt32.toNat_ofNat, UInt32.toNat_ofNat']
  omega

/-- Up to this depth the rank of a function does not wrap around. -/
theorem Rank.toNat_ofCall {depth : Nat} (h : depth + 1 < 2 ^ 30) :
    (Rank.ofCall depth).toNat = 4 * depth + 4 := by
  simp only [Rank.ofCall, Rank.toNat, Rank.perDepth, UInt32.toNat_add, UInt32.toNat_mul,
    UInt32.toNat_ofNat, UInt32.toNat_ofNat']
  omega

namespace Segment

variable {depth depth' : Nat} {t : RankedToken} {ts : Stretch}

theorem operator {op : Operator} (hrole : t.role = .operator op) (hrank : t.rank = .ofOperator op depth)
    (hdepth : depth < 2 ^ 30) (rest : Segment 0 depth ts depth') : Segment 0 depth (t :: ts) depth' := by
  refine .inner (by simp [RankedToken.isOpen, hrole]) (by simp [RankedToken.isClose, hrole]) ?_ rest
  simp only [RankedToken.RankedAt, hrole, hrank, Nat.zero_add]
  exact Rank.toNat_ofOperator op hdepth

theorem call {f : Elementary} (hrole : t.role = .call f) (hrank : t.rank = .ofCall depth)
    (hdepth : depth + 1 < 2 ^ 30) (rest : Segment 0 depth ts depth') :
    Segment 0 depth (t :: ts) depth' := by
  refine .inner (by simp [RankedToken.isOpen, hrole]) (by simp [RankedToken.isClose, hrole]) ?_ rest
  simp only [RankedToken.RankedAt, hrole, hrank, Nat.zero_add]
  exact ⟨Rank.toNat_ofCall hdepth, by simp [Rank.ofCall]⟩

theorem operand {tree : Expression} (hrole : t.role = .leaf tree) (hrank : t.rank = .leaf)
    (rest : Segment 0 depth ts depth') : Segment 0 depth (t :: ts) depth' := by
  refine .inner (by simp [RankedToken.isOpen, hrole]) (by simp [RankedToken.isClose, hrole]) ?_ rest
  simp only [RankedToken.RankedAt, hrole, hrank]

end Segment

/-- What a token is resolved to: operators and functions rank by their depth, and everything else is an
operand. -/
theorem Scope.resolve?_cases {scope : Scope} {depth : Nat} {text : String} {rank : Rank} {role : Role}
    (h : scope.resolve? depth text = some (rank, role)) :
    (∃ op, rank = .ofOperator op depth ∧ role = .operator op) ∨
      (∃ f, rank = .ofCall depth ∧ role = .call f) ∨ (∃ tree, rank = .leaf ∧ role = .leaf tree) := by
  unfold Scope.resolve? at h
  split at h
  next op _ =>
    cases h
    exact .inl ⟨op, rfl, rfl⟩
  · split at h
    next f _ =>
      cases h
      exact .inr (.inl ⟨f, rfl, rfl⟩)
    · split at h
      · cases h
        exact .inr (.inr ⟨_, rfl, rfl⟩)
      · cases h
        exact .inr (.inr ⟨_, rfl, rfl⟩)
      · cases h

theorem Token.nestingFrom_inner {token : Token} (h : token.Inner) (depth : Nat) (tokens : List Token) :
    nestingFrom depth (token :: tokens) = max depth (nestingFrom depth tokens) := by
  rw [nestingFrom]
  split
  next hkind => exact absurd hkind h.not_open
  next hkind => exact absurd hkind h.not_close
  · rfl

theorem RankedToken.eq_nil_of_rankAfter {scope : Scope} {opens : List Span} {tokens : List Token}
    (h : rankAfter scope opens tokens = .ok []) : tokens = [] := by
  cases tokens with
  | nil => rfl
  | cons token tokens =>
    obtain ⟨t, opens', rest, hnil, -⟩ := rankAfter_cons_eq_ok h
    cases hnil

/-- Ranking the tokens of an expression that does not nest too deeply gives a segment that closes what is
open. -/
theorem Segment.of_rankAfter {scope : Scope} {opens : List Span} {tokens : List Token}
    {ranked : List RankedToken} (hranked : RankedToken.rankAfter scope opens tokens = .ok ranked)
    (hdepth : Token.nestingFrom opens.length tokens < 2 ^ 30 - 1) :
    Segment 0 opens.length ranked 0 := by
  induction tokens generalizing opens ranked with
  | nil =>
    obtain ⟨rfl, rfl⟩ := RankedToken.rankAfter_nil_eq_ok hranked
    exact .nil
  | cons token tokens ih =>
    have hhere : opens.length < 2 ^ 30 - 1 :=
      Nat.lt_of_le_of_lt (Token.le_nestingFrom opens.length (token :: tokens)) hdepth
    obtain ⟨t, opens', rest, rfl, hstep, hrest⟩ := RankedToken.rankAfter_cons_eq_ok hranked
    cases hstep with
    | openParen hkind =>
      simp only [Token.nestingFrom, hkind] at hdepth
      exact .opening rfl rfl (ih hrest (by simp only [List.length_cons]; omega))
    | closeParen hkind =>
      simp only [Token.nestingFrom, hkind, List.length_cons, Nat.add_sub_cancel] at hdepth
      exact .closing rfl rfl (ih hrest (by omega))
    | inner hinner hresolve =>
      rw [Token.nestingFrom_inner hinner] at hdepth
      have hsegment := ih hrest (by omega)
      rcases Scope.resolve?_cases hresolve with ⟨op, rfl, rfl⟩ | ⟨f, rfl, rfl⟩ | ⟨tree, rfl, rfl⟩
      · exact .operator rfl rfl (by omega) hsegment
      · exact .call rfl rfl (by omega) hsegment
      · exact .operand rfl rfl hsegment

end SymbolicCalc
