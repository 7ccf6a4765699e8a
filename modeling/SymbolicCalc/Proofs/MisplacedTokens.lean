import SymbolicCalc.Proofs.ErrorPlaces
import SymbolicCalc.Proofs.Nesting
import Mathlib.Data.List.Induction

/-!
# Tokens that are blamed for their neighbours

The tree construction fails deep inside a recursion, on stretches that are not balanced and whose ends are set by
the roots of larger stretches. The token that it blames nevertheless has a neighbour in the whole list that it must
not have. To the left this is found inside the stretch. To the right it is not, since an operand may be missing at
the end of a stretch: what follows the stretch in the whole list is nothing, or a parenthesis that closes, or a
token that binds no more tightly than anything in the stretch.
-/

namespace SymbolicCalc

/-! ## Ranks and roles -/

theorem Rank.eq_leaf_of_le {rank : Rank} (h : 2 ^ 32 ≤ rank.toNat) : rank = .leaf := by
  by_contra hleaf
  have := Rank.toNat_lt hleaf
  omega

namespace Segment

open Stretch (endsOperand)

variable {base depth depth' : Nat} {tokens before opens after : Stretch} {t : RankedToken}

/-- Exactly the operators and the functions of a segment have ranks below the highest one. -/
theorem rank_eq_leaf_iff (hseg : Segment base depth tokens depth') (ht : t ∈ tokens) :
    t.rank = .leaf ↔ endsOperand t = true ∨ t.isOpen = true := by
  induction hseg with
  | nil => cases ht
  | opening hrole hrank _ ih =>
    rcases List.mem_cons.1 ht with rfl | ht
    · simp [hrank, RankedToken.isOpen, hrole]
    · exact ih ht
  | closing hrole hrank _ ih =>
    rcases List.mem_cons.1 ht with rfl | ht
    · simp [hrank, endsOperand, hrole]
    · exact ih ht
  | inner hopen hclose hrank _ ih =>
    rcases List.mem_cons.1 ht with rfl | ht
    · cases hrole : t.role with
      | operator op => simp [hrank.ne_leaf hrole, endsOperand, RankedToken.isOpen, hrole]
      | call f => simp [(hrank.call hrole).2, endsOperand, RankedToken.isOpen, hrole]
      | leaf tree => simpa [endsOperand, RankedToken.isOpen, RankedToken.RankedAt, hrole] using hrank
      | openParen => simp [RankedToken.isOpen, hrole] at hopen
      | closeParen => simp [RankedToken.isClose, hrole] at hclose
    · exact ih ht

theorem rank_ne_leaf_cases (hseg : Segment base depth tokens depth') (ht : t ∈ tokens) (hleaf : t.rank ≠ .leaf) :
    (∃ op, t.role = .operator op) ∨ ∃ f, t.role = .call f := by
  rw [Ne, hseg.rank_eq_leaf_iff ht] at hleaf
  cases hrole : t.role with
  | operator op => exact .inl ⟨op, rfl⟩
  | call f => exact .inr ⟨f, rfl⟩
  | _ => simp [endsOperand, RankedToken.isOpen, hrole] at hleaf

/-- Two tokens with only opening parentheses between them: the second one stands inside as many groups more. -/
theorem rankedAt_of_opens {x y : RankedToken} (hseg : Segment base depth (before ++ x :: (opens ++ y :: after)) depth')
    (hx : x.isOpen = false ∧ x.isClose = false) (hy : y.isOpen = false ∧ y.isClose = false)
    (hopens : ∀ o ∈ opens, o.isOpen = true) :
    ∃ d, x.RankedAt d ∧ y.RankedAt (d + opens.length) := by
  obtain ⟨here, -, hseg⟩ := hseg.of_append
  obtain ⟨hrank, hseg⟩ := hseg.of_cons hx.1 hx.2
  obtain ⟨there, hinside, hseg⟩ := hseg.of_append
  obtain ⟨hrank', -⟩ := hseg.of_cons hy.1 hy.2
  rw [hinside.depth_of_forall_isOpen hopens, ← Nat.add_assoc] at hrank'
  exact ⟨base + here, hrank, hrank'⟩

end Segment

namespace Stretch

variable {whole tokens before after following opens : Stretch} {root t : RankedToken} {e : SyntaxError}
  {base depth depth' : Nat}

/-- The error blames a token for its neighbours in the whole list. -/
inductive Misplaced (whole : Stretch) : SyntaxError → Prop
  /-- Behind an operator there is nothing, a closing parenthesis or another operator. -/
  | operator {before after : Stretch} {t : RankedToken} {op : Operator} (hwhole : whole = before ++ t :: after)
      (hrole : t.role = .operator op)
      (hnext : ∀ next ∈ after.head?, next.role = .closeParen ∨ ∃ op', next.role = .operator op') :
      Misplaced whole (t.arityError .binary)
  /-- A function follows an operand. -/
  | applied {before after : Stretch} {t previous : RankedToken} {f : Elementary}
      (hwhole : whole = before ++ previous :: t :: after) (hrole : t.role = .call f)
      (hprevious : endsOperand previous = true) : Misplaced whole (t.arityError .unary)
  /-- Behind a function there is nothing, a closing parenthesis, an operator or another function. -/
  | unapplied {before after : Stretch} {t : RankedToken} {f : Elementary} (hwhole : whole = before ++ t :: after)
      (hrole : t.role = .call f)
      (hnext : ∀ next ∈ after.head?,
        next.role = .closeParen ∨ (∃ op, next.role = .operator op) ∨ ∃ f', next.role = .call f') :
      Misplaced whole (t.arityError .unary)
  /-- A constant or a variable follows an operand. -/
  | leaf {before after : Stretch} {t previous : RankedToken} {tree : Expression}
      (hwhole : whole = before ++ previous :: t :: after) (hrole : t.role = .leaf tree)
      (hprevious : endsOperand previous = true) : Misplaced whole (t.arityError .leaf)
  /-- A group starts behind an operand; further groups may start between them. -/
  | group {before opens after : Stretch} {t previous : RankedToken}
      (hwhole : whole = before ++ previous :: (opens ++ t :: after)) (hopens : ∀ o ∈ opens, o.role = .openParen)
      (hrole : t.role = .openParen) (hprevious : endsOperand previous = true) :
      Misplaced whole (t.arityError .group)

theorem endsOperand_of_isClose (h : t.isClose = true) : endsOperand t = true := by
  have hrole : t.role = .closeParen := of_decide_eq_true h
  simp [endsOperand, hrole]

theorem startsOperand_of_isOpen (h : t.isOpen = true) : startsOperand t = true := by
  have hrole : t.role = .openParen := of_decide_eq_true h
  simp [startsOperand, hrole]

theorem not_startsOperand_of_isClose (h : t.isClose = true) : startsOperand t = false := by
  have hrole : t.role = .closeParen := of_decide_eq_true h
  simp [startsOperand, hrole]

/-! ## The ends of a stretch -/

theorem exists_eq_append_stripParens (tokens : Stretch) :
    ∃ opens closes, tokens = opens ++ (stripParens tokens ++ closes) ∧ ∀ t ∈ closes, t.isClose = true := by
  refine ⟨tokens.takeWhile RankedToken.isOpen,
    ((tokens.dropWhile RankedToken.isOpen).reverse.takeWhile RankedToken.isClose).reverse, ?_, fun t ht => ?_⟩
  · rw [stripParens, ← List.reverse_append, List.takeWhile_append_dropWhile, List.reverse_reverse,
      List.takeWhile_append_dropWhile]
  · exact List.all_eq_true.1 List.all_takeWhile t (List.mem_reverse.1 ht)

theorem isOpen_eq_false_of_stripParens (h : stripParens tokens = t :: after) : t.isOpen = false := by
  obtain ⟨closes, hcloses⟩ : ∃ closes, tokens.dropWhile RankedToken.isOpen = t :: (after ++ closes) := by
    refine ⟨((tokens.dropWhile RankedToken.isOpen).reverse.takeWhile RankedToken.isClose).reverse, ?_⟩
    rw [← List.cons_append, ← h, stripParens, ← List.reverse_append, List.takeWhile_append_dropWhile,
      List.reverse_reverse]
  have hhead := List.head?_dropWhile_not RankedToken.isOpen tokens
  rw [hcloses] at hhead
  simpa using hhead

theorem isClose_eq_false_of_stripParens (h : stripParens tokens = before ++ [t]) : t.isClose = false := by
  have hreverse := congrArg List.reverse h
  rw [stripParens, List.reverse_reverse, List.reverse_append, List.reverse_singleton, List.singleton_append]
    at hreverse
  have hhead := List.head?_dropWhile_not RankedToken.isClose (tokens.dropWhile RankedToken.isOpen).reverse
  rw [hreverse] at hhead
  simpa using hhead

/-- Before the opening parentheses at its end, a stretch that does not start with one has another token. -/
theorem exists_eq_append_opens (ht : t ∈ tokens) (hopen : t.isOpen = false) :
    ∃ start x opens, tokens = start ++ x :: opens ∧ x.isOpen = false ∧ ∀ o ∈ opens, o.isOpen = true := by
  induction tokens using List.reverseRecOn with
  | nil => cases ht
  | append_singleton tokens last ih =>
    by_cases hlast : last.isOpen = true
    · rcases List.mem_append.1 ht with ht | ht
      · obtain ⟨start, x, opens, rfl, hx, hopens⟩ := ih ht
        refine ⟨start, x, opens ++ [last], by simp, hx, ?_⟩
        intro o ho
        rcases List.mem_append.1 ho with ho | ho
        · exact hopens o ho
        · rwa [List.mem_singleton.1 ho]
      · rw [List.mem_singleton.1 ht, hlast] at hopen
        cases hopen
    · exact ⟨tokens, last, [], rfl, Bool.eq_false_iff.2 hlast, fun o ho => absurd ho List.not_mem_nil⟩

/-- A stretch that ends with an operator or a function has no tree. The induction is on its length: the token at the
end is the root, and lacks what it needs behind it, or it ends what stands behind the root. -/
theorem endsOperand_of_tree?_concat {result : Option Expression} (h : tree? (tokens ++ [t]) = .ok result)
    (hopen : t.isOpen = false) : endsOperand t = true := by
  by_cases hclose : t.isClose = true
  · exact endsOperand_of_isClose hclose
  replace hclose := Bool.eq_false_iff.2 hclose
  induction hlen : tokens.length using Nat.strongRecOn generalizing tokens result with
  | ind n ih =>
    have hstrip := stripParens_append_cons hopen hclose tokens []
    cases hsplit : splitAtRoot? (stripParens (tokens ++ [t])) with
    | none =>
      rw [splitAtRoot?_eq_none.1 hsplit] at hstrip
      simp at hstrip
    | some found =>
      obtain ⟨before, root, after⟩ := found
      obtain ⟨left, right, tree, -, hright, hjoin, -⟩ := exists_join_of_tree? hsplit h
      have hshort := (length_lt_of_splitAtRoot? hsplit).2
      rw [eq_append_of_splitAtRoot? hsplit] at hstrip
      rcases List.eq_nil_or_concat after with rfl | ⟨after, last, rfl⟩
      · obtain ⟨-, hroot⟩ := List.append_inj' hstrip rfl
        obtain ⟨rfl, -⟩ := List.cons.inj hroot
        rw [tree?_nil] at hright
        cases hright
        cases hrole : root.role with
        | leaf tree => simp [endsOperand, hrole]
        | closeParen => simp [endsOperand, hrole]
        | openParen => simp [RankedToken.isOpen, hrole] at hopen
        | operator op => simp [join, hrole] at hjoin
        | call f => simp [join, hrole] at hjoin
      · rw [List.concat_eq_append] at *
        rw [← List.cons_append, ← List.append_assoc] at hstrip
        obtain ⟨-, hlast⟩ := List.append_inj' hstrip rfl
        obtain ⟨rfl, -⟩ := List.cons.inj hlast
        simp only [List.length_append, List.length_singleton] at hshort
        exact ih after.length (by omega) hright rfl

/-! ## What stands before a root that is blamed -/

section Before

variable {preceding rest : Stretch}

/-- If the root binds most tightly of all, it is the last token, and there is no operator or function before it. -/
theorem sides_of_leaf_root (hsplit : splitAtRoot? (stripParens tokens) = some (before, root, after))
    (hroot : root.rank = .leaf) : after = [] ∧ ∀ t ∈ before, t.rank = .leaf := by
  obtain ⟨hbefore, hafter⟩ := rank_of_splitAtRoot? hsplit
  have hmax : root.rank.toNat = 2 ^ 32 := by rw [hroot, Rank.toNat]
  constructor
  · refine List.eq_nil_iff_forall_not_mem.2 fun t ht => ?_
    have hlt := hafter t ht
    have hle := t.rank.toNat_le
    omega
  · intro t ht
    exact Rank.eq_leaf_of_le (hmax ▸ hbefore t ht)

/-- If there is a token before the root, then there is one that opens no group; the last of these. -/
theorem exists_before_root (hwhole : whole = preceding ++ (before ++ root :: rest))
    (hsplit : splitAtRoot? (stripParens tokens) = some (before, root, after)) (hne : before ≠ []) :
    ∃ start x opens, before = start ++ x :: opens ∧ x.isOpen = false ∧ (∀ o ∈ opens, o.isOpen = true) ∧
      whole = (preceding ++ start) ++ x :: (opens ++ root :: rest) := by
  obtain ⟨first, others, rfl⟩ := List.exists_cons_of_ne_nil hne
  have hfirst := isOpen_eq_false_of_stripParens (eq_append_of_splitAtRoot? hsplit)
  obtain ⟨start, x, opens, heq, hx, hopens⟩ := exists_eq_append_opens List.mem_cons_self hfirst
  refine ⟨start, x, opens, heq, hx, hopens, ?_⟩
  rw [hwhole, heq]
  simp

/-- A parenthesis is the root only as the last token of what is left of a stretch, so it opens a group; and the
first token of what is left opens none. -/
theorem misplaced_paren (hseg : Segment base depth whole depth')
    (hwhole : whole = preceding ++ (before ++ root :: rest))
    (hsplit : splitAtRoot? (stripParens tokens) = some (before, root, after))
    (hparen : root.isOpen = true ∨ root.isClose = true) : Misplaced whole (root.arityError .group) := by
  have hroot : root.rank = .leaf := by
    rw [hseg.rank_eq_leaf_iff (by simp [hwhole])]
    exact hparen.symm.imp_left endsOperand_of_isClose
  obtain ⟨rfl, hbefore⟩ := sides_of_leaf_root hsplit hroot
  have hstrip := eq_append_of_splitAtRoot? hsplit
  have hopen : root.isOpen = true := by
    rcases hparen with hopen | hclose
    · exact hopen
    · rw [isClose_eq_false_of_stripParens hstrip] at hclose
      cases hclose
  have hne : before ≠ [] := by
    rintro rfl
    rw [isOpen_eq_false_of_stripParens hstrip] at hopen
    cases hopen
  obtain ⟨start, x, opens, rfl, hx, hopens, heq⟩ := exists_before_root hwhole hsplit hne
  have hends : endsOperand x = true := by
    have hleaf := (hseg.rank_eq_leaf_iff (by simp [heq])).1 (hbefore x (by simp))
    exact hleaf.resolve_right (by simp [hx])
  exact .group heq (fun o ho => of_decide_eq_true (hopens o ho)) (of_decide_eq_true hopen) hends

/-- A root that takes nothing on its left, but has a tree there, stands directly behind an operand. If there were
opening parentheses between the two, the tree could not be built; and if something other than an operand stood before
them, it would bind more loosely than the root. -/
theorem exists_operand_before_root (hseg : Segment base depth whole depth')
    (hwhole : whole = preceding ++ (before ++ root :: rest))
    (hsplit : splitAtRoot? (stripParens tokens) = some (before, root, after)) {left : Expression}
    (hleft : tree? before = .ok (some left)) (hroot : startsOperand root = true) (hopen : root.isOpen = false) :
    ∃ start x, whole = start ++ x :: root :: rest ∧ endsOperand x = true := by
  obtain ⟨start, x, opens, rfl, hx, hopens, heq⟩ := exists_before_root hwhole hsplit (ne_nil_of_tree?_eq_some hleft)
  cases opens with
  | nil => exact ⟨preceding ++ start, x, heq, endsOperand_of_tree?_concat hleft hx⟩
  | cons o opens =>
    exfalso
    by_cases hends : endsOperand x = true
    · have hnot := not_juxtaposed_of_tree? hleft rfl hends
      rw [startsOperand_of_isOpen (hopens o List.mem_cons_self)] at hnot
      cases hnot
    · have hleaf : x.rank ≠ .leaf := by simp [hseg.rank_eq_leaf_iff (t := x) (by simp [heq]), hends, hx]
      have hle := (rank_of_splitAtRoot? hsplit).1 x (by simp)
      have hxclose : x.isClose = false := Bool.eq_false_iff.2 fun hclose => hends (endsOperand_of_isClose hclose)
      have hclose : root.isClose = false := Bool.eq_false_iff.2 fun hclose => by
        simp [not_startsOperand_of_isClose hclose] at hroot
      obtain ⟨d, hxrank, hrank⟩ := Segment.rankedAt_of_opens (heq ▸ hseg) ⟨hx, hxclose⟩ ⟨hopen, hclose⟩ hopens
      -- the token stands outside of the groups that start between it and the root
      have hupper := hxrank.upper_bound hleaf
      have hlt := Rank.toNat_lt hleaf
      cases hrole : root.role with
      | call f =>
        have hcall := (hrank.call hrole).1
        rw [List.length_cons] at hcall
        omega
      | leaf tree =>
        have hmax : root.rank = .leaf := by simpa [RankedToken.RankedAt, hrole] using hrank
        rw [hmax, Rank.toNat] at hle
        omega
      | _ => simp_all [startsOperand, RankedToken.isOpen]

end Before

/-! ## What stands behind a root that is blamed -/

/-- What follows a stretch in the whole list is nothing, or closes a group, or binds no more tightly than anything
in the stretch. -/
def Bounded (tokens following : Stretch) : Prop :=
  ∀ next ∈ following.head?, next.isClose = true ∨ ∀ t ∈ tokens, next.rank.toNat ≤ t.rank.toNat

theorem Bounded.subset {others : Stretch} (h : Bounded tokens following) (hsubset : ∀ t ∈ others, t ∈ tokens) :
    Bounded others following := by
  intro next hnext
  exact (h next hnext).imp_right fun hle t ht => hle t (hsubset t ht)

theorem Bounded.append {closes : Stretch} (h : Bounded tokens following)
    (hcloses : ∀ t ∈ closes, t.isClose = true) : Bounded tokens (closes ++ following) := by
  cases closes with
  | nil => exact h
  | cons c cs =>
    intro next hnext
    cases hnext
    exact .inl (hcloses c List.mem_cons_self)

/-- The next token behind an operator or a function at the end of a stretch. -/
theorem next_cases {next : RankedToken} (hseg : Segment base depth whole depth')
    (hwhole : whole = before ++ root :: next :: after) (hleaf : root.rank ≠ .leaf)
    (hnext : next.isClose = true ∨ next.rank.toNat ≤ root.rank.toNat) :
    next.role = .closeParen ∨ (∃ op, next.role = .operator op) ∨ ∃ f, next.role = .call f := by
  rcases hnext with hclose | hle
  · exact .inl (of_decide_eq_true hclose)
  · refine .inr (hseg.rank_ne_leaf_cases (by simp [hwhole]) fun hmax => ?_)
    have hlt := Rank.toNat_lt hleaf
    rw [hmax, Rank.toNat] at hle
    omega

/-- A function directly behind an operator binds more tightly. -/
theorem rank_lt_of_operator_call {next : RankedToken} {op : Operator} {f : Elementary}
    (hseg : Segment base depth whole depth') (hwhole : whole = before ++ root :: next :: after)
    (hrole : root.role = .operator op) (hnext : next.role = .call f) : root.rank.toNat < next.rank.toNat := by
  have hroot := root.not_paren (by simp [hrole]) (by simp [hrole])
  have hparen := next.not_paren (by simp [hnext]) (by simp [hnext])
  have hpair : whole = before ++ root :: ([] ++ next :: after) := hwhole
  obtain ⟨d, hrank, hrank'⟩ := Segment.rankedAt_of_opens (hpair ▸ hseg) hroot hparen (by simp)
  have hop := hrank.operator hrole
  have hcall := (hrank'.call hnext).1
  have := op.tier_bounds
  rw [List.length_nil] at hcall
  omega

/-! ## Every error -/

/-- A root whose sides have been read, but cannot be joined. -/
theorem misplaced_of_join {preceding : Stretch} {left right : Option Expression}
    (hseg : Segment base depth whole depth')
    (hwhole : whole = preceding ++ (before ++ root :: (after ++ following)))
    (hsplit : splitAtRoot? (stripParens tokens) = some (before, root, after))
    (hbounded : Bounded [root] following) (hleft : tree? before = .ok left) (hright : tree? after = .ok right)
    (h : join root left right = .error e) : Misplaced whole e := by
  have hmem : root ∈ whole := by simp [hwhole]
  -- without a tree on its right, the root stands at the end
  have hend (hnone : right = none) : whole = preceding ++ before ++ root :: following := by
    subst hnone
    rw [hwhole, eq_nil_of_tree?_eq_none hright, List.append_assoc]
    rfl
  have hbound (next : RankedToken) (hnext : next ∈ following.head?) :
      next.isClose = true ∨ next.rank.toNat ≤ root.rank.toNat :=
    (hbounded next hnext).imp_right fun hle => hle root List.mem_cons_self
  rcases join_eq_error_cases h with ⟨op, hrole, hnone, rfl⟩ | ⟨f, hrole, hsides, rfl⟩ |
    ⟨tree, hrole, hsides, rfl⟩ | ⟨hparen, rfl⟩
  · have hleaf : root.rank ≠ .leaf := by
      simp [hseg.rank_eq_leaf_iff hmem, endsOperand, RankedToken.isOpen, hrole]
    refine .operator (hend hnone) hrole fun next hnext => ?_
    obtain ⟨rest, rfl⟩ := List.head?_eq_some_iff.1 hnext
    rcases next_cases hseg (hend hnone) hleaf (hbound next hnext) with hclose | hop | ⟨f, hcall⟩
    · exact .inl hclose
    · exact .inr hop
    · have hlt := rank_lt_of_operator_call hseg (hend hnone) hrole hcall
      rcases hbound next hnext with hclose | hle
      · simp [RankedToken.isClose, hcall] at hclose
      · omega
  · have hleaf : root.rank ≠ .leaf := by
      simp [hseg.rank_eq_leaf_iff hmem, endsOperand, RankedToken.isOpen, hrole]
    rcases hsides with ⟨l, rfl⟩ | hnone
    · obtain ⟨start, x, heq, hends⟩ := exists_operand_before_root hseg hwhole hsplit hleft
        (by simp [startsOperand, hrole]) (by simp [RankedToken.isOpen, hrole])
      exact .applied heq hrole hends
    · refine .unapplied (hend hnone) hrole fun next hnext => ?_
      obtain ⟨rest, rfl⟩ := List.head?_eq_some_iff.1 hnext
      exact next_cases hseg (hend hnone) hleaf (hbound next hnext)
  · have hleaf : root.rank = .leaf := by simp [hseg.rank_eq_leaf_iff hmem, endsOperand, hrole]
    rcases hsides with ⟨l, rfl⟩ | ⟨r, rfl⟩
    · obtain ⟨start, x, heq, hends⟩ := exists_operand_before_root hseg hwhole hsplit hleft
        (by simp [startsOperand, hrole]) (by simp [RankedToken.isOpen, hrole])
      exact .leaf heq hrole hends
    · obtain ⟨rfl, -⟩ := sides_of_leaf_root hsplit hleaf
      exact absurd rfl (ne_nil_of_tree?_eq_some hright)
  · exact misplaced_paren hseg hwhole hsplit hparen

/-- A stretch in the whole list that is refused blames a misplaced token. The induction is on the length of the
stretch; the sides of its root are again followed by something that bounds them: the root itself, or what follows
the stretch. -/
theorem misplaced_of_tree? {preceding : Stretch} (hseg : Segment base depth whole depth')
    (hwhole : whole = preceding ++ (tokens ++ following)) (hbounded : Bounded tokens following)
    (h : tree? tokens = .error e) : Misplaced whole e := by
  induction hlen : tokens.length using Nat.strongRecOn generalizing tokens preceding following with
  | ind n ih =>
    cases hsplit : splitAtRoot? (stripParens tokens) with
    | none =>
      have hnil := splitAtRoot?_eq_none.1 hsplit
      by_cases hne : tokens = []
      · rw [hne, tree?_nil] at h
        cases h
      · rw [tree?_of_stripParens_eq_nil hne hnil] at h
        cases h
    | some found =>
      obtain ⟨before, root, after⟩ := found
      have hshort := length_lt_of_splitAtRoot? hsplit
      rw [hlen] at hshort
      obtain ⟨opens, closes, htokens, hcloses⟩ := exists_eq_append_stripParens tokens
      rw [eq_append_of_splitAtRoot? hsplit] at htokens
      have hroot : whole = (preceding ++ opens) ++ (before ++ root :: (after ++ (closes ++ following))) := by
        rw [hwhole, htokens]
        simp
      have hfollow := hbounded.append hcloses
      rw [tree?_of_splitAtRoot? hsplit] at h
      split at h
      next hparen =>
        cases h
        exact misplaced_paren hseg hroot hsplit (Bool.or_eq_true_iff.1 hparen)
      · rcases bind_eq_error.1 h with h | ⟨left, hleft, h⟩
        · have hbefore : Bounded before (root :: (after ++ (closes ++ following))) := by
            intro next hnext
            cases hnext
            exact .inr (rank_of_splitAtRoot? hsplit).1
          exact ih _ hshort.1 hroot hbefore h rfl
        · rcases bind_eq_error.1 h with h | ⟨right, hright, h⟩
          · have hafter : Bounded after (closes ++ following) :=
              hfollow.subset fun t ht => by simp [htokens, ht]
            have hright : whole = (preceding ++ opens ++ before ++ [root]) ++ (after ++ (closes ++ following)) := by
              rw [hroot]
              simp
            exact ih _ hshort.2 hright hafter h rfl
          · cases hjoin : join root left right with
            | ok t =>
              rw [hjoin] at h
              cases h
            | error e' =>
              rw [hjoin] at h
              cases h
              have hlast : Bounded [root] (closes ++ following) :=
                hfollow.subset fun t ht => by simp [htokens, List.mem_singleton.1 ht]
              exact misplaced_of_join hseg hroot hsplit hlast hleft hright hjoin

end Stretch

namespace Expression

/-- If tokens that do not nest too deeply are refused for the operands of one of them, that token has a neighbour
that it must not have: an operator lacks what it needs on its right, a function lacks it or has an operand on its
left, and a constant, a variable or a group follows an operand. -/
theorem ofRanked_blames_misplaced {scope : Scope} {tokens : List Token} {ranked : List RankedToken} {e : SyntaxError}
    (hranked : RankedToken.ofTokens scope tokens = .ok ranked) (hnesting : Token.nesting tokens < 2 ^ 30 - 1)
    (h : ofRanked ranked = .error e) : Stretch.Misplaced ranked e := by
  have hseg := Segment.of_rankAfter hranked hnesting
  have hwhole : ranked = [] ++ (ranked ++ []) := by simp
  have hbounded : Stretch.Bounded ranked [] := by
    intro next hnext
    cases hnext
  exact Stretch.misplaced_of_tree? hseg hwhole hbounded (map_eq_error.1 h)

/-- The tokens of `a*+b`. -/
def timesPlus : List Token :=
  [⟨⟨0, 1⟩, .word, "a"⟩, ⟨⟨1, 2⟩, .operator .mul, "*"⟩, ⟨⟨2, 3⟩, .operator .add, "+"⟩, ⟨⟨3, 4⟩, .word, "b"⟩]

/-- The sum is the root, so the product has no right operand and is blamed for the `+` behind it. -/
theorem ofRanked_blames_misplaced_timesPlus :
    ∃ ranked, RankedToken.ofTokens (.ofVariables ["a", "b"]) timesPlus = .ok ranked ∧
      Token.nesting timesPlus < 2 ^ 30 - 1 ∧ ofRanked ranked = .error (.arity ⟨1, 2⟩ "*" .binary) ∧
      Stretch.Misplaced ranked (.arity ⟨1, 2⟩ "*" .binary) := by
  have hnesting : Token.nesting timesPlus < 2 ^ 30 - 1 := by decide
  have hranked : RankedToken.ofTokens (.ofVariables ["a", "b"]) timesPlus = .ok _ := rfl
  refine ⟨_, hranked, hnesting, ?_, ?_⟩
  · decide +kernel
  · exact ofRanked_blames_misplaced hranked hnesting (by decide +kernel)

end Expression

end SymbolicCalc
