import SymbolicCalc.Tree.OfTokens

/-!
# The root of a stretch

What one step of the tree construction does: which parentheses it passes over, which token it takes as the
root, and on what its result depends. Two consequences are used throughout. The tree of a stretch does not
change when opening parentheses are put before it or closing ones behind it, and a stretch that has a tree
holds no two tokens next to each other that would need an operator between them.
-/

namespace SymbolicCalc

/-! ## Ranks as numbers -/

/-- A rank as a number. Operands and parentheses come after every 32-bit number. -/
def Rank.toNat : Rank → Nat
  | .ranked value => value.toNat
  | .leaf => 2 ^ 32

theorem Rank.toNat_le (r : Rank) : r.toNat ≤ 2 ^ 32 := by
  cases r with
  | ranked value => exact Nat.le_of_lt value.toNat_lt
  | leaf => exact Nat.le_refl _

theorem Rank.toNat_lt {r : Rank} (h : r ≠ .leaf) : r.toNat < 2 ^ 32 := by
  cases r with
  | ranked value => exact value.toNat_lt
  | leaf => exact absurd rfl h

theorem Rank.le_iff (a b : Rank) : a.le b = true ↔ a.toNat ≤ b.toNat := by
  cases a with
  | ranked x =>
    cases b with
    | ranked y => simp [Rank.le, Rank.toNat, UInt32.le_iff_toNat_le]
    | leaf =>
      have := x.toNat_lt
      simp only [Rank.le, Rank.toNat, true_iff]
      omega
  | leaf =>
    cases b with
    | ranked y =>
      have := y.toNat_lt
      simp only [Rank.le, Rank.toNat, Bool.false_eq_true, false_iff]
      omega
    | leaf => simp [Rank.le]

theorem RankedToken.not_paren (t : RankedToken) (hopen : t.role ≠ .openParen)
    (hclose : t.role ≠ .closeParen) : t.isOpen = false ∧ t.isClose = false := by
  simp [isOpen, isClose, hopen, hclose]

namespace Stretch

/-! ## Parentheses at the ends -/

theorem not_isOpen_of_isClose {t : RankedToken} (h : t.isClose = true) : t.isOpen = false := by
  simp only [RankedToken.isClose, decide_eq_true_eq] at h
  simp [RankedToken.isOpen, h]

/-- Dropping from the left ends at the latest before a token that is not to be dropped. -/
theorem dropWhile_append_cons {p : RankedToken → Bool} {t : RankedToken} (ht : p t = false)
    (before after : Stretch) :
    (before ++ t :: after).dropWhile p = before.dropWhile p ++ t :: after := by
  induction before with
  | nil => simp [ht]
  | cons x xs ih =>
    by_cases hx : p x = true
    · simpa [hx] using ih
    · simp [hx]

/-- Dropping from the right ends at the latest behind a token that is not to be dropped. -/
theorem reverse_dropWhile_append_cons {p : RankedToken → Bool} {t : RankedToken} (ht : p t = false)
    (before after : Stretch) :
    ((before ++ t :: after).reverse.dropWhile p).reverse =
      before ++ t :: (after.reverse.dropWhile p).reverse := by
  have h := dropWhile_append_cons ht after.reverse before.reverse
  simp only [List.reverse_append, List.reverse_cons, List.append_assoc, List.singleton_append, h,
    List.reverse_reverse]

/-- What is stripped on both sides of two tokens of which the first opens no group and the second closes
none. -/
theorem stripParens_append_pair {a b : RankedToken} (ha : a.isOpen = false) (hb : b.isClose = false)
    (before after : Stretch) :
    stripParens (before ++ a :: b :: after) =
      before.dropWhile RankedToken.isOpen ++
        a :: b :: (after.reverse.dropWhile RankedToken.isClose).reverse := by
  unfold stripParens
  rw [dropWhile_append_cons ha]
  have h := reverse_dropWhile_append_cons hb (before.dropWhile RankedToken.isOpen ++ [a]) after
  simpa using h

/-- What is stripped on both sides of a token that is no parenthesis. -/
theorem stripParens_append_cons {t : RankedToken} (hopen : t.isOpen = false)
    (hclose : t.isClose = false) (before after : Stretch) :
    stripParens (before ++ t :: after) =
      before.dropWhile RankedToken.isOpen ++
        t :: (after.reverse.dropWhile RankedToken.isClose).reverse := by
  unfold stripParens
  rw [dropWhile_append_cons hopen, reverse_dropWhile_append_cons hclose]

/-- Opening parentheses at the start make no difference. -/
theorem stripParens_append_left {opens : Stretch} (h : ∀ t ∈ opens, t.isOpen = true)
    (tokens : Stretch) : stripParens (opens ++ tokens) = stripParens tokens := by
  unfold stripParens
  rw [List.dropWhile_append_of_pos h]

/-- Closing parentheses at the end make no difference. -/
theorem stripParens_append_right {closes : Stretch} (h : ∀ t ∈ closes, t.isClose = true)
    (tokens : Stretch) : stripParens (tokens ++ closes) = stripParens tokens := by
  have hdrop : (tokens ++ closes).dropWhile RankedToken.isOpen =
      tokens.dropWhile RankedToken.isOpen ++ closes := by
    induction tokens with
    | nil =>
      cases closes with
      | nil => rfl
      | cons c cs => simp [not_isOpen_of_isClose (h c List.mem_cons_self)]
    | cons x xs ih =>
      by_cases hx : x.isOpen = true
      · simpa [hx] using ih
      · simp [hx]
  unfold stripParens
  rw [hdrop, List.reverse_append, List.dropWhile_append_of_pos (by simpa using h)]

/-! ## The root -/

/-- The root binds less tightly than everything behind it, and at most as tightly as everything before it. -/
theorem rank_of_splitAtRoot? {tokens before after : Stretch} {root : RankedToken}
    (h : splitAtRoot? tokens = some (before, root, after)) :
    (∀ t ∈ before, root.rank.toNat ≤ t.rank.toNat) ∧
      ∀ t ∈ after, root.rank.toNat < t.rank.toNat := by
  induction tokens generalizing before root after with
  | nil => simp [splitAtRoot?] at h
  | cons token tokens ih =>
    simp only [splitAtRoot?] at h
    split at h
    next hnone =>
      simp only [Option.some.injEq, Prod.mk.injEq] at h
      obtain ⟨rfl, rfl, rfl⟩ := h
      simp
    next b r a hsome =>
      obtain ⟨hb, ha⟩ := ih hsome
      split at h
      next hle =>
        simp only [Option.some.injEq, Prod.mk.injEq] at h
        obtain ⟨rfl, rfl, rfl⟩ := h
        rw [Rank.le_iff] at hle
        refine ⟨fun t ht => ?_, ha⟩
        rcases List.mem_cons.1 ht with rfl | ht
        · exact hle
        · exact hb t ht
      next hle =>
        simp only [Option.some.injEq, Prod.mk.injEq] at h
        obtain ⟨rfl, rfl, rfl⟩ := h
        rw [Rank.le_iff] at hle
        refine ⟨by simp, fun t ht => ?_⟩
        rw [eq_append_of_splitAtRoot? hsome] at ht
        rcases List.mem_append.1 ht with ht | ht
        · have := hb t ht
          omega
        · rcases List.mem_cons.1 ht with rfl | ht
          · omega
          · have := ha t ht
            omega

/-- The only token that binds so is the root. -/
theorem splitAtRoot?_append_cons {before after : Stretch} {root : RankedToken}
    (hbefore : ∀ t ∈ before, root.rank.toNat ≤ t.rank.toNat)
    (hafter : ∀ t ∈ after, root.rank.toNat < t.rank.toNat) :
    splitAtRoot? (before ++ root :: after) = some (before, root, after) := by
  induction before with
  | nil =>
    simp only [List.nil_append, splitAtRoot?]
    cases hsplit : splitAtRoot? after with
    | none => rw [splitAtRoot?_eq_none.1 hsplit]
    | some found =>
      obtain ⟨b, r, a⟩ := found
      have hr : r ∈ after := by
        rw [eq_append_of_splitAtRoot? hsplit]
        simp
      have hlt := hafter r hr
      have hle : ¬ r.rank.le root.rank = true := by
        rw [Rank.le_iff]
        omega
      simp [hle]
  | cons x xs ih =>
    have hx : root.rank.le x.rank = true := (Rank.le_iff _ _).2 (hbefore x List.mem_cons_self)
    simp [splitAtRoot?, ih fun t ht => hbefore t (List.mem_cons_of_mem _ ht), hx]

/-! ## One step of the construction -/

theorem tree?_nil : tree? [] = .ok none := by
  rw [tree?]
  rfl

theorem tree?_of_stripParens_eq_nil {tokens : Stretch} (hne : tokens ≠ [])
    (hstrip : stripParens tokens = []) : tree? tokens = .ok (some .zero) := by
  have hsplit : splitAtRoot? (stripParens tokens) = none := splitAtRoot?_eq_none.2 hstrip
  rw [tree?, if_neg (by simpa using hne)]
  split
  · rfl
  · simp_all

theorem tree?_of_splitAtRoot? {tokens before after : Stretch} {root : RankedToken}
    (hsplit : splitAtRoot? (stripParens tokens) = some (before, root, after)) :
    tree? tokens =
      if root.isOpen || root.isClose then .error (root.arityError .group)
      else (do
        let left ← tree? before
        let right ← tree? after
        some <$> join root left right) := by
  have hne : tokens ≠ [] := by
    rintro rfl
    simp [stripParens, splitAtRoot?] at hsplit
  rw [tree?, if_neg (by simpa using hne)]
  split
  · simp_all
  next b r a hsome =>
    rw [hsplit] at hsome
    simp only [Option.some.injEq, Prod.mk.injEq] at hsome
    obtain ⟨rfl, rfl, rfl⟩ := hsome
    rfl

/-- The tree of a stretch depends only on what is left of it. -/
theorem tree?_congr {tokens others : Stretch} (hne : tokens ≠ []) (hne' : others ≠ [])
    (hstrip : stripParens tokens = stripParens others) : tree? tokens = tree? others := by
  cases hsplit : splitAtRoot? (stripParens tokens) with
  | none =>
    have hnil := splitAtRoot?_eq_none.1 hsplit
    rw [tree?_of_stripParens_eq_nil hne hnil, tree?_of_stripParens_eq_nil hne' (hstrip ▸ hnil)]
  | some found =>
    obtain ⟨before, root, after⟩ := found
    have hsplit' : splitAtRoot? (stripParens others) = some (before, root, after) := hstrip ▸ hsplit
    rw [tree?_of_splitAtRoot? hsplit, tree?_of_splitAtRoot? hsplit']

theorem ne_nil_of_tree?_eq_some {tokens : Stretch} {t : Expression} (h : tree? tokens = .ok (some t)) :
    tokens ≠ [] := by
  rintro rfl
  rw [tree?_nil] at h
  cases h

/-- Joining the sides of a root succeeds only if both sides are read without error. -/
theorem exists_of_join_bind {root : RankedToken} {before after : Except SyntaxError (Option Expression)}
    {result : Option Expression}
    (h : (do
      let left ← before
      let right ← after
      some <$> join root left right) = .ok result) :
    ∃ left right t, before = .ok left ∧ after = .ok right ∧ join root left right = .ok t ∧
      result = some t := by
  obtain ⟨left, hleft, hrest⟩ := bind_eq_ok.1 h
  obtain ⟨right, hright, hroot⟩ := bind_eq_ok.1 hrest
  obtain ⟨t, hjoin, rfl⟩ := map_eq_ok.1 hroot
  exact ⟨left, right, t, hleft, hright, hjoin, rfl⟩

/-- A stretch that has a tree: its root is no parenthesis, and both of its sides have trees (or none) that
the root can join. -/
theorem exists_join_of_tree? {tokens before after : Stretch} {root : RankedToken}
    {result : Option Expression}
    (hsplit : splitAtRoot? (stripParens tokens) = some (before, root, after))
    (htree : tree? tokens = .ok result) :
    ∃ left right t, tree? before = .ok left ∧ tree? after = .ok right ∧
      join root left right = .ok t ∧ result = some t := by
  rw [tree?_of_splitAtRoot? hsplit] at htree
  split at htree
  · cases htree
  · exact exists_of_join_bind htree

/-- Only a stretch without tokens has no tree. -/
theorem eq_nil_of_tree?_eq_none {tokens : Stretch} (h : tree? tokens = .ok none) : tokens = [] := by
  refine Decidable.byContradiction fun hne => ?_
  cases hsplit : splitAtRoot? (stripParens tokens) with
  | none => simp [tree?_of_stripParens_eq_nil hne (splitAtRoot?_eq_none.1 hsplit)] at h
  | some found =>
    obtain ⟨before, root, after⟩ := found
    obtain ⟨left, right, t, -, -, -, hnone⟩ := exists_join_of_tree? hsplit h
    simp at hnone

/-- An operator takes whatever stands before it and needs an operand behind it. -/
theorem join_operator {root : RankedToken} {op : Operator} {left right : Option Expression}
    {t : Expression} (hrole : root.role = .operator op) (h : join root left right = .ok t) :
    ∃ r, right = some r ∧ t = .binary op (left.getD .zero) r := by
  cases right with
  | none => simp [join, hrole] at h
  | some r =>
    simp only [join, hrole, Except.ok.injEq] at h
    exact ⟨r, rfl, h.symm⟩

/-- A function takes nothing before it and needs an argument behind it. -/
theorem join_call {root : RankedToken} {f : Elementary} {left right : Option Expression}
    {t : Expression} (hrole : root.role = .call f) (h : join root left right = .ok t) :
    left = none ∧ ∃ arg, right = some arg ∧ t = .call f arg := by
  cases left with
  | some l => simp [join, hrole] at h
  | none =>
    cases right with
    | none => simp [join, hrole] at h
    | some arg =>
      simp only [join, hrole, Except.ok.injEq] at h
      exact ⟨rfl, arg, rfl, h.symm⟩

/-! ## Juxtaposition -/

/-- Whether an operand may end with the token: it is an operand itself, or it closes a group. -/
def endsOperand (t : RankedToken) : Bool :=
  match t.role with
  | .leaf _ | .closeParen => true
  | _ => false

/-- Whether an operand may start with the token: it is an operand itself, it opens a group, or it applies
a function. -/
def startsOperand (t : RankedToken) : Bool :=
  match t.role with
  | .leaf _ | .openParen | .call _ => true
  | _ => false

/-- The last token before a root that takes nothing on its left ends no operand. -/
theorem not_startsOperand_of_join {root : RankedToken} {left : Expression} {right : Option Expression}
    {t : Expression} (hjoin : join root (some left) right = .ok t) : startsOperand root = false := by
  cases hrole : root.role <;> simp_all [join, startsOperand]

/-- The first token after a root that takes nothing on its right starts no operand. -/
theorem not_endsOperand_of_join {root : RankedToken} {left : Option Expression} {right : Expression}
    {t : Expression} (hjoin : join root left (some right) = .ok t) : endsOperand root = false := by
  cases hrole : root.role <;> simp_all [join, endsOperand]

/-- Where two neighbours stand when a stretch is cut at one token: both before it, both behind it, or one of
them is the token. -/
theorem pair_cases {before after left right : Stretch} {root a b : RankedToken}
    (h : left ++ root :: right = before ++ a :: b :: after) :
    (∃ rest, left = before ++ a :: b :: rest) ∨ (left = before ++ [a] ∧ root = b) ∨
      (root = a ∧ right = b :: after) ∨ ∃ rest, right = rest ++ a :: b :: after := by
  rcases List.append_eq_append_iff.1 h with ⟨mid, hmid, hrest⟩ | ⟨mid, hmid, hrest⟩
  · cases mid with
    | nil => simp_all
    | cons x xs =>
      simp only [List.cons_append, List.cons.injEq] at hrest
      exact .inr (.inr (.inr ⟨xs, hrest.2⟩))
  · cases mid with
    | nil => simp_all
    | cons x xs =>
      simp only [List.cons_append, List.cons.injEq] at hrest
      obtain ⟨rfl, hrest⟩ := hrest
      cases xs with
      | nil => simp_all
      | cons y ys =>
        simp only [List.cons_append, List.cons.injEq] at hrest
        obtain ⟨rfl, -⟩ := hrest
        exact .inl ⟨ys, hmid⟩

/-- In a stretch that has a tree no operand is followed by another one without an operator between them. The
pair is either on one side of the root, where the claim holds by induction, or the root is one of the two
and would have to take an operand on a side where it takes none. -/
theorem not_juxtaposed_of_tree? {tokens : Stretch} {result : Option Expression}
    (htree : tree? tokens = .ok result) {before after : Stretch} {a b : RankedToken}
    (htokens : tokens = before ++ a :: b :: after) (ha : endsOperand a = true) :
    startsOperand b = false := by
  induction hlen : tokens.length using Nat.strongRecOn
    generalizing tokens result before after with
  | ind n ih =>
    refine Bool.eq_false_iff.2 fun hb => ?_
    have haopen : a.isOpen = false := by
      cases hrole : a.role <;> simp_all [endsOperand, RankedToken.isOpen]
    have hbclose : b.isClose = false := by
      cases hrole : b.role <;> simp_all [startsOperand, RankedToken.isClose]
    have hstrip := stripParens_append_pair haopen hbclose before after
    rw [← htokens] at hstrip
    cases hsplit : splitAtRoot? (stripParens tokens) with
    | none =>
      rw [splitAtRoot?_eq_none.1 hsplit] at hstrip
      simp at hstrip
    | some found =>
      obtain ⟨left, root, right⟩ := found
      obtain ⟨l, r, t, hl, hr, hjoin, -⟩ := exists_join_of_tree? hsplit htree
      have hshort := length_lt_of_splitAtRoot? hsplit
      rw [hlen] at hshort
      rw [eq_append_of_splitAtRoot? hsplit] at hstrip
      rcases pair_cases hstrip with ⟨rest, hpair⟩ | ⟨hleft, rfl⟩ | ⟨rfl, hright⟩ | ⟨rest, hpair⟩
      · have := ih _ hshort.1 hl hpair rfl
        simp [hb] at this
      · cases l with
        | none => simp [eq_nil_of_tree?_eq_none hl] at hleft
        | some l => simp [not_startsOperand_of_join hjoin] at hb
      · cases r with
        | none => simp [eq_nil_of_tree?_eq_none hr] at hright
        | some r => simp [not_endsOperand_of_join hjoin] at ha
      · have := ih _ hshort.2 hr hpair rfl
        simp [hb] at this

end Stretch

end SymbolicCalc
