import SymbolicCalc.Proofs.Nesting

/-!
# The grammar of expressions

The tree construction cuts a stretch at its least binding token and passes over parentheses without matching
them. What it accepts all the same is a grammar of five categories,

* sum: an optional sum, `+` or `-`, and a product; or a product;
* product: an optional product, `*`, `/` or `%`, and a power; or a power;
* power: an optional power, `^`, and an application; or an application;
* application: a function and an atom; or an atom;
* atom: an operand; or a sum in parentheses; or a pair of parentheses with nothing between them,

and the tree that it builds is the one that the grammar assigns: operators group to the left, a missing left
operand and an empty pair of parentheses are 0, and parentheses leave no other trace.
-/

namespace SymbolicCalc

/-- The categories of the grammar. -/
inductive Category
  | sum
  | product
  | power
  | application
  | atom
deriving DecidableEq, Repr

/-- How tightly the tokens of a category bind outside of all groups. -/
def Category.level : Category → Nat
  | sum => 1
  | product => 2
  | power => 3
  | application => 4
  | atom => 5

/-- The category of what an operator builds, which is also that of its left operand. -/
def Operator.category : Operator → Category
  | add | sub => .sum
  | mul | div | mod => .product
  | pow => .power

/-- The category of the right operand of an operator. -/
def Operator.operand : Operator → Category
  | add | sub => .product
  | mul | div | mod => .power
  | pow => .application

/-- A token list belongs to a category, and the grammar assigns a tree to it. -/
inductive Derives : Category → List Role → Expression → Prop
  | binary {op : Operator} {before after : List Role} {left right : Expression}
      (hleft : Derives op.category before left) (hright : Derives op.operand after right) :
      Derives op.category (before ++ .operator op :: after) (.binary op left right)
  | leading {op : Operator} {after : List Role} {right : Expression}
      (hright : Derives op.operand after right) :
      Derives op.category (.operator op :: after) (.binary op .zero right)
  | ofProduct {tokens : List Role} {t : Expression} (h : Derives .product tokens t) :
      Derives .sum tokens t
  | ofPower {tokens : List Role} {t : Expression} (h : Derives .power tokens t) :
      Derives .product tokens t
  | ofApplication {tokens : List Role} {t : Expression} (h : Derives .application tokens t) :
      Derives .power tokens t
  | call {f : Elementary} {after : List Role} {arg : Expression} (harg : Derives .atom after arg) :
      Derives .application (.call f :: after) (.call f arg)
  | ofAtom {tokens : List Role} {t : Expression} (h : Derives .atom tokens t) :
      Derives .application tokens t
  | leaf {t : Expression} : Derives .atom [.leaf t] t
  | group {inside : List Role} {t : Expression} (h : Derives .sum inside t) :
      Derives .atom (.openParen :: inside ++ [.closeParen]) t
  | empty : Derives .atom [.openParen, .closeParen] .zero

theorem Category.sum_level_le (c : Category) : Category.sum.level ≤ c.level := by
  cases c <;> decide

theorem Category.level_le_atom (c : Category) : c.level ≤ Category.atom.level := by
  cases c <;> decide

theorem Operator.level_category (op : Operator) : op.category.level = op.tier := by
  cases op <;> rfl

theorem Operator.level_operand (op : Operator) : op.operand.level = op.tier + 1 := by
  cases op <;> rfl

namespace Derives

variable {tokens : List Role} {t : Expression}

/-- Nothing derives from no tokens. -/
theorem ne_nil {c : Category} (h : Derives c tokens t) : tokens ≠ [] := by
  induction h with
  | binary _ _ _ _ => simp
  | leading _ _ => exact List.cons_ne_nil _ _
  | ofProduct _ ih => exact ih
  | ofPower _ ih => exact ih
  | ofApplication _ ih => exact ih
  | call _ _ => exact List.cons_ne_nil _ _
  | ofAtom _ ih => exact ih
  | leaf => exact List.cons_ne_nil _ _
  | group _ _ => simp
  | empty => exact List.cons_ne_nil _ _

theorem application_of_level {c : Category} (h : Derives c tokens t) (hc : 4 ≤ c.level) :
    Derives .application tokens t := by
  cases c with
  | atom => exact .ofAtom h
  | application => exact h
  | sum => simp [Category.level] at hc
  | product => simp [Category.level] at hc
  | power => simp [Category.level] at hc

theorem power_of_level {c : Category} (h : Derives c tokens t) (hc : 3 ≤ c.level) :
    Derives .power tokens t := by
  by_cases hpower : c = .power
  · exact hpower ▸ h
  · exact .ofApplication (h.application_of_level (by cases c <;> simp_all [Category.level]))

theorem product_of_level {c : Category} (h : Derives c tokens t) (hc : 2 ≤ c.level) :
    Derives .product tokens t := by
  by_cases hproduct : c = .product
  · exact hproduct ▸ h
  · exact .ofPower (h.power_of_level (by cases c <;> simp_all [Category.level]))

/-- What belongs to a category belongs to all looser ones. -/
theorem of_level_le {c c' : Category} (h : Derives c tokens t) (hle : c'.level ≤ c.level) :
    Derives c' tokens t := by
  cases c' with
  | sum =>
    by_cases hsum : c = .sum
    · exact hsum ▸ h
    · exact .ofProduct (h.product_of_level (by cases c <;> simp_all [Category.level]))
  | product => exact h.product_of_level hle
  | power => exact h.power_of_level hle
  | application => exact h.application_of_level hle
  | atom =>
    cases c with
    | atom => exact h
    | _ => simp [Category.level] at hle

end Derives

namespace Stretch

/-- Every operator and every function of a stretch has at least the rank `rank`. -/
def RanksAbove (rank : Nat) (tokens : Stretch) : Prop :=
  ∀ t ∈ tokens, t.rank ≠ .leaf → rank ≤ t.rank.toNat

theorem RanksAbove.mono {rank rank' : Nat} {tokens : Stretch} (h : RanksAbove rank tokens)
    (hle : rank' ≤ rank) : RanksAbove rank' tokens :=
  fun t ht hleaf => Nat.le_trans hle (h t ht hleaf)

/-! ## Balanced stretches -/

theorem tree?_dropWhile_isOpen {base depth : Nat} {tokens : Stretch}
    (hseg : Segment base depth tokens depth) :
    tree? (tokens.dropWhile RankedToken.isOpen) = tree? tokens := by
  by_cases hne : tokens = []
  · rw [hne, List.dropWhile_nil]
  have hsplit := List.takeWhile_append_dropWhile (p := RankedToken.isOpen) (l := tokens)
  have hopens : ∀ t ∈ tokens.takeWhile RankedToken.isOpen, t.isOpen = true :=
    fun t ht => List.all_eq_true.1 List.all_takeWhile t ht
  have hrest : tokens.dropWhile RankedToken.isOpen ≠ [] := by
    intro hnil
    rw [hnil, List.append_nil] at hsplit
    have hdepth := hseg.depth_of_forall_isOpen (hsplit ▸ hopens)
    have := List.length_pos_iff.2 hne
    omega
  refine tree?_congr hrest hne ?_
  conv => rhs; rw [← hsplit]
  rw [stripParens_append_left hopens]

theorem tree?_dropWhile_isClose {base depth : Nat} {tokens : Stretch}
    (hseg : Segment base depth tokens depth) :
    tree? (tokens.reverse.dropWhile RankedToken.isClose).reverse = tree? tokens := by
  by_cases hne : tokens = []
  · rw [hne]
    rfl
  have hsplit : (tokens.reverse.dropWhile RankedToken.isClose).reverse ++
      (tokens.reverse.takeWhile RankedToken.isClose).reverse = tokens := by
    rw [← List.reverse_append, List.takeWhile_append_dropWhile, List.reverse_reverse]
  have hcloses : ∀ t ∈ (tokens.reverse.takeWhile RankedToken.isClose).reverse, t.isClose = true :=
    fun t ht => List.all_eq_true.1 List.all_takeWhile t (List.mem_reverse.1 ht)
  have hrest : (tokens.reverse.dropWhile RankedToken.isClose).reverse ≠ [] := by
    intro hnil
    rw [hnil, List.nil_append] at hsplit
    have hdepth := hseg.depth_of_forall_isClose (hsplit ▸ hcloses)
    have := List.length_pos_iff.2 hne
    omega
  refine tree?_congr hrest hne ?_
  conv => rhs; rw [← hsplit]
  rw [stripParens_append_right hcloses]

/-- Two balanced stretches with a token between them that binds less tightly than everything behind it, and
at most as tightly as everything before it: the token is the root, and the stretches are its sides. -/
theorem tree?_append_cons {base depth : Nat} {before after : Stretch} {root : RankedToken}
    (hopen : root.isOpen = false) (hclose : root.isClose = false) (hleaf : root.rank ≠ .leaf)
    (hleft : Segment base depth before depth) (hright : Segment base depth after depth)
    (hbefore : RanksAbove root.rank.toNat before) (hafter : RanksAbove (root.rank.toNat + 1) after) :
    tree? (before ++ root :: after) = (do
      let left ← tree? before
      let right ← tree? after
      some <$> join root left right) := by
  have hroot := Rank.toNat_lt hleaf
  have hsplit : splitAtRoot? (stripParens (before ++ root :: after)) =
      some (before.dropWhile RankedToken.isOpen, root,
        (after.reverse.dropWhile RankedToken.isClose).reverse) := by
    rw [stripParens_append_cons hopen hclose]
    refine splitAtRoot?_append_cons (fun t ht => ?_) (fun t ht => ?_)
    · by_cases h : t.rank = .leaf
      · rw [h]
        exact Rank.toNat_le _
      · exact hbefore t ((List.dropWhile_sublist _).subset ht) h
    · by_cases h : t.rank = .leaf
      · rw [h]
        exact hroot
      · have hmem := (List.dropWhile_sublist _).subset (List.mem_reverse.1 ht)
        exact hafter t (List.mem_reverse.1 hmem) h
  rw [tree?_of_splitAtRoot? hsplit, tree?_dropWhile_isOpen hleft, tree?_dropWhile_isClose hright]
  simp [hopen, hclose]

/-- The same without anything before the root. -/
theorem tree?_cons {base depth : Nat} {after : Stretch} {root : RankedToken}
    (hopen : root.isOpen = false) (hclose : root.isClose = false) (hleaf : root.rank ≠ .leaf)
    (hright : Segment base depth after depth) (hafter : RanksAbove (root.rank.toNat + 1) after) :
    tree? (root :: after) = (do
      let right ← tree? after
      some <$> join root none right) := by
  have hnone : RanksAbove root.rank.toNat [] := by
    intro x hx
    cases hx
  have hsplit := tree?_append_cons hopen hclose hleaf .nil hright hnone hafter
  rw [List.nil_append, tree?_nil] at hsplit
  exact hsplit

/-- A group is read like what it holds. -/
theorem tree?_group {start close : RankedToken} {inside : Stretch} (hopen : start.isOpen = true)
    (hclose : close.isClose = true) (hne : inside ≠ []) :
    tree? (start :: inside ++ [close]) = tree? inside := by
  refine tree?_congr (by simp) hne ?_
  have hstart : ∀ t ∈ [start], t.isOpen = true := by simpa using hopen
  rw [stripParens_append_right (by simpa using hclose)]
  exact stripParens_append_left hstart inside

theorem tree?_emptyGroup {start close : RankedToken} (hopen : start.isOpen = true)
    (hclose : close.isClose = true) : tree? [start, close] = .ok (some .zero) := by
  have hstart : ∀ t ∈ [start], t.isOpen = true := by simpa using hopen
  have hend : ∀ t ∈ [close], t.isClose = true := by simpa using hclose
  refine tree?_of_stripParens_eq_nil (by simp) ?_
  calc stripParens [start, close] = stripParens [close] := stripParens_append_left hstart [close]
    _ = stripParens [] := stripParens_append_right hend []
    _ = [] := rfl

theorem tree?_leaf {t : RankedToken} {tree : Expression} (hrole : t.role = .leaf tree) :
    tree? [t] = .ok (some tree) := by
  obtain ⟨hopen, hclose⟩ := t.not_paren (by simp [hrole]) (by simp [hrole])
  have hsplit : splitAtRoot? (stripParens [t]) = some ([], t, []) := by
    have hstrip := stripParens_append_cons hopen hclose [] []
    rw [List.nil_append] at hstrip
    rw [hstrip]
    rfl
  rw [tree?_of_splitAtRoot? hsplit, tree?_nil]
  simp only [hopen, hclose, Bool.or_self, Bool.false_eq_true, if_false]
  simp [join, hrole, bind, Except.bind, Functor.map, Except.map]

/-! ## What the grammar derives is read -/

/-- A stretch that starts and ends inside `depth` groups more than the base is read as the tree `t`, and its
operators and functions outside of further groups bind at least as tightly as the category asks. -/
structure ReadsAs (base depth : Nat) (c : Category) (tokens : Stretch) (t : Expression) : Prop where
  segment : Segment base depth tokens depth
  ranksAbove : RanksAbove (4 * (base + depth) + c.level) tokens
  tree?_eq : tree? tokens = .ok (some t)

namespace ReadsAs

variable {base depth : Nat} {before after : Stretch} {root : RankedToken} {left right : Expression}

theorem of_level_le {c c' : Category} {tokens : Stretch} {t : Expression}
    (h : ReadsAs base depth c tokens t) (hle : c'.level ≤ c.level) : ReadsAs base depth c' tokens t :=
  ⟨h.segment, h.ranksAbove.mono (by omega), h.tree?_eq⟩

theorem binary {op : Operator} (hrole : root.role = .operator op) (hrank : root.RankedAt (base + depth))
    (hleft : ReadsAs base depth op.category before left)
    (hright : ReadsAs base depth op.operand after right) :
    ReadsAs base depth op.category (before ++ root :: after) (.binary op left right) := by
  obtain ⟨hopen, hclose⟩ := root.not_paren (by simp [hrole]) (by simp [hrole])
  have hroot := hrank.operator hrole
  have hbefore := hleft.ranksAbove
  have hafter := hright.ranksAbove
  rw [op.level_category] at hbefore
  rw [op.level_operand] at hafter
  refine ⟨hleft.segment.append (.inner hopen hclose hrank hright.segment), ?_, ?_⟩
  · intro x hx hleaf
    rw [op.level_category]
    rcases List.mem_append.1 hx with hx | hx
    · exact hbefore x hx hleaf
    · rcases List.mem_cons.1 hx with rfl | hx
      · omega
      · have := hafter x hx hleaf
        omega
  · rw [tree?_append_cons hopen hclose (hrank.ne_leaf hrole) hleft.segment hright.segment
      (hbefore.mono (by omega)) (hafter.mono (by omega)), hleft.tree?_eq, hright.tree?_eq]
    simp [join, hrole, bind, Except.bind, Functor.map, Except.map]

theorem leading {op : Operator} (hrole : root.role = .operator op) (hrank : root.RankedAt (base + depth))
    (hright : ReadsAs base depth op.operand after right) :
    ReadsAs base depth op.category (root :: after) (.binary op .zero right) := by
  obtain ⟨hopen, hclose⟩ := root.not_paren (by simp [hrole]) (by simp [hrole])
  have hroot := hrank.operator hrole
  have hafter := hright.ranksAbove
  rw [op.level_operand] at hafter
  refine ⟨.inner hopen hclose hrank hright.segment, ?_, ?_⟩
  · intro x hx hleaf
    rw [op.level_category]
    rcases List.mem_cons.1 hx with rfl | hx
    · omega
    · have := hafter x hx hleaf
      omega
  · rw [tree?_cons hopen hclose (hrank.ne_leaf hrole) hright.segment (hafter.mono (by omega)),
      hright.tree?_eq]
    simp [join, hrole, bind, Except.bind, Functor.map, Except.map]

theorem call {f : Elementary} (hrole : root.role = .call f) (hrank : root.RankedAt (base + depth))
    (harg : ReadsAs base depth .atom after right) :
    ReadsAs base depth .application (root :: after) (.call f right) := by
  obtain ⟨hopen, hclose⟩ := root.not_paren (by simp [hrole]) (by simp [hrole])
  obtain ⟨hroot, hleaf⟩ := hrank.call hrole
  have hafter : RanksAbove (4 * (base + depth) + 5) after := harg.ranksAbove
  refine ⟨.inner hopen hclose hrank harg.segment, ?_, ?_⟩
  · intro x hx hxleaf
    show 4 * (base + depth) + 4 ≤ _
    rcases List.mem_cons.1 hx with rfl | hx
    · omega
    · have := hafter x hx hxleaf
      omega
  · rw [tree?_cons hopen hclose hleaf harg.segment (hafter.mono (by omega)), harg.tree?_eq]
    simp [join, hrole, bind, Except.bind, Functor.map, Except.map]

theorem leaf {t : Expression} (hrole : root.role = .leaf t) (hrank : root.RankedAt (base + depth)) :
    ReadsAs base depth .atom [root] t := by
  obtain ⟨hopen, hclose⟩ := root.not_paren (by simp [hrole]) (by simp [hrole])
  have hleaf : root.rank = .leaf := by simpa [RankedToken.RankedAt, hrole] using hrank
  refine ⟨.inner hopen hclose hrank .nil, ?_, tree?_leaf hrole⟩
  intro x hx hxleaf
  rw [List.mem_singleton.1 hx] at hxleaf
  exact absurd hleaf hxleaf

/-- What stands inside a group binds more tightly than any token outside of it. -/
theorem group {start close : RankedToken} {inside : Stretch} {t : Expression}
    (hstart : start.role = .openParen) (hrankstart : start.rank = .leaf)
    (hclose : close.role = .closeParen) (hrankclose : close.rank = .leaf)
    (h : ReadsAs base (depth + 1) .sum inside t) :
    ReadsAs base depth .atom (start :: inside ++ [close]) t := by
  have hranks : RanksAbove (4 * (base + (depth + 1)) + 1) inside := h.ranksAbove
  refine ⟨.opening hstart hrankstart (h.segment.append (.closing hclose hrankclose .nil)), ?_, ?_⟩
  · intro x hx hleaf
    show 4 * (base + depth) + 5 ≤ _
    rcases List.mem_append.1 hx with hx | hx
    · rcases List.mem_cons.1 hx with rfl | hx
      · exact absurd hrankstart hleaf
      · have := hranks x hx hleaf
        omega
    · rw [List.mem_singleton.1 hx] at hleaf
      exact absurd hrankclose hleaf
  · have hopens : start.isOpen = true := by simp [RankedToken.isOpen, hstart]
    have hcloses : close.isClose = true := by simp [RankedToken.isClose, hclose]
    rw [tree?_group hopens hcloses (ne_nil_of_tree?_eq_some h.tree?_eq)]
    exact h.tree?_eq

theorem emptyGroup {start close : RankedToken} (hstart : start.role = .openParen)
    (hrankstart : start.rank = .leaf) (hclose : close.role = .closeParen) (hrankclose : close.rank = .leaf) :
    ReadsAs base depth .atom [start, close] .zero := by
  refine ⟨.opening hstart hrankstart (.closing hclose hrankclose .nil), ?_, ?_⟩
  · intro x hx hleaf
    simp only [List.mem_cons, List.not_mem_nil, or_false] at hx
    rcases hx with rfl | rfl
    · exact absurd hrankstart hleaf
    · exact absurd hrankclose hleaf
  · exact tree?_emptyGroup (by simp [RankedToken.isOpen, hstart])
      (by simp [RankedToken.isClose, hclose])

end ReadsAs

end Stretch

/-- A stretch that belongs to a category is balanced, and it is read as the tree that the grammar assigns. The
induction is on the derivation; each operator and function in it is the root of its part of the stretch,
since the parts beside it belong to categories that bind as tightly (on the left) or more tightly (on the
right). -/
theorem Derives.readsAs {c : Category} {roles : List Role} {t : Expression} (h : Derives c roles t)
    {base depth depth' : Nat} {tokens : Stretch} (hroles : tokens.map (·.role) = roles)
    (hseg : Segment base depth tokens depth') :
    depth' = depth ∧ Stretch.ReadsAs base depth c tokens t := by
  induction h generalizing tokens depth depth' with
  | @binary op before after left right hleft hright ihleft ihright =>
    obtain ⟨before, others, rfl, rfl, hothers⟩ := List.map_eq_append_iff.1 hroles
    obtain ⟨root, after, rfl, hrole, rfl⟩ := List.map_eq_cons_iff.1 hothers
    obtain ⟨hopen, hclose⟩ := root.not_paren (by simp [hrole]) (by simp [hrole])
    obtain ⟨mid, hsegleft, hsegrest⟩ := hseg.of_append
    obtain ⟨hrank, hsegright⟩ := hsegrest.of_cons hopen hclose
    obtain ⟨rfl, hbefore⟩ := ihleft rfl hsegleft
    obtain ⟨rfl, hafter⟩ := ihright rfl hsegright
    exact ⟨rfl, .binary hrole hrank hbefore hafter⟩
  | @leading op after right hright ihright =>
    obtain ⟨root, after, rfl, hrole, rfl⟩ := List.map_eq_cons_iff.1 hroles
    obtain ⟨hopen, hclose⟩ := root.not_paren (by simp [hrole]) (by simp [hrole])
    obtain ⟨hrank, hsegright⟩ := hseg.of_cons hopen hclose
    obtain ⟨rfl, hafter⟩ := ihright rfl hsegright
    exact ⟨rfl, .leading hrole hrank hafter⟩
  | ofProduct _ ih =>
    obtain ⟨hdepth, hreads⟩ := ih hroles hseg
    exact ⟨hdepth, hreads.of_level_le (by decide)⟩
  | ofPower _ ih =>
    obtain ⟨hdepth, hreads⟩ := ih hroles hseg
    exact ⟨hdepth, hreads.of_level_le (by decide)⟩
  | ofApplication _ ih =>
    obtain ⟨hdepth, hreads⟩ := ih hroles hseg
    exact ⟨hdepth, hreads.of_level_le (by decide)⟩
  | @call f after arg harg iharg =>
    obtain ⟨root, after, rfl, hrole, rfl⟩ := List.map_eq_cons_iff.1 hroles
    obtain ⟨hopen, hclose⟩ := root.not_paren (by simp [hrole]) (by simp [hrole])
    obtain ⟨hrank, hsegarg⟩ := hseg.of_cons hopen hclose
    obtain ⟨rfl, hafter⟩ := iharg rfl hsegarg
    exact ⟨rfl, .call hrole hrank hafter⟩
  | ofAtom _ ih =>
    obtain ⟨hdepth, hreads⟩ := ih hroles hseg
    exact ⟨hdepth, hreads.of_level_le (by decide)⟩
  | @leaf tree =>
    obtain ⟨t, rest, rfl, hrole, hrest⟩ := List.map_eq_cons_iff.1 hroles
    obtain rfl := List.map_eq_nil_iff.1 hrest
    obtain ⟨hopen, hclose⟩ := t.not_paren (by simp [hrole]) (by simp [hrole])
    obtain ⟨hrank, hnil⟩ := hseg.of_cons hopen hclose
    cases hnil
    exact ⟨rfl, .leaf hrole hrank⟩
  | @group inside tree h ih =>
    rw [List.cons_append] at hroles
    obtain ⟨start, others, rfl, hstart, hothers⟩ := List.map_eq_cons_iff.1 hroles
    obtain ⟨inside, last, rfl, hinside, hlast⟩ := List.map_eq_append_iff.1 hothers
    obtain ⟨close, rest, rfl, hclose, hrest⟩ := List.map_eq_cons_iff.1 hlast
    obtain rfl := List.map_eq_nil_iff.1 hrest
    obtain ⟨hrankstart, hsegrest⟩ := hseg.of_cons_open hstart
    obtain ⟨mid, hseginside, hsegclose⟩ := hsegrest.of_append
    obtain ⟨rfl, hreads⟩ := ih hinside hseginside
    obtain ⟨hrankclose, inner, hinner, hsegnil⟩ := hsegclose.of_cons_close hclose
    cases hsegnil
    obtain rfl : depth' = depth := by omega
    exact ⟨rfl, .group hstart hrankstart hclose hrankclose hreads⟩
  | empty =>
    obtain ⟨start, others, rfl, hstart, hothers⟩ := List.map_eq_cons_iff.1 hroles
    obtain ⟨close, rest, rfl, hclose, hrest⟩ := List.map_eq_cons_iff.1 hothers
    obtain rfl := List.map_eq_nil_iff.1 hrest
    obtain ⟨hrankstart, hsegrest⟩ := hseg.of_cons_open hstart
    obtain ⟨hrankclose, inner, hinner, hsegnil⟩ := hsegrest.of_cons_close hclose
    cases hsegnil
    obtain rfl : depth' = depth := by omega
    exact ⟨rfl, .emptyGroup hstart hrankstart hclose hrankclose⟩

/-! ## What is read the grammar derives -/

namespace Stretch

variable {base : Nat} {tokens : Stretch}

/-- A balanced stretch that has a tree and holds no operator and no function outside of its groups is one
operand or one group: a second one would stand next to the first. -/
theorem atom_cases (hseg : Segment base 0 tokens 0) (hne : tokens ≠ [])
    (hranks : RanksAbove (4 * base + 5) tokens) {result : Option Expression}
    (htree : tree? tokens = .ok result) :
    (∃ t tree, tokens = [t] ∧ t.role = .leaf tree) ∨
      ∃ start inside close, tokens = start :: inside ++ [close] ∧ start.role = .openParen ∧
        close.role = .closeParen ∧ Segment (base + 1) 0 inside 0 := by
  -- whatever follows an operand or a group outside of all groups starts an operand
  have hnext : ∀ before a rest, tokens = before ++ a :: rest → endsOperand a = true →
      Segment base 0 rest 0 → rest = [] := by
    intro before a rest htokens ha hrest
    cases hrest with
    | nil => rfl
    | opening hrole =>
      have hb := not_juxtaposed_of_tree? htree htokens ha
      simp [startsOperand, hrole] at hb
    | @inner _ _ b _ hopen hclose hrank =>
      have hb := not_juxtaposed_of_tree? htree htokens ha
      cases hrole : b.role with
      | operator op =>
        have hlow := hranks b (by simp [htokens]) (hrank.ne_leaf hrole)
        have := op.tier_bounds
        rw [hrank.operator hrole] at hlow
        omega
      | openParen => simp [startsOperand, hrole] at hb
      | closeParen => simp [RankedToken.isClose, hrole] at hclose
      | call f => simp [startsOperand, hrole] at hb
      | leaf tree => simp [startsOperand, hrole] at hb
  cases hseg with
  | nil => exact absurd rfl hne
  | @opening _ _ start _ hrole _ rest =>
    obtain ⟨inside, others, close, rfl, hclose, hinside, hothers⟩ := rest.exists_close
    have hends : endsOperand close = true := by simp [endsOperand, hclose]
    obtain rfl := hnext (start :: inside) close others rfl hends hothers
    exact .inr ⟨start, inside, close, rfl, hrole, hclose, hinside⟩
  | @inner _ _ t _ hopen hclose hrank rest =>
    cases hrole : t.role with
    | operator op =>
      have hlow := hranks t List.mem_cons_self (hrank.ne_leaf hrole)
      have := op.tier_bounds
      rw [hrank.operator hrole] at hlow
      omega
    | call f =>
      have hlow := hranks t List.mem_cons_self (hrank.call hrole).2
      rw [(hrank.call hrole).1] at hlow
      omega
    | openParen => simp [RankedToken.isOpen, hrole] at hopen
    | closeParen => simp [RankedToken.isClose, hrole] at hclose
    | leaf tree =>
      have hends : endsOperand t = true := by simp [endsOperand, hrole]
      obtain rfl := hnext [] t _ rfl hends rest
      exact .inl ⟨t, tree, rfl, hrole⟩

/-- An operator that is the last one of least rank stands between two balanced stretches, and the tree joins
theirs. -/
theorem sides_of_operator {before after : Stretch} {root : RankedToken} {op : Operator} {t : Expression}
    (hrole : root.role = .operator op) (hseg : Segment base 0 (before ++ root :: after) 0)
    (hleast : ∀ x ∈ before, root.rank.toNat ≤ x.rank.toNat)
    (hlast : ∀ x ∈ after, root.rank.toNat < x.rank.toNat) (hlow : root.rank.toNat < 4 * base + 5)
    (htree : tree? (before ++ root :: after) = .ok (some t)) :
    root.rank.toNat = 4 * base + op.tier ∧ Segment base 0 before 0 ∧ Segment base 0 after 0 ∧
      ∃ left right, tree? before = .ok left ∧ tree? after = .ok (some right) ∧
        t = .binary op (left.getD .zero) right := by
  obtain ⟨hopen, hclose⟩ := root.not_paren (by simp [hrole]) (by simp [hrole])
  obtain ⟨mid, hsegleft, hsegrest⟩ := hseg.of_append
  obtain ⟨hrank, hsegright⟩ := hsegrest.of_cons hopen hclose
  have hvalue := hrank.operator hrole
  have := op.tier_bounds
  obtain rfl : mid = 0 := by omega
  rw [tree?_append_cons hopen hclose (hrank.ne_leaf hrole) hsegleft hsegright
    (fun x hx _ => hleast x hx) (fun x hx _ => hlast x hx)] at htree
  obtain ⟨left, right, t', hleft, hright, hjoin, ht⟩ := exists_of_join_bind htree
  obtain rfl := Option.some.inj ht
  obtain ⟨r, rfl, rfl⟩ := join_operator hrole hjoin
  exact ⟨by omega, hsegleft, hsegright, left, r, hleft, hright, rfl⟩

/-- A function that is the last one of least rank starts the stretch, and its argument is balanced. -/
theorem sides_of_call {before after : Stretch} {root : RankedToken} {f : Elementary} {t : Expression}
    (hrole : root.role = .call f) (hseg : Segment base 0 (before ++ root :: after) 0)
    (hleast : ∀ x ∈ before, root.rank.toNat ≤ x.rank.toNat)
    (hlast : ∀ x ∈ after, root.rank.toNat < x.rank.toNat) (hlow : root.rank.toNat < 4 * base + 5)
    (htree : tree? (before ++ root :: after) = .ok (some t)) :
    root.rank.toNat = 4 * base + 4 ∧ before = [] ∧ Segment base 0 after 0 ∧
      ∃ arg, tree? after = .ok (some arg) ∧ t = .call f arg := by
  obtain ⟨hopen, hclose⟩ := root.not_paren (by simp [hrole]) (by simp [hrole])
  obtain ⟨mid, hsegleft, hsegrest⟩ := hseg.of_append
  obtain ⟨hrank, hsegright⟩ := hsegrest.of_cons hopen hclose
  obtain ⟨hvalue, hleaf⟩ := hrank.call hrole
  obtain rfl : mid = 0 := by omega
  rw [tree?_append_cons hopen hclose hleaf hsegleft hsegright
    (fun x hx _ => hleast x hx) (fun x hx _ => hlast x hx)] at htree
  obtain ⟨left, right, t', hleft, hright, hjoin, ht⟩ := exists_of_join_bind htree
  obtain rfl := Option.some.inj ht
  obtain ⟨rfl, arg, rfl, rfl⟩ := join_call hrole hjoin
  exact ⟨by omega, eq_nil_of_tree?_eq_none hleft, hsegright, arg, hright, rfl⟩

/-- What the root asks for, every operator and every function of the stretch gives. -/
theorem ranksAbove_of_root {before after : Stretch} {root : RankedToken} {rank : Nat}
    (hleast : ∀ x ∈ before, root.rank.toNat ≤ x.rank.toNat)
    (hlast : ∀ x ∈ after, root.rank.toNat < x.rank.toNat)
    (hroot : root.rank ≠ .leaf → rank ≤ root.rank.toNat) : RanksAbove rank (before ++ root :: after) := by
  intro x hx hleaf
  have hle : root.rank.toNat ≤ x.rank.toNat := by
    rcases List.mem_append.1 hx with hx | hx
    · exact hleast x hx
    · rcases List.mem_cons.1 hx with rfl | hx
      · exact Nat.le_refl _
      · exact Nat.le_of_lt (hlast x hx)
  have hlt := Rank.toNat_lt hleaf
  by_cases hrootleaf : root.rank = .leaf
  · rw [hrootleaf, Rank.toNat] at hle
    omega
  · exact Nat.le_trans (hroot hrootleaf) hle

/-- Without operators and functions outside of its groups a stretch is an atom, as far as what it holds in
parentheses is a sum. -/
theorem derives_atom_of_tree? (hseg : Segment base 0 tokens 0)
    (hranks : RanksAbove (4 * base + 5) tokens) {t : Expression} (htree : tree? tokens = .ok (some t))
    (hsum : ∀ inside : Stretch, inside.length < tokens.length → Segment (base + 1) 0 inside 0 →
      tree? inside = .ok (some t) → Derives .sum (inside.map (·.role)) t) :
    Derives .atom (tokens.map (·.role)) t := by
  rcases atom_cases hseg (ne_nil_of_tree?_eq_some htree) hranks htree with
    ⟨x, tree, rfl, hrole⟩ | ⟨start, inside, close, rfl, hstart, hclose, hinside⟩
  · rw [tree?_leaf hrole] at htree
    cases htree
    simp only [List.map_cons, List.map_nil, hrole]
    exact .leaf
  · have hopens : start.isOpen = true := by simp [RankedToken.isOpen, hstart]
    have hcloses : close.isClose = true := by simp [RankedToken.isClose, hclose]
    rw [List.map_append, List.map_cons, List.map_singleton, hstart, hclose]
    by_cases hempty : inside = []
    · subst hempty
      rw [List.singleton_append, tree?_emptyGroup hopens hcloses] at htree
      cases htree
      exact .empty
    · rw [tree?_group hopens hcloses hempty] at htree
      refine .group (hsum inside ?_ hinside htree)
      simp only [List.length_append, List.length_cons, List.length_nil]
      omega

/-- A balanced stretch that has a tree belongs to every category that asks for no more than its operators and
functions outside of all groups give. The induction is on the length. If there is such an operator or
function, the last one of least rank is the root, and both of its sides are balanced again; otherwise the
stretch is an operand or a group. -/
theorem derives_of_tree? (hseg : Segment base 0 tokens 0) {c : Category}
    (hranks : RanksAbove (4 * base + c.level) tokens) {t : Expression}
    (htree : tree? tokens = .ok (some t)) : Derives c (tokens.map (·.role)) t := by
  induction hlen : tokens.length using Nat.strongRecOn generalizing base tokens c t with
  | ind n ih =>
    have hne := ne_nil_of_tree?_eq_some htree
    obtain ⟨before, root, after, hsplit⟩ : ∃ b r a, splitAtRoot? tokens = some (b, r, a) := by
      cases hsplit : splitAtRoot? tokens with
      | none => exact absurd (splitAtRoot?_eq_none.1 hsplit) hne
      | some found => exact ⟨_, _, _, rfl⟩
    obtain ⟨hleast, hlast⟩ := rank_of_splitAtRoot? hsplit
    obtain rfl := eq_append_of_splitAtRoot? hsplit
    have hshort : before.length < n ∧ after.length < n := by
      simp only [List.length_append, List.length_cons] at hlen
      omega
    by_cases hroot : root.rank ≠ .leaf ∧ root.rank.toNat < 4 * base + 5
    · obtain ⟨hleaf, hlow⟩ := hroot
      have hc := hranks root (by simp) hleaf
      obtain ⟨mid, -, hsegrest⟩ := hseg.of_append
      cases hrole : root.role with
      | operator op =>
        obtain ⟨hvalue, hsegleft, hsegright, left, right, hleft, hright, rfl⟩ :=
          sides_of_operator hrole hseg hleast hlast hlow htree
        have hbefore : RanksAbove (4 * base + op.category.level) before := by
          intro x hx _
          rw [op.level_category, ← hvalue]
          exact hleast x hx
        have hafter : RanksAbove (4 * base + op.operand.level) after := by
          intro x hx _
          rw [op.level_operand, ← Nat.add_assoc, ← hvalue]
          exact hlast x hx
        have hderright := ih _ hshort.2 hsegright hafter hright rfl
        rw [List.map_append, List.map_cons, hrole]
        refine Derives.of_level_le ?_ (show c.level ≤ op.category.level by rw [op.level_category]; omega)
        cases left with
        | none =>
          obtain rfl := eq_nil_of_tree?_eq_none hleft
          exact .leading hderright
        | some l => exact .binary (ih _ hshort.1 hsegleft hbefore hleft rfl) hderright
      | call f =>
        obtain ⟨hvalue, rfl, hsegright, arg, harg, rfl⟩ :=
          sides_of_call hrole hseg hleast hlast hlow htree
        have hafter : RanksAbove (4 * base + Category.atom.level) after := by
          intro x hx _
          have := hlast x hx
          show 4 * base + 5 ≤ _
          omega
        have hderarg := ih _ hshort.2 hsegright hafter harg rfl
        rw [List.nil_append, List.map_cons, hrole]
        refine Derives.of_level_le (.call hderarg) (show c.level ≤ 4 from ?_)
        omega
      | openParen => exact absurd (hsegrest.of_cons_open hrole).1 hleaf
      | closeParen => exact absurd (hsegrest.of_cons_close hrole).1 hleaf
      | leaf tree =>
        obtain ⟨hopen, hclose⟩ := root.not_paren (by simp [hrole]) (by simp [hrole])
        have hrank := (hsegrest.of_cons hopen hclose).1
        exact absurd (by simpa [RankedToken.RankedAt, hrole] using hrank) hleaf
    · have habove : RanksAbove (4 * base + 5) (before ++ root :: after) := by
        refine ranksAbove_of_root hleast hlast ?_
        intro hleaf
        exact Nat.le_of_not_lt fun hlow => hroot ⟨hleaf, hlow⟩
      refine (derives_atom_of_tree? hseg habove htree ?_).of_level_le c.level_le_atom
      intro inside hshorter hinside htreeinside
      refine ih _ (hlen ▸ hshorter) hinside ?_ htreeinside rfl
      intro x hx hleaf
      exact hinside.rank_lower_bound hx hleaf

end Stretch

/-! ## Reading is deriving -/

namespace Token

theorem isBlank_of_isSeparator {c : Char} (h : isSeparator c = true) : Text.isBlank c = true := by
  simp only [isSeparator, Bool.or_eq_true, decide_eq_true_eq] at h
  rcases h with (((rfl | rfl) | rfl) | rfl) | rfl <;> decide

theorem allBlank_of_scan_eq_nil {offset : Nat} {cs : List Char} (h : scan offset cs = []) :
    Text.allBlank cs = true := by
  induction cs generalizing offset with
  | nil => rfl
  | cons c cs ih =>
    rw [scan] at h
    split at h
    next hsep =>
      simp only [Text.allBlank, List.all_cons, Bool.and_eq_true]
      exact ⟨isBlank_of_isSeparator hsep, ih h⟩
    · split at h
      · cases h
      · cases h

end Token

/-- A text that is not refused for being empty has a token. -/
theorem tokenize_ne_ok_nil (source : String) : tokenize source ≠ .ok [] := by
  intro h
  obtain ⟨hblank, hnil⟩ := tokenize_eq_ok_iff.1 h
  rw [Token.allBlank_of_scan_eq_nil hnil.symm] at hblank
  cases hblank

/-- A token list that nests less than 2^30 - 1 groups, so that no rank wraps around, is read exactly if its
roles are a sum of the grammar, and then as the tree that the grammar assigns. It must not be empty, and the
list of a text never is. -/
theorem Expression.ofRanked_eq_ok_iff {scope : Scope} {tokens : List Token} {ranked : List RankedToken}
    (hranked : RankedToken.ofTokens scope tokens = .ok ranked) (hne : tokens ≠ [])
    (hdepth : Token.nesting tokens < 2 ^ 30 - 1) :
    (∀ t, ofRanked ranked = .ok t ↔ Derives .sum (ranked.map (·.role)) t) ∧
      ∀ source, tokenize source ≠ .ok [] := by
  refine ⟨fun t => ⟨fun h => ?_, fun h => ?_⟩, tokenize_ne_ok_nil⟩
  · have hseg : Segment 0 0 ranked 0 := Segment.of_rankAfter hranked hdepth
    obtain ⟨result, htree, hresult⟩ := map_eq_ok.1 h
    cases result with
    | none =>
      rw [Stretch.eq_nil_of_tree?_eq_none htree] at hranked
      exact absurd (RankedToken.eq_nil_of_rankAfter hranked) hne
    | some tree =>
      obtain rfl : tree = t := hresult
      refine Stretch.derives_of_tree? hseg ?_ htree
      intro x hx hleaf
      exact hseg.rank_lower_bound hx hleaf
  · obtain ⟨-, hreads⟩ := h.readsAs rfl (Segment.of_rankAfter hranked hdepth)
    simp [ofRanked, hreads.tree?_eq, Except.map]

/-- The tokens of `(a)*(b)`. What is left of them without the outer parentheses, `a)*(b`, is not balanced. -/
def Token.productOfGroups : List Token :=
  [⟨⟨0, 1⟩, .openParen, "("⟩, ⟨⟨1, 2⟩, .word, "a"⟩, ⟨⟨2, 3⟩, .closeParen, ")"⟩,
    ⟨⟨3, 4⟩, .operator .mul, "*"⟩,
    ⟨⟨4, 5⟩, .openParen, "("⟩, ⟨⟨5, 6⟩, .word, "b"⟩, ⟨⟨6, 7⟩, .closeParen, ")"⟩]

theorem Expression.ofRanked_productOfGroups :
    ∃ ranked, RankedToken.ofTokens (.ofVariables ["a", "b"]) Token.productOfGroups = .ok ranked ∧
      Token.productOfGroups ≠ [] ∧ Token.nesting Token.productOfGroups < 2 ^ 30 - 1 ∧
      ofRanked ranked = .ok (.binary .mul (.var "a") (.var "b")) := by
  have hne : Token.productOfGroups ≠ [] := List.cons_ne_nil _ _
  have hdepth : Token.nesting Token.productOfGroups < 2 ^ 30 - 1 := by decide
  have ha : Derives .atom [.openParen, .leaf (.var "a"), .closeParen] (.var "a") :=
    .group (Derives.leaf.of_level_le (Category.level_le_atom _))
  have hb : Derives .atom [.openParen, .leaf (.var "b"), .closeParen] (.var "b") :=
    .group (Derives.leaf.of_level_le (Category.level_le_atom _))
  have hproduct : Derives Operator.mul.category _ (.binary .mul (.var "a") (.var "b")) :=
    .binary (ha.of_level_le (Category.level_le_atom _)) (hb.of_level_le (Category.level_le_atom _))
  refine ⟨_, rfl, hne, hdepth, ?_⟩
  have hranked : RankedToken.ofTokens (.ofVariables ["a", "b"]) Token.productOfGroups = .ok _ := rfl
  exact ((ofRanked_eq_ok_iff hranked hne hdepth).1 _).2 (.ofProduct hproduct)

/-- Without tokens the tree is 0, which no derivation gives. -/
theorem Expression.ofRanked_nil :
    RankedToken.ofTokens .builtin [] = .ok [] ∧ Token.nesting [] < 2 ^ 30 - 1 ∧ ofRanked [] = .ok .zero ∧
      ¬Derives .sum (([] : List RankedToken).map (·.role)) .zero := by
  refine ⟨rfl, by decide, ?_, fun hderives => hderives.ne_nil rfl⟩
  simp [ofRanked, Stretch.tree?_nil, Except.map]

end SymbolicCalc
