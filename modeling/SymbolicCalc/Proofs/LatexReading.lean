import SymbolicCalc.Proofs.LatexTokens
import SymbolicCalc.Proofs.Regrouping

/-!
# What an expression in LaTeX leaves open

Parentheses are left out in LaTeX where an operand does not need them, so different trees may have the same text. A
reader that takes operators of one tier from the left to the right finds the tree of every text again, up to its
grouping. So the text tells everything but the grouping of sums and of products, which the exact value does not
depend on, and whether a remainder is taken of a product or of its last factor, which it does depend on.
-/

namespace SymbolicCalc

/-! ## Reading tokens -/

/-- A left operand with the operator behind it, if there is one. -/
abbrev Pending := Option (Expression × Operator)

/-- The tree that ends with `t`. -/
def Pending.complete : Pending → Expression → Expression
  | none, t => t
  | some (left, op), t => .binary op left t

/-- What has been read of a group before the operand that is read now. -/
structure Line where
  /-- The terms up to the last sign of a sum. -/
  sum : Pending
  /-- The factors of the last term, up to the last sign of a product. -/
  product : Pending

namespace Line

/-- The start of a group. -/
def start : Line :=
  ⟨none, none⟩

/-- The tree of a group that ends with the operand `t`. -/
def whole (line : Line) (t : Expression) : Expression :=
  line.sum.complete (line.product.complete t)

/-- The line goes on with the operand `t` and a sign. -/
def next (line : Line) (t : Expression) (op : Operator) : Line :=
  if op.tier = 1 then ⟨some (line.whole t, op), none⟩
  else ⟨line.sum, some (line.product.complete t, op)⟩

end Line

/-- What a group is for that has been opened. -/
inductive Enclosing
  | group (o : Opening)
  /-- It is the right operand of an operator. -/
  | right (op : Operator) (left : Expression)

/-- The operand that a group makes with the tree inside it. -/
def Enclosing.operand : Enclosing → Expression → Expression
  | .group (.call f), t => .call f t
  | .group _, t => t
  | .right op left, t => .binary op left t

/-- How far a text has been read. -/
structure Reader where
  /-- The innermost group up to the operand that is read now. -/
  line : Line
  /-- This operand, as far as it has been read. -/
  operand : Option Expression
  /-- The groups around the innermost one, from inside, each with the line that it interrupts. -/
  outer : List (Enclosing × Line)

namespace Reader

/-- Reads a token, where it may stand. -/
def step : Reader → LatexToken → Option Reader
  | ⟨line, none, outer⟩, .leaf t => some ⟨line, some t, outer⟩
  | ⟨line, none, outer⟩, .opening o => some ⟨.start, none, (.group o, line) :: outer⟩
  | ⟨line, some t, outer⟩, .sign op => some ⟨line.next t op, none, outer⟩
  | ⟨line, some t, outer⟩, .raise => some ⟨.start, none, (.right .pow t, line) :: outer⟩
  | ⟨line, some t, outer⟩, .brace => some ⟨.start, none, (.right .div t, line) :: outer⟩
  | ⟨line, some t, (e, before) :: outer⟩, .close => some ⟨before, some (e.operand (line.whole t)), outer⟩
  | _, _ => none

/-- The tokens lead from one state of the reader to another one. -/
def Reads (s : Reader) (tokens : List LatexToken) (s' : Reader) : Prop :=
  tokens.foldlM step s = some s'

theorem Reads.nil (s : Reader) : Reads s [] s := rfl

theorem Reads.cons {s s' s'' : Reader} {token : LatexToken} {tokens : List LatexToken}
    (h : s.step token = some s') (h' : Reads s' tokens s'') : Reads s (token :: tokens) s'' := by
  rw [Reads, List.foldlM_cons, h]
  exact h'

theorem Reads.append {s s' s'' : Reader} {tokens others : List LatexToken} (h : Reads s tokens s')
    (h' : Reads s' others s'') : Reads s (tokens ++ others) s'' := by
  rw [Reads, List.foldlM_append, h]
  exact h'

theorem Reads.eq {s s' s'' : Reader} {tokens : List LatexToken} (h : Reads s tokens s')
    (h' : Reads s tokens s'') : s' = s'' :=
  Option.some.inj (h.symm.trans h')

end Reader

/-! ## What may stand on a line -/

namespace Expression

open LatexToken

/-- Whether the tree has a remainder among the operators that its text has outside of all groups, next to signs of
products. -/
def hasOpenRemainder : Expression → Bool
  | .binary .mod _ _ => true
  | .binary .mul left right => hasOpenRemainder left || hasOpenRemainder right
  | _ => false

/-- No right operand of a product has an open remainder. -/
def closesRemainders : Expression → Bool
  | .const _ => true
  | .var _ => true
  | .binary op left right =>
    closesRemainders left && closesRemainders right && (op != .mul || !hasOpenRemainder right)
  | .call _ arg => closesRemainders arg

/-- How tightly the text of a tree holds together: one for sums, two for products and remainders, three for what
stands as an operand of any sign. -/
def latexTier : Expression → Nat
  | .binary .add _ _ => 1
  | .binary .sub _ _ => 1
  | .binary .mul _ _ => 2
  | .binary .mod _ _ => 2
  | _ => 3

theorem tier_le_latexTier_binary (op : Operator) (left right : Expression) :
    op.tier ≤ latexTier (.binary op left right) := by
  cases op <;> simp [Operator.tier, latexTier]

/-- What stands without parentheses holds together at least as tightly as the operator beside it. -/
theorem tier_le_latexTier (op : Operator) (side : Side) {t : Expression} (h : needsParens op side t = false) :
    op.tier ≤ latexTier t := by
  cases t with
  | binary inner left right =>
    have hinner := tier_le_latexTier_binary inner left right
    simp only [needsParens, Bool.or_eq_false_iff, decide_eq_false_iff_not] at h
    omega
  | _ => cases op <;> simp [Operator.tier, latexTier]

/-- The right operand of a difference or a remainder holds together more tightly. -/
theorem tier_lt_latexTier {op : Operator} (hop : op = .sub ∨ op = .mod) {t : Expression}
    (h : needsParens op .right t = false) : op.tier < latexTier t := by
  cases t with
  | binary inner left right =>
    have hinner := tier_le_latexTier_binary inner left right
    have hne : op ≠ .add ∧ op ≠ .mul := by obtain rfl | rfl := hop <;> decide
    simp only [needsParens, hne.1, hne.2, Bool.or_eq_false_iff, Bool.and_eq_false_iff, decide_eq_false_iff_not,
      ne_eq, not_false_eq_true, decide_true, or_false, Bool.true_eq_false] at h
    omega
  | _ => obtain rfl | rfl := hop <;> simp [Operator.tier, latexTier]

theorem lt_latexTier_of_isPlainBase {t : Expression} (h : isPlainBase t = true) : 2 < latexTier t := by
  cases t with
  | binary op left right => cases h
  | _ => simp [latexTier]

end Expression

/-! ## Reading expressions -/

section

open Expression Reader

variable {remainders : Bool} {tokens others : List LatexToken} {t t' left right : Expression}

/-- The tokens are read as an operand that is the tree up to grouping. -/
def ReadsOperand (remainders : Bool) (tokens : List LatexToken) (t : Expression) : Prop :=
  ∀ (line : Line) (outer : List (Enclosing × Line)), ∃ a, Regrouped remainders a t ∧
    Reads ⟨line, none, outer⟩ tokens ⟨line, some a, outer⟩

/-- The tree may be read on as part of a product: the product has no remainder as its last factor, unless
remainders are regrouped. -/
def FollowsProduct (remainders : Bool) (product : Pending) (t : Expression) : Prop :=
  ∀ left op, product = some (left, op) → op = .mul ∧ (remainders = true ∨ hasOpenRemainder t = false)

/-- The tokens go on with a product, which then ends with the tree up to grouping. -/
def ReadsProduct (remainders : Bool) (tokens : List LatexToken) (t : Expression) : Prop :=
  ∀ (sum product : Pending) (outer : List (Enclosing × Line)), FollowsProduct remainders product t →
    ∃ (product' : Pending) (a : Expression), Regrouped remainders (product'.complete a) (product.complete t) ∧
      Reads ⟨⟨sum, product⟩, none, outer⟩ tokens ⟨⟨sum, product'⟩, some a, outer⟩

/-- The tokens go on with a sum, which then ends with the tree up to grouping. -/
def ReadsSum (remainders : Bool) (tokens : List LatexToken) (t : Expression) : Prop :=
  ∀ (sum : Pending) (outer : List (Enclosing × Line)), (∀ left op, sum = some (left, op) → op = .add) →
    ∃ line a, Regrouped remainders (line.whole a) (sum.complete t) ∧
      Reads ⟨⟨sum, none⟩, none, outer⟩ tokens ⟨line, some a, outer⟩

theorem Regrouped.complete (pending : Pending) (h : Regrouped remainders t t') :
    Regrouped remainders (pending.complete t) (pending.complete t') := by
  cases pending with
  | none => exact h
  | some before => exact .binary before.2 (.refl before.1) h

theorem ReadsOperand.product (h : ReadsOperand remainders tokens t) : ReadsProduct remainders tokens t := by
  intro sum product outer _
  obtain ⟨a, ha, hreads⟩ := h ⟨sum, product⟩ outer
  exact ⟨product, a, ha.complete product, hreads⟩

theorem ReadsProduct.sum (h : ReadsProduct remainders tokens t) : ReadsSum remainders tokens t := by
  intro sum outer _
  obtain ⟨product, a, ha, hreads⟩ := h sum none outer nofun
  exact ⟨⟨sum, product⟩, a, ha.complete sum, hreads⟩

/-- A group is read as the operand that it makes. -/
theorem ReadsSum.close (h : ReadsSum remainders tokens t) (e : Enclosing) (before : Line)
    (outer : List (Enclosing × Line)) :
    ∃ a, Regrouped remainders a t ∧
      Reads ⟨.start, none, (e, before) :: outer⟩ (tokens ++ [.close]) ⟨before, some (e.operand a), outer⟩ := by
  obtain ⟨line, a, ha, hreads⟩ := h none ((e, before) :: outer) nofun
  exact ⟨line.whole a, ha, hreads.append (.cons rfl (.nil _))⟩

theorem ReadsSum.parens (h : ReadsSum remainders tokens t) :
    ReadsOperand remainders (operandTokens true tokens) t := by
  intro line outer
  obtain ⟨a, ha, hreads⟩ := h.close (.group .parens) line outer
  exact ⟨a, ha, .cons rfl hreads⟩

theorem readsOperand_leaf (t : Expression) : ReadsOperand remainders [.leaf t] t :=
  fun _ _ => ⟨t, .refl t, .cons rfl (.nil _)⟩

theorem readsOperand_call (f : Elementary) (h : ReadsSum remainders tokens t) :
    ReadsOperand remainders (.opening (.call f) :: (tokens ++ [.close])) (.call f t) := by
  intro line outer
  obtain ⟨a, ha, hreads⟩ := h.close (.group (.call f)) line outer
  exact ⟨.call f a, .call f ha, .cons rfl hreads⟩

theorem readsOperand_fraction (h : ReadsSum remainders tokens left) (h' : ReadsSum remainders others right) :
    ReadsOperand remainders (.opening .fraction :: (tokens ++ [.close]) ++ .brace :: (others ++ [.close]))
      (.binary .div left right) := by
  intro line outer
  obtain ⟨a, ha, hnumerator⟩ := h.close (.group .fraction) line outer
  obtain ⟨b, hb, hdenominator⟩ := h'.close (.right .div a) line outer
  exact ⟨.binary .div a b, .binary .div ha hb, .append (.cons rfl hnumerator) (.cons rfl hdenominator)⟩

theorem readsOperand_power (h : ReadsOperand remainders tokens left) (h' : ReadsSum remainders others right) :
    ReadsOperand remainders (tokens ++ .raise :: (others ++ [.close])) (.binary .pow left right) := by
  intro line outer
  obtain ⟨a, ha, hbase⟩ := h line outer
  obtain ⟨b, hb, hexponent⟩ := h'.close (.right .pow a) line outer
  exact ⟨.binary .pow a b, .binary .pow ha hb, .append hbase (.cons rfl hexponent)⟩

/-- A factor behind a product is the last factor of the whole product. -/
theorem readsProduct_mul (h : ReadsProduct remainders tokens left) (h' : ReadsProduct remainders others right)
    (hright : remainders = true ∨ hasOpenRemainder right = false) :
    ReadsProduct remainders (tokens ++ .sign .mul :: others) (.binary .mul left right) := by
  intro sum product outer hfollows
  have hfollowsLeft : FollowsProduct remainders product left := by
    intro before op hproduct
    obtain ⟨hop, hopen⟩ := hfollows before op hproduct
    refine ⟨hop, hopen.imp_right fun hopen => ?_⟩
    rw [hasOpenRemainder, Bool.or_eq_false_iff] at hopen
    exact hopen.1
  obtain ⟨product', a, ha, hreads⟩ := h sum product outer hfollowsLeft
  have hfollowsRight : FollowsProduct remainders (some (product'.complete a, .mul)) right := by
    rintro _ _ ⟨⟩
    exact ⟨rfl, hright⟩
  obtain ⟨product'', b, hb, hreads'⟩ := h' sum _ outer hfollowsRight
  refine ⟨product'', b, hb.trans ?_, hreads.append (.cons rfl hreads')⟩
  refine Regrouped.trans (.binary .mul ha (.refl right)) ?_
  cases product with
  | none => exact .refl _
  | some before =>
    obtain ⟨factor, op⟩ := before
    obtain ⟨rfl, -⟩ := hfollows factor op rfl
    exact .symm (.product factor left right)

/-- A remainder is taken of the whole product before it, which is another tree if there is one. -/
theorem readsProduct_mod (h : ReadsProduct remainders tokens left) (h' : ReadsOperand remainders others right) :
    ReadsProduct remainders (tokens ++ .sign .mod :: others) (.binary .mod left right) := by
  intro sum product outer hfollows
  have hremainders : ∀ factor op, product = some (factor, op) → op = .mul ∧ remainders = true := by
    intro factor op hproduct
    obtain ⟨hop, hset | hopen⟩ := hfollows factor op hproduct
    · exact ⟨hop, hset⟩
    · cases hopen
  have hfollowsLeft : FollowsProduct remainders product left := fun factor op hproduct =>
    (hremainders factor op hproduct).imp_right .inl
  obtain ⟨product', a, ha, hreads⟩ := h sum product outer hfollowsLeft
  obtain ⟨b, hb, hreads'⟩ := h' ⟨sum, some (product'.complete a, .mod)⟩ outer
  refine ⟨some (product'.complete a, .mod), b, ?_, hreads.append (.cons rfl hreads')⟩
  refine Regrouped.trans (.binary .mod ha hb) ?_
  cases product with
  | none => exact .refl _
  | some before =>
    obtain ⟨factor, op⟩ := before
    obtain ⟨rfl, hset⟩ := hremainders factor op rfl
    exact .symm (.remainder hset factor left right)

/-- A term behind a sum is the last term of the whole sum. -/
theorem regrouped_complete_sum {op : Operator} (hop : op = .add ∨ op = .sub) {sum : Pending}
    (hsum : ∀ left op, sum = some (left, op) → op = .add) :
    Regrouped remainders (.binary op (sum.complete left) right) (sum.complete (.binary op left right)) := by
  cases sum with
  | none => exact .refl _
  | some before =>
    obtain ⟨term, op'⟩ := before
    obtain rfl := hsum term op' rfl
    exact .symm (.sum hop term left right)

theorem readsSum_add (h : ReadsSum remainders tokens left) (h' : ReadsSum remainders others right) :
    ReadsSum remainders (tokens ++ .sign .add :: others) (.binary .add left right) := by
  intro sum outer hsum
  obtain ⟨line, a, ha, hreads⟩ := h sum outer hsum
  obtain ⟨line', b, hb, hreads'⟩ := h' (some (line.whole a, .add)) outer (by rintro _ _ ⟨⟩; rfl)
  refine ⟨line', b, hb.trans ?_, hreads.append (.cons rfl hreads')⟩
  exact .trans (.binary .add ha (.refl right)) (regrouped_complete_sum (.inl rfl) hsum)

theorem readsSum_sub (h : ReadsSum remainders tokens left) (h' : ReadsProduct remainders others right) :
    ReadsSum remainders (tokens ++ .sign .sub :: others) (.binary .sub left right) := by
  intro sum outer hsum
  obtain ⟨line, a, ha, hreads⟩ := h sum outer hsum
  obtain ⟨product, b, hb, hreads'⟩ := h' (some (line.whole a, .sub)) none outer nofun
  refine ⟨⟨some (line.whole a, .sub), product⟩, b, ?_, hreads.append (.cons rfl hreads')⟩
  exact .trans (.binary .sub ha hb) (regrouped_complete_sum (.inr rfl) hsum)

/-- How the tokens of a tree may be read, by how tightly it holds together. -/
structure ReadsAs (remainders : Bool) (tokens : List LatexToken) (t : Expression) : Prop where
  operand : 2 < latexTier t → ReadsOperand remainders tokens t
  product : 1 < latexTier t → ReadsProduct remainders tokens t
  sum : ReadsSum remainders tokens t

namespace ReadsAs

theorem of_operand (h : ReadsOperand remainders tokens t) : ReadsAs remainders tokens t :=
  ⟨fun _ => h, fun _ => h.product, h.product.sum⟩

theorem of_product (h : ReadsProduct remainders tokens t) (htier : latexTier t = 2) :
    ReadsAs remainders tokens t :=
  ⟨fun hlt => absurd (htier ▸ hlt) (by decide), fun _ => h, h.sum⟩

theorem of_sum (h : ReadsSum remainders tokens t) (htier : latexTier t = 1) : ReadsAs remainders tokens t :=
  ⟨fun hlt => absurd (htier ▸ hlt) (by decide), fun hlt => absurd (htier ▸ hlt) (by decide), h⟩

/-- An operand in parentheses stands at any place, and another one where its tier lets it. -/
theorem operandTokens_sum (h : ReadsAs remainders tokens t) (needed : Bool) :
    ReadsSum remainders (operandTokens needed tokens) t := by
  cases needed with
  | false => exact h.sum
  | true => exact h.sum.parens.product.sum

theorem operandTokens_product (h : ReadsAs remainders tokens t) {needed : Bool}
    (htier : needed = false → 1 < latexTier t) : ReadsProduct remainders (operandTokens needed tokens) t := by
  cases needed with
  | false => exact h.product (htier rfl)
  | true => exact h.sum.parens.product

theorem operandTokens_operand (h : ReadsAs remainders tokens t) {needed : Bool}
    (htier : needed = false → 2 < latexTier t) : ReadsOperand remainders (operandTokens needed tokens) t := by
  cases needed with
  | false => exact h.operand (htier rfl)
  | true => exact h.sum.parens

end ReadsAs

/-- The tokens of a tree are read as the tree, up to grouping. -/
theorem readsAs_latexTokens (h : remainders = true ∨ closesRemainders t = true) :
    ReadsAs remainders (latexTokens t) t := by
  induction t with
  | const value => exact .of_operand (readsOperand_leaf _)
  | var name => exact .of_operand (readsOperand_leaf _)
  | call f arg ih => exact .of_operand (readsOperand_call f (ih h).sum)
  | binary op left right ihleft ihright =>
    simp only [closesRemainders, Bool.and_eq_true] at h
    have hleft := ihleft (h.imp_right fun h => h.1.1)
    have hright := ihright (h.imp_right fun h => h.1.2)
    cases op with
    | add => exact .of_sum (readsSum_add (hleft.operandTokens_sum _) (hright.operandTokens_sum _)) rfl
    | sub =>
      have hterm := hright.operandTokens_product (tier_lt_latexTier (.inl rfl))
      exact .of_sum (readsSum_sub (hleft.operandTokens_sum _) hterm) rfl
    | mul =>
      have hfactor := hleft.operandTokens_product (tier_le_latexTier .mul .left)
      have hfactor' := hright.operandTokens_product (tier_le_latexTier .mul .right)
      refine .of_product (readsProduct_mul hfactor hfactor' (h.imp_right fun h => ?_)) rfl
      simpa using h.2
    | mod =>
      have hfactor := hleft.operandTokens_product (tier_le_latexTier .mod .left)
      have hfactor' := hright.operandTokens_operand (tier_lt_latexTier (.inr rfl))
      exact .of_product (readsProduct_mod hfactor hfactor') rfl
    | div => exact .of_operand (readsOperand_fraction hleft.sum hright.sum)
    | pow =>
      have hplain : (!isPlainBase left) = false → 2 < latexTier left := fun h =>
        lt_latexTier_of_isPlainBase ((Bool.not_eq_false' _).mp h)
      exact .of_operand (readsOperand_power (hleft.operandTokens_operand hplain) hright.sum)

/-! ## What the text determines -/

/-- Two trees with the same tokens are both the tree that the tokens are read as. -/
theorem regrouped_of_latexTokens_eq (ht : remainders = true ∨ closesRemainders t = true)
    (ht' : remainders = true ∨ closesRemainders t' = true) (h : latexTokens t = latexTokens t') :
    Regrouped remainders t t' := by
  obtain ⟨line, a, ha, hreads⟩ := (readsAs_latexTokens ht).sum none [] nofun
  obtain ⟨line', b, hb, hreads'⟩ := (readsAs_latexTokens ht').sum none [] nofun
  rw [← h] at hreads'
  cases hreads.eq hreads'
  exact ha.symm.trans hb

/-- Plain trees have the same text in LaTeX exactly if they differ by the grouping of sums and products and by
whether a remainder is taken of a product or of its last factor. If no right operand of a product has an open
remainder, the grouping of sums and products is all that is left, so trees with the same text have the same exact
value, whatever powers, functions and variables mean. -/
theorem Expression.latex_eq_iff_regrouped (ht : PlainLeaves t) (ht' : PlainLeaves t') :
    (t.latex = t'.latex ↔ Regrouped true t t') ∧
      (closesRemainders t = true → closesRemainders t' = true → t.latex = t'.latex →
        Regrouped false t t' ∧ ∀ M : ExactMeaning, M.value t = M.value t') := by
  refine ⟨⟨fun h => ?_, fun h => (sameText_of_regrouped h).latex_eq⟩, fun hcloses hcloses' h => ?_⟩
  · exact regrouped_of_latexTokens_eq (.inl rfl) (.inl rfl) (latexTokens_eq_of_latex_eq ht ht' h)
  · have htokens := latexTokens_eq_of_latex_eq ht ht' h
    have hregrouped : Regrouped false t t' := regrouped_of_latexTokens_eq (.inr hcloses) (.inr hcloses') htokens
    exact ⟨hregrouped, fun M => M.value_eq_of_regrouped hregrouped⟩

theorem isLatexName_abc : IsLatexName "a" ∧ IsLatexName "b" ∧ IsLatexName "c" :=
  ⟨⟨by decide, by decide, by decide⟩, ⟨by decide, by decide, by decide⟩, ⟨by decide, by decide, by decide⟩⟩

/-- `a + (b - c)` and `(a + b) - c` are both written as `a + b - c`. -/
theorem Expression.latex_eq_iff_regrouped_difference :
    PlainLeaves (.binary .add (.var "a") (.binary .sub (.var "b") (.var "c"))) ∧
      PlainLeaves (.binary .sub (.binary .add (.var "a") (.var "b")) (.var "c")) ∧
      latex (.binary .add (.var "a") (.binary .sub (.var "b") (.var "c"))) =
        latex (.binary .sub (.binary .add (.var "a") (.var "b")) (.var "c")) ∧
      ∀ M : ExactMeaning, M.value (.binary .add (.var "a") (.binary .sub (.var "b") (.var "c"))) =
        M.value (.binary .sub (.binary .add (.var "a") (.var "b")) (.var "c")) := by
  obtain ⟨ha, hb, hc⟩ := isLatexName_abc
  have hleaves : PlainLeaves (.binary .add (.var "a") (.binary .sub (.var "b") (.var "c"))) := ⟨ha, hb, hc⟩
  have hleaves' : PlainLeaves (.binary .sub (.binary .add (.var "a") (.var "b")) (.var "c")) := ⟨⟨ha, hb⟩, hc⟩
  obtain ⟨hiff, hvalue⟩ := latex_eq_iff_regrouped hleaves hleaves'
  have htext := hiff.2 (.sum (.inr rfl) (.var "a") (.var "b") (.var "c"))
  exact ⟨hleaves, hleaves', htext, (hvalue rfl rfl htext).2⟩

/-- The meaning of `a`, `b` and `c` as 2, 3 and 4, without powers and functions. -/
def ExactMeaning.twoThreeFour : ExactMeaning where
  power _ _ := none
  apply _ _ := none
  binding name := if name = "a" then some 2 else if name = "b" then some 3 else some 4

/-- Both `a * (b % c)` and `(a * b) % c` are written as a product with a remainder behind it. Their values are 6
and 2 where `a`, `b` and `c` are 2, 3 and 4. -/
theorem Expression.latex_eq_of_remainder_factor :
    ∃ (t t' : Expression) (M : ExactMeaning) (x y : ℚ), PlainLeaves t ∧ PlainLeaves t' ∧ t.latex = t'.latex ∧
      M.value t = some x ∧ M.value t' = some y ∧ x ≠ y := by
  obtain ⟨ha, hb, hc⟩ := isLatexName_abc
  have hvalue :
      ExactMeaning.twoThreeFour.value (.binary .mul (.var "a") (.binary .mod (.var "b") (.var "c"))) = some 6 := by
    decide +kernel
  have hvalue' :
      ExactMeaning.twoThreeFour.value (.binary .mod (.binary .mul (.var "a") (.var "b")) (.var "c")) = some 2 := by
    decide +kernel
  have htext := latex_regroup .mul .mod (.inr rfl) (by decide) rfl (.var "a") (.var "b") (.var "c")
  refine ⟨_, _, _, 6, 2, ?_, ?_, htext, hvalue, hvalue', by decide⟩
  · exact ⟨ha, hb, hc⟩
  · exact ⟨⟨ha, hb⟩, hc⟩

end

end SymbolicCalc
