import SymbolicCalc.Numeric.Doubles
import SymbolicCalc.Proofs.DerivativeRules
import SymbolicCalc.Proofs.Positions

/-!
# What derivatives are made of

The rules of differentiation put operands, their derivatives and constants together, by every operator but the
remainder. So a property that a tree has exactly if its operands have it passes to the derivatives of the tree, and
remainders may be excepted.

This tells where differentiation fails: exactly at the remainders that depend on the variable, since every operand
that depends on it is differentiated, even if the result is dropped later. And it tells which remainders the
derivatives have: none but those of the tree, so that what can be differentiated by some variables can be
differentiated by them again and again.
-/

namespace SymbolicCalc

namespace Tree

variable {K : Type}

/-- A property that constants have, and that operators have exactly if their operands do, except for remainders. -/
structure OperatorWise (P : Tree K → Prop) : Prop where
  const (c : K) : P (.const c)
  binary {op : Operator} {left right : Tree K} (hop : op ≠ .mod) : P (.binary op left right) ↔ P left ∧ P right

/-- A property that constants have, and that other trees have exactly if their operands do, except for remainders. -/
structure OperandWise (P : Tree K → Prop) : Prop extends OperatorWise P where
  call {f : Elementary} {arg : Tree K} : P (.call f arg) ↔ P arg

namespace OperatorWise

variable {P : Tree K → Prop} {a b : Tree K}

theorem foldl_mul (hP : OperatorWise P) {factors : List (Tree K)} (ha : P a) (h : ∀ t ∈ factors, P t) :
    P (factors.foldl (.binary .mul) a) := by
  induction factors generalizing a with
  | nil => exact ha
  | cons factor factors ih =>
    obtain ⟨hfactor, hrest⟩ := List.forall_mem_cons.1 h
    exact ih ((hP.binary (by decide)).2 ⟨ha, hfactor⟩) hrest

variable [Arithmetic K]

theorem multiply (hP : OperatorWise P) {factors : List (Tree K)} (h : ∀ t ∈ factors, P t) :
    P (Builder.multiply factors) := by
  cases factors with
  | nil => exact hP.const _
  | cons factor factors =>
    obtain ⟨hfactor, hrest⟩ := List.forall_mem_cons.1 h
    exact hP.foldl_mul hfactor hrest

theorem product (hP : OperatorWise P) {factors : List (Tree K)} (h : ∀ t ∈ factors, P t) :
    P (Builder.pruned.product factors) := by
  show P (if factors.any isZero then .zero else Builder.multiply (factors.filter fun t => !t.isOne))
  split
  · exact hP.const _
  · exact hP.multiply fun t ht => h t (List.mem_filter.1 ht).1

theorem product_pair (hP : OperatorWise P) (ha : P a) (hb : P b) : P (Builder.pruned.product [a, b]) :=
  hP.product (List.forall_mem_cons.2 ⟨ha, List.forall_mem_singleton.2 hb⟩)

theorem sum (hP : OperatorWise P) (ha : P a) (hb : P b) : P (Builder.pruned.sum a b) := by
  show P (if a.isZero then if b.isZero then .zero else b else if b.isZero then a else .binary .add a b)
  split
  · split
    · exact hP.const _
    · exact hb
  · split
    · exact ha
    · exact (hP.binary (by decide)).2 ⟨ha, hb⟩

theorem difference (hP : OperatorWise P) (ha : P a) (hb : P b) : P (Builder.pruned.difference a b) := by
  show P (if a.isZero then if b.isZero then .zero else .binary .sub .zero b
    else if b.isZero then a else .binary .sub a b)
  split
  · split
    · exact hP.const _
    · exact (hP.binary (by decide)).2 ⟨hP.const _, hb⟩
  · split
    · exact ha
    · exact (hP.binary (by decide)).2 ⟨ha, hb⟩

theorem quotient (hP : OperatorWise P) (ha : P a) (hb : P b) : P (Builder.pruned.quotient a b) := by
  show P (if a.isZero then .zero else if b.isOne then a else .binary .div a b)
  split
  · exact hP.const _
  · split
    · exact ha
    · exact (hP.binary (by decide)).2 ⟨ha, hb⟩

theorem power (hP : OperatorWise P) (ha : P a) (hb : P b) : P (Builder.pruned.power a b) := by
  show P (if b.isOne then a else .binary .pow a b)
  split
  · exact ha
  · exact (hP.binary (by decide)).2 ⟨ha, hb⟩

theorem square (hP : OperatorWise P) (ha : P a) : P (square .pruned a) :=
  hP.power ha (hP.const _)

theorem reducedExponent (hP : OperatorWise P) (ha : P a) : P a.reducedExponent := by
  have hdifference : P (.binary .sub a .one) := (hP.binary (by decide)).2 ⟨ha, hP.const _⟩
  cases a with
  | const c => exact hP.const _
  | var name => exact hdifference
  | binary op left right => exact hdifference
  | call f arg => exact hdifference

/-- The property passes from a tree to its derivatives, as far as the chain rule and the rule for powers with the
variable in the exponent allow. The induction is over the rules, each of which puts the operands together with
their derivatives. -/
theorem differentiates (hP : OperatorWise P) {v : String} {t d : Tree K} (hd : Differentiates .pruned v t d)
    (houter : ∀ f u, P (.call f u) → P u ∧ P (outerDerivative .pruned f u))
    (hln : t.Everywhere fun s => ∀ f g, s = .binary .pow f g → g.dependsOn v = true → P s → P (.call .ln f))
    (h : P t) : P d := by
  induction hd with
  | independent _ => exact hP.const _
  | var => exact hP.const _
  | add _ _ _ ihf ihg =>
    obtain ⟨-, hlnf, hlng⟩ := everywhere_binary.1 hln
    obtain ⟨hf, hg⟩ := (hP.binary (by decide)).1 h
    exact hP.sum (ihf hlnf hf) (ihg hlng hg)
  | sub _ _ _ ihf ihg =>
    obtain ⟨-, hlnf, hlng⟩ := everywhere_binary.1 hln
    obtain ⟨hf, hg⟩ := (hP.binary (by decide)).1 h
    exact hP.difference (ihf hlnf hf) (ihg hlng hg)
  | mul _ _ _ ihf ihg =>
    obtain ⟨-, hlnf, hlng⟩ := everywhere_binary.1 hln
    obtain ⟨hf, hg⟩ := (hP.binary (by decide)).1 h
    have hleft := hP.product_pair (ihf hlnf hf) hg
    have hright := hP.product_pair hf (ihg hlng hg)
    exact hP.sum hleft hright
  | div _ _ _ ihf ihg =>
    obtain ⟨-, hlnf, hlng⟩ := everywhere_binary.1 hln
    obtain ⟨hf, hg⟩ := (hP.binary (by decide)).1 h
    have hleft := hP.product_pair (ihf hlnf hf) hg
    have hright := hP.product_pair hf (ihg hlng hg)
    exact hP.quotient (hP.difference hleft hright) (hP.square hg)
  | exponential hexponent _ _ ihf ihg =>
    obtain ⟨hlog, hlnf, hlng⟩ := everywhere_binary.1 hln
    obtain ⟨hf, hg⟩ := (hP.binary (by decide)).1 h
    have hleft := hP.product_pair (ihg hlng hg) (hlog _ _ rfl hexponent h)
    have hright := hP.product_pair hg (hP.quotient (ihf hlnf hf) hf)
    exact hP.product_pair h (hP.sum hleft hright)
  | power _ _ _ ihf =>
    obtain ⟨-, hlnf, -⟩ := everywhere_binary.1 hln
    obtain ⟨hf, hg⟩ := (hP.binary (by decide)).1 h
    have hpower := hP.power hf (hP.reducedExponent hg)
    refine hP.product (List.forall_mem_cons.2 ⟨hg, List.forall_mem_cons.2 ⟨hpower, ?_⟩⟩)
    exact List.forall_mem_singleton.2 (ihf hlnf hf)
  | chain _ _ ih =>
    obtain ⟨-, hlnu⟩ := everywhere_call.1 hln
    obtain ⟨hu, hderivative⟩ := houter _ _ h
    exact hP.product_pair hderivative (ih hlnu hu)

end OperatorWise

namespace OperandWise

variable {P : Tree K → Prop} {a : Tree K} [Arithmetic K]

theorem outerDerivative (hP : OperandWise P) (f : Elementary) (ha : P a) :
    P (outerDerivative .pruned f a) := by
  have hcall (f : Elementary) : P (.call f a) := hP.call.2 ha
  cases f with
  | sign => exact hP.const _
  | exp => exact hcall .exp
  | abs => exact hcall .sign
  | sin => exact hcall .cos
  | sinh => exact hcall .cosh
  | cosh => exact hcall .sinh
  | cos => exact (hP.binary (by decide)).2 ⟨hP.const _, hcall .sin⟩
  | sqrt => exact hP.quotient (hP.const _) (hcall .sqrt)
  | ln => exact hP.quotient (hP.const _) ha
  | log10 => exact hP.quotient (hP.const _) ((hP.binary (by decide)).2 ⟨ha, hP.const _⟩)
  | tan => exact hP.quotient (hP.const _) (hP.square (hcall .cos))
  | cot => exact hP.quotient (hP.const _) (hP.square (hcall .sin))
  | tanh => exact hP.quotient (hP.const _) (hP.square (hcall .cosh))
  | atan => exact hP.quotient (hP.const _) (hP.sum (hP.const _) (hP.square ha))
  | asin | acos =>
    exact hP.quotient (hP.const _) (hP.call.2 (hP.difference (hP.const _) (hP.square ha)))

/-- The property passes from a tree to its derivatives. -/
theorem differentiates (hP : OperandWise P) {v : String} {f d : Tree K} (hd : Differentiates .pruned v f d)
    (h : P f) : P d := by
  refine hP.toOperatorWise.differentiates hd ?_ ?_ h
  · intro f u hcall
    have hu := hP.call.1 hcall
    exact ⟨hu, hP.outerDerivative f hu⟩
  · rintro p s - f g rfl - hpow
    exact hP.call.2 ((hP.binary (by decide)).1 hpow).1

end OperandWise

/-! ## Remainders -/

variable {t u r left right arg : Tree K} {op : Operator} {f : Elementary}

/-- The remainder `r` stands somewhere in the tree. -/
def HasRemainder (t r : Tree K) : Prop :=
  (∃ left right, r = .binary .mod left right) ∧ ∃ p, t.part? p = some r

theorem hasRemainder_mod (left right : Tree K) :
    HasRemainder (.binary .mod left right) (.binary .mod left right) :=
  ⟨⟨left, right, rfl⟩, [], rfl⟩

theorem HasRemainder.of_mem_operands (hu : u ∈ t.operands) (h : u.HasRemainder r) : t.HasRemainder r := by
  obtain ⟨hmod, p, hp⟩ := h
  obtain ⟨i, hi⟩ := List.getElem?_of_mem hu
  exact ⟨hmod, i :: p, part?_cons.2 ⟨u, hi, hp⟩⟩

theorem HasRemainder.cases (h : t.HasRemainder r) :
    (r = t ∧ ∃ left right, t = .binary .mod left right) ∨ ∃ u ∈ t.operands, u.HasRemainder r := by
  obtain ⟨hmod, p, hp⟩ := h
  cases p with
  | nil =>
    cases hp
    exact .inl ⟨rfl, hmod⟩
  | cons i p =>
    obtain ⟨u, hu, hp⟩ := part?_cons.1 hp
    exact .inr ⟨u, List.mem_of_getElem? hu, hmod, p, hp⟩

theorem not_hasRemainder_const (c : K) : ¬HasRemainder (.const c) r := by
  intro h
  rcases h.cases with ⟨-, left, right, heq⟩ | ⟨u, hu, -⟩
  · cases heq
  · cases hu

theorem not_hasRemainder_var (name : String) : ¬HasRemainder (.var name) r := by
  intro h
  rcases h.cases with ⟨-, left, right, heq⟩ | ⟨u, hu, -⟩
  · cases heq
  · cases hu

theorem hasRemainder_binary (hop : op ≠ .mod) :
    HasRemainder (.binary op left right) r ↔ left.HasRemainder r ∨ right.HasRemainder r := by
  constructor
  · intro h
    rcases h.cases with ⟨-, left', right', heq⟩ | ⟨u, hu, hr⟩
    · cases heq
      exact absurd rfl hop
    · rcases mem_operands_binary.1 hu with rfl | rfl
      · exact .inl hr
      · exact .inr hr
  · rintro (h | h)
    · exact h.of_mem_operands (mem_operands_binary.2 (.inl rfl))
    · exact h.of_mem_operands (mem_operands_binary.2 (.inr rfl))

theorem hasRemainder_call : HasRemainder (.call f arg) r ↔ arg.HasRemainder r := by
  constructor
  · intro h
    rcases h.cases with ⟨-, left', right', heq⟩ | ⟨u, hu, hr⟩
    · cases heq
    · obtain rfl := mem_operands_call.1 hu
      exact hr
  · intro h
    exact h.of_mem_operands (mem_operands_call.2 rfl)

theorem HasRemainder.not_dependsOn {v : String} (h : t.HasRemainder r) (ht : t.dependsOn v = false) :
    r.dependsOn v = false := by
  obtain ⟨-, p, hp⟩ := h
  cases hr : r.dependsOn v with
  | false => rfl
  | true =>
    rw [dependsOn_of_part? hp hr] at ht
    cases ht

theorem operandWise_remainders (R : Tree K → Prop) :
    OperandWise fun t : Tree K => ∀ r, t.HasRemainder r → R r where
  const c r h := absurd h (not_hasRemainder_const c)
  binary hop := by
    constructor
    · intro h
      exact ⟨fun r hr => h r ((hasRemainder_binary hop).2 (.inl hr)),
        fun r hr => h r ((hasRemainder_binary hop).2 (.inr hr))⟩
    · rintro ⟨hleft, hright⟩ r hr
      exact ((hasRemainder_binary hop).1 hr).elim (hleft r) (hright r)
  call := forall_congr' fun r => imp_congr_left hasRemainder_call

/-! ## Where differentiation fails -/

variable [Arithmetic K] {build : Builder K} {v : String} {d : Tree K} {e : DerivativeError}

/-- Differentiation fails at a remainder only. -/
theorem hasRemainder_of_derivativeWith (h : t.derivativeWith build v = .error e) :
    e = .unsupported .mod ∧ ∃ r, t.HasRemainder r ∧ r.dependsOn v = true := by
  induction t generalizing e with
  | const c => cases h
  | var name => cases h
  | binary op f g ihf ihg =>
    have hfirst (h : f.derivativeWith build v = .error e) :
        e = .unsupported .mod ∧ ∃ r, HasRemainder (.binary op f g) r ∧ r.dependsOn v = true := by
      obtain ⟨he, r, hr, hv⟩ := ihf h
      exact ⟨he, r, hr.of_mem_operands (mem_operands_binary.2 (.inl rfl)), hv⟩
    have hsecond (h : g.derivativeWith build v = .error e) :
        e = .unsupported .mod ∧ ∃ r, HasRemainder (.binary op f g) r ∧ r.dependsOn v = true := by
      obtain ⟨he, r, hr, hv⟩ := ihg h
      exact ⟨he, r, hr.of_mem_operands (mem_operands_binary.2 (.inr rfl)), hv⟩
    have hboth {k : Tree K → Tree K → Tree K}
        (h : (do return k (← f.derivativeWith build v) (← g.derivativeWith build v)) = Except.error e) :
        e = .unsupported .mod ∧ ∃ r, HasRemainder (.binary op f g) r ∧ r.dependsOn v = true := by
      rcases bind_eq_error.1 h with h | ⟨f', -, h⟩
      · exact hfirst h
      · rcases bind_eq_error.1 h with h | ⟨g', -, h⟩
        · exact hsecond h
        · cases h
    unfold derivativeWith at h
    split at h
    · cases h
    next hdepends =>
      rw [Bool.not_eq_true', Bool.not_eq_false] at hdepends
      cases op with
      | add => exact hboth h
      | sub => exact hboth h
      | mul => exact hboth h
      | div => exact hboth h
      | mod =>
        cases h
        exact ⟨rfl, _, hasRemainder_mod f g, hdepends⟩
      | pow =>
        simp only at h
        split at h
        · rcases bind_eq_error.1 h with h | ⟨g', -, h⟩
          · exact hsecond h
          · rcases bind_eq_error.1 h with h | ⟨f', -, h⟩
            · exact hfirst h
            · cases h
        · rcases bind_eq_error.1 h with h | ⟨f', -, h⟩
          · exact hfirst h
          · cases h
  | call f u ih =>
    unfold derivativeWith at h
    split at h
    · cases h
    · rcases bind_eq_error.1 h with h | ⟨u', -, h⟩
      · obtain ⟨he, r, hr, hv⟩ := ih h
        exact ⟨he, r, hasRemainder_call.2 hr, hv⟩
      · cases h

/-- No remainder of a tree that has a derivative depends on the variable. -/
theorem Differentiates.not_dependsOn_of_hasRemainder (hd : Differentiates build v t d) (h : t.HasRemainder r) :
    r.dependsOn v = false := by
  induction hd with
  | independent ht => exact h.not_dependsOn ht
  | var => exact absurd h (not_hasRemainder_var v)
  | add _ _ _ ihf ihg => exact ((hasRemainder_binary (by decide)).1 h).elim ihf ihg
  | sub _ _ _ ihf ihg => exact ((hasRemainder_binary (by decide)).1 h).elim ihf ihg
  | mul _ _ _ ihf ihg => exact ((hasRemainder_binary (by decide)).1 h).elim ihf ihg
  | div _ _ _ ihf ihg => exact ((hasRemainder_binary (by decide)).1 h).elim ihf ihg
  | exponential _ _ _ ihf ihg => exact ((hasRemainder_binary (by decide)).1 h).elim ihf ihg
  | power _ hg _ ihf =>
    rcases (hasRemainder_binary (by decide)).1 h with h | h
    · exact ihf h
    · exact h.not_dependsOn hg
  | chain _ _ ih => exact ih (hasRemainder_call.1 h)

/-- The remainders of a derivative are remainders of the tree. -/
theorem Differentiates.hasRemainder (hd : Differentiates .pruned v t d) (h : d.HasRemainder r) :
    t.HasRemainder r :=
  (operandWise_remainders t.HasRemainder).differentiates hd (fun _ hr => hr) r h

theorem derivative_eq_error_iff :
    t.derivative v = .error e ↔ e = .unsupported .mod ∧ ∃ r, t.HasRemainder r ∧ r.dependsOn v = true := by
  constructor
  · exact hasRemainder_of_derivativeWith
  · rintro ⟨rfl, r, hr, hv⟩
    cases h : t.derivative v with
    | error e => rw [(hasRemainder_of_derivativeWith h).1]
    | ok d =>
      have hnot := (Differentiates.of_derivativeWith h).not_dependsOn_of_hasRemainder hr
      rw [hv] at hnot
      cases hnot

/-! ## Repeated differentiation -/

/-- The derivative of a tree by the first of some variables, then by the second, and so on. -/
def iteratedDerivative (t : Tree K) (vs : List String) : Except DerivativeError (Tree K) :=
  vs.foldlM (fun t v => t.derivative v) t

/-- The induction is on the variables: a derivative has no other remainders than the tree, so none of them depends on
the variables that are left. -/
theorem exists_iteratedDerivative {vs : List String}
    (h : ∀ v ∈ vs, ∀ r, t.HasRemainder r → r.dependsOn v = false) : ∃ d, t.iteratedDerivative vs = .ok d := by
  induction vs generalizing t with
  | nil => exact ⟨t, rfl⟩
  | cons v vs ih =>
    obtain ⟨hv, hvs⟩ := List.forall_mem_cons.1 h
    cases hderivative : t.derivative v with
    | error e =>
      obtain ⟨-, r, hr, hdepends⟩ := derivative_eq_error_iff.1 hderivative
      rw [hv r hr] at hdepends
      cases hdepends
    | ok d =>
      have hd := Differentiates.of_derivativeWith hderivative
      obtain ⟨d', hd'⟩ := ih fun w hw r hr => hvs w hw r (hd.hasRemainder hr)
      refine ⟨d', ?_⟩
      rw [iteratedDerivative, List.foldlM_cons, hderivative]
      exact hd'

/-- Differentiation fails exactly at the remainders that depend on the variable, and always in the same way; and a
tree has all its derivatives by variables on which none of its remainders depends. -/
theorem derivative_fails_iff :
    (∀ (t : Tree K) (v : String) (e : DerivativeError),
      t.derivative v = .error e ↔
        e = .unsupported .mod ∧ ∃ r, t.HasRemainder r ∧ r.dependsOn v = true) ∧
    (∀ (t : Tree K) (vs : List String),
      (∀ v ∈ vs, ∀ r, t.HasRemainder r → r.dependsOn v = false) → ∃ d, t.iteratedDerivative vs = .ok d) :=
  ⟨fun _ _ _ => derivative_eq_error_iff, fun _ _ h => exists_iteratedDerivative h⟩

/-- A remainder in `x` forbids the derivative by `x`, and none of those by `y`. -/
theorem derivative_fails_iff_remainderTimesSin :
    ∃ t : Tree Binary64, t = .binary .mul (.binary .mod (.var "x") .one) (.call .sin (.var "y")) ∧
      t.derivative "x" = .error (.unsupported .mod) ∧
      (∀ v ∈ ["y", "y"], ∀ r, t.HasRemainder r → r.dependsOn v = false) ∧
      ∃ d, t.iteratedDerivative ["y", "y"] = .ok d := by
  have hremainder : HasRemainder (.binary .mul (.binary .mod (.var "x") .one) (.call .sin (.var "y")) : Tree Binary64)
      (.binary .mod (.var "x") .one) :=
    (hasRemainder_binary (by decide)).2 (.inl (hasRemainder_mod _ _))
  have hfree : ∀ v ∈ ["y", "y"], ∀ r,
      HasRemainder (.binary .mul (.binary .mod (.var "x") .one) (.call .sin (.var "y")) : Tree Binary64) r →
        r.dependsOn v = false := by
    intro v hv r hr
    obtain rfl : v = "y" := by simpa using hv
    rcases (hasRemainder_binary (by decide)).1 hr with hr | hr
    · exact hr.not_dependsOn (by decide)
    · exact absurd (hasRemainder_call.1 hr) (not_hasRemainder_var "y")
  refine ⟨_, rfl, ?_, hfree, ?_⟩
  · exact (derivative_fails_iff.1 _ _ _).2 ⟨rfl, _, hremainder, by decide⟩
  · exact derivative_fails_iff.2 _ _ hfree

end Tree

end SymbolicCalc
