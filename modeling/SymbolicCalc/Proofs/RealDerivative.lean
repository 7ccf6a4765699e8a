import SymbolicCalc.Proofs.DerivativeRules
import SymbolicCalc.Proofs.RealArithmetic
import Mathlib.Analysis.Calculus.Deriv.Abs
import Mathlib.Analysis.SpecialFunctions.Pow.Deriv
import Mathlib.Analysis.SpecialFunctions.Sqrt
import Mathlib.Analysis.SpecialFunctions.Trigonometric.ArctanDeriv
import Mathlib.Analysis.SpecialFunctions.Trigonometric.DerivHyp
import Mathlib.Analysis.SpecialFunctions.Trigonometric.InverseDeriv

/-!
# The derivative over the real numbers

Where a tree is defined and the parts that depend on the variable are inside of their domains, the tree that
differentiation gives is defined, and its value is the derivative of the value of the tree. The builder leaves
out terms and factors, but what it gives always has the value of the operation that it stands for; after
that every rule is the rule of calculus with the same name.
-/

namespace SymbolicCalc

open Filter Topology

/-! ## What the builder gives -/

/-- The tree is defined, with the given value. -/
def Tree.HasValue (ρ : String → ℝ) (t : Tree ℝ) (x : ℝ) : Prop :=
  t.Defined ρ ∧ t.valueAt ρ = x

namespace Tree

variable {ρ : String → ℝ} {a b c : Tree ℝ} {x y z : ℝ}

theorem HasValue.const (x : ℝ) : HasValue ρ (.const x) x :=
  ⟨trivial, rfl⟩

theorem HasValue.binary {op : Operator} (ha : HasValue ρ a x) (hb : HasValue ρ b y)
    (h : op.DefinedFor x y) : HasValue ρ (.binary op a b) (Arithmetic.operate op x y) := by
  obtain ⟨hda, rfl⟩ := ha
  obtain ⟨hdb, rfl⟩ := hb
  exact ⟨⟨hda, hdb, h⟩, rfl⟩

theorem HasValue.call {f : Elementary} (ha : HasValue ρ a x) (h : f.DefinedFor x) :
    HasValue ρ (.call f a) (Arithmetic.apply f x) := by
  obtain ⟨hda, rfl⟩ := ha
  exact ⟨⟨hda, h⟩, rfl⟩

theorem valueAt_of_isZero (h : a.isZero = true) : a.valueAt ρ = 0 := by
  cases a with
  | const c => exact of_decide_eq_true h
  | var name => cases h
  | binary op l r => cases h
  | call f u => cases h

theorem valueAt_of_isOne (h : a.isOne = true) : a.valueAt ρ = 1 := by
  cases a with
  | const c => exact of_decide_eq_true h
  | var name => cases h
  | binary op l r => cases h
  | call f u => cases h

theorem HasValue.eq_of_isZero (ha : HasValue ρ a x) (h : a.isZero = true) : x = 0 :=
  ha.2.symm.trans (valueAt_of_isZero h)

theorem HasValue.eq_of_isOne (ha : HasValue ρ a x) (h : a.isOne = true) : x = 1 :=
  ha.2.symm.trans (valueAt_of_isOne h)

theorem HasValue.sum (ha : HasValue ρ a x) (hb : HasValue ρ b y) :
    HasValue ρ (Builder.pruned.sum a b) (x + y) := by
  show HasValue ρ (if a.isZero then if b.isZero then .zero else b
    else if b.isZero then a else .binary .add a b) (x + y)
  by_cases hza : a.isZero = true
  · rw [if_pos hza, ha.eq_of_isZero hza, zero_add]
    by_cases hzb : b.isZero = true
    · rw [if_pos hzb, hb.eq_of_isZero hzb]
      exact .const 0
    · rw [if_neg hzb]
      exact hb
  · rw [if_neg hza]
    by_cases hzb : b.isZero = true
    · rw [if_pos hzb, hb.eq_of_isZero hzb, add_zero]
      exact ha
    · rw [if_neg hzb]
      exact ha.binary hb trivial

theorem HasValue.difference (ha : HasValue ρ a x) (hb : HasValue ρ b y) :
    HasValue ρ (Builder.pruned.difference a b) (x - y) := by
  show HasValue ρ (if a.isZero then if b.isZero then .zero else .binary .sub .zero b
    else if b.isZero then a else .binary .sub a b) (x - y)
  by_cases hza : a.isZero = true
  · rw [if_pos hza, ha.eq_of_isZero hza]
    by_cases hzb : b.isZero = true
    · rw [if_pos hzb, hb.eq_of_isZero hzb, sub_zero]
      exact .const 0
    · rw [if_neg hzb]
      exact (HasValue.const 0).binary hb trivial
  · rw [if_neg hza]
    by_cases hzb : b.isZero = true
    · rw [if_pos hzb, hb.eq_of_isZero hzb, sub_zero]
      exact ha
    · rw [if_neg hzb]
      exact ha.binary hb trivial

theorem HasValue.quotient (ha : HasValue ρ a x) (hb : HasValue ρ b y) (hy : y ≠ 0) :
    HasValue ρ (Builder.pruned.quotient a b) (x / y) := by
  show HasValue ρ (if a.isZero then .zero else if b.isOne then a else .binary .div a b) (x / y)
  by_cases hza : a.isZero = true
  · rw [if_pos hza, ha.eq_of_isZero hza, zero_div]
    exact .const 0
  · rw [if_neg hza]
    by_cases hob : b.isOne = true
    · rw [if_pos hob, hb.eq_of_isOne hob, div_one]
      exact ha
    · rw [if_neg hob]
      exact ha.binary hb hy

theorem HasValue.power (ha : HasValue ρ a x) (hb : HasValue ρ b y)
    (h : Operator.pow.DefinedFor x y) : HasValue ρ (Builder.pruned.power a b) (x ^ y) := by
  show HasValue ρ (if b.isOne then a else .binary .pow a b) (x ^ y)
  by_cases hob : b.isOne = true
  · rw [if_pos hob, hb.eq_of_isOne hob, Real.rpow_one]
    exact ha
  · rw [if_neg hob]
    exact ha.binary hb h

theorem HasValue.square (ha : HasValue ρ a x) : HasValue ρ (square .pruned a) (x ^ 2) := by
  have htwo : HasValue ρ (.const Arithmetic.two) 2 := .const 2
  have hdefined : Operator.pow.DefinedFor x (2 : ℕ) := Operator.definedFor_pow_natCast x 2
  have h := ha.power htwo (by exact_mod_cast hdefined)
  rwa [Real.rpow_two] at h

theorem HasValue.foldl {ts : List (Tree ℝ)} (ha : HasValue ρ a x) (hts : ∀ t ∈ ts, t.Defined ρ) :
    HasValue ρ (ts.foldl (.binary .mul) a) (x * (ts.map (valueAt ρ)).prod) := by
  induction ts generalizing a x with
  | nil => simpa using ha
  | cons t ts ih =>
    have ht : HasValue ρ t (t.valueAt ρ) := ⟨hts t List.mem_cons_self, rfl⟩
    have hmul : HasValue ρ (.binary .mul a t) (x * t.valueAt ρ) := ha.binary ht trivial
    have h := ih hmul fun u hu => hts u (List.mem_cons_of_mem _ hu)
    rwa [mul_assoc, ← List.prod_cons, ← List.map_cons] at h

theorem HasValue.multiply {ts : List (Tree ℝ)} (hts : ∀ t ∈ ts, t.Defined ρ) :
    HasValue ρ (Builder.multiply ts) (ts.map (valueAt ρ)).prod := by
  cases ts with
  | nil => exact .const 1
  | cons t ts =>
    rw [List.map_cons, List.prod_cons]
    exact HasValue.foldl ⟨hts t List.mem_cons_self, rfl⟩ fun u hu => hts u (List.mem_cons_of_mem _ hu)

/-- Leaving out factors one does not change a product. -/
theorem prod_map_filter_isOne (ts : List (Tree ℝ)) :
    ((ts.filter fun t => !t.isOne).map (valueAt ρ)).prod = (ts.map (valueAt ρ)).prod := by
  induction ts with
  | nil => rfl
  | cons t ts ih =>
    cases hone : t.isOne with
    | false => simp [hone, ih]
    | true => simp [hone, ih, valueAt_of_isOne hone]

theorem HasValue.product {ts : List (Tree ℝ)} (hts : ∀ t ∈ ts, t.Defined ρ) :
    HasValue ρ (Builder.pruned.product ts) (ts.map (valueAt ρ)).prod := by
  show HasValue ρ (if ts.any isZero then .zero else Builder.multiply (ts.filter fun t => !t.isOne)) _
  by_cases hzero : ts.any isZero = true
  · obtain ⟨t, ht, htzero⟩ := List.any_eq_true.1 hzero
    have hvalue : t.valueAt ρ = 0 := valueAt_of_isZero htzero
    have hmem : (0 : ℝ) ∈ ts.map (valueAt ρ) := List.mem_map.2 ⟨t, ht, hvalue⟩
    rw [if_pos hzero, List.prod_eq_zero hmem]
    exact .const 0
  · rw [if_neg hzero, ← prod_map_filter_isOne]
    exact HasValue.multiply fun t ht => hts t (List.mem_filter.1 ht).1

theorem HasValue.product₂ (ha : HasValue ρ a x) (hb : HasValue ρ b y) :
    HasValue ρ (Builder.pruned.product [a, b]) (x * y) := by
  obtain ⟨hda, rfl⟩ := ha
  obtain ⟨hdb, rfl⟩ := hb
  have h := @HasValue.product ρ [a, b] (by simp [hda, hdb])
  simpa using h

theorem HasValue.product₃ (ha : HasValue ρ a x) (hb : HasValue ρ b y) (hc : HasValue ρ c z) :
    HasValue ρ (Builder.pruned.product [a, b, c]) (x * (y * z)) := by
  obtain ⟨hda, rfl⟩ := ha
  obtain ⟨hdb, rfl⟩ := hb
  obtain ⟨hdc, rfl⟩ := hc
  have h := @HasValue.product ρ [a, b, c] (by simp [hda, hdb, hdc])
  simpa using h

end Tree

/-! ## Functions of one argument -/

/-- The arguments inside of the domain of a function, where it has a derivative. -/
def Elementary.InteriorAt (f : Elementary) (x : ℝ) : Prop :=
  match f with
  | .sqrt | .ln | .log10 => 0 < x
  | .asin | .acos => -1 < x ∧ x < 1
  | .tan => Real.cos x ≠ 0
  | .cot => Real.sin x ≠ 0
  | .abs | .sign => x ≠ 0
  | _ => True

theorem Elementary.InteriorAt.eventually_definedFor {f : Elementary} {x : ℝ} (h : f.InteriorAt x) :
    ∀ᶠ y in 𝓝 x, f.DefinedFor y := by
  cases f with
  | sqrt => exact (eventually_gt_nhds h).mono fun y hy => le_of_lt hy
  | ln => exact eventually_gt_nhds h
  | log10 => exact eventually_gt_nhds h
  | asin =>
    exact ((eventually_gt_nhds h.1).and (eventually_lt_nhds h.2)).mono fun y hy =>
      ⟨hy.1.le, hy.2.le⟩
  | acos =>
    exact ((eventually_gt_nhds h.1).and (eventually_lt_nhds h.2)).mono fun y hy =>
      ⟨hy.1.le, hy.2.le⟩
  | tan => exact Real.continuous_cos.continuousAt.eventually_ne h
  | cot => exact Real.continuous_sin.continuousAt.eventually_ne h
  | _ => exact Eventually.of_forall fun y => trivial

theorem hasDerivAt_cot {x : ℝ} (h : Real.sin x ≠ 0) : HasDerivAt Real.cot (-1 / Real.sin x ^ 2) x := by
  have hquotient := (Real.hasDerivAt_cos x).div (Real.hasDerivAt_sin x) h
  have hcot : Real.cot = fun y => Real.cos y / Real.sin y := funext Real.cot_eq_cos_div_sin
  rw [hcot]
  refine hquotient.congr_deriv ?_
  congr 1
  linear_combination -(Real.sin_sq_add_cos_sq x)

theorem hasDerivAt_tanh (x : ℝ) : HasDerivAt Real.tanh (1 / Real.cosh x ^ 2) x := by
  have hpos := (Real.cosh_pos x).ne'
  have hquotient := (Real.hasDerivAt_sinh x).div (Real.hasDerivAt_cosh x) hpos
  have htanh : Real.tanh = fun y => Real.sinh y / Real.cosh y := funext Real.tanh_eq_sinh_div_cosh
  rw [htanh]
  refine hquotient.congr_deriv ?_
  congr 1
  linear_combination Real.cosh_sq_sub_sinh_sq x

/-- The sign does not change near a number that is not zero. -/
theorem hasDerivAt_sign {x : ℝ} (h : x ≠ 0) :
    HasDerivAt (fun y : ℝ => (SignType.sign y : ℝ)) 0 x := by
  have hconst : (fun y : ℝ => (SignType.sign y : ℝ)) =ᶠ[𝓝 x] fun _ => (SignType.sign x : ℝ) := by
    rcases lt_or_gt_of_ne h with hx | hx
    · exact (eventually_lt_nhds hx).mono fun y hy => by simp [sign_neg hy, sign_neg hx]
    · exact (eventually_gt_nhds hx).mono fun y hy => by simp [sign_pos hy, sign_pos hx]
  exact (hasDerivAt_const x _).congr_of_eventuallyEq hconst

/-- The tree for the derivative of a function has the derivative of the function as its value. -/
theorem Tree.hasValue_outerDerivative {ρ : String → ℝ} {f : Elementary} {u : Tree ℝ} {x : ℝ}
    (hu : HasValue ρ u x) (h : f.InteriorAt x) :
    ∃ y, HasValue ρ (outerDerivative .pruned f u) y ∧ HasDerivAt (Arithmetic.apply f) y x := by
  have hone : HasValue ρ (.const 1) 1 := .const 1
  have hminusOne : HasValue ρ (.const Arithmetic.minusOne) (-1) := .const (-1)
  cases f with
  | sqrt =>
    have hx : 0 < x := h
    have hroot : HasValue ρ (.call .sqrt u) √x := hu.call hx.le
    have hhalf : HasValue ρ (.const Arithmetic.half) (1 / 2) := .const (1 / 2)
    refine ⟨_, hhalf.quotient hroot (Real.sqrt_pos.2 hx).ne', ?_⟩
    refine (Real.hasDerivAt_sqrt hx.ne').congr_deriv ?_
    rw [div_div]
  | exp => exact ⟨_, hu.call trivial, Real.hasDerivAt_exp x⟩
  | ln =>
    have hx : 0 < x := h
    refine ⟨_, hone.quotient hu hx.ne', ?_⟩
    refine (Real.hasDerivAt_log hx.ne').congr_deriv ?_
    rw [one_div]
  | log10 =>
    have hx : 0 < x := h
    have hlog : Real.log 10 ≠ 0 := (Real.log_pos (by norm_num)).ne'
    have hlnTen : HasValue ρ (.const Arithmetic.lnTen) (Real.log 10) := .const _
    have hproduct : HasValue ρ (.binary .mul u (.const Arithmetic.lnTen)) (x * Real.log 10) :=
      hu.binary hlnTen trivial
    refine ⟨_, hone.quotient hproduct (mul_ne_zero hx.ne' hlog), ?_⟩
    refine ((Real.hasDerivAt_log hx.ne').div_const (Real.log 10)).congr_deriv ?_
    field_simp
  | sign => exact ⟨_, HasValue.const 0, hasDerivAt_sign h⟩
  | abs => exact ⟨_, hu.call trivial, hasDerivAt_abs h⟩
  | sin => exact ⟨_, hu.call trivial, Real.hasDerivAt_sin x⟩
  | cos =>
    have hsin : HasValue ρ (.call .sin u) (Real.sin x) := hu.call trivial
    refine ⟨_, hminusOne.binary hsin trivial, ?_⟩
    refine (Real.hasDerivAt_cos x).congr_deriv ?_
    exact (neg_one_mul (Real.sin x)).symm
  | tan =>
    have hx : Real.cos x ≠ 0 := h
    have hcos : HasValue ρ (.call .cos u) (Real.cos x) := hu.call trivial
    exact ⟨_, hone.quotient hcos.square (pow_ne_zero 2 hx), Real.hasDerivAt_tan hx⟩
  | cot =>
    have hx : Real.sin x ≠ 0 := h
    have hsin : HasValue ρ (.call .sin u) (Real.sin x) := hu.call trivial
    exact ⟨_, hminusOne.quotient hsin.square (pow_ne_zero 2 hx), hasDerivAt_cot hx⟩
  | asin =>
    obtain ⟨hlow, hhigh⟩ : -1 < x ∧ x < 1 := h
    have hpos : 0 < 1 - x ^ 2 := by nlinarith
    have hroot : HasValue ρ (.call .sqrt (Builder.pruned.difference .one (square .pruned u)))
        √(1 - x ^ 2) := (hone.difference hu.square).call hpos.le
    exact ⟨_, hone.quotient hroot (Real.sqrt_pos.2 hpos).ne',
      Real.hasDerivAt_arcsin hlow.ne' hhigh.ne⟩
  | acos =>
    obtain ⟨hlow, hhigh⟩ : -1 < x ∧ x < 1 := h
    have hpos : 0 < 1 - x ^ 2 := by nlinarith
    have hroot : HasValue ρ (.call .sqrt (Builder.pruned.difference .one (square .pruned u)))
        √(1 - x ^ 2) := (hone.difference hu.square).call hpos.le
    refine ⟨_, hminusOne.quotient hroot (Real.sqrt_pos.2 hpos).ne', ?_⟩
    refine (Real.hasDerivAt_arccos hlow.ne' hhigh.ne).congr_deriv ?_
    rw [neg_div]
  | atan =>
    have hpos : 0 < 1 + x ^ 2 := by positivity
    exact ⟨_, hone.quotient (hone.sum hu.square) hpos.ne', Real.hasDerivAt_arctan x⟩
  | sinh => exact ⟨_, hu.call trivial, Real.hasDerivAt_sinh x⟩
  | cosh => exact ⟨_, hu.call trivial, Real.hasDerivAt_cosh x⟩
  | tanh =>
    have hcosh : HasValue ρ (.call .cosh u) (Real.cosh x) := hu.call trivial
    exact ⟨_, hone.quotient hcosh.square (pow_ne_zero 2 (Real.cosh_pos x).ne'), hasDerivAt_tanh x⟩

/-! ## Rules -/

namespace Tree

/-- The derivative of the tree `t` by the variable `v` is the value of the tree `d`: both trees are defined, `t`
also for all values near the one of the variable. -/
structure IsDerivative (v : String) (ρ : String → ℝ) (t d : Tree ℝ) : Prop where
  defined : d.Defined ρ
  nearby : ∀ᶠ x in 𝓝 (ρ v), t.Defined (Function.update ρ v x)
  hasDerivAt : HasDerivAt (fun x => t.valueAt (Function.update ρ v x)) (d.valueAt ρ) (ρ v)

namespace IsDerivative

variable {v : String} {ρ : String → ℝ} {f g u f' g' u' : Tree ℝ}

theorem hasValue (h : IsDerivative v ρ f f') : HasValue ρ f (f.valueAt ρ) := by
  have hself := h.nearby.self_of_nhds
  rw [Function.update_eq_self] at hself
  exact ⟨hself, rfl⟩

theorem hasValue_right (h : IsDerivative v ρ f f') : HasValue ρ f' (f'.valueAt ρ) :=
  ⟨h.defined, rfl⟩

/-- The values near the one of the variable are near the value of the tree. -/
theorem tendsto (h : IsDerivative v ρ f f') :
    Tendsto (fun x => f.valueAt (Function.update ρ v x)) (𝓝 (ρ v)) (𝓝 (f.valueAt ρ)) := by
  have hcontinuous := h.hasDerivAt.continuousAt.tendsto
  rwa [Function.update_eq_self] at hcontinuous

theorem of_hasValue {t d : Tree ℝ} {y : ℝ} (hd : HasValue ρ d y)
    (hnear : ∀ᶠ x in 𝓝 (ρ v), t.Defined (Function.update ρ v x))
    (h : HasDerivAt (fun x => t.valueAt (Function.update ρ v x)) y (ρ v)) :
    IsDerivative v ρ t d := by
  obtain ⟨hdefined, rfl⟩ := hd
  exact ⟨hdefined, hnear, h⟩

theorem eventually_binary {op : Operator} (hf : IsDerivative v ρ f f') (hg : IsDerivative v ρ g g')
    (hop : ∀ᶠ x in 𝓝 (ρ v),
      op.DefinedFor (f.valueAt (Function.update ρ v x)) (g.valueAt (Function.update ρ v x))) :
    ∀ᶠ x in 𝓝 (ρ v), (Tree.binary op f g).Defined (Function.update ρ v x) :=
  hf.nearby.and (hg.nearby.and hop)

/-- A tree without the variable has the derivative 0. -/
theorem zero {t : Tree ℝ} (hdep : t.dependsOn v = false) (h : t.Defined ρ) :
    IsDerivative v ρ t .zero := by
  refine of_hasValue (.const 0) ?_ ?_
  · exact Eventually.of_forall fun x => (defined_update_iff hdep x).2 h
  · have hconst : (fun x => t.valueAt (Function.update ρ v x)) = fun _ => t.valueAt ρ :=
      funext fun x => valueAt_update hdep x
    rw [hconst]
    exact hasDerivAt_const (ρ v) (t.valueAt ρ)

theorem var (v : String) (ρ : String → ℝ) : IsDerivative v ρ (.var v) .one := by
  refine of_hasValue (.const 1) (Eventually.of_forall fun x => trivial) ?_
  have hid : (fun x => (Tree.var v : Tree ℝ).valueAt (Function.update ρ v x)) = fun x => x := by
    funext x
    exact Function.update_self v x ρ
  rw [hid]
  exact hasDerivAt_id' (ρ v)

theorem add (hf : IsDerivative v ρ f f') (hg : IsDerivative v ρ g g') :
    IsDerivative v ρ (.binary .add f g) (Builder.pruned.sum f' g') :=
  of_hasValue (hf.hasValue_right.sum hg.hasValue_right)
    (hf.eventually_binary hg (Eventually.of_forall fun _ => trivial))
    (hf.hasDerivAt.add hg.hasDerivAt)

theorem sub (hf : IsDerivative v ρ f f') (hg : IsDerivative v ρ g g') :
    IsDerivative v ρ (.binary .sub f g) (Builder.pruned.difference f' g') :=
  of_hasValue (hf.hasValue_right.difference hg.hasValue_right)
    (hf.eventually_binary hg (Eventually.of_forall fun _ => trivial))
    (hf.hasDerivAt.sub hg.hasDerivAt)

theorem mul (hf : IsDerivative v ρ f f') (hg : IsDerivative v ρ g g') :
    IsDerivative v ρ (.binary .mul f g)
      (Builder.pruned.sum (Builder.pruned.product [f', g]) (Builder.pruned.product [f, g'])) := by
  have hvalue := (hf.hasValue_right.product₂ hg.hasValue).sum (hf.hasValue.product₂ hg.hasValue_right)
  refine of_hasValue hvalue (hf.eventually_binary hg (Eventually.of_forall fun _ => trivial)) ?_
  have h := hf.hasDerivAt.mul hg.hasDerivAt
  rw [Function.update_eq_self] at h
  exact h

theorem div (hf : IsDerivative v ρ f f') (hg : IsDerivative v ρ g g') (hne : g.valueAt ρ ≠ 0) :
    IsDerivative v ρ (.binary .div f g)
      (Builder.pruned.quotient
        (Builder.pruned.difference (Builder.pruned.product [f', g]) (Builder.pruned.product [f, g']))
        (square .pruned g)) := by
  have hnumerator := (hf.hasValue_right.product₂ hg.hasValue).difference
    (hf.hasValue.product₂ hg.hasValue_right)
  have hvalue := hnumerator.quotient hg.hasValue.square (pow_ne_zero 2 hne)
  refine of_hasValue hvalue (hf.eventually_binary hg (hg.tendsto.eventually_ne hne)) ?_
  have h := hf.hasDerivAt.div hg.hasDerivAt (by rwa [Function.update_eq_self])
  rw [Function.update_eq_self] at h
  exact h

/-- The derivative of a power in general, where the base is positive. -/
theorem exponential (hf : IsDerivative v ρ f f') (hg : IsDerivative v ρ g g')
    (hpos : 0 < f.valueAt ρ) :
    IsDerivative v ρ (.binary .pow f g) (exponentialRule .pruned f g f' g') := by
  have hpower : HasValue ρ (.binary .pow f g) (f.valueAt ρ ^ g.valueAt ρ) :=
    hf.hasValue.binary hg.hasValue (.inl hpos)
  have hlog : HasValue ρ (.call .ln f) (Real.log (f.valueAt ρ)) := hf.hasValue.call hpos
  have hvalue := hpower.product₂ ((hg.hasValue_right.product₂ hlog).sum
    (hg.hasValue.product₂ (hf.hasValue_right.quotient hf.hasValue hpos.ne')))
  have hnear : ∀ᶠ x in 𝓝 (ρ v), 0 < f.valueAt (Function.update ρ v x) :=
    hf.tendsto.eventually_const_lt hpos
  refine of_hasValue hvalue (hf.eventually_binary hg (hnear.mono fun x hx => .inl hx)) ?_
  have h := hf.hasDerivAt.rpow hg.hasDerivAt (by rwa [Function.update_eq_self])
  rw [Function.update_eq_self] at h
  refine h.congr_deriv ?_
  rw [Real.rpow_sub_one hpos.ne']
  field_simp
  ring

theorem hasValue_reducedExponent {x : ℝ} (hg : HasValue ρ g x) :
    HasValue ρ g.reducedExponent (x - 1) := by
  cases g with
  | const c =>
    obtain ⟨-, rfl⟩ := hg
    exact .const (c - 1)
  | var name => exact hg.binary (.const 1) trivial
  | binary op l r => exact hg.binary (.const 1) trivial
  | call function arg => exact hg.binary (.const 1) trivial

/-- The derivative of a power whose exponent does not depend on the variable, where the base is positive or the
exponent is a natural number that is not zero. -/
theorem power (hf : IsDerivative v ρ f f') (hg : g.Defined ρ) (hdep : g.dependsOn v = false)
    (hbase : 0 < f.valueAt ρ ∨ ∃ n : ℕ, 1 ≤ n ∧ g.valueAt ρ = n) :
    IsDerivative v ρ (.binary .pow f g) (powerRule .pruned f g f') := by
  have hexponent : HasValue ρ g (g.valueAt ρ) := ⟨hg, rfl⟩
  have hreduced : Operator.pow.DefinedFor (f.valueAt ρ) (g.valueAt ρ - 1) := by
    rcases hbase with hpos | ⟨n, hn, heq⟩
    · exact .inl hpos
    · have hcast : (n : ℝ) - 1 = (n - 1 : ℕ) := by rw [Nat.cast_sub hn, Nat.cast_one]
      rw [heq, hcast]
      exact Operator.definedFor_pow_natCast _ (n - 1)
  have hsmooth : f.valueAt ρ ≠ 0 ∨ 1 ≤ g.valueAt ρ := by
    rcases hbase with hpos | ⟨n, hn, heq⟩
    · exact .inl hpos.ne'
    · rw [heq]
      exact .inr (by exact_mod_cast hn)
  have hvalue := hexponent.product₃
    (hf.hasValue.power (hasValue_reducedExponent hexponent) hreduced) hf.hasValue_right
  have hnear : ∀ᶠ x in 𝓝 (ρ v), Operator.pow.DefinedFor (f.valueAt (Function.update ρ v x))
      (g.valueAt (Function.update ρ v x)) := by
    rcases hbase with hpos | ⟨n, -, heq⟩
    · exact (hf.tendsto.eventually_const_lt hpos).mono fun x hx => .inl hx
    · refine Eventually.of_forall fun x => ?_
      rw [valueAt_update hdep, heq]
      exact Operator.definedFor_pow_natCast _ n
  refine of_hasValue hvalue (hf.eventually_binary (zero hdep hg) hnear) ?_
  have hpower : (fun x => (Tree.binary .pow f g).valueAt (Function.update ρ v x)) =
      fun x => f.valueAt (Function.update ρ v x) ^ g.valueAt ρ := by
    funext x
    rw [valueAt, valueAt_update hdep]
    rfl
  have h := hf.hasDerivAt.rpow_const (by rwa [Function.update_eq_self] : _ ∨ 1 ≤ g.valueAt ρ)
  rw [Function.update_eq_self] at h
  rw [hpower]
  refine h.congr_deriv ?_
  ring

/-- The chain rule. -/
theorem call {function : Elementary} (hu : IsDerivative v ρ u u')
    (h : function.InteriorAt (u.valueAt ρ)) :
    IsDerivative v ρ (.call function u)
      (Builder.pruned.product [outerDerivative .pruned function u, u']) := by
  obtain ⟨y, houter, hderiv⟩ := hasValue_outerDerivative hu.hasValue h
  refine of_hasValue (houter.product₂ hu.hasValue_right) ?_ ?_
  · exact hu.nearby.and (hu.tendsto.eventually h.eventually_definedFor)
  · have hcomp := HasDerivAt.comp (ρ v) (by rwa [Function.update_eq_self]) hu.hasDerivAt
    exact hcomp

end IsDerivative

/-! ## Every tree -/

/-- The operands inside of the domain of an operator: a denominator is not zero, and a power has a positive base
or a literal exponent that is a natural number and not zero. -/
def InteriorOperands (ρ : String → ℝ) (op : Operator) (left right : Tree ℝ) : Prop :=
  match op with
  | .add | .sub | .mul => True
  | .div | .mod => right.valueAt ρ ≠ 0
  | .pow => 0 < left.valueAt ρ ∨ ∃ n : ℕ, 1 ≤ n ∧ right = .const (n : ℝ)

/-- Every part of the tree that depends on the variable is taken inside of its domain. -/
def Interior (v : String) (ρ : String → ℝ) : Tree ℝ → Prop
  | .const _ => True
  | .var _ => True
  | .binary op left right =>
    left.Interior v ρ ∧ right.Interior v ρ ∧
      ((left.dependsOn v || right.dependsOn v) = true → InteriorOperands ρ op left right)
  | .call f arg => arg.Interior v ρ ∧ (arg.dependsOn v = true → f.InteriorAt (arg.valueAt ρ))

variable {v : String} {ρ : String → ℝ} {t d : Tree ℝ}

/-- The induction is on the rules of differentiation, and each of them is the case of one rule of calculus. -/
theorem Differentiates.isDerivative (h : Differentiates .pruned v t d) (hdefined : t.Defined ρ)
    (hinterior : t.Interior v ρ) : IsDerivative v ρ t d := by
  induction h with
  | independent h => exact .zero h hdefined
  | var => exact .var v ρ
  | add _ _ _ ihf ihg =>
    obtain ⟨hf, hg, -⟩ := hdefined
    obtain ⟨hf', hg', -⟩ := hinterior
    exact (ihf hf hf').add (ihg hg hg')
  | sub _ _ _ ihf ihg =>
    obtain ⟨hf, hg, -⟩ := hdefined
    obtain ⟨hf', hg', -⟩ := hinterior
    exact (ihf hf hf').sub (ihg hg hg')
  | mul _ _ _ ihf ihg =>
    obtain ⟨hf, hg, -⟩ := hdefined
    obtain ⟨hf', hg', -⟩ := hinterior
    exact (ihf hf hf').mul (ihg hg hg')
  | div hdep _ _ ihf ihg =>
    obtain ⟨hf, hg, -⟩ := hdefined
    obtain ⟨hf', hg', hinside⟩ := hinterior
    exact (ihf hf hf').div (ihg hg hg') (hinside hdep)
  | exponential hdep _ _ ihf ihg =>
    obtain ⟨hf, hg, -⟩ := hdefined
    obtain ⟨hf', hg', hinside⟩ := hinterior
    rcases hinside (by rw [hdep, Bool.or_true]) with hpos | ⟨n, -, rfl⟩
    · exact (ihf hf hf').exponential (ihg hg hg') hpos
    · cases hdep
  | power hbase hdep _ ihf =>
    obtain ⟨hf, hg, -⟩ := hdefined
    obtain ⟨hf', -, hinside⟩ := hinterior
    refine (ihf hf hf').power hg hdep ((hinside (by rw [hbase, Bool.true_or])).imp_right ?_)
    rintro ⟨n, hn, rfl⟩
    exact ⟨n, hn, rfl⟩
  | chain hdep _ ih =>
    obtain ⟨hu, -⟩ := hdefined
    obtain ⟨hu', hinside⟩ := hinterior
    exact (ih hu hu').call (hinside hdep)

/-- Where a tree is defined and its parts that depend on the variable are inside of their domains, the tree that
differentiation gives is defined and evaluates to the derivative of what the tree evaluates to. -/
theorem hasDerivAt_eval_derivative (hdefined : t.Defined ρ) (hinterior : t.Interior v ρ)
    (h : t.derivative v = .ok d) :
    ∃ (y : ℝ) (F : ℝ → ℝ), d.Defined ρ ∧ d.eval (fun name => some (ρ name)) = .ok y ∧
      (∀ᶠ x in 𝓝 (ρ v), t.Defined (Function.update ρ v x) ∧
        t.eval (fun name => some (Function.update ρ v x name)) = .ok (F x)) ∧
      HasDerivAt F y (ρ v) := by
  have hderivative := (Differentiates.of_derivativeWith h).isDerivative hdefined hinterior
  refine ⟨d.valueAt ρ, fun x => t.valueAt (Function.update ρ v x), hderivative.defined,
    eval_eq_valueAt hderivative.defined, ?_, hderivative.hasDerivAt⟩
  exact hderivative.nearby.mono fun x hx => ⟨hx, eval_eq_valueAt hx⟩

/-- The derivative of `ln(x)/x` at 1. -/
theorem hasDerivAt_eval_derivative_ln_div :
    ∃ (d : Tree ℝ) (y : ℝ) (F : ℝ → ℝ),
      derivative "x" (.binary .div (.call .ln (.var "x")) (.var "x")) = .ok d ∧
      d.eval (fun _ => some 1) = .ok y ∧
      (∀ᶠ x in 𝓝 1, eval (fun name => some (Function.update (fun _ => (1 : ℝ)) "x" x name))
        (.binary .div (.call .ln (.var "x")) (.var "x")) = .ok (F x)) ∧
      HasDerivAt F y 1 := by
  have hderivative : ∃ d, derivative "x" (.binary .div (.call .ln (.var "x")) (.var "x") : Tree ℝ) = .ok d :=
    ⟨_, rfl⟩
  obtain ⟨d, hd⟩ := hderivative
  have hdefined : Defined (fun _ => 1) (.binary .div (.call .ln (.var "x")) (.var "x")) :=
    ⟨⟨trivial, one_pos⟩, trivial, one_ne_zero⟩
  have hinterior : Interior "x" (fun _ => 1) (.binary .div (.call .ln (.var "x")) (.var "x")) :=
    ⟨⟨trivial, fun _ => one_pos⟩, trivial, fun _ => one_ne_zero⟩
  obtain ⟨y, F, -, hy, hF, hderiv⟩ := hasDerivAt_eval_derivative hdefined hinterior hd
  exact ⟨d, y, F, hd, hy, hF.mono fun x hx => hx.2, hderiv⟩

end Tree

end SymbolicCalc
