import SymbolicCalc.Outcome
import SymbolicCalc.Tree.Derivative

/-!
# The rules of differentiation as a relation

`Differentiates build v t d` says that the tree `t` has the derivative `d` by the variable `v`, with one
constructor for each rule. It is what `derivativeWith` computes, so whatever is to be said about all
derivatives, of whichever builder, goes by one case for each rule.
-/

namespace SymbolicCalc

namespace Tree

variable {K : Type} [Arithmetic K]

/-- The derivative of a tree by the variable `v`, put together by `build`. -/
inductive Differentiates (build : Builder K) (v : String) : Tree K → Tree K → Prop
  /-- A tree without the variable has the derivative 0, whatever it is made of. -/
  | independent {t : Tree K} (h : t.dependsOn v = false) : Differentiates build v t .zero
  | var : Differentiates build v (.var v) .one
  | add {f g f' g' : Tree K} (h : (f.dependsOn v || g.dependsOn v) = true)
      (hf : Differentiates build v f f') (hg : Differentiates build v g g') :
      Differentiates build v (.binary .add f g) (build.sum f' g')
  | sub {f g f' g' : Tree K} (h : (f.dependsOn v || g.dependsOn v) = true)
      (hf : Differentiates build v f f') (hg : Differentiates build v g g') :
      Differentiates build v (.binary .sub f g) (build.difference f' g')
  | mul {f g f' g' : Tree K} (h : (f.dependsOn v || g.dependsOn v) = true)
      (hf : Differentiates build v f f') (hg : Differentiates build v g g') :
      Differentiates build v (.binary .mul f g)
        (build.sum (build.product [f', g]) (build.product [f, g']))
  | div {f g f' g' : Tree K} (h : (f.dependsOn v || g.dependsOn v) = true)
      (hf : Differentiates build v f f') (hg : Differentiates build v g g') :
      Differentiates build v (.binary .div f g)
        (build.quotient (build.difference (build.product [f', g]) (build.product [f, g']))
          (square build g))
  | exponential {f g f' g' : Tree K} (h : g.dependsOn v = true)
      (hf : Differentiates build v f f') (hg : Differentiates build v g g') :
      Differentiates build v (.binary .pow f g) (exponentialRule build f g f' g')
  | power {f g f' : Tree K} (hbase : f.dependsOn v = true) (h : g.dependsOn v = false)
      (hf : Differentiates build v f f') :
      Differentiates build v (.binary .pow f g) (powerRule build f g f')
  | chain {f : Elementary} {u u' : Tree K} (h : u.dependsOn v = true)
      (hu : Differentiates build v u u') :
      Differentiates build v (.call f u) (build.product [outerDerivative build f u, u'])

variable {build : Builder K} {v : String} {t d : Tree K}

/-- The induction is on the tree; the rule of an operator is found by the operator and, for a power, by whether
the exponent depends on the variable. -/
theorem Differentiates.of_derivativeWith (h : t.derivativeWith build v = .ok d) :
    Differentiates build v t d := by
  induction t generalizing d with
  | const c =>
    cases h
    exact .independent rfl
  | var name =>
    unfold derivativeWith at h
    split at h
    next heq =>
      cases h
      rw [heq]
      exact .var
    next hne =>
      cases h
      exact .independent (decide_eq_false hne)
  | binary op f g ihf ihg =>
    unfold derivativeWith at h
    split at h
    next hindependent =>
      cases h
      rw [Bool.not_eq_true'] at hindependent
      exact .independent hindependent
    next hdepends =>
      have hdep : (f.dependsOn v || g.dependsOn v) = true := by
        rw [Bool.not_eq_true', Bool.not_eq_false] at hdepends
        exact hdepends
      cases op with
      | add =>
        obtain ⟨f', hf, h⟩ := bind_eq_ok.1 h
        obtain ⟨g', hg, h⟩ := bind_eq_ok.1 h
        cases h
        exact .add hdep (ihf hf) (ihg hg)
      | sub =>
        obtain ⟨f', hf, h⟩ := bind_eq_ok.1 h
        obtain ⟨g', hg, h⟩ := bind_eq_ok.1 h
        cases h
        exact .sub hdep (ihf hf) (ihg hg)
      | mul =>
        obtain ⟨f', hf, h⟩ := bind_eq_ok.1 h
        obtain ⟨g', hg, h⟩ := bind_eq_ok.1 h
        cases h
        exact .mul hdep (ihf hf) (ihg hg)
      | div =>
        obtain ⟨f', hf, h⟩ := bind_eq_ok.1 h
        obtain ⟨g', hg, h⟩ := bind_eq_ok.1 h
        cases h
        exact .div hdep (ihf hf) (ihg hg)
      | mod => cases h
      | pow =>
        simp only at h
        split at h
        next hexponent =>
          obtain ⟨g', hg, h⟩ := bind_eq_ok.1 h
          obtain ⟨f', hf, h⟩ := bind_eq_ok.1 h
          cases h
          exact .exponential hexponent (ihf hf) (ihg hg)
        next hexponent =>
          have hg : g.dependsOn v = false := by simpa using hexponent
          rw [hg, Bool.or_false] at hdep
          obtain ⟨f', hf, h⟩ := bind_eq_ok.1 h
          cases h
          exact .power hdep hg (ihf hf)
  | call f u ih =>
    unfold derivativeWith at h
    split at h
    next hindependent =>
      cases h
      rw [Bool.not_eq_true'] at hindependent
      exact .independent hindependent
    next hdepends =>
      obtain ⟨u', hu, h⟩ := bind_eq_ok.1 h
      cases h
      exact .chain (by simpa using hdepends) (ih hu)

theorem derivativeWith_of_not_dependsOn (h : t.dependsOn v = false) :
    t.derivativeWith build v = .ok .zero := by
  cases t with
  | const c => rfl
  | var name =>
    have hne : ¬name = v := of_decide_eq_false h
    unfold derivativeWith
    rw [if_neg hne]
  | binary op f g =>
    unfold dependsOn at h
    unfold derivativeWith
    rw [h]
    rfl
  | call f u =>
    unfold dependsOn at h
    unfold derivativeWith
    rw [h]
    rfl

theorem Differentiates.derivativeWith_eq (h : Differentiates build v t d) :
    t.derivativeWith build v = .ok d := by
  induction h with
  | independent h => exact derivativeWith_of_not_dependsOn h
  | var =>
    unfold derivativeWith
    rw [if_pos rfl]
  | add h hf hg ihf ihg =>
    unfold derivativeWith
    rw [h, ihf, ihg]
    rfl
  | sub h hf hg ihf ihg =>
    unfold derivativeWith
    rw [h, ihf, ihg]
    rfl
  | mul h hf hg ihf ihg =>
    unfold derivativeWith
    rw [h, ihf, ihg]
    rfl
  | div h hf hg ihf ihg =>
    unfold derivativeWith
    rw [h, ihf, ihg]
    rfl
  | exponential h hf hg ihf ihg =>
    rw [derivativeWith, h, ihf, ihg, Bool.or_true]
    rfl
  | power hbase h hf ihf =>
    rw [derivativeWith, hbase, h, ihf]
    rfl
  | chain h hu ih =>
    rw [derivativeWith, h, ih]
    rfl

theorem derivativeWith_eq_ok_iff : t.derivativeWith build v = .ok d ↔ Differentiates build v t d := by
  constructor
  · exact Differentiates.of_derivativeWith
  · exact Differentiates.derivativeWith_eq

end Tree

end SymbolicCalc
