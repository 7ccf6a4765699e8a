import Mathlib.Data.List.Basic
import SymbolicCalc.Expression
import SymbolicCalc.Proofs.Folding
import SymbolicCalc.Proofs.Positions

/-!
# What the variables of a tree decide

The variables of a tree are asked for in three ways: they are listed, a name is looked for among them, and a tree may
have none. All three answer for the variables that stand in the tree, and so they agree.

The outcome of an evaluation depends on the values of these variables and on nothing else. If one of them has no value,
the tree has none. Evaluation goes from the left to the right and takes every operand before its operator, so it ends
with a variable exactly if all that stands to the left of this variable has a value: the variable is the leftmost one
without a value, and no call before it is outside of the domain of its function.
-/

namespace SymbolicCalc

theorem Elementary.value_ne_unbound {K : Type} [Arithmetic K] (f : Elementary) (x : K) (name : String) :
    f.value x ≠ .error (.unbound name) := by
  unfold Elementary.value
  split
  · exact nofun
  · exact nofun

namespace Tree

variable {K : Type} {t u : Tree K} {i : Nat} {p : List Nat} {name : String}

/-! ## Listing variables -/

theorem isClosed_iff_names_freeVars : t.isClosed = true ↔ t.freeVars.names = [] := by
  rw [List.eq_nil_iff_forall_not_mem]
  constructor
  · intro h name hname
    rw [mem_names_freeVars, dependsOn_of_isClosed h] at hname
    cases hname
  · intro h
    cases hclosed : t.isClosed with
    | true => rfl
    | false =>
      obtain ⟨name, hname⟩ := exists_dependsOn hclosed
      exact absurd (mem_names_freeVars.2 hname) (h name)

/-! ## Evaluation up to a position -/

variable [Arithmetic K] {value? value?' : String → Option K}

/-- Everything that stands to the left of the position has a value. -/
def ValuedBefore (value? : String → Option K) (t : Tree K) (p : List Nat) : Prop :=
  ∀ q s, t.part? q = some s → LeftOf q p → ∃ x, s.eval value? = .ok x

/-- The variable `name` stands at the position and has no value, and evaluation comes as far as there. -/
structure StopsAt (value? : String → Option K) (t : Tree K) (p : List Nat) (name : String) : Prop where
  part : t.part? p = some (.var name)
  unbound : value? name = none
  before : t.ValuedBefore value? p

/-- The variable `name` stands at the position and has no value, and it is the leftmost one without a value. -/
structure LeftmostUnbound (value? : String → Option K) (t : Tree K) (p : List Nat) (name : String) : Prop where
  part : t.part? p = some (.var name)
  unbound : value? name = none
  leftmost : ∀ q other, t.part? q = some (.var other) → value? other = none → q = p ∨ LeftOf p q

/-- Every call that stands to the left of the position has a value. -/
def CallsValuedBefore (value? : String → Option K) (t : Tree K) (p : List Nat) : Prop :=
  ∀ q f arg, t.part? q = some (.call f arg) → LeftOf q p → ∃ x, (call f arg).eval value? = .ok x

/-- Evaluation gets to a position in an operand if it gets there in the operand and the operands before it have
values. -/
theorem valuedBefore_cons (hu : t.operands[i]? = some u) :
    t.ValuedBefore value? (i :: p) ↔
      u.ValuedBefore value? p ∧ ∀ j < i, ∀ w, t.operands[j]? = some w → ∃ x, w.eval value? = .ok x := by
  constructor
  · intro h
    constructor
    · intro q s hs hleft
      exact h (i :: q) s (part?_cons.2 ⟨u, hu, hs⟩) (hleft.cons i)
    · intro j hj w hw
      exact h [j] w (part?_cons.2 ⟨w, hw, rfl⟩) (leftOf_of_lt hj)
  · rintro ⟨hinside, hbefore⟩ q s hs hleft
    cases q with
    | nil => exact absurd hleft (not_leftOf_nil _)
    | cons j q =>
      obtain ⟨w, hw, hs⟩ := part?_cons.1 hs
      rcases leftOf_cons.1 hleft with hj | ⟨rfl, hsame⟩
      · obtain ⟨x, hx⟩ := hbefore j hj w hw
        exact exists_ok_of_part? hs hx
      · rw [hu] at hw
        cases hw
        exact hinside q s hs hsame

theorem stopsAt_cons (hu : t.operands[i]? = some u) :
    t.StopsAt value? (i :: p) name ↔
      u.StopsAt value? p name ∧ ∀ j < i, ∀ w, t.operands[j]? = some w → ∃ x, w.eval value? = .ok x := by
  have hpart : t.part? (i :: p) = u.part? p := by rw [part?, hu, Option.bind_some]
  constructor
  · rintro ⟨hvar, hunbound, hbefore⟩
    obtain ⟨hinside, hoperands⟩ := (valuedBefore_cons hu).1 hbefore
    exact ⟨⟨hpart.symm.trans hvar, hunbound, hinside⟩, hoperands⟩
  · rintro ⟨⟨hvar, hunbound, hinside⟩, hoperands⟩
    exact ⟨hpart.trans hvar, hunbound, (valuedBefore_cons hu).2 ⟨hinside, hoperands⟩⟩

/-! ## Evaluation that ends with a variable -/

/-- Evaluation ends with a variable exactly if it comes to one without a value. -/
theorem eval_eq_unbound_iff : t.eval value? = .error (.unbound name) ↔ ∃ p, t.StopsAt value? p name := by
  have hfirst (t : Tree K) (j : Nat) (hj : j < 0) (w : Tree K) (_ : t.operands[j]? = some w) :
      ∃ x, w.eval value? = .ok x := absurd hj (Nat.not_lt_zero j)
  induction t with
  | const c =>
    constructor
    · intro h
      cases h
    · rintro ⟨p, hp⟩
      cases ((part?_of_operands_eq_nil rfl).1 hp.part).2
  | var other =>
    constructor
    · intro h
      cases hother : value? other with
      | some x => simp [eval, hother] at h
      | none =>
        simp only [eval, hother, Except.error.injEq, EvalError.unbound.injEq] at h
        subst h
        exact ⟨[], rfl, hother, fun q _ _ hleft => absurd hleft (not_nil_leftOf q)⟩
    · rintro ⟨p, hp⟩
      obtain ⟨rfl, hvar⟩ := (part?_of_operands_eq_nil rfl).1 hp.part
      cases hvar
      rw [eval, hp.unbound]
  | binary op left right ihleft ihright =>
    constructor
    · intro h
      rcases bind_eq_error.1 h with h | ⟨x, hx, h⟩
      · obtain ⟨p, hp⟩ := ihleft.1 h
        exact ⟨0 :: p, (stopsAt_cons rfl).2 ⟨hp, hfirst _⟩⟩
      · rcases bind_eq_error.1 h with h | ⟨y, -, h⟩
        · obtain ⟨p, hp⟩ := ihright.1 h
          refine ⟨1 :: p, (stopsAt_cons rfl).2 ⟨hp, fun j hj w hw => ?_⟩⟩
          obtain rfl := Nat.lt_one_iff.1 hj
          cases hw
          exact ⟨x, hx⟩
        · cases h
    · rintro ⟨p, hp⟩
      rcases p with _ | ⟨_ | _ | i, p⟩
      · cases hp.part
      · exact bind_eq_error.2 (.inl (ihleft.2 ⟨p, ((stopsAt_cons rfl).1 hp).1⟩))
      · obtain ⟨hright, hbefore⟩ := (stopsAt_cons rfl).1 hp
        obtain ⟨x, hx⟩ := hbefore 0 Nat.one_pos left rfl
        exact bind_eq_error.2 (.inr ⟨x, hx, bind_eq_error.2 (.inl (ihright.2 ⟨p, hright⟩))⟩)
      · cases hp.part
  | call f arg ih =>
    constructor
    · intro h
      rcases bind_eq_error.1 h with h | ⟨x, -, h⟩
      · obtain ⟨p, hp⟩ := ih.1 h
        exact ⟨0 :: p, (stopsAt_cons rfl).2 ⟨hp, hfirst _⟩⟩
      · exact absurd h (f.value_ne_unbound x name)
    · rintro ⟨p, hp⟩
      rcases p with _ | ⟨_ | i, p⟩
      · cases hp.part
      · exact bind_eq_error.2 (.inl (ih.2 ⟨p, ((stopsAt_cons rfl).1 hp).1⟩))
      · cases hp.part

/-- A tree has a value if its variables and its calls have values. -/
theorem exists_eval_eq_ok (hvars : ∀ p name, t.part? p = some (.var name) → value? name ≠ none)
    (hcalls : ∀ p f arg, t.part? p = some (.call f arg) → ∃ x, (call f arg).eval value? = .ok x) :
    ∃ x, t.eval value? = .ok x := by
  induction t with
  | const c => exact ⟨c, rfl⟩
  | var name =>
    obtain ⟨x, hx⟩ := Option.ne_none_iff_exists'.1 (hvars [] name rfl)
    exact ⟨x, by rw [eval, hx]⟩
  | binary op left right ihleft ihright =>
    obtain ⟨x, hx⟩ := ihleft (fun p => hvars (0 :: p)) (fun p => hcalls (0 :: p))
    obtain ⟨y, hy⟩ := ihright (fun p => hvars (1 :: p)) (fun p => hcalls (1 :: p))
    exact ⟨_, bind_eq_ok.2 ⟨x, hx, bind_eq_ok.2 ⟨y, hy, rfl⟩⟩⟩
  | call f arg _ => exact hcalls [] f arg rfl

/-- Of all that stands to the left of a position only the variables and the calls can be without a value. -/
theorem valuedBefore_iff :
    t.ValuedBefore value? p ↔
      (∀ q name, t.part? q = some (.var name) → LeftOf q p → value? name ≠ none) ∧ t.CallsValuedBefore value? p := by
  constructor
  · intro h
    refine ⟨fun q name hq hleft hnone => ?_, fun q f arg hq hleft => h q _ hq hleft⟩
    obtain ⟨x, hx⟩ := h q _ hq hleft
    rw [eval, hnone] at hx
    cases hx
  · rintro ⟨hvars, hcalls⟩ q s hq hleft
    have hpart {r : List Nat} {u : Tree K} (hr : s.part? r = some u) : t.part? (q ++ r) = some u := by
      rw [part?_append, hq, Option.bind_some, hr]
    refine exists_eval_eq_ok (fun r name hr => ?_) (fun r f arg hr => ?_)
    · exact hvars (q ++ r) name (hpart hr) (hleft.append_left r)
    · exact hcalls (q ++ r) f arg (hpart hr) (hleft.append_left r)

/-- Evaluation stops at the leftmost variable without a value, if the calls before it have values. -/
theorem stopsAt_iff : t.StopsAt value? p name ↔ t.LeftmostUnbound value? p name ∧ t.CallsValuedBefore value? p := by
  constructor
  · rintro ⟨hvar, hunbound, hbefore⟩
    obtain ⟨hvars, hcalls⟩ := valuedBefore_iff.1 hbefore
    refine ⟨⟨hvar, hunbound, fun q other hother hnone => ?_⟩, hcalls⟩
    rcases eq_or_leftOf_or_leftOf rfl rfl hvar hother with rfl | hright | hleft
    · exact .inl rfl
    · exact .inr hright
    · exact absurd hnone (hvars q other hother hleft)
  · rintro ⟨⟨hvar, hunbound, hleftmost⟩, hcalls⟩
    refine ⟨hvar, hunbound, valuedBefore_iff.2 ⟨fun q other hother hleft hnone => ?_, hcalls⟩⟩
    rcases hleftmost q other hother hnone with rfl | hright
    · exact not_leftOf_self q hleft
    · exact hleft.asymm hright

/-- A variable that ends an evaluation is a variable of the tree, and it has no value. -/
theorem of_eval_eq_unbound (h : t.eval value? = .error (.unbound name)) :
    t.dependsOn name = true ∧ value? name = none := by
  obtain ⟨p, hp⟩ := eval_eq_unbound_iff.1 h
  exact ⟨dependsOn_iff_exists_part?.2 ⟨p, hp.part⟩, hp.unbound⟩

/-! ## Evaluation with other values -/

/-- The value of a tree depends on the values of its variables alone. -/
theorem eval_congr (h : ∀ name, t.dependsOn name = true → value? name = value?' name) :
    t.eval value? = t.eval value?' := by
  induction t with
  | const c => rfl
  | var name =>
    have hname := h name (decide_eq_true rfl)
    rw [eval, eval, hname]
  | binary op left right ihleft ihright =>
    have hleft : left.eval value? = left.eval value?' :=
      ihleft fun name hname => h name (dependsOn_of_mem_operands List.mem_cons_self hname)
    have hright : right.eval value? = right.eval value?' :=
      ihright fun name hname => h name (dependsOn_of_mem_operands (List.mem_cons_of_mem left List.mem_cons_self) hname)
    rw [eval, eval, hleft, hright]
  | call f arg ih => rw [eval, eval, ih h]

/-- A tree with a variable without a value has no value. -/
theorem exists_error_of_dependsOn (h : t.dependsOn name = true) (hnone : value? name = none) :
    ∃ e, t.eval value? = .error e := by
  obtain ⟨p, hp⟩ := dependsOn_iff_exists_part?.1 h
  have hvar : (var name : Tree K).eval value? = .error (.unbound name) := by rw [eval, hnone]
  exact exists_error_of_part? hp hvar

end Tree

/-! ## Main results -/

namespace Expression

/-- The three ways to ask for the variables of an expression agree: a name is depended on exactly if it is among the
free variables, which are the names of the variables that stand in the tree, and an expression is closed exactly if
there are none. The names are listed in strictly increasing order, hence each of them once. -/
theorem variables_agree (t : Expression) :
    (∀ name, t.dependsOn name = true ↔ name ∈ t.freeVars.names) ∧
      (∀ name, name ∈ t.freeVars.names ↔ ∃ p, t.part? p = some (.var name)) ∧
      (t.isClosed = true ↔ t.freeVars.names = []) ∧
      t.variableNames.Pairwise (· < ·) ∧
      ∀ name, name ∈ t.variableNames ↔ name ∈ t.freeVars.names := by
  refine ⟨fun name => Tree.mem_names_freeVars.symm, fun name => ?_, Tree.isClosed_iff_names_freeVars,
    t.freeVars.names_increase, fun name => Iff.rfl⟩
  rw [Tree.mem_names_freeVars, Tree.dependsOn_iff_exists_part?]

/-- Evaluation depends on exactly the free variables. Values that agree on them give the same result; without a value
for one of them evaluation fails; and with values for all of them it does not fail for a variable. It fails for a
variable exactly if this is the leftmost of the variables without a value, and every call to the left of it has a
value. -/
theorem evaluate_needs_variables (t : Expression) (ρ : Valuation) :
    (∀ σ : Valuation, (∀ name ∈ t.freeVars.names, ρ.get? name = σ.get? name) → t.evaluate ρ = t.evaluate σ) ∧
      ((∃ name ∈ t.freeVars.names, ρ.get? name = none) → ∃ e, t.evaluate ρ = .error e) ∧
      ((∀ name ∈ t.freeVars.names, ρ.get? name ≠ none) → ∀ name, t.evaluate ρ ≠ .error (.unbound name)) ∧
      ∀ name, t.evaluate ρ = .error (.unbound name) ↔
        ∃ p, t.LeftmostUnbound ρ.get? p name ∧ t.CallsValuedBefore ρ.get? p := by
  refine ⟨fun σ h => ?_, ?_, fun h name heval => ?_, fun name => ?_⟩
  · exact Tree.eval_congr fun name hname => h name (Tree.mem_names_freeVars.2 hname)
  · rintro ⟨name, hname, hnone⟩
    exact Tree.exists_error_of_dependsOn (Tree.mem_names_freeVars.1 hname) hnone
  · obtain ⟨hname, hnone⟩ := Tree.of_eval_eq_unbound heval
    exact h name (Tree.mem_names_freeVars.2 hname) hnone
  · exact Tree.eval_eq_unbound_iff.trans (exists_congr fun p => Tree.stopsAt_iff)

/-- In `sqrt(X)*(y+z)` with a value for `x` the first of the two variables without a value is `y`, and the call before
it has a value. A value for `w` makes no difference. -/
theorem evaluate_needs_variables_sqrtTimesSum :
    ∃ t : Expression, ∃ ρ σ τ : Valuation,
      t = .binary .mul (.call .sqrt (.var "X")) (.binary .add (.var "y") (.var "z")) ∧
      ρ = .ofList [("x", .one)] ∧ σ = .ofList [("x", .one), ("w", .one)] ∧
      τ = .ofList [("x", .one), ("Y", .one), ("z", .zero)] ∧
      (∀ name ∈ t.freeVars.names, ρ.get? name = σ.get? name) ∧ t.evaluate ρ = t.evaluate σ ∧
      (∃ name ∈ t.freeVars.names, ρ.get? name = none) ∧ (∃ e, t.evaluate ρ = .error e) ∧
      (∃ p, t.LeftmostUnbound ρ.get? p "y" ∧ t.CallsValuedBefore ρ.get? p) ∧
      (∀ name ∈ t.freeVars.names, τ.get? name ≠ none) ∧ ∀ name, t.evaluate τ ≠ .error (.unbound name) := by
  let t : Expression := .binary .mul (.call .sqrt (.var "X")) (.binary .add (.var "y") (.var "z"))
  have hagree : ∀ name ∈ t.freeVars.names,
      (Valuation.ofList [("x", .one)]).get? name = (Valuation.ofList [("x", .one), ("w", .one)]).get? name := by
    decide +kernel
  have hnone : ∃ name ∈ t.freeVars.names, (Valuation.ofList [("x", .one)]).get? name = none := by decide +kernel
  have hbound : ∀ name ∈ t.freeVars.names,
      (Valuation.ofList [("x", .one), ("Y", .one), ("z", .zero)]).get? name ≠ none := by decide +kernel
  have hunbound : t.evaluate (.ofList [("x", .one)]) = .error (.unbound "y") := by
    decide +kernel
  obtain ⟨hsame, hfails, -, hstops⟩ := evaluate_needs_variables t (.ofList [("x", .one)])
  exact ⟨t, _, _, _, rfl, rfl, rfl, rfl, hagree, hsame _ hagree, hnone, hfails hnone, (hstops "y").1 hunbound, hbound,
    (evaluate_needs_variables t _).2.2.1 hbound⟩

end Expression

end SymbolicCalc
