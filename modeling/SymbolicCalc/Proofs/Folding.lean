import SymbolicCalc.Tree.Fold

/-!
# Folding keeps the meaning of a tree

Folding evaluates parts early, without any bindings, and it may stop half way. Neither can be observed: what
is left of the tree has the value of the tree for all bindings, the same error where it has none, and the same
variables. The reason is that a part without variables has one outcome for all bindings, and that the parts are
visited in the order in which evaluation visits them.
-/

namespace SymbolicCalc

namespace Tree

/-! ## Parts without variables -/

section

variable {K : Type} {t : Tree K}

theorem collect_of_isClosed (h : t.isClosed = true) (seen : NameSet) : t.collect seen = seen := by
  induction t generalizing seen with
  | const c => rfl
  | var name => cases h
  | binary op left right ihleft ihright =>
    rw [isClosed, Bool.and_eq_true] at h
    rw [collect, ihleft h.1, ihright h.2]
  | call f arg ih => exact ih h seen

theorem dependsOn_of_isClosed (h : t.isClosed = true) (name : String) : t.dependsOn name = false := by
  induction t with
  | const c => rfl
  | var other => cases h
  | binary op left right ihleft ihright =>
    rw [isClosed, Bool.and_eq_true] at h
    rw [dependsOn, ihleft h.1, ihright h.2]
    rfl
  | call f arg ih => exact ih h

end

variable {K : Type} [Arithmetic K] {t : Tree K}

/-- A tree without variables has one outcome for all bindings. -/
theorem eval_eq_evalClosed {value? : String → Option K} (h : t.isClosed = true) :
    t.eval value? = t.evalClosed := by
  unfold evalClosed
  induction t with
  | const c => rfl
  | var name => cases h
  | binary op left right ihleft ihright =>
    rw [isClosed, Bool.and_eq_true] at h
    rw [eval, eval, ihleft h.1, ihright h.2]
  | call f arg ih =>
    rw [isClosed] at h
    rw [eval, eval, ih h]

theorem foldClosed_cases (t : Tree K) :
    (∃ x, t.evalClosed = .ok x ∧ t.foldClosed = ⟨.const x, none⟩) ∨
      ∃ e, t.evalClosed = .error e ∧ t.foldClosed = ⟨t, some e⟩ := by
  unfold foldClosed
  cases h : t.evalClosed with
  | ok x => exact .inl ⟨x, rfl, rfl⟩
  | error e => exact .inr ⟨e, rfl, rfl⟩

theorem eval_foldClosed {value? : String → Option K} (h : t.isClosed = true) :
    t.foldClosed.tree.eval value? = t.eval value? := by
  rw [eval_eq_evalClosed h]
  rcases t.foldClosed_cases with ⟨x, heval, hfold⟩ | ⟨e, -, hfold⟩
  · rw [hfold, heval]
    rfl
  · rw [hfold]
    exact eval_eq_evalClosed h

theorem isClosed_foldClosed (h : t.isClosed = true) : t.foldClosed.tree.isClosed = true := by
  rcases t.foldClosed_cases with ⟨x, -, hfold⟩ | ⟨e, -, hfold⟩
  · rw [hfold]
    rfl
  · rw [hfold]
    exact h

/-! ## One step -/

variable {op : Operator} {f : Elementary} {left left' right arg : Tree K} {e : EvalError K}

section

attribute [local simp] fold

theorem fold_binary_of_isClosed (h : (left.isClosed && right.isClosed) = true) :
    (binary op left right).fold = foldClosed (.binary op left right) := by
  rw [Bool.and_eq_true] at h
  simp [h]

/-- Folding stops at the first failure, before the right operand. -/
theorem fold_binary_failed (hopen : ¬(left.isClosed && right.isClosed) = true)
    (hleft : left.fold = ⟨left', some e⟩) :
    (binary op left right).fold = ⟨.binary op left' right, some e⟩ := by
  simp [hopen, hleft]

theorem fold_binary (hopen : ¬(left.isClosed && right.isClosed) = true)
    (hleft : left.fold = ⟨left', none⟩) :
    (binary op left right).fold = right.fold.map (.binary op left') := by
  simp [hopen, hleft]

theorem fold_call_of_isClosed (h : arg.isClosed = true) :
    (call f arg).fold = foldClosed (.call f arg) := by
  simp [h]

theorem fold_call (hopen : ¬arg.isClosed = true) : (call f arg).fold = arg.fold.map (.call f) := by
  simp [hopen]

end

/-! ## All trees -/

theorem isClosed_fold (t : Tree K) : t.fold.tree.isClosed = t.isClosed := by
  fun_induction fold t with
  | case1 => rfl
  | case2 => rfl
  | case3 op left right h =>
    have hclosed : (binary op left right).isClosed = true := h
    rw [isClosed_foldClosed hclosed, hclosed]
  | case4 op left right hopen left' e hleft ihleft =>
    rw [hleft] at ihleft
    rw [isClosed, isClosed, ihleft]
  | case5 op left right hopen left' hleft ihleft ihright =>
    rw [hleft] at ihleft
    show (left'.isClosed && right.fold.tree.isClosed) = (left.isClosed && right.isClosed)
    rw [ihleft, ihright]
  | case6 f arg h =>
    have hclosed : (call f arg).isClosed = true := h
    rw [isClosed_foldClosed hclosed, hclosed]
  | case7 f arg hopen ih => exact ih

/-- Folding leaves the same value or the same error. -/
theorem eval_fold (t : Tree K) (value? : String → Option K) :
    t.fold.tree.eval value? = t.eval value? := by
  fun_induction fold t with
  | case1 => rfl
  | case2 => rfl
  | case3 op left right hclosed => exact eval_foldClosed hclosed
  | case4 op left right hopen left' e hleft ihleft =>
    rw [hleft] at ihleft
    rw [eval, eval, ihleft]
  | case5 op left right hopen left' hleft ihleft ihright =>
    rw [hleft] at ihleft
    show (Tree.binary op left' right.fold.tree).eval value? = _
    rw [eval, eval, ihleft, ihright]
  | case6 f arg hclosed => exact eval_foldClosed hclosed
  | case7 f arg hopen ih =>
    show (Tree.call f arg.fold.tree).eval value? = _
    rw [eval, eval, ih]

/-- Folding leaves the same variables. Evaluated parts had none. -/
theorem collect_fold (t : Tree K) (seen : NameSet) : t.fold.tree.collect seen = t.collect seen := by
  have hclosed (t : Tree K) (seen : NameSet) (h : t.isClosed = true) :
      t.foldClosed.tree.collect seen = t.collect seen := by
    rw [collect_of_isClosed h, collect_of_isClosed (isClosed_foldClosed h)]
  fun_induction fold t generalizing seen with
  | case1 => rfl
  | case2 => rfl
  | case3 op left right h => exact hclosed _ seen h
  | case4 op left right hopen left' e hleft ihleft =>
    rw [hleft] at ihleft
    rw [collect, collect, ihleft]
  | case5 op left right hopen left' hleft ihleft ihright =>
    rw [hleft] at ihleft
    show right.fold.tree.collect (left'.collect seen) = _
    rw [collect, ihleft, ihright]
  | case6 f arg h => exact hclosed _ seen h
  | case7 f arg hopen ih => exact ih seen

theorem dependsOn_fold (t : Tree K) (name : String) :
    t.fold.tree.dependsOn name = t.dependsOn name := by
  have hclosed (t : Tree K) (h : t.isClosed = true) :
      t.foldClosed.tree.dependsOn name = t.dependsOn name := by
    rw [dependsOn_of_isClosed h, dependsOn_of_isClosed (isClosed_foldClosed h)]
  fun_induction fold t with
  | case1 => rfl
  | case2 => rfl
  | case3 op left right h => exact hclosed _ h
  | case4 op left right hopen left' e hleft ihleft =>
    rw [hleft] at ihleft
    rw [dependsOn, dependsOn, ihleft]
  | case5 op left right hopen left' hleft ihleft ihright =>
    rw [hleft] at ihleft
    show (left'.dependsOn name || right.fold.tree.dependsOn name) = _
    rw [dependsOn, ihleft, ihright]
  | case6 f arg h => exact hclosed _ h
  | case7 f arg hopen ih => exact ih

/-- Folding what a folding has left changes nothing more, and stops again where the folding stopped. The
induction follows the folding: the operands that it finished fold to themselves, and no operand has become
closed, so the second folding takes the same way. -/
theorem fold_fold (t : Tree K) : t.fold.tree.fold = t.fold := by
  have hclosed (t : Tree K) (h : t.fold = t.foldClosed) :
      t.foldClosed.tree.fold = t.foldClosed := by
    rcases t.foldClosed_cases with ⟨x, -, hfold⟩ | ⟨e, -, hfold⟩
    · rw [hfold]
      rfl
    · rw [hfold] at h ⊢
      exact h
  fun_induction fold t with
  | case1 => rfl
  | case2 => rfl
  | case3 op left right h => exact hclosed _ (fold_binary_of_isClosed h)
  | case4 op left right hopen left' e hleft ihleft =>
    have hsame := left.isClosed_fold
    rw [hleft] at ihleft hsame
    rw [← hsame] at hopen
    exact fold_binary_failed hopen ihleft
  | case5 op left right hopen left' hleft ihleft ihright =>
    have hsame := left.isClosed_fold
    rw [hleft] at ihleft hsame
    rw [← hsame, ← right.isClosed_fold] at hopen
    show (Tree.binary op left' right.fold.tree).fold = _
    rw [fold_binary hopen ihleft, ihright]
  | case6 f arg h => exact hclosed _ (fold_call_of_isClosed h)
  | case7 f arg hopen ih =>
    rw [← arg.isClosed_fold] at hopen
    show (Tree.call f arg.fold.tree).fold = _
    rw [fold_call hopen, ih]

theorem simplified_eq_ok_iff {d : Tree K} : t.simplified = .ok d ↔ t.fold = ⟨d, none⟩ := by
  unfold simplified
  constructor
  · intro h
    split at h
    next heq =>
      cases h
      exact heq
    · cases h
  · intro h
    rw [h]

/-- What a folding came to is folded. -/
theorem fold_of_simplified {d : Tree K} (h : t.simplified = .ok d) : d.fold = ⟨d, none⟩ := by
  have hfold := simplified_eq_ok_iff.1 h
  have hagain := t.fold_fold
  rw [hfold] at hagain
  exact hagain

/-! ## Trees that are folded already -/

theorem fold_eq_foldClosed (h : t.isClosed = true) : t.fold = t.foldClosed := by
  cases t with
  | const c => rfl
  | var name => cases h
  | binary op left right => exact fold_binary_of_isClosed h
  | call f arg => exact fold_call_of_isClosed h

theorem foldClosed_eq_const {x : K} (h : t.evalClosed = .ok x) : t.foldClosed = ⟨.const x, none⟩ := by
  unfold foldClosed
  rw [h]

/-- A folded tree has no closed part but constants. -/
theorem not_isClosed_of_fold_binary (h : (binary op left right).fold = ⟨.binary op left right, none⟩) :
    ¬(left.isClosed && right.isClosed) = true := by
  intro hclosed
  rw [fold_binary_of_isClosed hclosed] at h
  rcases (binary op left right).foldClosed_cases with ⟨x, -, hfold⟩ | ⟨e, -, hfold⟩
  · rw [hfold] at h
    cases h
  · rw [hfold] at h
    cases h

theorem not_isClosed_of_fold_call (h : (call f arg).fold = ⟨.call f arg, none⟩) : ¬arg.isClosed = true := by
  intro hclosed
  rw [fold_call_of_isClosed hclosed] at h
  rcases (call f arg).foldClosed_cases with ⟨x, -, hfold⟩ | ⟨e, -, hfold⟩
  · rw [hfold] at h
    cases h
  · rw [hfold] at h
    cases h

theorem fold_of_fold_binary (h : (binary op left right).fold = ⟨.binary op left right, none⟩) :
    left.fold = ⟨left, none⟩ ∧ right.fold = ⟨right, none⟩ := by
  have hopen := not_isClosed_of_fold_binary h
  cases hleft : left.fold with
  | mk left' failure =>
    cases failure with
    | some e =>
      rw [fold_binary_failed hopen hleft] at h
      cases h
    | none =>
      rw [fold_binary hopen hleft] at h
      cases hright : right.fold with
      | mk right' failure =>
        rw [hright] at h
        cases h
        exact ⟨rfl, rfl⟩

theorem fold_of_fold_call (h : (call f arg).fold = ⟨.call f arg, none⟩) : arg.fold = ⟨arg, none⟩ := by
  rw [fold_call (not_isClosed_of_fold_call h)] at h
  cases harg : arg.fold with
  | mk arg' failure =>
    rw [harg] at h
    cases h
    rfl

/-! ## What cannot be observed -/

/-- Whether it comes to its end or not, folding leaves a tree with the same outcome for all bindings and the
same variables; and folding that tree leaves it as it is, with the same failure. -/
theorem fold_keeps_meaning (t : Tree K) :
    (∀ value? : String → Option K, t.fold.tree.eval value? = t.eval value?) ∧
      t.fold.tree.freeVars = t.freeVars ∧
      t.fold.tree.fold.failure = t.fold.failure ∧ t.fold.tree.fold.tree = t.fold.tree := by
  refine ⟨t.eval_fold, t.collect_fold .empty, ?_, ?_⟩
  · rw [fold_fold]
  · rw [fold_fold]

end Tree

end SymbolicCalc
