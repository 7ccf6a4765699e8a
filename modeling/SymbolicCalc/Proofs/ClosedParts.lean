import SymbolicCalc.Proofs.Folding
import SymbolicCalc.Proofs.Positions

/-!
# What folding does to the parts of a tree

An operator or a call without variables is folded into its value, unless it is inside another one. These maximal
closed parts are told apart by their positions: they lie beside each other, and what is not inside any of them
stays where it is. Folding comes to its end if all of them have values; otherwise it stops at the leftmost one that
has none.
-/

namespace SymbolicCalc

namespace Tree

variable {K : Type} {t m s u : Tree K} {i : Nat} {p : List Nat}

/-! ## Maximal closed parts -/

/-- The part `s` at the position `p` is an operator or a call without variables, and all parts around it have
variables. -/
structure MaximalClosed (t : Tree K) (p : List Nat) (s : Tree K) : Prop where
  part : t.part? p = some s
  compound : s.isCompound = true
  closed : s.isClosed = true
  maximal : ∀ q u, q <+: p → q ≠ p → t.part? q = some u → u.isClosed = false

/-- A closed tree is its only maximal closed part, if it is an operator or a call. -/
theorem maximalClosed_of_isClosed (h : t.isClosed = true) :
    t.MaximalClosed p s ↔ p = [] ∧ s = t ∧ t.isCompound = true := by
  constructor
  · intro hmax
    cases p with
    | nil =>
      obtain rfl := Option.some.inj hmax.part
      exact ⟨rfl, rfl, hmax.compound⟩
    | cons i p =>
      have hopen := hmax.maximal [] t List.nil_prefix (List.cons_ne_nil i p).symm rfl
      rw [h] at hopen
      cases hopen
  · rintro ⟨rfl, rfl, hcompound⟩
    exact ⟨rfl, hcompound, h, fun q u hq hne _ => absurd (List.prefix_nil.1 hq) hne⟩

theorem not_maximalClosed_nil (h : t.isClosed = false) : ¬t.MaximalClosed [] s := by
  intro hmax
  obtain rfl := Option.some.inj hmax.part
  have hclosed := hmax.closed
  rw [h] at hclosed
  cases hclosed

/-- The maximal closed parts of a tree with variables are those of its operands. -/
theorem maximalClosed_cons (h : t.isClosed = false) :
    t.MaximalClosed (i :: p) s ↔ ∃ u, t.operands[i]? = some u ∧ u.MaximalClosed p s := by
  constructor
  · intro hmax
    obtain ⟨u, hu, hpart⟩ := part?_cons.1 hmax.part
    refine ⟨u, hu, hpart, hmax.compound, hmax.closed, fun q v hq hne hv => ?_⟩
    refine hmax.maximal (i :: q) v (List.cons_prefix_cons.2 ⟨rfl, hq⟩) ?_ (part?_cons.2 ⟨u, hu, hv⟩)
    exact fun heq => hne (List.cons.inj heq).2
  · rintro ⟨u, hu, hmax⟩
    refine ⟨part?_cons.2 ⟨u, hu, hmax.part⟩, hmax.compound, hmax.closed, fun q v hq hne hv => ?_⟩
    cases q with
    | nil =>
      obtain rfl := Option.some.inj hv
      exact h
    | cons j q =>
      obtain ⟨rfl, hprefix⟩ := List.cons_prefix_cons.1 hq
      obtain ⟨w, hw, hv⟩ := part?_cons.1 hv
      rw [hu] at hw
      cases hw
      exact hmax.maximal q v hprefix (fun heq => hne (congrArg (j :: ·) heq)) hv

/-! ## Trees that have nothing left to fold -/

/-- No operator and no call of the tree is closed. -/
def Normal (t : Tree K) : Prop :=
  ∀ p s, t.part? p = some s → s.isCompound = true → s.isClosed = false

theorem Normal.leaf (h : t.isCompound = false) : t.Normal := by
  intro p s hpart hcompound
  have hoperands : t.operands = [] := by
    cases t with
    | const c => rfl
    | var name => rfl
    | binary op left right => cases h
    | call f arg => cases h
  obtain ⟨-, rfl⟩ := (part?_of_operands_eq_nil hoperands).1 hpart
  rw [h] at hcompound
  cases hcompound

theorem Normal.of_operands (hopen : t.isClosed = false) (h : ∀ u ∈ t.operands, u.Normal) : t.Normal := by
  intro p s hpart hcompound
  cases p with
  | nil =>
    obtain rfl := Option.some.inj hpart
    exact hopen
  | cons i p =>
    obtain ⟨u, hu, hpart⟩ := part?_cons.1 hpart
    exact h u (List.mem_of_getElem? hu) p s hpart hcompound

/-! ## What becomes of a tree -/

variable [Arithmetic K]

/-- The tree `m` is `t` with a constant in place of every maximal closed part: the value of the part. -/
structure FoldsTo (t m : Tree K) : Prop where
  /-- At the position of a maximal closed part stands its value. -/
  replaced : ∀ p s, t.MaximalClosed p s → ∃ x, s.evalClosed = .ok x ∧ m.part? p = some (.const x)
  /-- At all other positions outside of the maximal closed parts stands what stood there. -/
  kept : ∀ p s, t.part? p = some s → (∀ q u, q <+: p → ¬t.MaximalClosed q u) →
    ∃ s', m.part? p = some s' ∧ s'.root = s.root
  /-- There are no other positions. -/
  positions : ∀ p s', m.part? p = some s' →
    (∃ s, t.part? p = some s) ∧ ∀ q u, q <+: p → q ≠ p → ¬t.MaximalClosed q u

theorem FoldsTo.leaf (h : t.isCompound = false) : t.FoldsTo t := by
  have hnone (p : List Nat) (s : Tree K) : ¬t.MaximalClosed p s := by
    intro hmax
    have hopen := Normal.leaf h p s hmax.part hmax.compound
    rw [hmax.closed] at hopen
    cases hopen
  exact ⟨fun p s hmax => absurd hmax (hnone p s), fun p s hpart _ => ⟨s, hpart, rfl⟩,
    fun p s hpart => ⟨⟨s, hpart⟩, fun q u _ _ => hnone q u⟩⟩

theorem FoldsTo.of_isClosed {x : K} (hcompound : t.isCompound = true) (hclosed : t.isClosed = true)
    (h : t.evalClosed = .ok x) : t.FoldsTo (.const x) := by
  have hmax : t.MaximalClosed [] t := (maximalClosed_of_isClosed hclosed).2 ⟨rfl, rfl, hcompound⟩
  constructor
  · intro p s hs
    obtain ⟨rfl, rfl, -⟩ := (maximalClosed_of_isClosed hclosed).1 hs
    exact ⟨x, h, rfl⟩
  · intro p s _ houtside
    exact absurd hmax (houtside [] t List.nil_prefix)
  · intro p s' hpart
    obtain ⟨rfl, -⟩ := (part?_of_operands_eq_nil rfl).1 hpart
    exact ⟨⟨t, rfl⟩, fun q u hq hne => absurd (List.prefix_nil.1 hq) hne⟩

/-- A tree with variables keeps its root, and its operands are folded where they stand. -/
theorem FoldsTo.of_operands (hopen : t.isClosed = false) (hroot : m.root = t.root)
    (h : ∀ i : Nat, Option.Rel FoldsTo t.operands[i]? m.operands[i]?) : t.FoldsTo m := by
  have hforth {i : Nat} {u : Tree K} (hu : t.operands[i]? = some u) :
      ∃ u', m.operands[i]? = some u' ∧ u.FoldsTo u' := by
    have hi := h i
    rw [hu] at hi
    generalize m.operands[i]? = operand at hi
    cases hi with
    | @some _ u' hfolds => exact ⟨u', rfl, hfolds⟩
  have hback {i : Nat} {u' : Tree K} (hu' : m.operands[i]? = some u') :
      ∃ u, t.operands[i]? = some u ∧ u.FoldsTo u' := by
    have hi := h i
    rw [hu'] at hi
    generalize t.operands[i]? = operand at hi
    cases hi with
    | @some u _ hfolds => exact ⟨u, rfl, hfolds⟩
  constructor
  · intro p s hs
    cases p with
    | nil => exact absurd hs (not_maximalClosed_nil hopen)
    | cons i p =>
      obtain ⟨u, hu, hs⟩ := (maximalClosed_cons hopen).1 hs
      obtain ⟨u', hu', hfolds⟩ := hforth hu
      obtain ⟨x, hx, hpart⟩ := hfolds.replaced p s hs
      exact ⟨x, hx, part?_cons.2 ⟨u', hu', hpart⟩⟩
  · intro p s hpart houtside
    cases p with
    | nil =>
      obtain rfl := Option.some.inj hpart
      exact ⟨m, rfl, hroot⟩
    | cons i p =>
      obtain ⟨u, hu, hpart⟩ := part?_cons.1 hpart
      obtain ⟨u', hu', hfolds⟩ := hforth hu
      obtain ⟨s', hs', hsame⟩ := hfolds.kept p s hpart fun q v hq hv =>
        houtside (i :: q) v (List.cons_prefix_cons.2 ⟨rfl, hq⟩) ((maximalClosed_cons hopen).2 ⟨u, hu, hv⟩)
      exact ⟨s', part?_cons.2 ⟨u', hu', hs'⟩, hsame⟩
  · intro p s' hpart
    cases p with
    | nil => exact ⟨⟨t, rfl⟩, fun q u hq hne => absurd (List.prefix_nil.1 hq) hne⟩
    | cons i p =>
      obtain ⟨u', hu', hpart⟩ := part?_cons.1 hpart
      obtain ⟨u, hu, hfolds⟩ := hback hu'
      obtain ⟨⟨s, hs⟩, hbeside⟩ := hfolds.positions p s' hpart
      refine ⟨⟨s, part?_cons.2 ⟨u, hu, hs⟩⟩, fun q v hq hne hv => ?_⟩
      cases q with
      | nil => exact not_maximalClosed_nil hopen hv
      | cons j q =>
        obtain ⟨rfl, hprefix⟩ := List.cons_prefix_cons.1 hq
        obtain ⟨w, hw, hv⟩ := (maximalClosed_cons hopen).1 hv
        rw [hu] at hw
        cases hw
        exact hbeside q v hprefix (fun heq => hne (congrArg (j :: ·) heq)) hv

/-- What a tree folds to is determined by the tree. -/
theorem FoldsTo.eq {m m' : Tree K} (h : t.FoldsTo m) (h' : t.FoldsTo m') : m = m' := by
  have hroot {m m' : Tree K} (h : t.FoldsTo m) (h' : t.FoldsTo m') {p : List Nat} {s : Tree K}
      (hs : m.part? p = some s) : ∃ s', m'.part? p = some s' ∧ s.root = s'.root := by
    obtain ⟨⟨u, hu⟩, hbeside⟩ := h.positions p s hs
    by_cases hmax : ∃ v, t.MaximalClosed p v
    · obtain ⟨v, hv⟩ := hmax
      obtain ⟨x, hx, hpart⟩ := h.replaced p v hv
      obtain ⟨x', hx', hpart'⟩ := h'.replaced p v hv
      rw [hs] at hpart
      rw [hx] at hx'
      cases hpart
      cases hx'
      exact ⟨.const x, hpart', rfl⟩
    · have houtside : ∀ q v, q <+: p → ¬t.MaximalClosed q v := by
        intro q v hq hv
        by_cases hqp : q = p
        · exact hmax ⟨v, hqp ▸ hv⟩
        · exact hbeside q v hq hqp hv
      obtain ⟨w, hw, hsame⟩ := h.kept p u hu houtside
      obtain ⟨w', hw', hsame'⟩ := h'.kept p u hu houtside
      rw [hs] at hw
      cases hw
      exact ⟨w', hw', hsame.trans hsame'.symm⟩
  refine eq_of_roots_eq fun p => ?_
  cases hs : m.part? p with
  | some s =>
    obtain ⟨s', hs', hsame⟩ := hroot h h' hs
    rw [hs', Option.map_some, Option.map_some, hsame]
  | none =>
    cases hs' : m'.part? p with
    | none => rfl
    | some s' =>
      obtain ⟨s, hpart, -⟩ := hroot h' h hs'
      rw [hs] at hpart
      cases hpart

/-! ## Folding that comes to its end -/

theorem foldsTo_foldClosed (hcompound : t.isCompound = true) (hclosed : t.isClosed = true)
    (h : t.foldClosed.failure = none) : t.FoldsTo t.foldClosed.tree := by
  rcases t.foldClosed_cases with ⟨x, heval, hfold⟩ | ⟨e, -, hfold⟩
  · rw [hfold]
    exact .of_isClosed hcompound hclosed heval
  · rw [hfold] at h
    cases h

/-- A folding that comes to its end replaces the maximal closed parts by their values, and nothing else. -/
theorem foldsTo_fold (h : t.fold.failure = none) : t.FoldsTo t.fold.tree := by
  fun_induction fold t with
  | case1 => exact .leaf rfl
  | case2 => exact .leaf rfl
  | case3 op left right hclosed => exact foldsTo_foldClosed rfl hclosed h
  | case4 op left right hopen left' e hleft ihleft => cases h
  | case5 op left right hopen left' hleft ihleft ihright =>
    rw [hleft] at ihleft
    refine .of_operands (Bool.eq_false_iff.2 hopen) rfl fun i => ?_
    rcases i with _ | _ | i
    · exact .some (ihleft rfl)
    · exact .some (ihright h)
    · exact .none
  | case6 f arg hclosed => exact foldsTo_foldClosed rfl hclosed h
  | case7 f arg hopen ih =>
    refine .of_operands (Bool.eq_false_iff.2 hopen) rfl fun i => ?_
    rcases i with _ | i
    · exact .some (ih h)
    · exact .none

/-- A tree that folding leaves as it is has nothing left to fold. -/
theorem normal_of_fold (h : t.fold = ⟨t, none⟩) : t.Normal := by
  induction t with
  | const c => exact .leaf rfl
  | var name => exact .leaf rfl
  | binary op left right ihleft ihright =>
    obtain ⟨hleft, hright⟩ := fold_of_fold_binary h
    have hopen := not_isClosed_of_fold_binary h
    refine .of_operands (Bool.eq_false_iff.2 hopen) fun u hu => ?_
    rcases mem_operands_binary.1 hu with rfl | rfl
    · exact ihleft hleft
    · exact ihright hright
  | call f arg ih =>
    have hopen : ¬arg.isClosed = true := not_isClosed_of_fold_call h
    refine .of_operands (Bool.eq_false_iff.2 hopen) fun u hu => ?_
    obtain rfl := mem_operands_call.1 hu
    exact ih (fold_of_fold_call h)

/-! ## Folding that fails -/

variable {e : EvalError K}

/-- The maximal closed part `s` at the position `p` ends in the error `e`, and it is the leftmost one that has no
value. -/
structure LeftmostFailure (t : Tree K) (p : List Nat) (s : Tree K) (e : EvalError K) : Prop where
  part : t.MaximalClosed p s
  fails : s.evalClosed = .error e
  leftmost : ∀ q u e', t.MaximalClosed q u → u.evalClosed = .error e' → q = p ∨ LeftOf p q

theorem LeftmostFailure.of_isClosed (hcompound : t.isCompound = true) (hclosed : t.isClosed = true)
    (h : t.evalClosed = .error e) : t.LeftmostFailure [] t e :=
  ⟨(maximalClosed_of_isClosed hclosed).2 ⟨rfl, rfl, hcompound⟩, h,
    fun _ _ _ hmax _ => .inl ((maximalClosed_of_isClosed hclosed).1 hmax).1⟩

/-- The leftmost failure of an operand is that of the tree, if no operand before it has a failure. -/
theorem LeftmostFailure.of_operand (hopen : t.isClosed = false) (hu : t.operands[i]? = some u)
    (h : u.LeftmostFailure p s e)
    (hbefore : ∀ j w q v, j < i → t.operands[j]? = some w → w.MaximalClosed q v → ∃ x, v.evalClosed = .ok x) :
    t.LeftmostFailure (i :: p) s e := by
  refine ⟨(maximalClosed_cons hopen).2 ⟨u, hu, h.part⟩, h.fails, fun q v e' hv hfails => ?_⟩
  cases q with
  | nil => exact absurd hv (not_maximalClosed_nil hopen)
  | cons j q =>
    obtain ⟨w, hw, hv⟩ := (maximalClosed_cons hopen).1 hv
    rcases Nat.lt_trichotomy i j with hlt | rfl | hgt
    · exact .inr (leftOf_of_lt hlt)
    · rw [hu] at hw
      cases hw
      rcases h.leftmost q v e' hv hfails with rfl | hleft
      · exact .inl rfl
      · exact .inr (hleft.cons i)
    · obtain ⟨x, hx⟩ := hbefore j w q v hgt hw hv
      rw [hx] at hfails
      cases hfails

/-- A folding that stops does so at the leftmost maximal closed part without a value. -/
theorem exists_leftmostFailure (h : t.fold.failure = some e) : ∃ p s, t.LeftmostFailure p s e := by
  have hclosed (t : Tree K) (hcompound : t.isCompound = true) (ht : t.isClosed = true)
      (h : t.foldClosed.failure = some e) : ∃ p s, t.LeftmostFailure p s e := by
    rcases t.foldClosed_cases with ⟨x, -, hfold⟩ | ⟨e', heval, hfold⟩
    · rw [hfold] at h
      cases h
    · rw [hfold] at h
      cases h
      exact ⟨[], t, .of_isClosed hcompound ht heval⟩
  fun_induction fold t with
  | case1 => cases h
  | case2 => cases h
  | case3 op left right ht => exact hclosed _ rfl ht h
  | case4 op left right hopen left' e' hleft ihleft =>
    rw [hleft] at ihleft
    obtain ⟨p, s, hs⟩ := ihleft h
    refine ⟨0 :: p, s, .of_operand (Bool.eq_false_iff.2 hopen) rfl hs fun j w q v hj => ?_⟩
    exact absurd hj (Nat.not_lt_zero j)
  | case5 op left right hopen left' hleft ihleft ihright =>
    obtain ⟨p, s, hs⟩ := ihright h
    refine ⟨1 :: p, s, .of_operand (Bool.eq_false_iff.2 hopen) rfl hs fun j w q v hj hw hv => ?_⟩
    -- The left operand was folded to its end, so all of its maximal closed parts have values.
    obtain rfl : j = 0 := Nat.lt_one_iff.1 hj
    cases hw
    have hfolds : left.FoldsTo left.fold.tree := foldsTo_fold (by rw [hleft])
    obtain ⟨x, hx, -⟩ := hfolds.replaced q v hv
    exact ⟨x, hx⟩
  | case6 f arg ht => exact hclosed _ rfl ht h
  | case7 f arg hopen ih =>
    obtain ⟨p, s, hs⟩ := ih h
    refine ⟨0 :: p, s, .of_operand (Bool.eq_false_iff.2 hopen) rfl hs fun j w q v hj => ?_⟩
    exact absurd hj (Nat.not_lt_zero j)

theorem failure_of_isClosed (h : t.isClosed = true) (he : t.evalClosed = .error e) : t.fold.failure = some e := by
  rw [fold_eq_foldClosed h, foldClosed, he]

theorem exists_failure_of_mem_operands (hopen : t.isClosed = false) (hu : u ∈ t.operands)
    (h : u.fold.failure = some e) : ∃ e', t.fold.failure = some e' := by
  cases t with
  | const c => cases hu
  | var name => cases hu
  | binary op left right =>
    have hopen : ¬(left.isClosed && right.isClosed) = true := Bool.eq_false_iff.1 hopen
    cases hleft : left.fold with
    | mk left' failure =>
      cases failure with
      | some e' => exact ⟨e', by rw [fold_binary_failed hopen hleft]⟩
      | none =>
        rcases mem_operands_binary.1 hu with rfl | rfl
        · rw [hleft] at h
          cases h
        · rw [fold_binary hopen hleft]
          exact ⟨e, h⟩
  | call f arg =>
    obtain rfl := mem_operands_call.1 hu
    have hopen : ¬u.isClosed = true := Bool.eq_false_iff.1 hopen
    rw [fold_call hopen]
    exact ⟨e, h⟩

/-- A closed part without a value stops the folding of the whole: it is inside a part that is evaluated early, or it
is met on the way. -/
theorem exists_failure_of_part? (hpart : t.part? p = some s) (hs : s.isClosed = true)
    (he : s.evalClosed = .error e) : ∃ e', t.fold.failure = some e' := by
  induction p generalizing t with
  | nil =>
    cases hpart
    exact ⟨e, failure_of_isClosed hs he⟩
  | cons i p ih =>
    cases hclosed : t.isClosed with
    | true =>
      obtain ⟨e', he'⟩ := exists_error_of_part? hpart he
      exact ⟨e', failure_of_isClosed hclosed he'⟩
    | false =>
      obtain ⟨u, hu, hpart⟩ := part?_cons.1 hpart
      obtain ⟨e', he'⟩ := ih hpart
      exact exists_failure_of_mem_operands hclosed (List.mem_of_getElem? hu) he'

end Tree

end SymbolicCalc
