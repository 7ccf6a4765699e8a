import SymbolicCalc.Outcome
import SymbolicCalc.Tree.Eval

/-!
# Positions in trees

A position leads from the root of a tree to one of its parts: it lists, step by step, the number of the operand to
go into. Of two parts that lie beside each other, one is further to the left. The same part may stand at several
positions.

The variables of a part are variables of the tree, and a tree has a value only if its parts have values, since
evaluation takes every operand before the operator.
-/

namespace SymbolicCalc

namespace Tree

variable {K : Type} {t s u left right arg : Tree K} {op : Operator} {f : Elementary} {i : Nat} {p q : List Nat}
  {name : String}

/-! ## Operands and parts -/

/-- The operands of a tree, from the left to the right. -/
def operands : Tree K → List (Tree K)
  | .const _ => []
  | .var _ => []
  | .binary _ left right => [left, right]
  | .call _ arg => [arg]

/-- What stands at the root of a tree. -/
inductive Root (K : Type)
  | const (value : K)
  | var (name : String)
  | binary (op : Operator)
  | call (f : Elementary)

/-- What stands at the root of the tree. -/
def root : Tree K → Root K
  | .const value => .const value
  | .var name => .var name
  | .binary op _ _ => .binary op
  | .call f _ => .call f

/-- Whether the tree is an operator or a call. -/
def isCompound : Tree K → Bool
  | .const _ => false
  | .var _ => false
  | .binary _ _ _ => true
  | .call _ _ => true

/-- The part of the tree at a position. -/
def part? (t : Tree K) : List Nat → Option (Tree K)
  | [] => some t
  | i :: p => t.operands[i]?.bind fun operand => operand.part? p

/-- The position `p` is further to the left than `q`: where their ways part, it goes into an earlier operand. -/
def LeftOf (p q : List Nat) : Prop :=
  ∃ common i j p' q', p = common ++ i :: p' ∧ q = common ++ j :: q' ∧ i < j

@[simp] theorem part?_nil (t : Tree K) : t.part? [] = some t := rfl

theorem part?_cons : t.part? (i :: p) = some s ↔ ∃ u, t.operands[i]? = some u ∧ u.part? p = some s :=
  Option.bind_eq_some_iff

theorem mem_operands_binary : u ∈ (binary op left right).operands ↔ u = left ∨ u = right := by
  rw [operands, List.mem_cons, List.mem_singleton]

theorem mem_operands_call : u ∈ (call f arg).operands ↔ u = arg :=
  List.mem_singleton

/-- A tree without operands is its only part. -/
theorem part?_of_operands_eq_nil (h : t.operands = []) : t.part? p = some s ↔ p = [] ∧ s = t := by
  cases p with
  | nil =>
    rw [part?_nil, Option.some.injEq, eq_comm]
    exact (and_iff_right rfl).symm
  | cons i p => simp [part?, h]

theorem leftOf_of_lt {j : Nat} (h : i < j) : LeftOf (i :: p) (j :: q) :=
  ⟨[], i, j, p, q, rfl, rfl, h⟩

theorem LeftOf.cons (i : Nat) (h : LeftOf p q) : LeftOf (i :: p) (i :: q) := by
  obtain ⟨common, j, k, p', q', rfl, rfl, hlt⟩ := h
  exact ⟨i :: common, j, k, p', q', rfl, rfl, hlt⟩

/-- Positions are compared step by step. -/
theorem leftOf_cons {j : Nat} : LeftOf (i :: p) (j :: q) ↔ i < j ∨ i = j ∧ LeftOf p q := by
  constructor
  · rintro ⟨common, k, l, p', q', hp, hq, hlt⟩
    cases common with
    | nil =>
      obtain ⟨rfl, rfl⟩ := List.cons.inj hp
      obtain ⟨rfl, rfl⟩ := List.cons.inj hq
      exact .inl hlt
    | cons step common =>
      obtain ⟨rfl, rfl⟩ := List.cons.inj hp
      obtain ⟨rfl, rfl⟩ := List.cons.inj hq
      exact .inr ⟨rfl, common, k, l, p', q', rfl, rfl, hlt⟩
  · rintro (hlt | ⟨rfl, h⟩)
    · exact leftOf_of_lt hlt
    · exact h.cons i

theorem not_leftOf_nil (p : List Nat) : ¬LeftOf [] p := by
  rintro ⟨common, i, j, p', q', h, -⟩
  simp at h

theorem not_nil_leftOf (p : List Nat) : ¬LeftOf p [] := by
  rintro ⟨common, i, j, p', q', -, h, -⟩
  simp at h

/-- What is inside of a part is to the left of all that the part is to the left of. -/
theorem LeftOf.append_left (h : LeftOf p q) (r : List Nat) : LeftOf (p ++ r) q := by
  obtain ⟨common, i, j, p', q', rfl, rfl, hlt⟩ := h
  exact ⟨common, i, j, p' ++ r, q', by simp, rfl, hlt⟩

theorem LeftOf.asymm (h : LeftOf p q) : ¬LeftOf q p := by
  induction p generalizing q with
  | nil => exact absurd h (not_leftOf_nil q)
  | cons i p ih =>
    cases q with
    | nil => exact absurd h (not_nil_leftOf _)
    | cons j q =>
      rw [leftOf_cons]
      rintro (hlt | ⟨rfl, hqp⟩)
      · rcases leftOf_cons.1 h with hlt' | ⟨rfl, -⟩
        · omega
        · exact Nat.lt_irrefl _ hlt
      · rcases leftOf_cons.1 h with hlt' | ⟨-, hpq⟩
        · exact Nat.lt_irrefl _ hlt'
        · exact ih hpq hqp

theorem not_leftOf_self (p : List Nat) : ¬LeftOf p p :=
  fun h => h.asymm h

theorem part?_append (t : Tree K) (p q : List Nat) :
    t.part? (p ++ q) = (t.part? p).bind fun s => s.part? q := by
  induction p generalizing t with
  | nil => rfl
  | cons i p ih =>
    rw [List.cons_append, part?, part?]
    cases t.operands[i]? with
    | none => rfl
    | some u => exact ih u

/-- Of two trees without operands that stand at different positions, one is to the left of the other. -/
theorem eq_or_leftOf_or_leftOf (hs : s.operands = []) (hu : u.operands = []) (hp : t.part? p = some s)
    (hq : t.part? q = some u) : q = p ∨ LeftOf p q ∨ LeftOf q p := by
  induction p generalizing t q with
  | nil =>
    cases hp
    exact .inl ((part?_of_operands_eq_nil hs).1 hq).1
  | cons i p ih =>
    cases q with
    | nil =>
      cases hq
      cases ((part?_of_operands_eq_nil hu).1 hp).1
    | cons j q =>
      obtain ⟨v, hv, hp⟩ := part?_cons.1 hp
      obtain ⟨w, hw, hq⟩ := part?_cons.1 hq
      rcases Nat.lt_trichotomy i j with hlt | rfl | hlt
      · exact .inr (.inl (leftOf_of_lt hlt))
      · rw [hv] at hw
        cases hw
        rcases ih hp hq with rfl | h | h
        · exact .inl rfl
        · exact .inr (.inl (h.cons i))
        · exact .inr (.inr (h.cons i))
      · exact .inr (.inr (leftOf_of_lt hlt))

/-- A tree is determined by what stands at its positions. -/
theorem eq_of_roots_eq {t' : Tree K} (h : ∀ p, (t.part? p).map root = (t'.part? p).map root) : t = t' := by
  induction t generalizing t' with
  | const c =>
    cases t' <;> cases h []
    rfl
  | var name =>
    cases t' <;> cases h []
    rfl
  | binary op left right ihleft ihright =>
    cases t' <;> cases h []
    next left' right' =>
      obtain rfl := ihleft fun p => h (0 :: p)
      obtain rfl := ihright fun p => h (1 :: p)
      rfl
  | call f arg ih =>
    cases t' <;> cases h []
    next arg' =>
      obtain rfl := ih fun p => h (0 :: p)
      rfl

/-- Every part of the tree has the property. -/
def Everywhere (P : Tree K → Prop) (t : Tree K) : Prop :=
  ∀ p s, t.part? p = some s → P s

variable {P : Tree K → Prop}

theorem everywhere_iff : t.Everywhere P ↔ P t ∧ ∀ u ∈ t.operands, u.Everywhere P := by
  constructor
  · intro h
    refine ⟨h [] t rfl, fun u hu p s hs => ?_⟩
    obtain ⟨i, hi⟩ := List.getElem?_of_mem hu
    exact h (i :: p) s (part?_cons.2 ⟨u, hi, hs⟩)
  · rintro ⟨hself, hoperands⟩ p s hs
    cases p with
    | nil =>
      cases hs
      exact hself
    | cons i p =>
      obtain ⟨u, hu, hs⟩ := part?_cons.1 hs
      exact hoperands u (List.mem_of_getElem? hu) p s hs

theorem everywhere_const {c : K} : (const c).Everywhere P ↔ P (.const c) := by
  simp [everywhere_iff (t := .const c), operands]

theorem everywhere_var : (var name : Tree K).Everywhere P ↔ P (.var name) := by
  simp [everywhere_iff (t := .var name), operands]

theorem everywhere_binary :
    (binary op left right).Everywhere P ↔
      P (.binary op left right) ∧ left.Everywhere P ∧ right.Everywhere P := by
  simp [everywhere_iff (t := .binary op left right), operands]

theorem everywhere_call : (call f arg).Everywhere P ↔ P (.call f arg) ∧ arg.Everywhere P := by
  simp [everywhere_iff (t := .call f arg), operands]

/-! ## Variables -/

theorem dependsOn_of_mem_operands (h : u ∈ t.operands) (hu : u.dependsOn name = true) :
    t.dependsOn name = true := by
  cases t with
  | const c => cases h
  | var other => cases h
  | binary op left right =>
    rw [dependsOn, Bool.or_eq_true]
    rcases mem_operands_binary.1 h with rfl | rfl
    · exact .inl hu
    · exact .inr hu
  | call f arg =>
    obtain rfl := mem_operands_call.1 h
    exact hu

theorem dependsOn_of_part? (h : t.part? p = some s) (hs : s.dependsOn name = true) :
    t.dependsOn name = true := by
  induction p generalizing t with
  | nil =>
    cases h
    exact hs
  | cons i p ih =>
    obtain ⟨u, hu, hpart⟩ := part?_cons.1 h
    exact dependsOn_of_mem_operands (List.mem_of_getElem? hu) (ih hpart)

/-- A tree depends on the names of the variables that stand in it. -/
theorem dependsOn_iff_exists_part? : t.dependsOn name = true ↔ ∃ p, t.part? p = some (.var name) := by
  constructor
  · intro h
    induction t with
    | const c => cases h
    | var other =>
      obtain rfl : other = name := of_decide_eq_true h
      exact ⟨[], rfl⟩
    | binary op left right ihleft ihright =>
      rw [dependsOn, Bool.or_eq_true] at h
      rcases h with h | h
      · obtain ⟨p, hp⟩ := ihleft h
        exact ⟨0 :: p, part?_cons.2 ⟨left, rfl, hp⟩⟩
      · obtain ⟨p, hp⟩ := ihright h
        exact ⟨1 :: p, part?_cons.2 ⟨right, rfl, hp⟩⟩
    | call f arg ih =>
      obtain ⟨p, hp⟩ := ih h
      exact ⟨0 :: p, part?_cons.2 ⟨arg, rfl, hp⟩⟩
  · rintro ⟨p, hp⟩
    exact dependsOn_of_part? hp (decide_eq_true rfl)

/-- A tree that is not closed has a variable. -/
theorem exists_dependsOn (h : t.isClosed = false) : ∃ name, t.dependsOn name = true := by
  induction t with
  | const c => cases h
  | var name => exact ⟨name, decide_eq_true rfl⟩
  | binary op left right ihleft ihright =>
    rw [isClosed, Bool.and_eq_false_iff] at h
    rcases h with h | h
    · obtain ⟨name, hname⟩ := ihleft h
      exact ⟨name, dependsOn_of_mem_operands List.mem_cons_self hname⟩
    · obtain ⟨name, hname⟩ := ihright h
      exact ⟨name, dependsOn_of_mem_operands (List.mem_cons_of_mem left List.mem_cons_self) hname⟩
  | call f arg ih => exact ih h

theorem isSome_get?_collect (t : Tree K) (seen : NameSet) (name : String) :
    ((t.collect seen).get? name).isSome = true ↔ t.dependsOn name = true ∨ (seen.get? name).isSome = true := by
  induction t generalizing seen with
  | const value => simp [dependsOn, collect]
  | var other =>
    by_cases heq : name = other
    · simp [collect, NameSet.add, dependsOn, heq]
    · have hne : ¬ other = name := fun e => heq e.symm
      simp [collect, NameSet.add, dependsOn, heq, hne]
  | binary op left right ihleft ihright =>
    rw [collect, ihright, ihleft, dependsOn, Bool.or_eq_true, or_assoc, or_left_comm]
  | call f arg ih => exact ih seen

/-- The variables that are listed are those that the tree depends on. -/
theorem mem_names_freeVars : name ∈ t.freeVars.names ↔ t.dependsOn name = true := by
  have hcollect := t.isSome_get?_collect .empty name
  rw [NameMap.get?_empty, Option.isSome_none, Bool.false_eq_true, or_false] at hcollect
  rw [← hcollect]
  exact (NameMap.get?_isSome_iff t.freeVars name).symm

/-! ## Values -/

variable [Arithmetic K] {value? : String → Option K} {e : EvalError K}

/-- An operand without a value leaves the whole without a value. -/
theorem exists_error_of_mem_operands (h : u ∈ t.operands) (hu : u.eval value? = .error e) :
    ∃ e', t.eval value? = .error e' := by
  cases t with
  | const c => cases h
  | var name => cases h
  | binary op left right =>
    rcases mem_operands_binary.1 h with rfl | rfl
    · exact ⟨e, bind_eq_error.2 (.inl hu)⟩
    · cases hleft : left.eval value? with
      | error e' => exact ⟨e', bind_eq_error.2 (.inl hleft)⟩
      | ok x => exact ⟨e, bind_eq_error.2 (.inr ⟨x, hleft, bind_eq_error.2 (.inl hu)⟩)⟩
  | call f arg =>
    obtain rfl := mem_operands_call.1 h
    exact ⟨e, bind_eq_error.2 (.inl hu)⟩

theorem exists_error_of_part? (h : t.part? p = some s) (hs : s.eval value? = .error e) :
    ∃ e', t.eval value? = .error e' := by
  induction p generalizing t with
  | nil =>
    cases h
    exact ⟨e, hs⟩
  | cons i p ih =>
    obtain ⟨u, hu, hpart⟩ := part?_cons.1 h
    obtain ⟨e', he'⟩ := ih hpart
    exact exists_error_of_mem_operands (List.mem_of_getElem? hu) he'

/-- A tree has a value only if its parts have values. -/
theorem exists_ok_of_part? {x : K} (h : t.part? p = some s) (ht : t.eval value? = .ok x) :
    ∃ y, s.eval value? = .ok y := by
  cases hs : s.eval value? with
  | ok y => exact ⟨y, rfl⟩
  | error e =>
    obtain ⟨e', he'⟩ := exists_error_of_part? h hs
    rw [ht] at he'
    cases he'

end Tree

end SymbolicCalc
