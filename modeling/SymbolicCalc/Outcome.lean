/-!
# Steps that may fail

A computation of several steps succeeds if every step does, so its result is taken apart step by step. Two
computations are compared in the same way: if their steps correspond, one by one, so do their results.
-/

namespace SymbolicCalc

variable {ε ε' α α' β β' : Type}

theorem bind_eq_ok {m : Except ε α} {k : α → Except ε β} {b : β} :
    m >>= k = .ok b ↔ ∃ a, m = .ok a ∧ k a = .ok b := by
  cases m with
  | error e => simp [bind, Except.bind]
  | ok a => simp [bind, Except.bind]

/-- The error of a chain is the error of its first step that fails. -/
theorem bind_eq_error {m : Except ε α} {k : α → Except ε β} {e : ε} :
    m >>= k = .error e ↔ m = .error e ∨ ∃ a, m = .ok a ∧ k a = .error e := by
  cases m with
  | error e' => simp [bind, Except.bind]
  | ok a => simp [bind, Except.bind]

/-- The last step of a chain may be one that cannot fail. -/
theorem bind_pure_eq_ok {m : Except ε α} {f : α → β} {b : β} :
    (do return f (← m)) = .ok b ↔ ∃ a, m = .ok a ∧ f a = b := by
  simp [bind_eq_ok, pure, Except.pure]

theorem bind_pure_eq_error {m : Except ε α} {f : α → β} {e : ε} :
    (do return f (← m)) = .error e ↔ m = .error e := by
  simp [bind_eq_error, pure, Except.pure]

theorem mapError_eq_ok {m : Except ε α} {f : ε → ε'} {a : α} : m.mapError f = .ok a ↔ m = .ok a := by
  cases m with
  | error e => exact ⟨nofun, nofun⟩
  | ok a' =>
    show Except.ok a' = .ok a ↔ _
    simp

theorem mapError_eq_error {m : Except ε α} {f : ε → ε'} {e : ε'} :
    m.mapError f = .error e ↔ ∃ cause, m = .error cause ∧ f cause = e := by
  cases m with
  | error cause =>
    show Except.error (f cause) = .error e ↔ _
    simp
  | ok a => exact ⟨nofun, nofun⟩

theorem map_eq_ok {m : Except ε α} {f : α → β} {b : β} : m.map f = .ok b ↔ ∃ a, m = .ok a ∧ f a = b := by
  cases m with
  | error e => simp [Except.map]
  | ok a => simp [Except.map]

theorem map_eq_error {m : Except ε α} {f : α → β} {e : ε} : m.map f = .error e ↔ m = .error e := by
  cases m with
  | error e' => simp [Except.map]
  | ok a => simp [Except.map]

/-! ## Results that correspond -/

/-- Two results that are both values or both errors, and correspond. -/
inductive Corresponds (E : ε → ε → Prop) (R : α → β → Prop) : Except ε α → Except ε β → Prop
  | ok {a : α} {b : β} (h : R a b) : Corresponds E R (.ok a) (.ok b)
  | error {e e' : ε} (h : E e e') : Corresponds E R (.error e) (.error e')

namespace Corresponds

variable {E : ε → ε → Prop} {R : α → β → Prop} {S : α' → β' → Prop} {m : Except ε α} {m' : Except ε β}

theorem of_eq [Std.Refl E] {m' : Except ε α} (h : m = m') : Corresponds E Eq m m' := by
  subst h
  cases m with
  | error e => exact .error (Std.Refl.refl e)
  | ok a => exact .ok rfl

theorem bind {k : α → Except ε α'} {k' : β → Except ε β'} (h : Corresponds E R m m')
    (hnext : ∀ a b, R a b → Corresponds E S (k a) (k' b)) : Corresponds E S (m >>= k) (m' >>= k') := by
  cases h with
  | ok hab => exact hnext _ _ hab
  | error he => exact .error he

/-- Steps with the same value may be followed by steps that correspond for this value. -/
theorem bind_same {m' : Except ε α} {k : α → Except ε α'} {k' : α → Except ε β'} (h : Corresponds E Eq m m')
    (hnext : ∀ a, m = .ok a → Corresponds E S (k a) (k' a)) : Corresponds E S (m >>= k) (m' >>= k') := by
  cases h with
  | @ok a b hab =>
    subst hab
    exact hnext a rfl
  | error he => exact .error he

theorem map {f : α → α'} {g : β → β'} (h : Corresponds E R m m') (hfg : ∀ a b, R a b → S (f a) (g b)) :
    Corresponds E S (m.map f) (m'.map g) := by
  cases h with
  | ok hab => exact .ok (hfg _ _ hab)
  | error he => exact .error he

theorem mapError {E' : ε' → ε' → Prop} {wrap : ε → ε'} (h : Corresponds E R m m')
    (hwrap : ∀ e e', E e e' → E' (wrap e) (wrap e')) : Corresponds E' R (m.mapError wrap) (m'.mapError wrap) := by
  cases h with
  | ok hab => exact .ok hab
  | error he => exact .error (hwrap _ _ he)

theorem eq_ok_iff {m' : Except ε α} {a : α} (h : Corresponds E Eq m m') : m = .ok a ↔ m' = .ok a := by
  cases h with
  | ok hab => rw [hab]
  | error he => exact ⟨nofun, nofun⟩

/-- Results with the same value are equal up to what makes their errors correspond. -/
theorem mapError_eq {m' : Except ε α} {view : ε → ε'} (h : Corresponds E Eq m m')
    (hview : ∀ e e', E e e' → view e = view e') : m.mapError view = m'.mapError view := by
  cases h with
  | ok hab => rw [hab]
  | error he => exact congrArg Except.error (hview _ _ he)

end Corresponds

end SymbolicCalc
