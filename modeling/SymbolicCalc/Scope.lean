import SymbolicCalc.NameMap
import SymbolicCalc.Numeric.Doubles
import SymbolicCalc.Numeric.Text
import SymbolicCalc.Text.Lowercase

/-!
# Names that an expression may use

The scope of an expression holds the built-in constants and the declared variables, each under its name in
lower case. A variable hides a constant of the same name. A word that starts with a digit or a point is a
number and is never looked up as a name.
-/

namespace SymbolicCalc

/-- What a name stands for. -/
inductive Meaning
  | const (value : Binary64)
  | var
deriving DecidableEq, Repr

/-- The names in scope with their meanings. -/
abbrev Scope := NameMap Meaning

namespace Scope

/-- The scope of the built-in constants. -/
def builtin : Scope :=
  .ofList [("e", .const Binary64.euler), ("pi", .const Binary64.pi)]

/-- The scope with one more variable. -/
def declare (scope : Scope) (name : String) : Scope :=
  scope.insert (Text.lowercase name) .var

/-- The scope of the built-in constants and the given variables. -/
def ofVariables (names : List String) : Scope :=
  names.foldl declare builtin

/-- Whether a word that starts with the character is read as a number. -/
def startsNumber (c : Char) : Bool :=
  c.isDigit || c = '.'

/-- What a word in lower case stands for. -/
def meaning? (scope : Scope) (word : String) : Option Meaning :=
  match word.toList with
  | [] => none
  | c :: cs =>
    if startsNumber c then (Number.read (c :: cs)).toOption.map .const
    else scope.get? word

/-! ## Laws -/

theorem get?_declare (scope : Scope) (name other : String) :
    (scope.declare name).get? other =
      if other = Text.lowercase name then some .var else scope.get? other :=
  NameMap.get?_insert scope _ _ _

/-- A name is in scope as a variable if it is declared, and means a built-in constant if it is one and is not
declared. -/
theorem get?_ofVariables (names : List String) (word : String) :
    (ofVariables names).get? word =
      if word ∈ names.map Text.lowercase then some .var else builtin.get? word := by
  have hfold (names : List String) (scope : Scope) :
      (names.foldl declare scope).get? word =
        if word ∈ names.map Text.lowercase then some .var else scope.get? word := by
    induction names generalizing scope with
    | nil => rfl
    | cons name names ih =>
      rw [List.foldl_cons, ih, get?_declare, List.map_cons]
      by_cases hrest : word ∈ names.map Text.lowercase
      · rw [if_pos hrest, if_pos (List.mem_cons_of_mem _ hrest)]
      · rw [if_neg hrest]
        by_cases hname : word = Text.lowercase name
        · rw [if_pos hname, if_pos (List.mem_cons.2 (.inl hname))]
        · rw [if_neg hname, if_neg (by rw [List.mem_cons, not_or]; exact ⟨hname, hrest⟩)]
  exact hfold names builtin

/-- A word that starts a number means the same in every scope. -/
theorem meaning?_of_startsNumber {word : String} {c : Char} {cs : List Char}
    (hword : word.toList = c :: cs) (hc : startsNumber c = true) (scope : Scope) :
    scope.meaning? word = (Number.read (c :: cs)).toOption.map .const := by
  simp [meaning?, hword, hc]

/-- A word that starts no number means what the scope says. -/
theorem meaning?_of_not_startsNumber {word : String} {c : Char} {cs : List Char}
    (hword : word.toList = c :: cs) (hc : startsNumber c = false) (scope : Scope) :
    scope.meaning? word = scope.get? word := by
  simp [meaning?, hword, hc]

end Scope

end SymbolicCalc
