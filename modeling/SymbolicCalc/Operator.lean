/-!
# Binary operators

The six operators of an expression and their tiers. An operator of a lower tier binds more loosely, so
`a + b * c` is a sum; operators of one tier group to the left.
-/

namespace SymbolicCalc

/-- A binary operator. -/
inductive Operator
  | add
  | sub
  | mul
  | div
  /-- Remainder of the truncated quotient. -/
  | mod
  | pow
deriving DecidableEq, Repr

namespace Operator

/-- Every operator. -/
def all : List Operator :=
  [add, sub, mul, div, mod, pow]

/-- The character that an operator is written with. -/
def symbol : Operator → Char
  | add => '+'
  | sub => '-'
  | mul => '*'
  | div => '/'
  | mod => '%'
  | pow => '^'

/-- The tier of an operator: one for sums, two for products, three for powers. -/
def tier : Operator → Nat
  | add | sub => 1
  | mul | div | mod => 2
  | pow => 3

/-- The operator that is written with the given character. -/
def ofSymbol? (c : Char) : Option Operator :=
  all.find? fun op => op.symbol = c

/-- The operator whose symbol is the given text. -/
def ofText? (text : String) : Option Operator :=
  all.find? fun op => String.singleton op.symbol = text

@[simp] theorem ofSymbol?_symbol (op : Operator) : ofSymbol? op.symbol = some op := by
  cases op <;> rfl

theorem ofSymbol?_eq_some {c : Char} {op : Operator} (h : ofSymbol? c = some op) :
    op.symbol = c := by
  simpa using List.find?_some h

@[simp] theorem ofText?_symbol (op : Operator) : ofText? (String.singleton op.symbol) = some op := by
  cases op <;> decide

theorem ofText?_eq_some_iff {text : String} {op : Operator} :
    ofText? text = some op ↔ text = String.singleton op.symbol := by
  constructor
  · intro h
    have hsymbol := List.find?_some h
    exact (of_decide_eq_true hsymbol).symm
  · rintro rfl
    exact ofText?_symbol op

theorem ofText?_eq_none_iff {text : String} :
    ofText? text = none ↔ ∀ op : Operator, text ≠ String.singleton op.symbol := by
  simp only [Option.eq_none_iff_forall_ne_some, ne_eq, ofText?_eq_some_iff]

end Operator

end SymbolicCalc
