import SymbolicCalc.Tree.Eval

/-!
# Constant folding

Folding replaces every operator and every call without variables by its value, from the outside inwards
and from the left to the right. It stops at the first part without variables that has no value, and then
leaves the tree as far as it was folded.
-/

namespace SymbolicCalc

/-- What is left of a tree after folding. -/
structure Folding (K : Type) where
  /-- The tree, as far as it was folded. -/
  tree : Tree K
  /-- Why folding stopped before its end, if it did. -/
  failure : Option (EvalError K)

/-- Puts the folded tree into its surroundings. -/
def Folding.map {K : Type} (wrap : Tree K → Tree K) (folding : Folding K) : Folding K :=
  ⟨wrap folding.tree, folding.failure⟩

namespace Tree

variable {K : Type} [Arithmetic K]

/-- Folds a tree without variables into its value. -/
def foldClosed (t : Tree K) : Folding K :=
  match t.evalClosed with
  | .ok value => ⟨.const value, none⟩
  | .error e => ⟨t, some e⟩

/-- Folds the parts of a tree that have no variables. -/
def fold : Tree K → Folding K
  | .const value => ⟨.const value, none⟩
  | .var name => ⟨.var name, none⟩
  | .binary op left right =>
    if left.isClosed && right.isClosed then foldClosed (.binary op left right)
    else
      match left.fold with
      | ⟨left', some e⟩ => ⟨.binary op left' right, some e⟩
      | ⟨left', none⟩ => right.fold.map (.binary op left')
  | .call f arg =>
    if arg.isClosed then foldClosed (.call f arg)
    else arg.fold.map (.call f)

/-- The folded tree, if folding comes to its end. -/
def simplified (t : Tree K) : Except (EvalError K) (Tree K) :=
  match t.fold with
  | ⟨t', none⟩ => .ok t'
  | ⟨_, some e⟩ => .error e

end Tree

end SymbolicCalc
