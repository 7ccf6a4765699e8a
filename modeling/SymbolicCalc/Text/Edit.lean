/-!
# Texts one edit apart

Two texts are one edit apart if one becomes the other by inserting, deleting or replacing a single
character. A name that is at most one edit away from an unknown word is a likely misspelling of it.
-/

namespace SymbolicCalc.Text

/-- Whether at most one edit leads from one text to the other. Equal first characters are matched with
each other, which never costs an edit; at the first difference the rests have to be equal. -/
def withinOneEdit : List Char → List Char → Bool
  | [], [] => true
  | [], _ :: bs => bs.isEmpty
  | _ :: as, [] => as.isEmpty
  | a :: as, b :: bs =>
    if a = b then withinOneEdit as bs
    else as == bs || as == b :: bs || a :: as == bs

end SymbolicCalc.Text
