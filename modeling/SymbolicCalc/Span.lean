/-!
# Places in a source text

A span is a part of a source text, given by two byte offsets into its UTF-8 encoding.
-/

namespace SymbolicCalc

/-- A part of a source text. -/
structure Span where
  /-- The offset of its first byte. -/
  start : Nat
  /-- The offset behind its last byte. -/
  stop : Nat
deriving DecidableEq, Repr

-- The zero of a sum of natural numbers is the literal.
attribute [local instance (high)] Zero.ofOfNat0

/-- The number of bytes that a text takes. -/
def byteLength (cs : List Char) : Nat :=
  (cs.map Char.utf8Size).sum

/-- A place as people count: lines and columns start at one. -/
structure Location where
  line : Nat
  /-- The number of the character within the line. -/
  column : Nat
deriving DecidableEq, Repr

/-- The place of the character at a byte offset, where `here` is the place of the first character. An
offset behind the text is the place after its last character. -/
def Location.advance (here : Location) (offset : Nat) : List Char → Location
  | [] => here
  | c :: cs =>
    if offset = 0 then here
    else if c = '\n' then Location.advance ⟨here.line + 1, 1⟩ (offset - c.utf8Size) cs
    else Location.advance ⟨here.line, here.column + 1⟩ (offset - c.utf8Size) cs

/-- The place of a byte offset in a text. -/
def Location.ofOffset (text : String) (offset : Nat) : Location :=
  Location.advance ⟨1, 1⟩ offset text.toList

end SymbolicCalc
