import SymbolicCalc.Calculator

/-!
# Batches

A batch is a text whose lines are run one after the other on one calculator; blank lines are skipped. It
succeeds if every line succeeds, and a line that fails does not stop the lines after it.
-/

namespace SymbolicCalc

/-- The lines of a text; a line feed ends a line. -/
def splitLines : List Char → List (List Char)
  | [] => []
  | c :: cs =>
    if c = '\n' then [] :: splitLines cs
    else
      match splitLines cs with
      | [] => [[c]]
      | line :: lines => (c :: line) :: lines

/-- The lines of a text that hold more than white space. -/
def inputLines (input : String) : List String :=
  ((splitLines input.toList).filter fun line => !Text.allBlank line).map String.ofList

/-- What a batch gives: the result of each of its lines. -/
abbrev BatchResults := List (Except LineError String)

/-- Runs the lines of a batch on a calculator. -/
def Calculator.runBatch (state : Calculator) (input : String) : Calculator × BatchResults :=
  state.runAll (inputLines input)

namespace BatchResults

/-- The lines that a batch prints on the standard output. -/
def printed (results : BatchResults) : List String :=
  results.filterMap Except.toOption

/-- Whether every line of a batch succeeded. -/
def succeeded (results : BatchResults) : Bool :=
  results.all Except.isOk

/-- The exit code of the program after a batch. -/
def exitCode (results : BatchResults) : UInt32 :=
  if results.succeeded then 0 else 1

end BatchResults

/-- The exit code of the program when its input cannot be read. -/
def unreadableCode : UInt32 := 1

end SymbolicCalc
