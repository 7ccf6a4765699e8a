import SymbolicCalc.Arguments
import SymbolicCalc.Batch

/-!
# The program

Reads the arguments and the input, runs the batch, and prints: results on the standard output, errors on
the standard error.
-/

namespace SymbolicCalc

/-- All that is left on a stream. -/
partial def readAll (stream : IO.FS.Stream) (bytes : ByteArray) : IO ByteArray := do
  let more ← stream.read 65536
  if more.isEmpty then return bytes else readAll stream (bytes ++ more)

/-- Prints the explanation of an error. -/
def printError : LineError → IO Unit
  | .usage cause => IO.eprintln cause.message
  | .expression source cause => do
    let d := cause.diagnostic
    IO.eprintln d.headline
    if let some place := d.location? source then
      IO.eprintln s!"  at {place.line}:{place.column} of {quoted source}"
    for label in d.labels do IO.eprintln s!"  {label}"
    if let some help := d.help then IO.eprintln s!"  Help: {help}"

/-- Prints the result of a line. -/
def printResult : Except LineError String → IO Unit
  | .ok output => IO.println output
  | .error e => printError e

/-- Runs the lines of an input that was read to its end. -/
def runInput (state : Calculator) (bytes : ByteArray) : IO UInt32 := do
  match String.fromUTF8? bytes with
  | none =>
    IO.eprintln "error: the input is not valid UTF-8"
    return unreadableCode
  | some input =>
    let (_, results) := state.runBatch input
    results.forM printResult
    return BatchResults.exitCode results

/-- Asks for lines and runs them until there are no more. -/
partial def converse (stdin : IO.FS.Stream) (state : Calculator) : IO UInt32 := do
  IO.print "> "
  (← IO.getStdout).flush
  let line ← stdin.getLine
  if line.isEmpty then return 0
  if Text.allBlank line.toList then converse stdin state
  else
    let (state', result) := state.run line
    printResult result
    converse stdin state'

/-- Runs what the arguments of the program ask for. -/
def runProgram (args : List String) : IO UInt32 := do
  match Invocation.parse args with
  | .error e =>
    IO.eprintln s!"error: {e.message}"
    return refusedCode
  | .ok .version =>
    IO.println Invocation.versionText
    return 0
  | .ok .help =>
    IO.println Invocation.helpText
    return 0
  | .ok (.run bound file?) =>
    let state : Calculator := ⟨.ofList bound⟩
    match file? with
    | some file =>
      match ← (IO.FS.readBinFile file).toBaseIO with
      | .ok bytes => runInput state bytes
      | .error e =>
        IO.eprintln s!"error: could not read {quoted file}: {e}"
        return unreadableCode
    | none =>
      let stdin ← IO.getStdin
      if ← stdin.isTty then converse stdin state else runInput state (← readAll stdin .empty)

end SymbolicCalc

/-- Runs the program with its arguments. -/
def main (args : List String) : IO UInt32 :=
  SymbolicCalc.runProgram args
