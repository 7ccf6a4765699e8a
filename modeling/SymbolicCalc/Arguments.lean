import SymbolicCalc.Diagnostic
import SymbolicCalc.Text.Blank

/-!
# The arguments of the program

Options give values to variables before the first line, and one argument may name the file to run. The
arguments are read in order, and the first one that is refused, or that asks for help or the version,
decides what happens.
-/

namespace SymbolicCalc

/-- Why the argument of a binding option is refused. -/
inductive BindingError
  /-- There is no equals sign in it. -/
  | noEquals (arg : String)
  /-- What is given as the value of a name is not a number. -/
  | badValue (name : String) (cause : Number.ReadError)
deriving DecidableEq, Repr

/-- The message for a refused binding. -/
def BindingError.message : BindingError → String
  | .noEquals arg => s!"expected `name=value`, got {quoted arg}"
  | .badValue name cause => s!"invalid value for {quoted name}: {cause.message}"

/-- Reads a binding, written `name=value` with blanks allowed around both. -/
def readBinding (arg : String) : Except BindingError (String × Binary64) :=
  match Text.cutAt (· = '=') arg.toList with
  | none => .error (.noEquals arg)
  | some (before, after) =>
    let name := String.ofList (Text.trim before)
    match Number.read (Text.trim after) with
    | .ok value => .ok (name, value)
    | .error cause => .error (.badValue name cause)

/-- What the arguments of the program ask for. -/
inductive Invocation
  /-- Run the lines of the file, or of the standard input, with some variables bound. -/
  | run (bound : List (String × Binary64)) (file : Option String)
  | version
  | help

/-- Why the arguments of the program are refused. -/
inductive ArgumentError
  | missingBinding
  | binding (cause : BindingError)
  | unknownOption (arg : String)
  | emptyFile
  | extraFile (arg : String)
deriving DecidableEq, Repr

/-- The message for refused arguments. -/
def ArgumentError.message : ArgumentError → String
  | .missingBinding => "a value is required for the option --var"
  | .binding cause => cause.message
  | .unknownOption arg => s!"unexpected argument {quoted arg}"
  | .emptyFile => "the name of the file is empty"
  | .extraFile arg => s!"unexpected argument {quoted arg}"

namespace Invocation

/-- Whether an argument has the form of an option. A single minus sign has not. -/
def isOption (arg : String) : Bool :=
  match arg.toList with
  | '-' :: _ :: _ => true
  | _ => false

/-- The binding that an argument holds if it is a binding option in one piece. -/
def attachedBinding? (arg : String) : Option String :=
  match arg.toList with
  | '-' :: '-' :: 'v' :: 'a' :: 'r' :: '=' :: rest => some (String.ofList rest)
  | _ => none

/-- Whether an argument asks for the version. The short form may have more letters behind it. -/
def asksVersion (arg : String) : Bool :=
  arg = "--version" || ['-', 'V'].isPrefixOf arg.toList

/-- Whether an argument asks for help. The short form may have more letters behind it. -/
def asksHelp (arg : String) : Bool :=
  arg = "--help" || ['-', 'h'].isPrefixOf arg.toList

/-- The arguments after the one that ends the options: all of them name files. -/
def parseFiles (bound : List (String × Binary64)) (file : Option String) :
    List String → Except ArgumentError Invocation
  | [] => .ok (.run bound file)
  | arg :: args =>
    if file.isSome then .error (.extraFile arg)
    else if arg.isEmpty then .error .emptyFile
    else parseFiles bound (some arg) args

/-- What the arguments ask for that follow those which bound the variables `bound` and named `file`. -/
def parseAfter (bound : List (String × Binary64)) (file : Option String) :
    List String → Except ArgumentError Invocation
  | [] => .ok (.run bound file)
  | "--" :: args => parseFiles bound file args
  | "--var" :: [] => .error .missingBinding
  | "--var" :: arg :: args =>
    if isOption arg then .error .missingBinding
    else
      match readBinding arg with
      | .ok entry => parseAfter (bound ++ [entry]) file args
      | .error cause => .error (.binding cause)
  | arg :: args =>
    if isOption arg then
      match attachedBinding? arg with
      | some text =>
        match readBinding text with
        | .ok entry => parseAfter (bound ++ [entry]) file args
        | .error cause => .error (.binding cause)
      | none =>
        if asksVersion arg then .ok .version
        else if asksHelp arg then .ok .help
        else .error (.unknownOption arg)
    else if file.isSome then .error (.extraFile arg)
    else if arg.isEmpty then .error .emptyFile
    else parseAfter bound (some arg) args

/-- What the arguments of the program ask for. -/
def parse (args : List String) : Except ArgumentError Invocation :=
  parseAfter [] none args

/-- The text that answers a question for the version. -/
def versionText : String :=
  "exprtree 0.1.0"

/-- The text that answers a question for help. -/
def helpText : String :=
  "Usage: exprtree [OPTIONS] [FILE]\n\n" ++
  "Runs FILE line by line, or the standard input when no file is given. Each line is one of:\n\n" ++
  "  name = <expr>       bind the value of <expr> to a variable\n" ++
  "  :d <var> <expr>     print the derivative of <expr> with respect to <var>\n" ++
  "  :s <expr>           print <expr> with its constant parts folded\n" ++
  "  :latex <expr>       print <expr> as LaTeX\n" ++
  "  <expr>              evaluate <expr>\n\n" ++
  "Options:\n" ++
  "      --var <NAME=VALUE>  Bind a variable before running. May be repeated\n" ++
  "  -h, --help              Print help\n" ++
  "  -V, --version           Print version"

end Invocation

/-- The exit code of the program when its arguments are refused. -/
def refusedCode : UInt32 := 2

end SymbolicCalc
