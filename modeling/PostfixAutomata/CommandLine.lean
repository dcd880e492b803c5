import PostfixAutomata.CommandLine.Directory
import PostfixAutomata.Interpreter

set_option autoImplicit false

/-!
The command line: at most one file name, else standard input, is run by a new interpreter. What was
written before a failure stays written.
-/

namespace PostfixAutomata

namespace CommandLine

/-- Where the input comes from. -/
inductive Source
  | standardInput
  | file (path : String)
deriving DecidableEq

/-- How a run ends: an exit code, the output, and a complaint for the error stream. -/
structure Exit where
  code : UInt8
  output : ByteArray := .empty
  complaint : Option String := none

/-- The names among some arguments, unless one is an option, which there are none of. After two
hyphens every argument is a name. -/
def names? : List String → Option (List String)
  | [] => some []
  | "--" :: rest => some rest
  | argument :: rest =>
    if argument.startsWith "-" ∧ argument ≠ "-" then none
    else (names? rest).map (argument :: ·)

/-- The source that some arguments name, unless they are misused. -/
def source? (arguments : List String) : Option Source :=
  match names? arguments with
  | some [] => some .standardInput
  | some [path] => if path = "" then none else some (.file path)
  | _ => none

def misuse : Exit where
  code := 2

def failure (output : ByteArray) (message : String) : Exit where
  code := 1
  output := output
  complaint := some message

/-- Runs some input. -/
def interpret (input : List UInt8) : Exit :=
  match Interpreter.run {} {} input with
  | .error defect => { code := 101, complaint := some defect.message }
  | .ok outcome =>
    match outcome.result with
    | .ok _ => { code := 0, output := outcome.sink.written }
    | .error fault => failure outcome.sink.written fault.message

/-- Runs what opening a path led to. A directory opens but cannot be read. -/
def interpretFile (path : String) : Except OpenError Node → Exit
  | .error cause => failure .empty ("Failed to open \"" ++ path ++ "\": " ++ cause.message)
  | .ok .directory => failure .empty "Is a directory (os error 21)"
  | .ok (.file content) => interpret content

/-- Runs in a directory. -/
def run (arguments : List String) (input : List UInt8) (directory : Directory) : Exit :=
  match source? arguments with
  | none => misuse
  | some .standardInput => interpret input
  | some (.file path) => interpretFile path (directory.resolve path)

end CommandLine

end PostfixAutomata
