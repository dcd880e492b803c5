import PostfixAutomata.CommandLine

set_option autoImplicit false

/-!
The program: it reads the source that its arguments name and runs it.
-/

namespace PostfixAutomata

namespace CommandLine

/-- Opens a path. A directory fails only when it is read, and then no name comes with the error.
What is there but cannot be opened counts as missing. -/
def openPath (path : String) : IO (Except OpenError Node) := do
  match ← (IO.FS.readBinFile path).toBaseIO with
  | .ok content => return .ok (.file content.toList)
  | .error (.inappropriateType none ..) => return .ok .directory
  | .error (.inappropriateType (some _) ..) => return .error .notADirectory
  | .error _ => return .error .notFound

/-- Ends the program. -/
def finish (exit : Exit) : IO UInt32 := do
  (← IO.getStdout).write exit.output
  if let some complaint := exit.complaint then IO.eprintln complaint
  return exit.code.toUInt32

end CommandLine

end PostfixAutomata

open PostfixAutomata in
def main (arguments : List String) : IO UInt32 := do
  match CommandLine.source? arguments with
  | none =>
    IO.eprintln "usage: postfix-automata [FILE]"
    CommandLine.finish CommandLine.misuse
  | some .standardInput =>
    CommandLine.finish (CommandLine.interpret (← (← IO.getStdin).readBinToEnd).toList)
  | some (.file path) =>
    CommandLine.finish (CommandLine.interpretFile path (← CommandLine.openPath path))
