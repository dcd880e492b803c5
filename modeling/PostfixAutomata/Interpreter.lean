import PostfixAutomata.Interpreter.Command
import PostfixAutomata.Interpreter.Sink
import PostfixAutomata.Machine
import PostfixAutomata.Text.Blank
import PostfixAutomata.Text.Lines

set_option autoImplicit false

/-!
A stack machine that reads words in postfix order. A word pushes an automaton, replaces the topmost
ones by a new one, or asks about the topmost one and writes the answer. A word that fails leaves
the stack and the counter as they are.
-/

namespace PostfixAutomata

/-- What may go wrong with a word or with the text around it. -/
inductive Fault
  /-- A word needs more automata than there are. -/
  | underflow (word : String) (needed : Nat)
  /-- A line is no UTF-8 text. -/
  | undecodable
  /-- The output does not fit. -/
  | sinkFull
deriving DecidableEq

def Fault.message : Fault → String
  | underflow word needed =>
    "\"" ++ word ++ "\" needs " ++ toString needed ++ " automata on the stack"
  | undecodable => "stream did not contain valid UTF-8"
  | sinkFull => "failed to write whole buffer"

/-- Whether further words are read. -/
inductive Flow
  | proceed
  | done
deriving DecidableEq

structure Interpreter where
  /-- The counter that all automata of the interpreter draw from. -/
  ids : AllocatorId := ⟨0⟩
  counter : Counter := {}
  /-- The automata, the topmost first. -/
  stack : List Machine := []

namespace Interpreter

/-- What a word comes to: a text to write, the interpreter after it and whether to go on. -/
structure Effect where
  text : String := ""
  next : Interpreter
  flow : Flow := .proceed

/-- Asks about the topmost automaton. -/
def answer (i : Interpreter) (word : String) (question : Machine → Except Defect String) :
    Except Defect (Except Fault Effect) :=
  match i.stack with
  | [] => .ok (.error (.underflow word 1))
  | top :: _ => do
    let text ← question top
    return .ok { text, next := i }

/-- Puts an automaton in the place of the topmost one. -/
def replace (i : Interpreter) (word : String) (change : Machine → Alloc Machine) :
    Except Defect (Except Fault Effect) :=
  match i.stack with
  | [] => .ok (.error (.underflow word 1))
  | top :: rest => do
    let (m, counter) ← (change top).run i.counter
    return .ok { next := { i with counter, stack := m :: rest } }

/-- Puts an automaton in the place of the two topmost ones, of which the lower is the first. -/
def combine (i : Interpreter) (word : String) (operator : Nfa → Nfa → Alloc Nfa) :
    Except Defect (Except Fault Effect) :=
  match i.stack with
  | second :: first :: rest => do
    let (A, counter) ← (operator first.toNfa second.toNfa).run i.counter
    return .ok { next := { i with counter, stack := .nfa A :: rest } }
  | _ => .ok (.error (.underflow word 2))

/-- Puts an automaton on top. -/
def push (i : Interpreter) (build : Alloc Nfa) : Except Defect (Except Fault Effect) := do
  let (A, counter) ← build.run i.counter
  return .ok { next := { i with counter, stack := .nfa A :: i.stack } }

/-- The line that lists inputs, each in double quotes and followed by a space. -/
def listing (inputs : List (List Char)) : String :=
  String.join (inputs.map fun input => "\"" ++ String.ofList input ++ "\" ") ++ "\n"

/-- The line that tells whether an input is accepted. -/
def verdict (input : List Char) (accepted : Bool) : String :=
  (if accepted then "Accept " else "Reject ") ++ String.ofList input ++ "\n"

/-- Carries out the command of a word. -/
def perform (i : Interpreter) (word : String) : Command → Except Defect (Except Fault Effect)
  | .done => .ok (.ok { next := i, flow := .done })
  | .size => i.answer word fun m => .ok (toString m.size ++ "\n")
  | .print => i.answer word fun m => .ok (m.report ++ "\n")
  | .statistics => i.answer word fun m => do return (← m.statistics.text) ++ "\n"
  | .determinize => i.replace word fun m => .dfa <$> m.toDfa
  | .complement => i.replace word fun m => .dfa <$> m.complement
  | .generate bound => i.answer word fun m => listing <$> m.words bound
  | .test input => i.answer word fun m => verdict input <$> m.accepts input
  | .literal l => i.push (Nfa.literal i.ids l)
  | .star => i.replace word fun m => .nfa <$> m.toNfa.star
  | .union => i.combine word Nfa.union
  | .concat => i.combine word Nfa.concat
  | .unknown => .ok (.ok { text := "Ignoring " ++ word ++ "\n", next := i })

/-- The remark on a word, if its reading is an illegal one. -/
def remark (word : String) (illegal : Bool) : String :=
  if illegal then "Illegal syntax for: " ++ word ++ "\n" else ""

/-- Where things stand after some words. -/
structure Outcome (α : Type) where
  result : Except Fault α
  interpreter : Interpreter
  sink : Sink

/-- Executes one word: first its remark is written, then the command is carried out, and last its
text is written. -/
def execute (i : Interpreter) (sink : Sink) (word : String) : Except Defect (Outcome Flow) :=
  let (command, illegal) := Command.read word.toList
  match sink.write (remark word illegal) with
  | (sink, false) => .ok ⟨.error .sinkFull, i, sink⟩
  | (sink, true) => do
    match ← i.perform word command with
    | .error fault => return ⟨.error fault, i, sink⟩
    | .ok effect =>
      match sink.write effect.text with
      | (sink, false) => return ⟨.error .sinkFull, effect.next, sink⟩
      | (sink, true) => return ⟨.ok effect.flow, effect.next, sink⟩

/-- Executes words one after another, whatever comes of each. The sink of an outcome holds what its
own word wrote; its room is shared by all. -/
def executeEach (i : Interpreter) (sink : Sink) :
    List String → Except Defect (List (Outcome Flow))
  | [] => .ok []
  | word :: rest => do
    let outcome ← i.execute sink.drained word
    let later ← outcome.interpreter.executeEach outcome.sink rest
    return outcome :: later

/-- Executes words until one fails or ends the run. -/
def executeAll (i : Interpreter) (sink : Sink) : List String → Except Defect (Outcome Flow)
  | [] => .ok ⟨.ok .proceed, i, sink⟩
  | word :: rest => do
    let outcome ← i.execute sink word
    match outcome.result with
    | .ok .proceed => outcome.interpreter.executeAll outcome.sink rest
    | _ => return outcome

/-- The words of a text. -/
def wordsOf (text : String) : List String := (Text.words text.toList).map String.ofList

/-- Executes the words of some lines, decoding each line before its words. -/
def runLines (i : Interpreter) (sink : Sink) : List (List UInt8) → Except Defect (Outcome Flow)
  | [] => .ok ⟨.ok .proceed, i, sink⟩
  | line :: rest =>
    match Text.decode? line with
    | none => .ok ⟨.error .undecodable, i, sink⟩
    | some text => do
      let outcome ← i.executeAll sink (wordsOf text)
      match outcome.result with
      | .ok .proceed => outcome.interpreter.runLines outcome.sink rest
      | _ => return outcome

/-- Reads input to its end, to the first failure or to the word that ends the run. -/
def run (i : Interpreter) (sink : Sink) (input : List UInt8) : Except Defect (Outcome Flow) :=
  i.runLines sink (Text.lines input)

end Interpreter

end PostfixAutomata
