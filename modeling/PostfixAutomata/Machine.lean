import PostfixAutomata.Dfa.Complement
import PostfixAutomata.Dfa.Words
import PostfixAutomata.Nfa.Determinization
import PostfixAutomata.Nfa.Operators

set_option autoImplicit false

/-!
An automaton of either kind, with the questions and conversions that do not depend on the kind.
-/

namespace PostfixAutomata

inductive Machine
  | nfa (A : Nfa)
  | dfa (D : Dfa)

namespace Machine

def ids : Machine → AllocatorId
  | nfa A => A.ids
  | dfa D => D.ids

def states : Machine → StateSet
  | nfa A => A.states
  | dfa D => D.states

def start : Machine → Option State
  | nfa A => A.start
  | dfa D => D.start

def finals : Machine → StateSet
  | nfa A => A.finals
  | dfa D => D.finals

def alphabet : Machine → Alphabet
  | nfa A => A.alphabet
  | dfa D => D.alphabet

def outDegree : Machine → State → Nat
  | nfa A => A.outDegree
  | dfa D => D.outDegree

def size : Machine → Nat
  | nfa A => A.size
  | dfa D => D.size

def statistics : Machine → Statistics
  | nfa A => A.statistics
  | dfa D => D.statistics

def report : Machine → String
  | nfa A => A.report
  | dfa D => D.report

def toNfa : Machine → Nfa
  | nfa A => A
  | dfa D => D.toNfa

/-- The deterministic form; new states come from the automaton's own counter. -/
def toDfa : Machine → Alloc Dfa
  | nfa A => A.toDfa
  | dfa D => pure D

/-- The deterministic form for a question. It does not touch the automaton's counter. -/
def scratchDfa : Machine → Except Defect Dfa
  | nfa A => A.scratchDfa
  | dfa D => .ok D

def accepts (m : Machine) (input : List Char) : Except Defect Bool := do
  return (← m.scratchDfa).accepts input

def words (m : Machine) (bound : Nat) : Except Defect (List (List Char)) := do
  return (← m.scratchDfa).words bound

def complement (m : Machine) : Alloc Dfa := do
  (← m.toDfa).complement

end Machine

end PostfixAutomata
