import PostfixAutomata.Allocation
import PostfixAutomata.Label
import Std.Data.ExtTreeMap

set_option autoImplicit false

/-!
The store that deterministic and nondeterministic automata share. Transitions are kept by rows, one
for each state. Whoever mentions a state adds it: no operation here refers to a state that the
result does not contain, and every symbol that labels a transition joins the alphabet.
-/

namespace PostfixAutomata

/-- A row of a transition table: what leaves one state, under labels of type `Λ`. -/
class TransitionRow (ρ : Type) (Λ : outParam Type) where
  /-- A row without transitions. -/
  blank : ρ
  /-- Adds a transition to a row, by the rule of the kind of automaton. -/
  link : ρ → Λ → State → ρ
  /-- All transitions of a row, by label and then by destination. -/
  edges : ρ → List (Λ × State)
  /-- The symbol that a label reads. -/
  symbol? : Λ → Option Char

/-- A finite automaton with rows of type `ρ`. -/
structure Automaton (ρ : Type) where
  ids : AllocatorId
  start : Option State := none
  states : StateSet := ∅
  finals : StateSet := ∅
  alphabet : Alphabet := ∅
  rows : Std.ExtTreeMap State ρ := ∅

namespace Automaton

variable {ρ Λ : Type} [TransitionRow ρ Λ]

open TransitionRow

/-- An automaton without states. -/
def empty (ids : AllocatorId) : Automaton ρ := { ids }

def size (A : Automaton ρ) : Nat := A.states.size

/-- What leaves a state; nothing leaves a state that the automaton does not contain. -/
def row (A : Automaton ρ) (s : State) : ρ := A.rows.getD s blank

/-- The number of destinations of a state, over all labels. -/
def outDegree (A : Automaton ρ) (s : State) : Nat := (edges (A.row s)).length

/-- All transitions, by state, then by label, then by destination. -/
def edgeList (A : Automaton ρ) : List (State × Λ × State) :=
  A.rows.toList.flatMap fun (s, row) => (edges row).map (s, ·)

/-- Adds a state with an empty row. A state that is there already keeps its row. -/
def insertState (A : Automaton ρ) (s : State) : Automaton ρ :=
  { A with states := A.states.insert s, rows := A.rows.insertIfNew s blank }

def insertSymbol (A : Automaton ρ) (c : Char) : Automaton ρ :=
  { A with alphabet := A.alphabet.insert c }

def setStart (A : Automaton ρ) (s : State) : Automaton ρ :=
  { A.insertState s with start := some s }

/-- Makes a state final, or takes that from it. The state itself stays. -/
def setFinal (A : Automaton ρ) (s : State) (accept : Bool) : Automaton ρ :=
  { A.insertState s with
    finals := if accept then A.finals.insert s else A.finals.erase s }

/-- Adds a transition together with its two ends and its symbol. -/
def insertTransition (A : Automaton ρ) (p : State) (l : Λ) (q : State) : Automaton ρ :=
  let A := (A.insertState p).insertState q
  { A with
    alphabet := A.alphabet.insertMany (symbol? ρ l).toList
    rows := A.rows.insert p (link (A.row p) l q) }

def insertStates (A : Automaton ρ) (states : List State) : Automaton ρ :=
  states.foldl insertState A

def insertSymbols (A : Automaton ρ) (symbols : List Char) : Automaton ρ :=
  symbols.foldl insertSymbol A

def insertTransitions (A : Automaton ρ) (edges : List (State × Λ × State)) : Automaton ρ :=
  edges.foldl (fun A (p, l, q) => A.insertTransition p l q) A

/-- Adds a state that the caller names, and keeps it from being issued. -/
def addState (A : Automaton ρ) (s : State) : Alloc (Automaton ρ) := do
  Alloc.observe s
  return A.insertState s

/-- Makes a state that the caller names the start. -/
def markStart (A : Automaton ρ) (s : State) : Alloc (Automaton ρ) := do
  Alloc.observe s
  return A.setStart s

/-- Makes a state that the caller names final, or takes that from it. -/
def markFinal (A : Automaton ρ) (s : State) (accept : Bool) : Alloc (Automaton ρ) := do
  Alloc.observe s
  return A.setFinal s accept

/-- Adds a transition between two states that the caller names. -/
def addTransition (A : Automaton ρ) (p : State) (l : Λ) (q : State) : Alloc (Automaton ρ) := do
  Alloc.observe p
  Alloc.observe q
  return A.insertTransition p l q

/-- Adds a fresh state. -/
def newState (A : Automaton ρ) : Alloc (State × Automaton ρ) := do
  let s ← Alloc.fresh
  return (s, A.insertState s)

end Automaton

end PostfixAutomata
