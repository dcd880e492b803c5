import PostfixAutomata.Nfa

set_option autoImplicit false

/-!
Deterministic automata. The transition function may be partial: where it is not defined, an input
is rejected.
-/

namespace PostfixAutomata

/-- The destination of one state on each symbol that it can read. -/
abbrev Dfa.Row := Std.ExtTreeMap Char State

namespace Dfa.Row

instance : TransitionRow Dfa.Row Char where
  blank := ∅
  link r c q := r.insert c q
  edges r := r.toList
  symbol? := some

end Dfa.Row

/-- A deterministic finite automaton, possibly partial. -/
abbrev Dfa := Automaton Dfa.Row

namespace Dfa

/-- Where a state goes on a symbol, if anywhere. -/
def target? (D : Dfa) (p : State) (c : Char) : Option State := (D.row p)[c]?

/-- Where a state goes on an input, if the automaton can read all of it. -/
def runFrom (D : Dfa) (p : State) : List Char → Option State
  | [] => some p
  | c :: input => (D.target? p c).bind (D.runFrom · input)

/-- Whether an input leads from the start to a final state. -/
def accepts (D : Dfa) (input : List Char) : Bool :=
  (D.start.bind (D.runFrom · input)).any (D.finals.contains ·)

/-- An entry of the report: a state, a symbol and the destination. -/
def entry (p : State) (c : Char) (q : State) : String :=
  " (" ++ p.text ++ " " ++ String.singleton c ++ " " ++ q.text ++ ")"

def report (D : Dfa) : String :=
  D.reportWith fun p row => row.toList.map fun (c, q) => entry p c q

/-- The same automaton read as a nondeterministic one, with the same states and counter. -/
def toNfa (D : Dfa) : Nfa :=
  let linked := ((Automaton.empty D.ids : Nfa).insertStates D.states.toList).insertTransitions
    (D.edgeList.map fun (p, c, q) => (p, .symbol c, q))
  { linked.insertSymbols D.alphabet.toList with start := D.start, finals := D.finals }

theorem runFrom_append (D : Dfa) (p : State) (input rest : List Char) :
    D.runFrom p (input ++ rest) = (D.runFrom p input).bind (D.runFrom · rest) := by
  induction input generalizing p with
  | nil => rfl
  | cons c input ih => cases reached : D.target? p c <;> simp [runFrom, reached, ih]

theorem accepts_of_start_eq_none {D : Dfa} (missing : D.start = none) (input : List Char) :
    D.accepts input = false := by
  simp [accepts, missing]

end Dfa

end PostfixAutomata
