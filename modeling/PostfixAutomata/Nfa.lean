import PostfixAutomata.Automaton.Report
import PostfixAutomata.Automaton.Statistics

set_option autoImplicit false

/-!
Nondeterministic automata with ε-transitions: a state may have any number of destinations under a
label, and further transitions add to them.
-/

namespace PostfixAutomata

/-- The destinations of one state under each label. No set that is stored is empty. -/
abbrev Nfa.Row := Std.ExtTreeMap Label StateSet

namespace Nfa.Row

def destinations (r : Nfa.Row) (l : Label) : StateSet := r.getD l ∅

instance : TransitionRow Nfa.Row Label where
  blank := ∅
  link r l q := r.insert l ((r.destinations l).insert q)
  edges r := r.toList.flatMap fun (l, targets) => targets.toList.map (l, ·)
  symbol? := Label.symbol?

end Nfa.Row

/-- A nondeterministic finite automaton with ε-transitions. -/
abbrev Nfa := Automaton Nfa.Row

namespace Nfa

/-- The destinations of a state under a label, if there are any. -/
def targets? (A : Nfa) (p : State) (l : Label) : Option StateSet := (A.row p)[l]?

/-- The destinations of a state under a label. -/
def targets (A : Nfa) (p : State) (l : Label) : StateSet := (A.targets? p l).getD ∅

/-- An entry of the report: the state, the label and all its destinations. -/
def entry (p : State) (l : Label) (targets : StateSet) : String :=
  " (" ++ p.text ++ " " ++ l.text ++ " ["
    ++ String.intercalate ", " (targets.toList.map State.text) ++ "])"

def report (A : Nfa) : String :=
  A.reportWith fun p row => row.toList.map fun (l, targets) => entry p l targets

end Nfa

end PostfixAutomata
